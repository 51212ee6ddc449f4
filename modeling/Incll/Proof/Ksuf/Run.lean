import Incll.Lib.Machine
import Incll.Proof.Ksuf.Fields
import Incll.Proof.Layers.LeafSplit
import Incll.Proof.Leaf.Entries

/-! # Suffixes over the life of a leaf -/

namespace Incll.Proof.Ksuf
open Incll.Lib Incll.Model Incll.Model.Ksuf Incll.Proof.Layers

/-- Slot `p` gives back what was last assigned to it. -/
structure Reads (b : LeafBody) (last : Nat → List UInt8) (p : Nat) : Prop where
  same : b.getKsuf p = last p
  long : last p ≠ []
  short : (last p).length ≤ maxSuffix

structure LeafInv (l : SuffixLeaf) : Prop where
  valid : LeafValid l.body
  bags : BagsOk l.body
  state : l.body.modstate ≠ .deletedLayer
  fresh : l.setUp = false → l.body.modstate = .insert ∧ l.body.permutation.live = [] ∧
    l.ready = List.range l.ready.length
  ready : ∀ p ∈ l.ready, p < leafWidth
  live : ∀ p ∈ l.body.permutation.live, p ∈ l.ready
  reads : ∀ p ∈ l.ready, l.body.hasKsuf p = true → Reads l.body l.last p

/-- The slots that an assignment keeps have an entry. -/
theorem LeafInv.kept {l : SuffixLeaf} (inv : LeafInv l) {p q : Nat} {initializing : Bool}
    (phase : l.setUp = !initializing) (next : initializing = true → p = l.ready.length)
    (kept : Kept l.body p initializing q) : q ∈ l.ready := by
  cases initializing with
  | false => exact inv.live q kept
  | true =>
      rw [(inv.fresh phase).2.2, ← next rfl]
      exact List.mem_range.mpr kept

theorem LeafInv.not_live {l : SuffixLeaf} (inv : LeafInv l) (early : l.setUp = false) (p : Nat) :
    p ∉ l.body.permutation.live := by
  rw [(inv.fresh early).2.1]
  exact List.not_mem_nil

theorem hasKsuf_iff {b : LeafBody} {p : Nat} : b.hasKsuf p = true ↔ b.keylenx p = ksufKeylenx :=
  beq_iff_eq

theorem reads_congr {b b' : LeafBody} {last last' : Nat → List UInt8} {p : Nat}
    (entry : entryAt b' p = entryAt b p) (same : last' p = last p)
    (reads : b.hasKsuf p = true → Reads b last p) : b'.hasKsuf p = true → Reads b' last' p := by
  intro suffix
  have keylenx := congrArg Entry.keylenx entry
  have string := congrArg Entry.suffix entry
  simp only [entryAt] at keylenx string
  have before : b.hasKsuf p = true := by
    rwa [hasKsuf_iff, ← keylenx, ← hasKsuf_iff]
  rw [if_pos suffix, if_pos before] at string
  have old := reads before
  exact ⟨string.trans (old.same.trans same.symm), same ▸ old.long, same ▸ old.short⟩

/-- The invariant after the assignment of the entry `e` to slot `p`. -/
theorem LeafInv.assigned {l l' : SuffixLeaf} {p : Nat} {initializing : Bool} {e : Entry}
    (inv : LeafInv l) (phase : l.setUp = !initializing)
    (next : initializing = true → p = l.ready.length) (small : p < leafWidth)
    (done : AssignedTo l.body l'.body p initializing e) (bags : BagsOk l'.body)
    (here : e.keylenx = ksufKeylenx →
      l'.last p = e.suffix ∧ e.suffix ≠ [] ∧ e.suffix.length ≤ maxSuffix)
    (others : ∀ q, q ≠ p → l'.last q = l.last q) (setUp : l'.setUp = l.setUp)
    (ready : l'.ready = if initializing then l.ready ++ [p] else p :: l.body.permutation.live) :
    LeafInv l' := by
  have listed (q : Nat) (member : q ∈ l'.ready) : q = p ∨ q ∈ l.ready ∧ Kept l.body p initializing q := by
    rw [ready] at member
    cases initializing with
    | false =>
        rcases List.mem_cons.mp member with rfl | live
        · exact .inl rfl
        · exact .inr ⟨inv.live q live, live⟩
    | true =>
        rcases List.mem_append.mp member with old | last
        · rw [(inv.fresh phase).2.2, ← next rfl] at old
          have low := List.mem_range.mp old
          exact .inr ⟨inv.kept phase next low, low⟩
        · exact .inl (List.mem_singleton.mp last)
  refine ⟨done.valid, bags, ?_, fun early => ?_, fun q member => ?_, fun q live => ?_,
    fun q member => ?_⟩
  · rw [done.links.modstate]
    exact inv.state
  · rw [setUp] at early
    obtain ⟨state, empty, range⟩ := inv.fresh early
    have new : initializing = true := by
      rw [early] at phase
      simpa using phase
    refine ⟨by rw [done.links.modstate, state], by rw [done.permutation, empty], ?_⟩
    rw [ready, if_pos new, next new, List.length_append, List.length_singleton, List.range_succ,
      ← range]
  · rcases listed q member with rfl | ⟨old, -⟩
    · exact small
    · exact inv.ready q old
  · rw [done.permutation] at live
    rw [ready]
    split
    · exact List.mem_append_left _ (inv.live q live)
    · exact List.mem_cons_of_mem _ live
  · by_cases same : q = p
    · subst same
      intro suffix
      have entry := done.here
      have keylenx : e.keylenx = ksufKeylenx := by
        rw [← entry]
        exact hasKsuf_iff.mp suffix
      obtain ⟨last, long, short⟩ := here keylenx
      have string := congrArg Entry.suffix entry
      simp only [entryAt, if_pos suffix] at string
      exact ⟨string.trans last.symm, last ▸ long, last ▸ short⟩
    · obtain ⟨old, kept⟩ := (listed q member).resolve_left same
      exact reads_congr (done.others q same kept) (others q same) (inv.reads q old)

/-- An entry with a suffix is assigned without a failed assertion. -/
theorem LeafInv.assignKsuf_ok {l : SuffixLeaf} {p ikey : Nat} {initializing : Bool} {s : List UInt8}
    {lv : Leafvalue} (inv : LeafInv l)
    (phase : l.setUp = !initializing) (next : initializing = true → p = l.ready.length)
    (dead : p ∉ l.body.permutation.live) (small : p < leafWidth)
    (state : l.body.modstate ≠ .remove) (long : s ≠ []) (short : s.length ≤ maxSuffix) :
    ∃ b', (l.body.setEntry p ikey ksufKeylenx lv).assignKsufFields p s initializing = some b' ∧
      BagsOk b' ∧ AssignedTo l.body b' p initializing ⟨ikey, ksufKeylenx, s, lv⟩ := by
  obtain ⟨b', assign, done⟩ := @assigned_ksuf _ p ikey s lv initializing inv.valid long
    (fun q _ kept suffix => by
      have reads := inv.reads q (inv.kept phase next kept) suffix
      rw [reads.same]
      exact reads.long) (fun _ => dead)
  have each (q : Nat) (member : q ∈ (l.body.setEntry p ikey ksufKeylenx lv).ksufSlots p initializing) :
      ((l.body.setEntry p ikey ksufKeylenx lv).getKsuf q).length ≤ maxSuffix := by
    obtain ⟨kept, ne, suffix⟩ := mem_ksufSlots.mp member
    have before : l.body.hasKsuf q = true := by
      simpa [LeafBody.hasKsuf, LeafBody.setEntry, ne] using suffix
    have reads := inv.reads q (inv.kept phase next kept) before
    change (l.body.getKsuf q).length ≤ maxSuffix
    rw [reads.same]
    exact reads.short
  have bags : BagsOk (l.body.setEntry p ikey ksufKeylenx lv) := ⟨inv.bags.inside, inv.bags.outside⟩
  obtain ⟨same, ok⟩ := assignKsufFields_eq bags state
    (sum_ksufSlots inv.valid.body.permutation small each) short assign
  exact ⟨b', same, ok, done⟩

theorem ofBytes_suffix {key : List UInt8} (small : key.length ≤ maxKeylen) :
    (Key.ofBytes key).suffix.length ≤ maxSuffix := by
  simp only [Key.ofBytes, List.length_drop, maxSuffix]
  omega

/-- `assign` and `assign_initialize` of a key. -/
theorem LeafInv.assignFields_ok {l : SuffixLeaf} {p : Nat} {initializing : Bool} {key : List UInt8}
    (inv : LeafInv l) (phase : l.setUp = !initializing)
    (next : initializing = true → p = l.ready.length) (dead : p ∉ l.body.permutation.live)
    (small : p < leafWidth) (state : l.body.modstate ≠ .remove) (short : key.length ≤ maxKeylen) :
    ∃ b', l.body.assignFields p (.ofBytes key) initializing = some b' ∧ BagsOk b' ∧
      AssignedTo l.body b' p initializing (Key.entry (.ofBytes key) .empty) := by
  have ok := keyOk_ofBytes key
  simp only [LeafBody.assignFields, Key.entry]
  cases long : (Key.ofBytes key).hasSuffix
  · have len : (Key.ofBytes key).len ≤ 8 := (not_hasSuffix_iff _).mp long
    rw [ok.short long]
    exact ⟨_, rfl, ⟨inv.bags.inside, inv.bags.outside⟩,
      assigned_plain inv.valid (by simp only [ksufKeylenx]; omega)⟩
  · exact inv.assignKsuf_ok phase next dead small state (ok.long long) (ofBytes_suffix short)

theorem recordKey_here {l : SuffixLeaf} {p : Nat} {key : List UInt8}
    (short : key.length ≤ maxKeylen)
    (suffix : (Key.entry (.ofBytes key) .empty).keylenx = ksufKeylenx) :
    l.recordKey p (.ofBytes key) p = (Key.entry (.ofBytes key) .empty).suffix ∧
      (Key.entry (.ofBytes key) .empty).suffix ≠ [] ∧
      (Key.entry (.ofBytes key) .empty).suffix.length ≤ maxSuffix := by
  have long : (Key.ofBytes key).hasSuffix = true := by
    by_contra plain
    rw [Bool.not_eq_true] at plain
    have len : (Key.ofBytes key).len ≤ 8 := (not_hasSuffix_iff _).mp plain
    simp only [Key.entry, plain, ksufKeylenx] at suffix
    simp at suffix
    omega
  refine ⟨?_, (keyOk_ofBytes key).long long, ofBytes_suffix short⟩
  rw [SuffixLeaf.recordKey, if_pos long, Function.update_self]
  rfl

theorem recordKey_other {l : SuffixLeaf} {p q : Nat} {k : Key} (ne : q ≠ p) :
    l.recordKey p k q = l.last q := by
  rw [SuffixLeaf.recordKey]
  split
  · exact Function.update_of_ne ne ..
  · rfl

theorem allows_iff {l : SuffixLeaf} {perm : Kpermuter} :
    l.allows perm = true ↔ PermValid perm ∧ ∀ p ∈ perm.live, p ∈ l.ready := by
  simp only [SuffixLeaf.allows, Bool.and_eq_true, decide_eq_true_eq, List.isPerm_iff,
    List.all_eq_true]
  exact ⟨fun h => ⟨⟨h.1.1, h.1.2⟩, h.2⟩, fun h => ⟨⟨h.1.size, h.1.slots⟩, h.2⟩⟩

section
variable {l : SuffixLeaf} (inv : LeafInv l)
include inv

theorem LeafInv.assignInitialize {key : List UInt8} (early : l.setUp = false)
    (room : l.ready.length < leafWidth) (short : key.length ≤ maxKeylen) :
    ∃ l', l.assignInitialize (.ofBytes key) = some l' ∧ LeafInv l' := by
  have state : l.body.modstate ≠ .remove := by
    rw [(inv.fresh early).1]
    decide
  obtain ⟨b', assign, bags, done⟩ := inv.assignFields_ok (show l.setUp = !true from early)
    (fun _ => rfl) (inv.not_live early _) room state short
  refine ⟨_, by rw [SuffixLeaf.assignInitialize, assign]; rfl, ?_⟩
  exact inv.assigned (show l.setUp = !true from early) (fun _ => rfl) room done bags (recordKey_here short)
    (fun q ne => recordKey_other ne) rfl rfl

theorem LeafInv.assignInitializeFrom {x : SuffixLeaf} {xp : Nat} (other : LeafInv x)
    (live : xp ∈ x.body.permutation.live) (early : l.setUp = false)
    (room : l.ready.length < leafWidth) :
    ∃ l', l.assignInitializeFrom x xp = some l' ∧ LeafInv l' := by
  have state : l.body.modstate ≠ .remove := by
    rw [(inv.fresh early).1]
    decide
  have made : ∃ b', l.body.assignFromFields l.ready.length x.body xp = some b' ∧ BagsOk b' ∧
      AssignedTo l.body b' l.ready.length true (entryAt x.body xp) := by
    simp only [LeafBody.assignFromFields, entryAt]
    cases has : x.body.hasKsuf xp
    · have plain : x.body.keylenx xp ≠ ksufKeylenx := by simpa [LeafBody.hasKsuf] using has
      exact ⟨_, rfl, ⟨inv.bags.inside, inv.bags.outside⟩, assigned_plain inv.valid plain⟩
    · have reads := other.reads xp (other.live xp live) has
      rw [hasKsuf_iff.mp has]
      exact inv.assignKsuf_ok early (fun _ => rfl) (inv.not_live early _) room state
        (reads.same ▸ reads.long) (reads.same ▸ reads.short)
  obtain ⟨b', assign, bags, done⟩ := made
  refine ⟨_, by rw [SuffixLeaf.assignInitializeFrom, assign]; rfl, ?_⟩
  refine inv.assigned (show l.setUp = !true from early) (fun _ => rfl) room done bags (fun keylenx => ?_) (fun q ne => ?_) rfl rfl
  · have has : x.body.hasKsuf xp = true := hasKsuf_iff.mpr keylenx
    have reads := other.reads xp (other.live xp live) has
    simp only [entryAt, if_pos has, Function.update_self]
    exact ⟨reads.same.symm, reads.same ▸ reads.long, reads.same ▸ reads.short⟩
  · simp only
    split
    · exact Function.update_of_ne ne ..
    · rfl

theorem LeafInv.assignInitializeForLayer {key : List UInt8} (early : l.setUp = false)
    (room : l.ready.length < leafWidth) (long : ikeySize < key.length) :
    ∃ l', l.assignInitializeForLayer (.ofBytes key) = some l' ∧ LeafInv l' := by
  have has : (Key.ofBytes key).hasSuffix = true := (hasSuffix_iff _).mpr long
  refine ⟨_, by rw [SuffixLeaf.assignInitializeForLayer, if_pos has], ?_⟩
  have done : AssignedTo l.body (l.body.assignInitializeForLayer l.ready.length (.ofBytes key))
      l.ready.length true ⟨(Key.ofBytes key).ikey, layerKeylenx, [], l.body.lv l.ready.length⟩ := by
    refine ⟨⟨⟨inv.valid.body.permutation, inv.valid.body.iksuf, inv.valid.body.ksuf⟩, inv.valid.bag⟩,
      ⟨rfl, rfl, rfl, rfl, rfl⟩, rfl, ?_, fun q ne _ => ?_, fun q ne => Function.update_of_ne ne ..⟩
    · simp [entryAt, LeafBody.assignInitializeForLayer, LeafBody.hasKsuf, layerKeylenx, ksufKeylenx]
    · simp [entryAt, LeafBody.assignInitializeForLayer, LeafBody.hasKsuf, LeafBody.getKsuf, ne]
  exact inv.assigned (show l.setUp = !true from early) (fun _ => rfl) room done ⟨inv.bags.inside, inv.bags.outside⟩
    (fun keylenx => absurd keylenx (show layerKeylenx ≠ ksufKeylenx by decide)) (fun _ _ => rfl) rfl rfl

theorem LeafInv.setModstate (setUp : l.setUp = true) {m : Modstate} (alive : m ≠ .deletedLayer) :
    LeafInv { l with body := l.body.setModstate m } where
  valid := ⟨⟨inv.valid.body.permutation, inv.valid.body.iksuf, inv.valid.body.ksuf⟩, inv.valid.bag⟩
  bags := ⟨inv.bags.inside, inv.bags.outside⟩
  state := alive
  fresh early := absurd (setUp.symm.trans early) (by decide)
  ready := inv.ready
  live := inv.live
  reads p member suffix := by
    have reads := inv.reads p member suffix
    exact ⟨reads.same, reads.long, reads.short⟩

theorem LeafInv.insertState (setUp : l.setUp = true) :
    ∃ b, l.body.insertState = some b ∧ b.modstate = .insert ∧
      b.permutation = l.body.permutation ∧ LeafInv { l with body := b } := by
  cases state : l.body.modstate with
  | insert => exact ⟨l.body, by rw [LeafBody.insertState, state], state, rfl, inv⟩
  | remove =>
      exact ⟨l.body.setModstate .insert, by rw [LeafBody.insertState, state], rfl, rfl,
        inv.setModstate setUp (by decide)⟩
  | deletedLayer => exact absurd state inv.state

theorem LeafInv.assign {p : Nat} {key : List UInt8} (setUp : l.setUp = true) (small : p < leafWidth)
    (dead : p ∉ l.body.permutation.live) (short : key.length ≤ maxKeylen) :
    ∃ l', l.assign p (.ofBytes key) = some l' ∧ LeafInv l' := by
  obtain ⟨b, reset, state, permutation, ready⟩ := inv.insertState setUp
  rw [← permutation] at dead
  obtain ⟨b', assign, bags, done⟩ := ready.assignFields_ok (show l.setUp = !false from setUp)
    nofun dead small (by rw [state]; decide) short
  refine ⟨⟨b', l.recordKey p (.ofBytes key), p :: l.body.permutation.live, l.setUp⟩, ?_, ?_⟩
  · simp [SuffixLeaf.assign, reset, assign]
  · exact ready.assigned (show l.setUp = !false from setUp) nofun small done bags
      (recordKey_here short) (fun q ne => recordKey_other ne) rfl (by rw [← permutation]; rfl)

theorem LeafInv.setPermutation {perm : Kpermuter} (allowed : l.allows perm = true) :
    LeafInv (l.setPermutation perm) := by
  obtain ⟨valid, live⟩ := allows_iff.mp allowed
  refine ⟨inv.valid.setPermutation valid, ⟨inv.bags.inside, inv.bags.outside⟩, inv.state, nofun,
    inv.ready, live, fun p member suffix => ?_⟩
  have reads := inv.reads p member suffix
  exact ⟨reads.same, reads.long, reads.short⟩

theorem LeafInv.makeLayer {p : Nat} (live : p ∈ l.body.permutation.live) :
    LeafInv (l.makeLayer p) := by
  refine ⟨⟨⟨inv.valid.body.permutation, inv.valid.body.iksuf, inv.valid.body.ksuf⟩, inv.valid.bag⟩,
    ⟨inv.bags.inside, inv.bags.outside⟩, inv.state, fun early => ?_, inv.ready, inv.live,
    fun q member suffix => ?_⟩
  · exact absurd live (inv.not_live early p)
  · have ne : q ≠ p := by
      rintro rfl
      simp [SuffixLeaf.makeLayer, LeafBody.hasKsuf, layerKeylenx, ksufKeylenx] at suffix
    have before : l.body.hasKsuf q = true := by
      simpa [SuffixLeaf.makeLayer, LeafBody.hasKsuf, ne] using suffix
    have reads := inv.reads q member before
    exact ⟨reads.same, reads.long, reads.short⟩

end

theorem leafInv_make (ksufsize : Nat) : LeafInv ⟨.make ksufsize, fun _ => [], [], false⟩ where
  valid := leafValid_make ksufsize
  bags := (bagsOk_construct ksufsize).2
  state := nofun
  fresh _ := ⟨rfl, rfl, rfl⟩
  ready := nofun
  live := nofun
  reads := nofun

/-! The permutations that the tree writes are allowed. -/

section
variable {l : SuffixLeaf} (inv : LeafInv l)
include inv

theorem LeafInv.allows_publish {i : Nat} (place : i ≤ l.body.size) (room : l.body.size < leafWidth)
    (ready : l.body.permutation.back ∈ l.ready) :
    l.allows (l.body.permutation.insertFromBack i) = true := by
  have valid := inv.valid.body.permutation
  refine allows_iff.mpr ⟨valid.insertFromBack place room, fun p member => ?_⟩
  rcases valid.live_insertFromBack place room member with rfl | live
  · exact ready
  · exact inv.live p live

theorem LeafInv.allows_remove {i : Nat} (place : i < l.body.size) :
    l.allows (l.body.permutation.remove i) = true := by
  have valid := inv.valid.body.permutation
  exact allows_iff.mpr ⟨valid.remove place, fun p member =>
    inv.live p (valid.live_remove place member)⟩

/-- The permutation of the left half, without and with the exchange of the removed slot. -/
theorem LeafInv.allows_truncate {n i j : Nat} (small : n ≤ l.body.size) (hi : n ≤ i) (hj : n ≤ j)
    (hi' : i < leafWidth) (hj' : j < leafWidth) :
    l.allows (l.body.permutation.setSize n) = true ∧
      l.allows ((l.body.permutation.setSize n).exchange i j) = true := by
  have valid := inv.valid.body.permutation.setSize (small.trans inv.valid.body.permutation.size)
  refine ⟨allows_iff.mpr ⟨valid, fun p member => inv.live p (live_setSize small member)⟩,
    allows_iff.mpr ⟨valid.exchange hi' hj', fun p member => ?_⟩⟩
  rw [live_exchange hi hj] at member
  exact inv.live p (live_setSize small member)

end

theorem allows_sorted {l : SuffixLeaf} {n : Nat} (small : n ≤ leafWidth)
    (ready : l.ready = List.range n) : l.allows (.makeSorted n) = true ∧
      ∀ i < n, l.allows ((Kpermuter.makeSorted n).removeToBack i) = true := by
  have valid := permValid_makeSorted small
  refine ⟨allows_iff.mpr ⟨valid, fun p member => ?_⟩, fun i low =>
    allows_iff.mpr ⟨valid.removeToBack (low.trans_le small), fun p member => ?_⟩⟩
  · rwa [live_makeSorted, ← ready] at member
  · rw [live_removeToBack low] at member
    rw [ready]
    exact (List.eraseIdx_sublist ..).subset member

/-! Runs. -/

def Inv (s : State) : Prop := ∀ i l, s i = some l → LeafInv l

theorem modify_ok {s : State} {i : Nat} {l : SuffixLeaf} {f : SuffixLeaf → Option SuffixLeaf}
    (inv : Inv s) (here : s i = some l) (made : ∃ l', f l = some l' ∧ LeafInv l') :
    ∃ s', modify s i f = some s' ∧ Inv s' := by
  obtain ⟨l', result, inv'⟩ := made
  refine ⟨Function.update s i (some l'), by simp [Model.Ksuf.modify, here, result], fun j x at' => ?_⟩
  by_cases same : j = i
  · subst same
    rw [Function.update_self] at at'
    cases at'
    exact inv'
  · rw [Function.update_of_ne same] at at'
    exact inv j x at'

theorem isNew_iff {s : State} {i : Nat} : isNew s i = true ↔
    ∃ l, s i = some l ∧ l.setUp = false ∧ l.ready.length < leafWidth := by
  simp [isNew, Option.any_eq_true]

/-- No assertion fails, and the invariant stays. -/
theorem perform_ok {s : State} (inv : Inv s) {label : Label} (ok : enabled s label = true) :
    ∃ s', perform s label = some s' ∧ Inv s' := by
  cases label with
  | make i ksufsize =>
      refine ⟨_, by rw [perform, (bagsOk_construct ksufsize).1]; rfl, fun j x at' => ?_⟩
      by_cases same : j = i
      · subst same
        rw [Function.update_self] at at'
        cases at'
        exact leafInv_make ksufsize
      · rw [Function.update_of_ne same] at at'
        exact inv j x at'
  | assignInitialize i key =>
      simp only [enabled, Bool.and_eq_true, isNew_iff, decide_eq_true_eq] at ok
      obtain ⟨⟨l, here, early, room⟩, short⟩ := ok
      exact modify_ok inv here ((inv i l here).assignInitialize early room short)
  | assignInitializeFrom i j xp =>
      simp only [enabled, Bool.and_eq_true, isNew_iff, Option.any_eq_true, decide_eq_true_eq] at ok
      obtain ⟨⟨l, here, early, room⟩, x, there, live⟩ := ok
      obtain ⟨s', made, inv'⟩ := @modify_ok _ i l (·.assignInitializeFrom x xp) inv here
        ((inv i l here).assignInitializeFrom (inv j x there) live early room)
      exact ⟨s', by simpa [perform, there] using made, inv'⟩
  | assignInitializeForLayer i key =>
      simp only [enabled, Bool.and_eq_true, isNew_iff, decide_eq_true_eq] at ok
      obtain ⟨⟨l, here, early, room⟩, long⟩ := ok
      exact modify_ok inv here ((inv i l here).assignInitializeForLayer early room long)
  | setPermutation i perm =>
      obtain ⟨l, here, allowed⟩ := (Option.any_eq_true ..).mp ok
      exact modify_ok inv here ⟨_, rfl, (inv i l here).setPermutation allowed⟩
  | assign i p key =>
      obtain ⟨l, here, ok⟩ := (Option.any_eq_true ..).mp ok
      simp only [Bool.and_eq_true, decide_eq_true_eq] at ok
      obtain ⟨⟨⟨setUp, small⟩, dead⟩, short⟩ := ok
      exact modify_ok inv here ((inv i l here).assign setUp small dead short)
  | setRemove i =>
      obtain ⟨l, here, setUp⟩ := (Option.any_eq_true ..).mp ok
      exact modify_ok inv here ⟨_, rfl, (inv i l here).setModstate setUp (by decide)⟩
  | makeLayer i p =>
      obtain ⟨l, here, live⟩ := (Option.any_eq_true ..).mp ok
      exact modify_ok inv here ⟨_, rfl, (inv i l here).makeLayer (of_decide_eq_true live)⟩

theorem inv_of_reachable {s : State} (reachable : machine.Reachable Machine.anyStep s) : Inv s := by
  refine reachable.invariant ?_ ?_
  · rintro _ rfl i l ⟨⟩
  · intro s label s' inv _ h
    simp only [machine, Option.ite_none_right_eq_some] at h
    obtain ⟨s'', made, inv'⟩ := perform_ok inv h.1
    cases made.symm.trans h.2
    exact inv'

/-- The bags of a leaf that hold suffixes, with the size of their offsets. -/
def InUse (b : LeafBody) (offset : Nat) (bag : Stringbag) : Prop :=
  offset = 1 ∧ 0 < b.extrasize64 ∧ b.iksuf = bag ∨ offset = 2 ∧ b.ksuf = some bag

/-- What `stringbag::assign` does to a bag. -/
structure AssignOk (offset : Nat) (b : Stringbag) (p : Nat) (s : List UInt8) : Prop where
  failed : (b.assignFields offset p s).1 = false → (b.assignFields offset p s).2 = b
  others : ∀ q, q ≠ p → (b.assignFields offset p s).2.get q = b.get q
  done : (b.assignFields offset p s).1 = true → (b.assignFields offset p s).2.get p = s
  bytes : ∀ i, i < Stringbag.overhead offset leafWidth ∨ b.capacity ≤ i →
    (b.assignFields offset p s).2.bytes i = b.bytes i
  fields : InFields offset (b.assignFields offset p s).2
  valid : BagValid (b.assignFields offset p s).2

theorem assignOk {offset : Nat} {b : Stringbag} (fits : InFields offset b) (valid : BagValid b) (p : Nat)
    (s : List UInt8) : AssignOk offset b p s := by
  have bytes (i : Nat) (apart : i < Stringbag.overhead offset leafWidth ∨ b.capacity ≤ i) :=
    assignFields_bytes (p := p) (s := s) fits apart
  cases result : b.assign p s with
  | none =>
      have same : b.assignFields offset p s = (false, b) := assignFields_none result
      refine ⟨fun _ => ?_, fun q _ => ?_, fun done => ?_, bytes, ?_, ?_⟩ <;> rw [same] at *
      · cases done
      · exact fits
      · exact valid
  | some b' =>
      obtain ⟨same, fits', -⟩ := assignFields_some fits result
      obtain ⟨valid', here, others⟩ := bag_assign valid result
      refine ⟨fun failed => ?_, fun q other => ?_, fun _ => ?_, bytes, ?_, ?_⟩ <;> rw [same] at *
      · cases failed
      · exact others q other
      · exact here
      · exact fits'
      · exact valid'

/-- The suffixes of the live slots read back, and the bags are within their fields. -/
structure Stored (l : SuffixLeaf) : Prop where
  reads : ∀ p ∈ l.body.permutation.live, l.body.hasKsuf p = true → l.body.getKsuf p = l.last p
  fields : ∀ offset bag, InUse l.body offset bag → InFields offset bag ∧ BagValid bag

theorem suffix_storage {s : State} (reachable : machine.Reachable Machine.anyStep s) :
    (∀ label, enabled s label = true → ∃ s', perform s label = some s') ∧
    (∀ i l, s i = some l → Stored l) ∧
    ∀ offset bag, InFields offset bag → BagValid bag → ∀ p s, AssignOk offset bag p s := by
  have inv := inv_of_reachable reachable
  refine ⟨fun label ok => ?_, fun i l here => ⟨fun p live suffix => ?_, ?_⟩,
    fun offset bag fits valid p s => assignOk fits valid p s⟩
  · obtain ⟨s', made, -⟩ := perform_ok inv ok
    exact ⟨s', made⟩
  · exact ((inv i l here).reads p ((inv i l here).live p live) suffix).same
  · rintro offset bag (⟨rfl, spare, rfl⟩ | ⟨rfl, outside⟩)
    · exact ⟨(inv i l here).bags.inside spare, (inv i l here).valid.body.iksuf⟩
    · exact ⟨((inv i l here).bags.outside bag outside).1, (inv i l here).valid.body.ksuf bag outside⟩

def someKey (n : Nat) (c : UInt8) : List UInt8 := List.replicate (8 + n) c

/-- Two keys of one leaf: the first suffix is in the internal bag, the second one does not fit. -/
def moves : List Label :=
  [.make 0 57, .setPermutation 0 .makeEmpty, .assign 0 0 (someKey 3 97),
    .setPermutation 0 (Kpermuter.makeEmpty.insertFromBack 0), .assign 0 1 (someKey 90 98),
    .setPermutation 0 ((Kpermuter.makeEmpty.insertFromBack 0).insertFromBack 1)]

theorem suffix_storage_moved : ∃ s l, machine.Reachable Machine.anyStep s ∧ s 0 = some l ∧
    l.body.ksuf.isSome = true ∧ l.body.getKsuf 0 = [97, 97, 97] := by
  have start : machine.Reachable Machine.anyStep (fun _ => none) := .initial rfl
  obtain ⟨s, reachable, h⟩ := start.exists_run moves (fun s => (s 0).any fun l =>
    l.body.ksuf.isSome && l.body.hasKsuf 0 && (0 ∈ l.body.permutation.live) &&
      l.last 0 == [97, 97, 97]) (by decide +kernel)
  obtain ⟨l, here, h⟩ := (Option.any_eq_true ..).mp h
  simp only [Bool.and_eq_true, decide_eq_true_eq, beq_iff_eq] at h
  obtain ⟨⟨⟨outside, suffix⟩, live⟩, last⟩ := h
  exact ⟨s, l, reachable, here, outside,
    (((suffix_storage reachable).2.1 0 l here).reads 0 live suffix).trans last⟩

end Incll.Proof.Ksuf
