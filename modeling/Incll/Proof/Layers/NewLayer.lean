import Incll.Proof.Layers.Twig

/-! # `make_new_layer` -/

namespace Incll.Proof.Layers
open Incll.Lib Incll.Model Incll.Model.Layers

variable {oka ka : List UInt8} {lv v : Leafvalue} {nb b : LeafBody}

/-! The last node of the twig. -/

/-- The place of the new key. -/
def newPlace (oka ka : List UInt8) : Nat := if (Key.ofBytes oka).compareKey (Key.ofBytes ka) = .lt then 1 else 0

/-- The last node before the new key is published. -/
structure Bottom (oka ka : List UInt8) (lv : Leafvalue) (nb : LeafBody) : Prop where
  entries : entries nb = [Key.entry (.ofBytes oka) lv]
  old : entryAt nb (1 - newPlace oka ka) = Key.entry (.ofBytes oka) lv
  live : nb.permutation.live = [1 - newPlace oka ka]
  reserved : Reserved nb (.ofBytes ka) (newPlace oka ka) (some (newPlace oka ka))
  size : nb.size = 1
  next : nb.next = 0
  prev : nb.prev = 0
  parent : nb.parent = 0

/-- Two keys are assigned to the slots of a new leaf. -/
theorem assignTwo_ok (n : Nat) (first second : List UInt8) : ∃ b₁ b₂,
    (LeafBody.make n).assign 0 (.ofBytes first) true = some b₁ ∧
    b₁.assign 1 (.ofBytes second) true = some b₂ ∧ LeafValid b₂ ∧
    entryAt b₂ 0 = Key.entry (.ofBytes first) .empty ∧ entryAt b₂ 1 = Key.entry (.ofBytes second) .empty ∧
    b₂.next = 0 ∧ b₂.prev = 0 ∧ b₂.parent = 0 := by
  obtain ⟨b₁, assign₁, done₁⟩ := @assign_total _ 0 _ true (leafValid_make n) (keyOk_ofBytes first)
    (fun q _ kept => absurd kept (Nat.not_lt_zero q)) nofun
  obtain ⟨b₂, assign₂, done₂⟩ := @assign_total _ 1 _ true done₁.valid (keyOk_ofBytes second)
    (fun q _ kept has => by
      obtain rfl : q = 0 := Nat.lt_one_iff.mp kept
      refine getKsuf_ne_nil ?_ has
      rw [done₁.here]
      exact entryOk_key (keyOk_ofBytes first) _) nofun
  refine ⟨b₁, b₂, assign₁, assign₂, done₂.valid, ?_, done₂.here, ?_, ?_, ?_⟩
  · rw [done₂.others 0 (by decide) (show 0 < 1 by decide), done₁.here]
  · rw [done₂.links.next, done₁.links.next]
    rfl
  · rw [done₂.links.prev, done₁.links.prev]
    rfl
  · rw [done₂.links.parent, done₁.links.parent]
    rfl

theorem newLayerBody_ok (differ : (Key.ofBytes oka).compareKey (Key.ofBytes ka) ≠ .eq) (lv : Leafvalue) :
    ∃ nb, newLayerBody (.ofBytes oka) (.ofBytes ka) lv = some nb ∧ Bottom oka ka lv nb := by
  by_cases below : (Key.ofBytes oka).compareKey (Key.ofBytes ka) = .lt
  · have place : newPlace oka ka = 1 := if_pos below
    obtain ⟨b₁, b₂, assign₁, assign₂, valid, first, second, next, prev, parent⟩ :=
      assignTwo_ok (ksufsize (.ofBytes oka) (.ofBytes ka)) oka ka
    let nb := (b₂.setValue 0 lv).setPermutation (.makeSorted 1)
    have at₀ : entryAt nb 0 = Key.entry (.ofBytes oka) lv := by
      rw [entryAt_setPermutation, entryAt_setValue, if_pos rfl, first]
      rfl
    have at₁ : entryAt nb 1 = Key.entry (.ofBytes ka) .empty := by
      rw [entryAt_setPermutation, entryAt_setValue, if_neg (by decide), second]
    have all : entries nb = [Key.entry (.ofBytes oka) lv] :=
      congrArg (fun e => [e]) at₀
    have less : Key.rank (.ofBytes oka) < Key.rank (.ofBytes ka) := by
      rwa [compareKey_eq, compare_lt_iff_lt] at below
    refine ⟨nb, ?_, all, by rw [place]; exact at₀, by rw [place]; rfl, ⟨⟨?_, ?_, fun e member => ?_⟩,
      show 1 < leafWidth by decide, ?_, ?_, ?_⟩, rfl, next, prev, parent⟩
    · simp only [newLayerBody, below, assign₁, assign₂, beq_self_eq_true, if_true, bind, Option.bind_some]
      rfl
    · exact (valid.setValue 0 lv).setPermutation (permValid_makeSorted (by decide))
    · rw [all]
      exact List.pairwise_singleton ..
    · rw [all, List.mem_singleton] at member
      rw [member]
      exact entryOk_key (keyOk_ofBytes oka) lv
    · rw [place]
      rfl
    · exact at₁
    · rw [place]
      refine ⟨le_rfl, fun e member => ?_, nofun, fun _ e member => ?_⟩
      · rw [all] at member
        rw [List.mem_singleton.mp member, Key.rank_entry]
        exact less
      · rw [all] at member
        cases member
  · have place : newPlace oka ka = 0 := if_neg below
    obtain ⟨b₁, b₂, assign₁, assign₂, valid, first, second, next, prev, parent⟩ :=
      assignTwo_ok (ksufsize (.ofBytes oka) (.ofBytes ka)) ka oka
    let nb := (b₂.setValue 1 lv).setPermutation ((Kpermuter.makeSorted 2).removeToBack 0)
    have at₁ : entryAt nb 1 = Key.entry (.ofBytes oka) lv := by
      rw [entryAt_setPermutation, entryAt_setValue, if_pos rfl, second]
      rfl
    have at₀ : entryAt nb 0 = Key.entry (.ofBytes ka) .empty := by
      rw [entryAt_setPermutation, entryAt_setValue, if_neg (by decide), first]
    have all : entries nb = [Key.entry (.ofBytes oka) lv] :=
      congrArg (fun e => [e]) at₁
    have less : Key.rank (.ofBytes ka) < Key.rank (.ofBytes oka) := by
      rw [compareKey_eq] at below differ
      rw [compare_lt_iff_lt, Nat.not_lt] at below
      exact lt_of_le_of_ne below fun same => differ (compare_eq_iff_eq.mpr same.symm)
    refine ⟨nb, ?_, all, by rw [place]; exact at₁, by rw [place]; rfl, ⟨⟨?_, ?_, fun e member => ?_⟩,
      show 1 < leafWidth by decide, ?_, ?_, ?_⟩, rfl, next, prev, parent⟩
    · have not_lt : ((Key.ofBytes oka).compareKey (Key.ofBytes ka) == .lt) = false := by
        simpa using below
      simp only [newLayerBody, not_lt, assign₁, assign₂, Bool.false_eq_true, if_false, bind, Option.bind_some]
      rfl
    · exact (valid.setValue 1 lv).setPermutation ((permValid_makeSorted (by decide)).removeToBack (by decide))
    · rw [all]
      exact List.pairwise_singleton ..
    · rw [all, List.mem_singleton] at member
      rw [member]
      exact entryOk_key (keyOk_ofBytes oka) lv
    · rw [place]
      rfl
    · exact at₀
    · rw [place]
      refine ⟨Nat.zero_le _, nofun, nofun, fun _ e member => ?_⟩
      rw [all] at member
      rw [List.mem_singleton.mp member, Key.rank_entry]
      exact less

/-- The last node with the new key. -/
def finishBody (nb : LeafBody) (i : Nat) (v : Leafvalue) : LeafBody :=
  (nb.setValue i v).setPermutation (nb.permutation.insertFromBack i)

/-- Both keys, in the order of their slices. -/
structure TwoKeys (oka ka : List UInt8) (lv v : Leafvalue) (b : LeafBody) : Prop where
  ok : EntriesOk b
  two : entries b = [Key.entry (.ofBytes oka) lv, Key.entry (.ofBytes ka) v] ∨
    entries b = [Key.entry (.ofBytes ka) v, Key.entry (.ofBytes oka) lv]
  next : b.next = 0
  prev : b.prev = 0

theorem Bottom.finish (bottom : Bottom oka ka lv nb) (v : Leafvalue) :
    TwoKeys oka ka lv v (finishBody nb (newPlace oka ka) v) := by
  have valid := bottom.reserved.ok.valid.body.permutation
  have back : nb.permutation.back = newPlace oka ka := (Option.some.inj bottom.reserved.slot).symm
  have place := bottom.reserved.place
  have key := bottom.reserved.key
  rw [back] at key
  have all : Layers.entries (finishBody nb (newPlace oka ka) v) =
      (Layers.entries nb).insertIdx (newPlace oka ka) (Key.entry (.ofBytes ka) v) := by
    have inserted := @entries_insert nb nb (Key.entry (.ofBytes ka) .empty) _ v valid place.small bottom.reserved.room
      (by rw [back]; exact key) fun _ _ => rfl
    rw [back] at inserted
    exact inserted
  have length := length_entries valid
  have ok := bottom.reserved.ok
  refine ⟨⟨?_, ?_, fun e member => ?_⟩, ?_, bottom.next, bottom.prev⟩
  · exact (ok.valid.setValue _ v).setPermutation (valid.insertFromBack place.small bottom.reserved.room)
  · rw [all]
    refine ok.sorted.insertIdx (length ▸ place.small) ?_ ?_
    · rw [Key.rank_entry]
      exact place.before
    · rw [Key.rank_entry]
      exact place.missing rfl
  · rw [all] at member
    rcases List.eq_or_mem_of_mem_insertIdx member with rfl | old
    · exact entryOk_key (keyOk_ofBytes ka) v
    · exact ok.each e old
  · rw [all, bottom.entries]
    by_cases below : newPlace oka ka = 1
    · rw [below]
      exact .inl rfl
    · have zero : newPlace oka ka = 0 := by
        simp only [newPlace] at below ⊢
        split at below
        · exact absurd rfl below
        · next not_lt => rw [if_neg not_lt]
      rw [zero]
      exact .inr rfl

/-! The leaf that loses the entry. -/

/-- The entry in slot `p` becomes a layer. -/
def toLayer (b : LeafBody) (p : Nat) (v : Leafvalue) : LeafBody :=
  { b.setValue p v with keylenx := Function.update b.keylenx p layerKeylenx }

theorem entryAt_toLayer {p : Nat} (q : Nat) : entryAt (toLayer b p v) q =
    if q = p then ⟨b.ikey0 p, layerKeylenx, [], v⟩ else entryAt b q := by
  by_cases same : q = p
  · subst same
    simp [toLayer, entryAt, LeafBody.setValue, LeafBody.hasKsuf, layerKeylenx, ksufKeylenx]
  · simp [toLayer, entryAt, LeafBody.setValue, LeafBody.hasKsuf, LeafBody.getKsuf, same]

theorem entries_toLayer (p : Nat) : entries (toLayer b p v) = b.permutation.live.map fun q =>
    if q = p then ⟨b.ikey0 p, layerKeylenx, [], v⟩ else entryAt b q :=
  List.map_congr_left fun q _ => entryAt_toLayer q

/-- The order of the entries depends on the slices only. -/
theorem entriesOk_toLayer {p : Nat} (ok : EntriesOk b) (has : b.hasKsuf p = true) : EntriesOk (toLayer b p v) := by
  have rank (q : Nat) : (entryAt (toLayer b p v) q).rank = (entryAt b q).rank := by
    rw [entryAt_toLayer]
    split
    · next same =>
        rw [same]
        have len := hasKsuf_keylenx.mp has
        simp only [Entry.rank, entryAt, len, Layers.rank, layerKeylenx, ksufKeylenx]
        omega
    · rfl
  refine ⟨⟨⟨ok.valid.body.permutation, ok.valid.body.iksuf, ok.valid.body.ksuf⟩, ok.valid.bag⟩, ?_,
    fun e member => ?_⟩
  · refine List.pairwise_map.mpr ?_
    have sorted := List.pairwise_map.mp ok.sorted
    exact sorted.imp fun less => by rwa [rank, rank]
  · obtain ⟨q, live, rfl⟩ := mem_entries.mp member
    rw [entryAt_toLayer]
    split
    · exact ⟨.inr (.inr rfl), by simp [layerKeylenx, ksufKeylenx]⟩
    · exact ok.each _ (mem_entries.mpr ⟨q, live, rfl⟩)

end Incll.Proof.Layers
