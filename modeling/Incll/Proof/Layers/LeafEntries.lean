import Incll.Proof.Layers.Keys
import Incll.Proof.Layers.Search
import Incll.Proof.Leaf.Suffix
import Mathlib.Data.List.InsertIdx

/-! # The entries of a leaf

A leaf is the list of its entries in the order of the permutation. -/

namespace Incll.Proof.Layers
open Incll.Model

structure Entry where
  ikey : Nat
  keylenx : Nat
  suffix : List UInt8
  lv : Leafvalue

def Entry.rank (e : Entry) : Nat := Layers.rank e.ikey e.keylenx

def entryAt (b : LeafBody) (p : Nat) : Entry :=
  ⟨b.ikey0 p, b.keylenx p, if b.hasKsuf p then b.getKsuf p else [], b.lv p⟩

def entries (b : LeafBody) : List Entry := b.permutation.live.map (entryAt b)

/-- The entry of a key. -/
def Key.entry (k : Key) (lv : Leafvalue) : Entry :=
  ⟨k.ikey, if k.hasSuffix then ksufKeylenx else k.len, k.suffix, lv⟩

theorem Key.rank_entry (k : Key) (lv : Leafvalue) : (Key.entry k lv).rank = Key.rank k := by
  simp only [Entry.rank, Key.entry, Key.rank, Layers.rank, ksufKeylenx]
  cases long : k.hasSuffix
  · simp
  · have := (hasSuffix_iff k).mp long
    simp only [if_true]
    omega

/-- The suffix of a key that is at most eight bytes long is empty. -/
structure KeyOk (k : Key) : Prop where
  short : k.hasSuffix = false → k.suffix = []
  long : k.hasSuffix = true → k.suffix ≠ []

theorem keyOk_ofBytes (s : List UInt8) : KeyOk (.ofBytes s) := by
  constructor <;> intro h
  · exact List.drop_eq_nil_of_le ((not_hasSuffix_iff _).mp h)
  · have long : 8 < s.length := (hasSuffix_iff _).mp h
    simpa [Key.ofBytes, ikeySize] using long

/-- `ksuf_` is used only after the internal bag is given up. -/
structure LeafValid (b : LeafBody) : Prop where
  body : BodyValid b
  bag : b.ksuf.isSome = true → b.extrasize64 < 0

theorem leafValid_make (ksufsize : Nat) : LeafValid (.make ksufsize) :=
  ⟨bodyValid_make ksufsize, nofun⟩

/-! Suffix bags large enough. -/

theorem bag_fold_total {f : Nat → List UInt8} {slots : List Nat} {bag : Stringbag}
    (distinct : slots.Nodup) (long : ∀ q ∈ slots, f q ≠ []) (new : ∀ q ∈ slots, (bag.info q).2 = 0)
    (room : bag.size + (slots.map fun q => (f q).length).sum + 7 ≤ bag.capacity) :
    ∃ bag', slots.foldlM (fun bag q => Stringbag.assign bag q (f q)) bag = some bag' ∧
      bag'.size = bag.size + (slots.map fun q => (f q).length).sum ∧
      bag'.capacity = bag.capacity ∧ ∀ q, q ∉ slots → bag'.info q = bag.info q := by
  induction slots generalizing bag with
  | nil => exact ⟨bag, rfl, rfl, rfl, fun _ _ => rfl⟩
  | cons q slots ih =>
      have len : 0 < (f q).length := List.length_pos_iff.mpr (long q (by simp))
      have empty : (bag.info q).2 = 0 := new q (by simp)
      simp only [List.map_cons, List.sum_cons] at room ⊢
      have fits : bag.size + max (f q).length Stringbag.sliceSize ≤ bag.capacity := by
        simp only [Stringbag.sliceSize]
        omega
      have assigned : bag.assign q (f q) =
          some { bag.put q bag.size (f q) with size := bag.size + (f q).length } := by
        rw [Stringbag.assign, if_neg (by omega), if_pos fits]
      obtain ⟨out, rest⟩ := List.nodup_cons.mp distinct
      have other (r : Nat) (ne : r ≠ q) :
          ({ bag.put q bag.size (f q) with size := bag.size + (f q).length } : Stringbag).info r =
            bag.info r := Function.update_of_ne ne ..
      obtain ⟨bag', fold, size, capacity, frame⟩ :=
        @ih { bag.put q bag.size (f q) with size := bag.size + (f q).length } rest
          (fun r member => long r (by simp [member]))
          (fun r member => by rw [other r fun same => out (same ▸ member)]; exact new r (by simp [member]))
          (by simp only [Stringbag.put]; omega)
      refine ⟨bag', ?_, ?_, capacity, ?_⟩
      · rw [List.foldlM_cons, assigned]
        exact fold
      · rw [size]
        simp only
        omega
      · intro r absent
        simp only [List.mem_cons, not_or] at absent
        rw [frame r absent.2, other r absent.1]

theorem le_iceilLog2 (n : Nat) : n ≤ LeafBody.iceilLog2 n := by
  simp only [LeafBody.iceilLog2]
  split
  · assumption
  · have := Nat.lt_log2_self (n := n - 1)
    omega

/-! Assigning a key to a slot. -/

/-- The slots that `assign_ksuf` keeps. -/
def Kept (b : LeafBody) (p : Nat) (initializing : Bool) (q : Nat) : Prop :=
  if initializing then q < p else q ∈ b.permutation.live

theorem mem_ksufSlots {b : LeafBody} {p q : Nat} {initializing : Bool} :
    q ∈ b.ksufSlots p initializing ↔
      Kept b p initializing q ∧ q ≠ p ∧ b.hasKsuf q = true := by
  cases initializing <;> simp [LeafBody.ksufSlots, Kept]

theorem ksufSlots_nodup {b : LeafBody} (valid : PermValid b.permutation) (p : Nat)
    (initializing : Bool) : (b.ksufSlots p initializing).Nodup := by
  refine List.Nodup.filter _ ?_
  split
  · exact List.nodup_range
  · exact valid.nodup.sublist (List.take_sublist ..)

theorem copyKsufs_total {b : LeafBody} {p : Nat} {s : List UInt8} {initializing : Bool}
    (valid : PermValid b.permutation) (long : s ≠ [])
    (others : ∀ q, Kept b p initializing q → b.hasKsuf q = true → b.getKsuf q ≠ []) :
    ∃ bag, b.copyKsufs p s initializing = some bag ∧ BagValid bag ∧ bag.get p = s ∧
      ∀ q ∈ b.ksufSlots p initializing, bag.get q = b.getKsuf q := by
  have len : 0 < s.length := List.length_pos_iff.mpr long
  obtain ⟨bag₁, fold, size, capacity, frame⟩ := @bag_fold_total b.getKsuf
    (b.ksufSlots p initializing)
    (Stringbag.make 2 leafWidth (max (LeafBody.iceilLog2 (Stringbag.safeSize 2 leafWidth
      (((b.ksufSlots p initializing).map fun q => (b.getKsuf q).length).sum + s.length)))
      ((b.ksuf.map (·.capacity)).getD 0)))
    (ksufSlots_nodup valid p initializing)
    (fun q member => others q (mem_ksufSlots.mp member).1 (mem_ksufSlots.mp member).2.2)
    (fun _ _ => rfl) (by
      have := le_iceilLog2 (Stringbag.safeSize 2 leafWidth
        (((b.ksufSlots p initializing).map fun q => (b.getKsuf q).length).sum + s.length))
      simp only [Stringbag.safeSize, Stringbag.sliceSize, Stringbag.make] at *
      omega)
  obtain ⟨valid₁, filled, -⟩ := bag_assignAll (bagValid_make ..) fold
  have new : (bag₁.info p).2 = 0 := by
    rw [frame p fun member => (mem_ksufSlots.mp member).2.1 rfl]
    rfl
  have fits : bag₁.size + max s.length Stringbag.sliceSize ≤ bag₁.capacity := by
    have := le_iceilLog2 (Stringbag.safeSize 2 leafWidth
      (((b.ksufSlots p initializing).map fun q => (b.getKsuf q).length).sum + s.length))
    rw [size, capacity]
    simp only [Stringbag.safeSize, Stringbag.sliceSize, Stringbag.make] at *
    omega
  have assigned : bag₁.assign p s =
      some { bag₁.put p bag₁.size s with size := bag₁.size + s.length } := by
    rw [Stringbag.assign, if_neg (by omega), if_pos fits]
  obtain ⟨valid', here, others⟩ := bag_assign valid₁ assigned
  refine ⟨_, ?_, valid', here, fun q member => ?_⟩
  · simp only [LeafBody.copyKsufs]
    rw [fold]
    exact assigned
  · rw [others q (mem_ksufSlots.mp member).2.1, filled q member]

theorem assignKsuf_total {b : LeafBody} {p : Nat} {s : List UInt8} {initializing : Bool}
    (valid : LeafValid b) (long : s ≠ [])
    (others : ∀ q, Kept b p initializing q → b.hasKsuf q = true → b.getKsuf q ≠ []) :
    ∃ x k i, b.assignKsuf p s initializing =
        some { b with extrasize64 := x, ksuf := k, iksuf := i } ∧
      LeafValid { b with extrasize64 := x, ksuf := k, iksuf := i } ∧
      LeafBody.getKsuf { b with extrasize64 := x, ksuf := k, iksuf := i } p = s ∧
      ∀ q ∈ b.ksufSlots p initializing,
        LeafBody.getKsuf { b with extrasize64 := x, ksuf := k, iksuf := i } q = b.getKsuf q := by
  simp only [LeafBody.assignKsuf]
  split
  · next bag outside =>
      obtain ⟨old, here, assign⟩ := Option.bind_eq_some_iff.mp outside
      obtain ⟨valid', same, frame⟩ := bag_assign (valid.body.ksuf old here) assign
      refine ⟨_, _, _, rfl, ⟨⟨valid.body.permutation, valid.body.iksuf, ?_⟩, fun _ => ?_⟩, same, ?_⟩
      · rintro _ ⟨⟩
        exact valid'
      · exact valid.bag (by rw [here]; rfl)
      · intro q member
        simp only [LeafBody.getKsuf, here]
        exact frame q (mem_ksufSlots.mp member).2.1
  · split
    · next bag inside =>
        split at inside
        · next internal =>
            obtain ⟨valid', same, frame⟩ := bag_assign valid.body.iksuf inside
            have none : b.ksuf = none := by
              by_contra some
              have := valid.bag (Option.isSome_iff_ne_none.mpr some)
              omega
            refine ⟨_, _, _, rfl, ⟨⟨valid.body.permutation, valid', valid.body.ksuf⟩, valid.bag⟩, ?_,
              fun q member => ?_⟩
            · simp only [LeafBody.getKsuf, none]
              exact same
            · simp only [LeafBody.getKsuf, none]
              exact frame q (mem_ksufSlots.mp member).2.1
        · cases inside
    · obtain ⟨bag, copy, valid', same, frame⟩ := copyKsufs_total valid.body.permutation long others
      rw [copy]
      refine ⟨_, _, _, rfl, ⟨⟨valid.body.permutation, valid.body.iksuf, ?_⟩, fun _ => ?_⟩, same, frame⟩
      · rintro _ ⟨⟩
        exact valid'
      · simp only
        split <;> omega

/-- What an assignment leaves as it is. -/
structure SameLinks (b b' : LeafBody) : Prop where
  next : b'.next = b.next
  nextMark : b'.nextMark = b.nextMark
  prev : b'.prev = b.prev
  parent : b'.parent = b.parent
  modstate : b'.modstate = b.modstate

/-- `b'` is `b` after the assignment of the entry `e` to slot `p`. -/
structure AssignedTo (b b' : LeafBody) (p : Nat) (initializing : Bool) (e : Entry) : Prop where
  valid : LeafValid b'
  links : SameLinks b b'
  permutation : b'.permutation = b.permutation
  here : entryAt b' p = e
  others : ∀ q, q ≠ p → Kept b p initializing q → entryAt b' q = entryAt b q
  ikey0 : ∀ q, q ≠ p → b'.ikey0 q = b.ikey0 q

theorem LeafValid.setEntry {b : LeafBody} (valid : LeafValid b) (p ikey keylenx : Nat)
    (lv : Leafvalue) : LeafValid (b.setEntry p ikey keylenx lv) :=
  ⟨bodyValid_setEntry valid.body .., valid.bag⟩

theorem entryAt_congr {b b' : LeafBody} {q : Nat} (ikey : b'.ikey0 q = b.ikey0 q)
    (keylenx : b'.keylenx q = b.keylenx q) (lv : b'.lv q = b.lv q)
    (suffix : b.hasKsuf q = true → b'.getKsuf q = b.getKsuf q) : entryAt b' q = entryAt b q := by
  have same : b'.hasKsuf q = b.hasKsuf q := by rw [LeafBody.hasKsuf, keylenx, LeafBody.hasKsuf]
  simp only [entryAt, ikey, keylenx, lv, same]
  by_cases has : b.hasKsuf q = true
  · rw [suffix has]
  · simp [has]

theorem entryAt_setEntry_other {b : LeafBody} {p q ikey keylenx : Nat} {lv : Leafvalue} (ne : q ≠ p) :
    entryAt (b.setEntry p ikey keylenx lv) q = entryAt b q := by
  simp [entryAt, LeafBody.setEntry, LeafBody.hasKsuf, LeafBody.getKsuf, ne]

/-- An entry without a suffix. -/
theorem assigned_plain {b : LeafBody} {p ikey keylenx : Nat} {lv : Leafvalue} {initializing : Bool}
    (valid : LeafValid b) (plain : keylenx ≠ ksufKeylenx) :
    AssignedTo b (b.setEntry p ikey keylenx lv) p initializing ⟨ikey, keylenx, [], lv⟩ := by
  refine ⟨valid.setEntry .., ⟨rfl, rfl, rfl, rfl, rfl⟩, rfl, ?_,
    fun q ne _ => entryAt_setEntry_other ne, fun q ne => Function.update_of_ne ne ..⟩
  simp [entryAt, LeafBody.setEntry, LeafBody.hasKsuf, plain]

/-- An entry with a suffix. -/
theorem assigned_ksuf {b : LeafBody} {p ikey : Nat} {s : List UInt8} {lv : Leafvalue}
    {initializing : Bool} (valid : LeafValid b) (long : s ≠ [])
    (others : ∀ q, q ≠ p → Kept b p initializing q → b.hasKsuf q = true → b.getKsuf q ≠ [])
    (fresh : initializing = false → p ∉ b.permutation.live) :
    ∃ b', (b.setEntry p ikey ksufKeylenx lv).assignKsuf p s initializing = some b' ∧
      AssignedTo b b' p initializing ⟨ikey, ksufKeylenx, s, lv⟩ := by
  have apart (q : Nat) (kept : Kept b p initializing q) : q ≠ p := by
    rintro rfl
    cases initializing with
    | false => exact fresh rfl kept
    | true => exact Nat.lt_irrefl _ kept
  obtain ⟨x, k, i, assigned, valid', here, frame⟩ := assignKsuf_total (valid.setEntry p ikey
    ksufKeylenx lv) long (fun q kept suffix => by
      have ne := apart q kept
      refine others q ne kept ?_
      simpa [LeafBody.hasKsuf, LeafBody.setEntry, ne] using suffix)
  refine ⟨_, assigned, valid', ⟨rfl, rfl, rfl, rfl, rfl⟩, rfl, ?_, fun q ne kept => ?_,
    fun q ne => Function.update_of_ne ne ..⟩
  · simp only [entryAt, LeafBody.hasKsuf, here]
    simp [LeafBody.setEntry]
  · refine entryAt_congr (Function.update_of_ne ne ..) (Function.update_of_ne ne ..)
      (Function.update_of_ne ne ..) fun suffix => ?_
    refine frame q (mem_ksufSlots.mpr ⟨kept, ne, ?_⟩)
    simpa [LeafBody.hasKsuf, LeafBody.setEntry, ne] using suffix

/-- The suffixes of the slots that an assignment keeps are not empty. -/
def KsufsOk (b : LeafBody) (p : Nat) (initializing : Bool) : Prop :=
  ∀ q, q ≠ p → Kept b p initializing q → b.hasKsuf q = true → b.getKsuf q ≠ []

theorem assign_total {b : LeafBody} {p : Nat} {k : Key} {initializing : Bool} (valid : LeafValid b)
    (ok : KeyOk k) (others : KsufsOk b p initializing)
    (fresh : initializing = false → p ∉ b.permutation.live) :
    ∃ b', b.assign p k initializing = some b' ∧ AssignedTo b b' p initializing (Key.entry k .empty) := by
  simp only [LeafBody.assign, Key.entry]
  cases long : k.hasSuffix
  · have short : k.len ≤ 8 := (not_hasSuffix_iff k).mp long
    rw [ok.short long]
    exact ⟨_, rfl, assigned_plain valid (by simp only [ksufKeylenx]; omega)⟩
  · exact assigned_ksuf valid (ok.long long) others fresh

theorem assignFrom_total {b x : LeafBody} {p xp : Nat} (valid : LeafValid b)
    (long : x.hasKsuf xp = true → x.getKsuf xp ≠ []) (others : KsufsOk b p true) :
    ∃ b', b.assignFrom p x xp = some b' ∧ AssignedTo b b' p true (entryAt x xp) := by
  simp only [LeafBody.assignFrom, entryAt]
  cases has : x.hasKsuf xp
  · have plain : x.keylenx xp ≠ ksufKeylenx := by simpa [LeafBody.hasKsuf] using has
    exact ⟨_, rfl, assigned_plain valid plain⟩
  · have len : x.keylenx xp = ksufKeylenx := by simpa [LeafBody.hasKsuf] using has
    simp only [if_true, len]
    exact assigned_ksuf valid (long has) others (by intros; contradiction)

/-! The order of the entries. -/

def Sorted (l : List Entry) : Prop := l.Pairwise fun x y => x.rank < y.rank

/-- What a slot can hold: a key of at most eight bytes, one with a suffix, or a layer. -/
structure EntryOk (e : Entry) : Prop where
  len : e.keylenx ≤ ikeySize ∨ e.keylenx = ksufKeylenx ∨ e.keylenx = layerKeylenx
  suffix : e.suffix ≠ [] ↔ e.keylenx = ksufKeylenx

structure EntriesOk (b : LeafBody) : Prop where
  valid : LeafValid b
  sorted : Sorted (entries b)
  each : ∀ e ∈ entries b, EntryOk e

theorem getElem_entries {b : LeafBody} (valid : PermValid b.permutation) {m : Nat}
    (small : m < b.size) : (entries b)[m]? = some (entryAt b (b.permutation.get m)) := by
  have live : b.permutation.live[m]? = some (b.permutation.get m) := by
    rw [Kpermuter.live, List.getElem?_take_of_lt (show m < b.permutation.size from small)]
    exact valid.get_eq (small.trans_le valid.size)
  rw [entries, List.getElem?_map, live]
  rfl

theorem length_entries {b : LeafBody} (valid : PermValid b.permutation) :
    (entries b).length = b.size := by
  rw [entries, List.length_map]
  exact valid.length_live

theorem mem_entries {b : LeafBody} {e : Entry} :
    e ∈ entries b ↔ ∃ p ∈ b.permutation.live, entryAt b p = e := List.mem_map

/-- The place of a rank among sorted entries. -/
theorem exists_place {l : List Entry} (sorted : Sorted l) (r : Nat) :
    ∃ i ≤ l.length, (∀ e ∈ l.take i, e.rank < r) ∧ ∀ e ∈ l.drop i, r ≤ e.rank := by
  induction l with
  | nil => exact ⟨0, le_rfl, nofun, nofun⟩
  | cons x l ih =>
      obtain ⟨first, rest⟩ := List.pairwise_cons.mp sorted
      by_cases less : x.rank < r
      · obtain ⟨i, small, before, behind⟩ := ih rest
        refine ⟨i + 1, Nat.succ_le_succ small, fun e member => ?_, behind⟩
        rcases List.mem_cons.mp member with rfl | member
        · exact less
        · exact before e member
      · refine ⟨0, Nat.zero_le _, nofun, fun e member => ?_⟩
        rcases List.mem_cons.mp member with rfl | member
        · exact Nat.le_of_not_lt less
        · exact (Nat.le_of_not_lt less).trans (first e member).le

/-- `i` is the place of a key of rank `r`, and `slot` is the slot that holds it. -/
structure Place (b : LeafBody) (r : Nat) (i : Nat) (slot : Option Nat) : Prop where
  small : i ≤ b.size
  before : ∀ e ∈ (entries b).take i, e.rank < r
  found : ∀ p, slot = some p → i < b.size ∧ p = b.permutation.get i ∧ (entryAt b p).rank = r
  missing : slot = none → ∀ e ∈ (entries b).drop i, r < e.rank

theorem lower_place {b : LeafBody} (ok : EntriesOk b) (k : Key) :
    Place b (Key.rank k) (b.lower k).1 (b.lower k).2 := by
  have valid := ok.valid.body.permutation
  have length := length_entries valid
  obtain ⟨i, small, before, behind⟩ := exists_place ok.sorted (Key.rank k)
  rw [length] at small
  have at' {m : Nat} (low : m < b.size) : (entries b)[m]? = some (entryAt b (b.permutation.get m)) :=
    getElem_entries valid low
  have cmp (m : Nat) : b.compareKey k (b.permutation.get m) =
      Ord.compare (Key.rank k) (entryAt b (b.permutation.get m)).rank := compare_eq k _ _
  have late {m : Nat} (from' : i ≤ m) (low : m < b.size) :
      Key.rank k ≤ (entryAt b (b.permutation.get m)).rank := by
    refine behind _ (List.mem_drop_iff_getElem.mpr ⟨m - i, by omega, ?_⟩)
    have here := at' low
    rw [List.getElem?_eq_some_iff] at here
    obtain ⟨bound, here⟩ := here
    simpa [show i + (m - i) = m by omega] using here
  have strict {m : Nat} (from' : i < m) (low : m < b.size) :
      Key.rank k < (entryAt b (b.permutation.get m)).rank := by
    refine (late le_rfl (from'.trans low)).trans_lt ?_
    obtain ⟨left, here⟩ := List.getElem?_eq_some_iff.mp (at' (from'.trans low))
    obtain ⟨right, there⟩ := List.getElem?_eq_some_iff.mp (at' low)
    rw [← here, ← there]
    exact List.pairwise_iff_getElem.mp ok.sorted i m left right from'
  have search := @keyBound_eq (fun m => b.compareKey k (b.permutation.get m)) i b.size 0 b.size
    (Nat.zero_le i) small (by omega)
    (fun m _ less => by
      rw [cmp]
      refine compare_gt_iff_gt.mpr (before _ (List.mem_take_iff_getElem.mpr ?_))
      obtain ⟨bound, here⟩ := List.getElem?_eq_some_iff.mp (at' (show m < b.size by omega))
      exact ⟨m, by omega, here⟩)
    (fun low => by
      rw [cmp]
      exact fun more => absurd (compare_gt_iff_gt.mp more) (Nat.not_lt.mpr (late le_rfl low)))
    (fun m more low => by
      rw [cmp]
      exact compare_lt_iff_lt.mpr (strict more low))
  simp only [LeafBody.lower, keyLowerBound, search]
  by_cases hit : i < b.size ∧ (entryAt b (b.permutation.get i)).rank = Key.rank k
  · have found : (decide (i < b.size) && b.compareKey k (b.permutation.get i) == .eq) = true := by
      rw [cmp, hit.2]
      simp [hit.1]
    rw [found]
    change Place b _ i (some _)
    refine ⟨small, before, ?_, by intros; contradiction⟩
    rintro p ⟨⟩
    exact ⟨hit.1, rfl, hit.2⟩
  · have missed : (decide (i < b.size) && b.compareKey k (b.permutation.get i) == .eq) = false := by
      by_cases low : i < b.size
      · have ne : Key.rank k ≠ (entryAt b (b.permutation.get i)).rank :=
          fun same => hit ⟨low, same.symm⟩
        simp [cmp, ne]
      · simp [low]
    rw [missed]
    change Place b _ i none
    refine ⟨small, before, by intros; contradiction, fun _ e member => ?_⟩
    refine lt_of_le_of_ne (behind e member) fun same => ?_
    obtain ⟨d, bound, here⟩ := List.mem_drop_iff_getElem.mp member
    rw [length] at bound
    have value := at' (show i + d < b.size by omega)
    obtain ⟨_, there⟩ := List.getElem?_eq_some_iff.mp value
    rw [there] at here
    by_cases zero : d = 0
    · subst zero
      exact hit ⟨by omega, by rw [same, ← here]; rfl⟩
    · have := strict (show i < i + d by omega) (show i + d < b.size by omega)
      rw [here] at this
      omega

/-! Changes of the entries. -/

theorem live_insertFromBack_eq {p : Kpermuter} (h : PermValid p) {i : Nat} (place : i ≤ p.size)
    (room : p.size < leafWidth) : (p.insertFromBack i).live = p.live.insertIdx i p.back := by
  have full := h.length
  simp only [Kpermuter.live, Kpermuter.insertFromBack]
  exact List.ext_getElem (by grind) (by grind)

theorem live_remove_eq {p : Kpermuter} (h : PermValid p) {i : Nat} (place : i < p.size) :
    (p.remove i).live = p.live.eraseIdx i := by
  have full := h.length
  have size := h.size
  simp only [Kpermuter.live, Kpermuter.remove]
  exact List.ext_getElem (by grind) (by grind)

theorem entryAt_setValue {b : LeafBody} {p q : Nat} {v : Leafvalue} :
    entryAt (b.setValue p v) q = if q = p then { entryAt b q with lv := v } else entryAt b q := by
  by_cases same : q = p
  · subst same
    simp [entryAt, LeafBody.setValue, LeafBody.hasKsuf, LeafBody.getKsuf]
  · simp [entryAt, LeafBody.setValue, LeafBody.hasKsuf, LeafBody.getKsuf, same]

theorem entryAt_setPermutation (b : LeafBody) (perm : Kpermuter) (q : Nat) :
    entryAt (b.setPermutation perm) q = entryAt b q := rfl

theorem entries_setPermutation (b : LeafBody) (perm : Kpermuter) :
    entries (b.setPermutation perm) = perm.live.map (entryAt b) := rfl

theorem Sorted.insertIdx {l : List Entry} {i : Nat} {e : Entry} (sorted : Sorted l)
    (small : i ≤ l.length) (before : ∀ x ∈ l.take i, x.rank < e.rank)
    (behind : ∀ x ∈ l.drop i, e.rank < x.rank) : Sorted (l.insertIdx i e) := by
  have whole : l.insertIdx i e = l.take i ++ e :: l.drop i := by
    exact List.ext_getElem (by grind) (by grind)
  rw [whole]
  rw [Sorted, ← List.take_append_drop i l, List.pairwise_append] at sorted
  refine List.pairwise_append.mpr ⟨sorted.1, List.pairwise_cons.mpr ⟨behind, sorted.2.1⟩, ?_⟩
  intro x member y other
  rcases List.mem_cons.mp other with rfl | other
  · exact before x member
  · exact sorted.2.2 x member y other

theorem LeafValid.setPermutation {b : LeafBody} (valid : LeafValid b) {perm : Kpermuter}
    (h : PermValid perm) : LeafValid (b.setPermutation perm) :=
  ⟨⟨h, valid.body.iksuf, valid.body.ksuf⟩, valid.bag⟩

theorem LeafValid.setValue {b : LeafBody} (valid : LeafValid b) (p : Nat) (v : Leafvalue) :
    LeafValid (b.setValue p v) := ⟨⟨valid.body.permutation, valid.body.iksuf, valid.body.ksuf⟩, valid.bag⟩

/-- The leaf after an assignment to the last free slot and `finish_insert`. -/
theorem entries_insert {b b' : LeafBody} {e : Entry} {i : Nat} {v : Leafvalue}
    (valid : PermValid b.permutation) (place : i ≤ b.size) (room : b.size < leafWidth)
    (here : entryAt b' b.permutation.back = e)
    (others : ∀ q ∈ b.permutation.live, entryAt b' q = entryAt b q) :
    entries ((b'.setValue b.permutation.back v).setPermutation (b.permutation.insertFromBack i)) =
      (entries b).insertIdx i { e with lv := v } := by
  have dead := valid.back_not_live room
  rw [entries_setPermutation, live_insertFromBack_eq valid place room, List.map_insertIdx, entries]
  congr 1
  · refine List.map_congr_left fun q live => ?_
    have ne : q ≠ b.permutation.back := fun same => dead (same ▸ live)
    rw [entryAt_setValue, if_neg ne, others q live]
  · rw [entryAt_setValue, if_pos rfl, here]

theorem entries_remove {b : LeafBody} {i : Nat} (valid : PermValid b.permutation)
    (place : i < b.size) :
    entries (b.setPermutation (b.permutation.remove i)) = (entries b).eraseIdx i := by
  rw [entries_setPermutation, live_remove_eq valid place, entries, List.eraseIdx_map]

theorem entries_setValue {b : LeafBody} {i : Nat} {v : Leafvalue} (valid : PermValid b.permutation)
    (place : i < b.size) :
    entries (b.setValue (b.permutation.get i) v) =
      (entries b).set i { entryAt b (b.permutation.get i) with lv := v } := by
  have size := valid.size
  have length := valid.length_live
  refine List.ext_getElem (by simp [entries, LeafBody.setValue]) fun j left right => ?_
  simp only [entries, List.length_map, List.length_set] at left right
  have small : j < b.size := by rwa [length] at right
  have at' : b.permutation.live[j] = b.permutation.get j := by
    simp only [Kpermuter.live, List.getElem_take]
    exact getElem_eq _
  simp only [entries, List.getElem_map, List.getElem_set]
  change entryAt _ b.permutation.live[j] = _
  rw [entryAt_setValue, at']
  by_cases same : i = j
  · rw [if_pos same, if_pos (by rw [same]), same]
  · rw [if_neg same, if_neg]
    exact fun equal => same (valid.get_inj (by unfold LeafBody.size at *; omega)
      (by unfold LeafBody.size at *; omega) equal.symm)

end Incll.Proof.Layers
