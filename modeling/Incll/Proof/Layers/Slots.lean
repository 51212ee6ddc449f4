import Incll.Lib.Tiling
import Incll.Proof.Layers.Run
import Incll.Proof.Layers.Search

/-! # The children of an internode

The children, each with the smallest ikey it is responsible for. Child 0 can be missing; then the
first key is the smallest ikey of the node. -/

namespace Incll.Proof.Layers
open Incll.Lib Incll.Model

/-- The ikeys that a node is responsible for: from `lo` up to `hi`. -/
structure Span where
  lo : Nat
  hi : Nat

def Owns (span : Addr → Option Span) (lo hi : Nat) (c : Addr) : Prop := span c = some ⟨lo, hi⟩

def slot (lo : Nat) (i : Internode) (m : Nat) : Nat × Addr :=
  (if m = 0 then lo else i.ikey0 (m - 1), i.child m)

/-- The slots from `a` up to `b`. -/
def part (lo : Nat) (i : Internode) (a b : Nat) : List (Nat × Addr) :=
  (List.range' a (b - a)).map (slot lo i)

def skip (i : Internode) : Nat := if i.child 0 = 0 then 1 else 0

def slots (lo : Nat) (i : Internode) : List (Nat × Addr) := part lo i (skip i) (i.nkeys + 1)

variable {lo lo' : Nat} {i i' : Internode}

theorem length_part (a b : Nat) : (part lo i a b).length = b - a := by
  simp [part]

theorem part_append {a b c : Nat} (first : a ≤ b) (second : b ≤ c) :
    part lo i a b ++ part lo i b c = part lo i a c := by
  rw [part, part, part, ← List.map_append, show c - a = (b - a) + (c - b) by omega,
    ← List.range'_append_1, show a + (b - a) = b by omega]

theorem part_cons {a b : Nat} (less : a < b) : part lo i a b = slot lo i a :: part lo i (a + 1) b := by
  rw [part, show b - a = (b - (a + 1)) + 1 by omega, List.range'_succ]
  rfl

theorem part_nil {a b : Nat} (more : b ≤ a) : part lo i a b = [] := by
  rw [part, show b - a = 0 by omega]
  rfl

/-- Slots that are the same up to their place. -/
theorem part_shift {a b a' b' : Nat} (width : b - a = b' - a')
    (same : ∀ m, m < b - a → slot lo i (a + m) = slot lo' i' (a' + m)) :
    part lo i a b = part lo' i' a' b' := by
  rw [part, part, ← width, List.range'_eq_map_range, List.range'_eq_map_range, List.map_map,
    List.map_map]
  refine List.map_congr_left fun m member => ?_
  exact same m (List.mem_range.mp member)

theorem mem_part {a b : Nat} {x : Nat × Addr} :
    x ∈ part lo i a b ↔ ∃ m, a ≤ m ∧ m < b ∧ slot lo i m = x := by
  simp only [part, List.mem_map, List.mem_range'_1]
  refine exists_congr fun m => ⟨?_, ?_⟩
  · rintro ⟨bounds, same⟩
    exact ⟨bounds.1, by omega, same⟩
  · rintro ⟨low, high, same⟩
    exact ⟨⟨low, by omega⟩, same⟩

theorem skip_le (i : Internode) : skip i ≤ 1 := by
  simp only [skip]
  split <;> omega

theorem skip_of_ne (h : i.child 0 ≠ 0) : skip i = 0 := if_neg h

theorem skip_of_eq (h : i.child 0 = 0) : skip i = 1 := if_pos h

/-- A slot among all slots. -/
structure SlotAt (lo : Nat) (i : Internode) (j : Nat) (before : List (Nat × Addr)) (x : Nat × Addr)
    (behind : List (Nat × Addr)) : Prop where
  small : j ≤ i.nkeys
  from' : skip i ≤ j
  before : before = part lo i (skip i) j
  here : slot lo i j = x
  behind : behind = part lo i (j + 1) (i.nkeys + 1)

theorem slotAt_of_eq {before behind : List (Nat × Addr)} {x : Nat × Addr}
    (split : slots lo i = before ++ x :: behind) :
    SlotAt lo i (before.length + skip i) before x behind := by
  have length := congrArg List.length split
  simp only [slots, length_part, List.length_append, List.length_cons] at length
  have cut : part lo i (skip i) (before.length + skip i) ++
      slot lo i (before.length + skip i) ::
        part lo i (before.length + skip i + 1) (i.nkeys + 1) = before ++ x :: behind := by
    rw [← split, ← part_cons (by omega), part_append (by omega) (by omega), slots]
  have first := List.append_inj cut (by rw [length_part]; omega)
  have second := List.cons.inj first.2
  exact ⟨by omega, by omega, first.1.symm, second.1, second.2.symm⟩

theorem SlotAt.eq {before behind : List (Nat × Addr)} {x : Nat × Addr} {j : Nat}
    (h : SlotAt lo i j before x behind) : slots lo i = before ++ x :: behind := by
  have := h.small
  rw [slots, h.before, h.behind, ← h.here, ← part_cons (by omega), part_append h.from' (by omega)]

theorem SlotAt.length {before behind : List (Nat × Addr)} {x : Nat × Addr} {j : Nat}
    (h : SlotAt lo i j before x behind) : before.length = j - skip i := by
  rw [h.before, length_part]

/-- The child that is responsible for an ikey. -/
theorem locate {span : Addr → Option Span} {hi x : Nat}
    (tiles : Tiles (Owns span) lo hi (slots lo i)) (low : lo ≤ x) (high : x < hi) :
    ∃ before k m c behind, Tile (Owns span) lo hi (slots lo i) before k m c behind ∧
      k ≤ x ∧ x < m ∧ SlotAt lo i (i.upper x) before (k, c) behind := by
  obtain ⟨before, k, m, c, behind, tile, least, most⟩ := tiles.find low high
  have place := slotAt_of_eq tile.eq
  refine ⟨before, k, m, c, behind, tile, least, most, ?_⟩
  have index : i.upper x = before.length + skip i := by
    refine upper_eq place.small (fun n bound => ?_) (fun pos => ?_) (fun less => ?_)
    · have sorted := tiles.pairwise
      have small := skip_le i
      have whole : slots lo i = part lo i (skip i) (n + 1) ++
          slot lo i (n + 1) :: slot lo i (n + 2) :: part lo i (n + 3) (i.nkeys + 1) := by
        rw [← part_cons (by omega), ← part_cons (by omega), part_append (by omega) (by omega), slots]
      rw [whole] at sorted
      have pair := (List.pairwise_append.mp sorted).2.1
      exact (List.pairwise_cons.mp pair).1 (slot lo i (n + 2)) (by simp)
    · have here := congrArg Prod.fst place.here
      simp only [slot, if_neg (show before.length + skip i ≠ 0 by omega)] at here
      omega
    · have rest := tile.behind
      rw [place.behind, part_cons (by omega)] at rest
      have start := rest.1
      change i.ikey0 (before.length + skip i) = m at start
      omega
  rw [index]
  exact place

/-! Changes of an internode. -/

section
variable {before behind : List (Nat × Addr)} {x : Nat × Addr} {j : Nat}

def inserted (i : Internode) (kp key : Nat) (child : Addr) : Internode :=
  { (i.shiftUp (kp + 1) kp (i.nkeys - kp)).assign kp key child with nkeys := i.nkeys + 1 }

theorem slot_inserted {kp key : Nat} {child : Addr} (small : kp ≤ i.nkeys) {m : Nat}
    (bound : m ≤ i.nkeys + 1) : slot lo (inserted i kp key child) m =
      if m ≤ kp then slot lo i m else if m = kp + 1 then (key, child) else slot lo i (m - 1) := by
  simp only [slot, inserted, Internode.shiftUp, Internode.shiftFrom, Internode.assign,
    Function.update_apply]
  grind

theorem skip_inserted (kp key : Nat) (child : Addr) : skip (inserted i kp key child) = skip i := by
  have same : (inserted i kp key child).child 0 = i.child 0 := by
    simp [inserted, Internode.shiftUp, Internode.shiftFrom, Internode.assign]
  rw [skip, same, skip]

theorem slots_inserted (h : SlotAt lo i j before x behind) (key : Nat) (child : Addr) :
    slots lo (inserted i j key child) = before ++ x :: (key, child) :: behind := by
  have small := h.small
  have from' := h.from'
  rw [slots, skip_inserted]
  change part lo _ (skip i) (i.nkeys + 1 + 1) = _
  rw [← part_append (show skip i ≤ j by omega) (by omega), part_cons (show j < _ by omega),
    part_cons (show j + 1 < _ by omega), slot_inserted small (by omega),
    slot_inserted small (by omega), if_pos le_rfl, if_neg (by omega), if_pos rfl, h.here, h.before,
    h.behind]
  congr 1
  · refine part_shift rfl fun m less => ?_
    rw [slot_inserted small (by omega), if_pos (by omega)]
  · congr 2
    refine part_shift (by omega) fun m less => ?_
    rw [slot_inserted small (by omega), if_neg (by omega), if_neg (by omega)]
    congr 1
    omega

theorem slots_setChild (h : SlotAt lo i j before x behind) (child : Addr) (ne : child ≠ 0) :
    slots lo (i.setChild j child) = before ++ (x.1, child) :: behind := by
  have same (m : Nat) (other : m ≠ j) : slot lo (i.setChild j child) m = slot lo i m := by
    simp [slot, Internode.setChild, other]
  have place : SlotAt lo (i.setChild j child) j before (x.1, child) behind := by
    have start : skip (i.setChild j child) = skip i := by
      by_cases zero : j = 0
      · subst zero
        have none : skip i = 0 := Nat.le_zero.mp h.from'
        rw [none]
        exact skip_of_ne (by simpa [Internode.setChild] using ne)
      · simp [skip, Internode.setChild, Ne.symm zero]
    refine ⟨h.small, by rw [start]; exact h.from', ?_, ?_, ?_⟩
    · rw [start, h.before]
      exact part_shift rfl fun m less => (same _ (by omega)).symm
    · rw [← h.here]
      simp [slot, Internode.setChild]
    · rw [h.behind]
      exact part_shift rfl fun m less => (same _ (by omega)).symm
  exact place.eq

theorem slots_setKey (h : SlotAt lo i j before x behind) (pos : 0 < j) (key : Nat) :
    slots lo (i.setKey (j - 1) key) = before ++ (key, x.2) :: behind := by
  have same (m : Nat) (other : m ≠ j) : slot lo (i.setKey (j - 1) key) m = slot lo i m := by
    by_cases zero : m = 0
    · simp [slot, Internode.setKey, zero]
    · simp [slot, Internode.setKey, zero, show m - 1 ≠ j - 1 by omega]
  have place : SlotAt lo (i.setKey (j - 1) key) j before (key, x.2) behind := by
    refine ⟨h.small, h.from', ?_, ?_, ?_⟩
    · rw [h.before]
      exact part_shift rfl fun m less => (same _ (by omega)).symm
    · rw [← h.here]
      simp [slot, Internode.setKey, show j ≠ 0 by omega]
    · rw [h.behind]
      exact part_shift rfl fun m less => (same _ (by omega)).symm
  exact place.eq

/-- The smallest ikey of a node without a first child does not show. -/
theorem slots_of_skip (none : skip i = 1) : slots lo i = slots lo' i := by
  rw [slots, slots, none]
  refine part_shift rfl fun m _ => ?_
  simp [slot]

theorem slots_of_first (some : skip i = 0) :
    slots lo i = (lo, i.child 0) :: part 0 i 1 (i.nkeys + 1) := by
  rw [slots, some, part_cons (by omega)]
  congr 1
  refine part_shift rfl fun m _ => ?_
  simp [slot]

/-- `remove_leaf` without a replacement. -/
def removed (i : Internode) (kp : Nat) : Internode :=
  if 0 < kp then
    { (i.setChild kp 0).shiftDown (kp - 1) kp (i.nkeys - kp) with nkeys := i.nkeys - 1 }
  else i.setChild kp 0

theorem slots_removed (h : SlotAt lo i j before x behind) :
    slots lo (removed i j) = before ++ behind := by
  have small := h.small
  have from' := h.from'
  by_cases zero : j = 0
  · subst zero
    have none : skip i = 0 := Nat.le_zero.mp from'
    have first : before = [] := by rw [h.before, none, part_nil le_rfl]
    have start : skip (i.setChild 0 0) = 1 := skip_of_eq (by simp [Internode.setChild])
    simp only [removed, Nat.lt_irrefl, if_false]
    rw [slots, start, first, h.behind, List.nil_append]
    refine part_shift rfl fun m _ => ?_
    simp [slot, Internode.setChild]
  · have pos : 0 < j := by omega
    have early (m : Nat) (less : m < j) : slot lo (removed i j) m = slot lo i m := by
      simp only [removed, pos, if_true, slot, Internode.shiftDown, Internode.shiftFrom,
        Internode.setChild, Function.update_apply]
      grind
    have late (m : Nat) (more : j ≤ m) (less : m < i.nkeys) :
        slot lo (removed i j) m = slot lo i (m + 1) := by
      simp only [removed, pos, if_true, slot, Internode.shiftDown, Internode.shiftFrom,
        Internode.setChild, Function.update_apply]
      grind
    have start : skip (removed i j) = skip i := by
      have first := congrArg Prod.snd (early 0 pos)
      simp only [slot] at first
      rw [skip, first, skip]
    have nkeys : (removed i j).nkeys = i.nkeys - 1 := by simp [removed, pos]
    rw [slots, start, nkeys, ← part_append from' (by omega), h.before, h.behind]
    congr 1
    · exact part_shift rfl fun m less => early _ (by omega)
    · refine part_shift (by omega) fun m less => ?_
      rw [late _ (by omega) (by omega)]
      congr 1
      omega

theorem slots_pair {height n key child : Nat} (ne : n ≠ 0) : slots lo
    { ((Internode.make 0 height).setChild 0 n).assign 0 key child with nkeys := 1 } =
      [(lo, n), (key, child)] := by
  rw [slots, skip_of_ne (by simpa [Internode.assign, Internode.setChild] using ne)]
  change part lo _ 0 2 = _
  rw [part_cons (by omega), part_cons (by omega), part_nil le_rfl]
  simp [slot, Internode.assign, Internode.setChild]

/-- The old node after `internode::split_into` and the insertion that is left to the caller. -/
def splitLeft (i : Internode) (mid kp key : Nat) (child : Addr) : Internode :=
  if kp < mid then inserted { i with nkeys := mid - 1 } kp key child else { i with nkeys := mid }

theorem slot_splitLeft {mid key : Nat} {child : Addr} (full : i.nkeys = internodeWidth)
    (low : 0 < mid) (high : mid ≤ internodeWidth) (small : j ≤ i.nkeys) {m : Nat} (bound : m ≤ mid) :
    slot lo (splitLeft i mid j key child) m = slot lo (inserted i j key child) m := by
  rw [slot_inserted small (by omega), splitLeft]
  by_cases left : j < mid
  · rw [if_pos left, slot_inserted (by simp only; omega) (by simp only; omega)]
    rfl
  · rw [if_neg left, if_pos (by omega)]
    rfl

theorem slot_splitRight {mid key : Nat} {child : Addr} {r : Internode}
    (full : i.nkeys = internodeWidth) (low : 0 < mid) (high : mid ≤ internodeWidth)
    (small : j ≤ i.nkeys) {m : Nat} (bound : m ≤ internodeWidth - mid) :
    slot (i.splitRight r mid j key child).2 (i.splitRight r mid j key child).1 m =
      slot lo (inserted i j key child) (mid + 1 + m) := by
  rw [slot_inserted small (by omega)]
  simp only [internodeWidth] at *
  simp only [Internode.splitRight]
  rcases Nat.lt_trichotomy j mid with less | same | more
  · simp only [less, if_true, slot, Internode.shiftFrom, Internode.setChild, Function.update_apply]
    grind [internodeWidth]
  · simp only [same, Nat.lt_irrefl, if_false, if_true, slot, Internode.shiftFrom, Internode.setChild,
      Function.update_apply]
    grind [internodeWidth]
  · obtain ⟨d, rfl⟩ := Nat.exists_eq_add_of_le more
    simp only [show ¬ mid + 1 + d < mid by omega, show mid + 1 + d ≠ mid by omega, if_false, slot,
      Internode.shiftFrom, Internode.setChild, Internode.assign, Function.update_apply,
      internodeWidth, show mid + 1 + d - (mid + 1) = d by omega,
      show mid + 1 + d + 1 - (mid + 1) = d + 1 by omega]
    rcases Nat.lt_trichotomy m (d + 1) with less | same | more
    · grind
    · grind
    · grind

theorem nkeys_splitLeft {mid key : Nat} {child : Addr} (low : 0 < mid) :
    (splitLeft i mid j key child).nkeys = mid := by
  rw [splitLeft]
  split
  · change mid - 1 + 1 = mid
    omega
  · rfl

theorem nkeys_splitRight (r : Internode) (mid kp key : Nat) (child : Addr) :
    (i.splitRight r mid kp key child).1.nkeys = internodeWidth - mid := by
  simp only [Internode.splitRight]
  split
  · simp only [Internode.shiftFrom, Internode.setChild]
    omega
  · split <;>
    · simp only [Internode.shiftFrom, Internode.setChild, Internode.assign]
      omega

theorem skip_splitLeft {mid key : Nat} {child : Addr} (full : i.nkeys = internodeWidth)
    (low : 0 < mid) (high : mid ≤ internodeWidth) (small : j ≤ i.nkeys) :
    skip (splitLeft i mid j key child) = skip i := by
  have first := congrArg Prod.snd
    (@slot_splitLeft 0 i j mid key child full low high small 0 (Nat.zero_le mid))
  rw [slot_inserted small (by omega), if_pos (Nat.zero_le j)] at first
  simp only [slot] at first
  rw [skip, first, skip]

/-- The two nodes after a split hold the old children and the new one. -/
theorem slots_split {mid key : Nat} {child : Addr} (h : SlotAt lo i j before x behind)
    (r : Internode) (full : i.nkeys = internodeWidth) (low : 0 < mid) (high : mid ≤ internodeWidth)
    (ne : (i.splitRight r mid j key child).1.child 0 ≠ 0) :
    slots lo (splitLeft i mid j key child) ++
        slots (i.splitRight r mid j key child).2 (i.splitRight r mid j key child).1 =
      before ++ x :: (key, child) :: behind := by
  have small := h.small
  have start := skip_le i
  rw [← slots_inserted h key child, slots, slots, slots, nkeys_splitLeft low, nkeys_splitRight,
    skip_splitLeft full low high small, skip_of_ne ne, skip_inserted]
  change _ = part lo _ (skip i) (i.nkeys + 1 + 1)
  rw [← part_append (show skip i ≤ mid + 1 by omega) (show mid + 1 ≤ i.nkeys + 1 + 1 by omega)]
  congr 1
  · exact part_shift rfl fun m less => slot_splitLeft full low high small (by omega)
  · refine part_shift (by omega) fun m less => ?_
    rw [Nat.zero_add]
    exact slot_splitRight full low high small (by omega)

/-- The first child of the new node is one of the old children or the new one, not the first. -/
theorem child_splitRight {mid key : Nat} {child : Addr} (h : SlotAt lo i j before x behind)
    (r : Internode) (full : i.nkeys = internodeWidth) (low : 0 < mid) (high : mid ≤ internodeWidth) :
    ((i.splitRight r mid j key child).2, (i.splitRight r mid j key child).1.child 0) ∈
      before ++ x :: (key, child) :: behind := by
  have start := skip_le i
  have first := @slot_splitRight lo i j mid key child r full low high h.small 0 (Nat.zero_le _)
  rw [← slots_inserted h key child, slots, skip_inserted]
  refine mem_part.mpr ⟨mid + 1 + 0, by omega, ?_, first.symm⟩
  change mid + 1 + 0 < i.nkeys + 1 + 1
  omega

/-- The new child is in the half of its place. -/
theorem mem_splitLeft {mid key : Nat} {child : Addr} (full : i.nkeys = internodeWidth) (low : 0 < mid)
    (high : mid ≤ internodeWidth) (small : j ≤ i.nkeys) (left : j < mid) :
    (key, child) ∈ slots lo (splitLeft i mid j key child) := by
  have start := skip_le (splitLeft i mid j key child)
  refine mem_part.mpr ⟨j + 1, by omega, by rw [nkeys_splitLeft low]; omega, ?_⟩
  rw [slot_splitLeft full low high small left, slot_inserted small (by omega), if_neg (by omega),
    if_pos rfl]

theorem mem_splitRight {mid key : Nat} {child : Addr} (r : Internode) (full : i.nkeys = internodeWidth)
    (low : 0 < mid) (high : mid ≤ internodeWidth) (small : j ≤ i.nkeys) (right : mid ≤ j)
    (ne : (i.splitRight r mid j key child).1.child 0 ≠ 0) :
    (key, child) ∈ slots (i.splitRight r mid j key child).2 (i.splitRight r mid j key child).1 := by
  refine mem_part.mpr ⟨j - mid, by rw [skip_of_ne ne]; omega, by rw [nkeys_splitRight]; omega, ?_⟩
  rw [@slot_splitRight 0 i j mid key child r full low high small _ (by omega),
    slot_inserted small (by omega), if_neg (by omega), if_pos (by omega)]

theorem slots_children (ne : i.child 0 ≠ 0) :
    (slots lo i).map Prod.snd = (List.range (i.nkeys + 1)).map i.child := by
  rw [slots, skip_of_ne ne, part, List.map_map, List.range_eq_range', Nat.sub_zero]
  rfl

theorem splitRight_rest (r : Internode) (mid kp key : Nat) (child : Addr) :
    (i.splitRight r mid kp key child).1.parent = r.parent ∧
      (i.splitRight r mid kp key child).1.height = r.height := by
  simp only [Internode.splitRight]
  split
  · exact ⟨rfl, rfl⟩
  · split <;> exact ⟨rfl, rfl⟩

end

end Incll.Proof.Layers
