import Incll.Model.Ksearch
import Mathlib.Data.Prod.Lex
import Mathlib.Data.Nat.Count

/-! # The binary and the linear searches agree -/

namespace Incll.Proof.Ksearch
open Incll.Model

section
variable {perm : KeyPermuter} {comparator : Nat → Ordering}

theorem upperLoop_eq {i l r : Nat} (low : l ≤ i) (high : i ≤ r)
    (before : ∀ m, m < i → comparator (perm.get m) ≠ .lt)
    (last : ∀ m, m < r → comparator (perm.get m) = .eq → m + 1 = i)
    (behind : ∀ m, i ≤ m → m < r → comparator (perm.get m) = .lt) :
    upperLoop perm comparator l r = i := by
  fun_induction upperLoop perm comparator l r with
  | case1 l r wide m less ih =>
      have place : i ≤ m := by
        by_contra early
        exact before m (by omega) less
      exact ih low place (fun j bound => last j (by omega)) (fun j from' bound => behind j from' (by omega))
  | case2 l r wide m same => exact last m (by omega) same
  | case3 l r wide m more ih =>
      have place : m < i := by
        by_contra late
        rw [behind m (by omega) (by omega)] at more
        cases more
      exact ih place high last behind
  | case4 l r narrow => omega

theorem findUpperLoop_eq {i l r : Nat} (low : l ≤ i) (high : i ≤ r)
    (before : ∀ m, m < i → comparator (perm.get m) ≠ .lt)
    (behind : ∀ m, i ≤ m → m < r → comparator (perm.get m) = .lt) :
    findUpperLoop perm comparator l r = i := by
  fun_induction findUpperLoop perm comparator l r with
  | case1 l wide less =>
      by_contra early
      exact before l (by omega) less
  | case2 l wide more ih =>
      have place : l < i := by
        by_contra late
        exact more (behind l (by omega) wide)
      exact ih place
  | case3 l narrow => omega

theorem lowerLoop_eq {i l r : Nat} (low : l ≤ i) (high : i ≤ r)
    (before : ∀ m, m < i → comparator (perm.get m) = .gt)
    (here : i < r → comparator (perm.get i) ≠ .gt)
    (behind : ∀ m, i < m → m < r → comparator (perm.get m) = .lt) :
    lowerLoop perm comparator l r =
      ⟨i, if i < r ∧ comparator (perm.get i) = .eq then some (perm.get i) else none⟩ := by
  fun_induction lowerLoop perm comparator l r with
  | case1 l r wide m less ih =>
      have place : i ≤ m := by
        by_contra early
        rw [before m (by omega)] at less
        cases less
      rw [ih low place (fun bound => here (by omega)) (fun j from' bound => behind j from' (by omega))]
      by_cases edge : i = m
      · simp [edge, less]
      · simp [show i < m by omega, show i < r by omega]
  | case2 l r wide m same =>
      have place : m = i := by
        rcases Nat.lt_trichotomy m i with early | place | late
        · rw [before m early] at same
          cases same
        · exact place
        · rw [behind m late (by omega)] at same
          cases same
      subst place
      simp [same, show m < r by omega]
  | case3 l r wide m more ih =>
      have place : m < i := by
        rcases Nat.lt_trichotomy m i with early | place | late
        · exact early
        · exact absurd (place ▸ more) (here (by omega))
        · rw [behind m late (by omega)] at more
          cases more
      exact ih place high here behind
  | case4 l r narrow =>
      have place : l = i := by omega
      simp [← place, narrow]

theorem findLowerLoop_eq {i l r : Nat} (low : l ≤ i) (high : i ≤ r)
    (before : ∀ m, m < i → comparator (perm.get m) = .gt)
    (here : i < r → comparator (perm.get i) ≠ .gt)
    (behind : ∀ m, i < m → m < r → comparator (perm.get m) = .lt) :
    findLowerLoop perm comparator l r =
      ⟨i, if i < r ∧ comparator (perm.get i) = .eq then some (perm.get i) else none⟩ := by
  have arrive (l : Nat) (low : l ≤ i) (stop : comparator (perm.get l) ≠ .gt) : l = i := by
    by_contra early
    exact stop (before l (by omega))
  fun_induction findLowerLoop perm comparator l r with
  | case1 l wide less =>
      have place := arrive l low (by simp [less])
      subst place
      simp [less]
  | case2 l wide same =>
      have place := arrive l low (by simp [same])
      subst place
      simp [same, wide]
  | case3 l wide more ih =>
      have place : l < i := by
        by_contra late
        have place : l = i := by omega
        exact here (place ▸ wide) (place ▸ more)
      exact ih place
  | case4 l narrow =>
      have place : l = i := by omega
      simp [← place, narrow]

end

/-- Where `P` holds up to some number, that number is its count. -/
theorem lt_count {P : Nat → Prop} [DecidablePred P] {size : Nat}
    (down : ∀ m n, m ≤ n → n < size → P n → P m) {m : Nat} (bound : m < size) :
    m < Nat.count P size ↔ P m := by
  induction size with
  | zero => cases bound
  | succ size ih =>
      have most : Nat.count P size ≤ size := Nat.count_le P
      rw [Nat.count_succ]
      by_cases last : P size
      · have all : Nat.count P size = size :=
          Nat.count_iff_forall.mpr fun j less => down j size less.le (Nat.lt_succ_self _) last
        rw [all, if_pos last]
        exact iff_of_true bound (down m size (by omega) (Nat.lt_succ_self _) last)
      · rw [if_neg last, Nat.add_zero]
        rcases Nat.lt_succ_iff_lt_or_eq.mp bound with less | same
        · exact ih (fun a b le less' => down a b le (by omega)) less
        · subst same
          exact iff_of_false (by omega) last

section
variable {α : Type} [LinearOrder α] {perm : KeyPermuter} {comparator : Nat → Ordering} {entry : Nat → α}
  {k : α}

/-- The entries are strictly increasing in permutation order. -/
def Increasing (perm : KeyPermuter) (entry : Nat → α) : Prop :=
  ∀ m, m + 1 < perm.size → entry (perm.get m) < entry (perm.get (m + 1))

theorem Increasing.lt (sorted : Increasing perm entry) {m n : Nat} (less : m < n)
    (bound : n < perm.size) : entry (perm.get m) < entry (perm.get n) := by
  induction n with
  | zero => cases less
  | succ n ih =>
      rcases Nat.lt_succ_iff_lt_or_eq.mp less with less | same
      · exact (ih less (by omega)).trans (sorted n bound)
      · exact same ▸ sorted n bound

theorem Increasing.le (sorted : Increasing perm entry) {m n : Nat} (le : m ≤ n)
    (bound : n < perm.size) : entry (perm.get m) ≤ entry (perm.get n) := by
  rcases Nat.lt_or_eq_of_le le with less | same
  · exact (sorted.lt less bound).le
  · exact same ▸ le_rfl

/-- The position of the search key behind the entries that are not greater. -/
def upperCount (perm : KeyPermuter) (entry : Nat → α) (k : α) : Nat :=
  Nat.count (fun m => entry (perm.get m) ≤ k) perm.size

/-- The position of the search key behind the entries that are less. -/
def lowerCount (perm : KeyPermuter) (entry : Nat → α) (k : α) : Nat :=
  Nat.count (fun m => entry (perm.get m) < k) perm.size

theorem lt_upperCount (sorted : Increasing perm entry) {m : Nat} (bound : m < perm.size) :
    m < upperCount perm entry k ↔ entry (perm.get m) ≤ k :=
  lt_count (fun _ _ le bound => (sorted.le le bound).trans) bound

theorem lt_lowerCount (sorted : Increasing perm entry) {m : Nat} (bound : m < perm.size) :
    m < lowerCount perm entry k ↔ entry (perm.get m) < k :=
  lt_count (fun _ _ le bound => (sorted.le le bound).trans_lt) bound

theorem upperCount_le : upperCount perm entry k ≤ perm.size := Nat.count_le _

theorem lowerCount_le : lowerCount perm entry k ≤ perm.size := Nat.count_le _

variable (compares : ∀ p, comparator p = compare k (entry p)) (sorted : Increasing perm entry)
include compares sorted

theorem upper_ne_lt {m : Nat} (less : m < upperCount perm entry k) :
    comparator (perm.get m) ≠ .lt := by
  have most := (lt_upperCount sorted (less.trans_le upperCount_le)).mp less
  rw [compares]
  exact compare_lt_iff_lt.not.mpr most.not_gt

theorem upper_lt {m : Nat} (behind : upperCount perm entry k ≤ m) (bound : m < perm.size) :
    comparator (perm.get m) = .lt := by
  rw [compares]
  exact compare_lt_iff_lt.mpr (not_le.mp ((lt_upperCount sorted bound).not.mp behind.not_gt))

theorem keyFindUpperBoundBy_eq : keyFindUpperBoundBy perm comparator = upperCount perm entry k :=
  findUpperLoop_eq (Nat.zero_le _) upperCount_le (fun _ => upper_ne_lt compares sorted)
    fun _ => upper_lt compares sorted

theorem keyUpperBoundBy_eq : keyUpperBoundBy perm comparator = upperCount perm entry k := by
  refine upperLoop_eq (Nat.zero_le _) upperCount_le (fun _ => upper_ne_lt compares sorted) ?_
    fun _ => upper_lt compares sorted
  intro m bound same
  rw [compares, compare_eq_iff_eq] at same
  have low : m < upperCount perm entry k := (lt_upperCount sorted bound).mpr same.ge
  by_contra apart
  have most : upperCount perm entry k ≤ perm.size := upperCount_le
  have next := (lt_upperCount (k := k) sorted (show m + 1 < perm.size by omega)).mp (by omega)
  exact absurd (sorted m (by omega)) (same ▸ next).not_gt

theorem lower_gt {m : Nat} (less : m < lowerCount perm entry k) :
    comparator (perm.get m) = .gt := by
  rw [compares]
  exact compare_gt_iff_gt.mpr ((lt_lowerCount sorted (less.trans_le lowerCount_le)).mp less)

theorem lower_ne_gt {m : Nat} (behind : lowerCount perm entry k ≤ m) (bound : m < perm.size) :
    comparator (perm.get m) ≠ .gt := by
  rw [compares]
  exact compare_gt_iff_gt.not.mpr ((lt_lowerCount sorted bound).not.mp behind.not_gt)

theorem lower_lt {m : Nat} (behind : lowerCount perm entry k < m) (bound : m < perm.size) :
    comparator (perm.get m) = .lt := by
  have here := (lt_lowerCount sorted (behind.trans bound)).not.mp (Nat.lt_irrefl _)
  rw [compares]
  exact compare_lt_iff_lt.mpr ((not_lt.mp here).trans_lt (sorted.lt behind bound))

theorem keyLowerBoundBy_eq : keyLowerBoundBy perm comparator = keyFindLowerBoundBy perm comparator := by
  have most : lowerCount perm entry k ≤ perm.size := lowerCount_le
  unfold keyLowerBoundBy keyFindLowerBoundBy
  rw [lowerLoop_eq (Nat.zero_le _) most, findLowerLoop_eq (Nat.zero_le _) most]
  all_goals first
    | exact fun _ => lower_gt compares sorted
    | exact lower_ne_gt compares sorted le_rfl
    | exact fun _ => lower_lt compares sorted

theorem keyFindLowerBoundBy_i : (keyFindLowerBoundBy perm comparator).i = lowerCount perm entry k := by
  unfold keyFindLowerBoundBy
  rw [findLowerLoop_eq (Nat.zero_le _) lowerCount_le (fun _ => lower_gt compares sorted)
    (lower_ne_gt compares sorted le_rfl) fun _ => lower_lt compares sorted]

theorem keyFindLowerBoundBy_none :
    (keyFindLowerBoundBy perm comparator).p = none ↔ ∀ m < perm.size, entry (perm.get m) ≠ k := by
  unfold keyFindLowerBoundBy
  rw [findLowerLoop_eq (Nat.zero_le _) lowerCount_le (fun _ => lower_gt compares sorted)
    (lower_ne_gt compares sorted le_rfl) fun _ => lower_lt compares sorted]
  simp only [ite_eq_right_iff, reduceCtorEq, imp_false, compares, compare_eq_iff_eq, not_and]
  constructor
  · intro missing m bound same
    have place : lowerCount perm entry k = m := by
      rcases Nat.lt_trichotomy (lowerCount perm entry k) m with less | place | more
      · have := lower_lt compares sorted less bound
        rw [compares, compare_lt_iff_lt] at this
        exact absurd this same.not_gt
      · exact place
      · exact absurd same ((lt_lowerCount sorted bound).mp more).ne
    exact missing (place ▸ bound) (place ▸ same.symm)
  · intro missing bound same
    exact missing _ bound same.symm

theorem keyFindLowerBoundBy_some {p : Nat} (found : (keyFindLowerBoundBy perm comparator).p = some p) :
    lowerCount perm entry k < perm.size ∧ p = perm.get (lowerCount perm entry k) ∧ entry p = k := by
  unfold keyFindLowerBoundBy at found
  rw [findLowerLoop_eq (Nat.zero_le _) lowerCount_le (fun _ => lower_gt compares sorted)
    (lower_ne_gt compares sorted le_rfl) fun _ => lower_lt compares sorted] at found
  simp only [Option.ite_none_right_eq_some, Option.some.injEq] at found
  obtain ⟨⟨bound, same⟩, rfl⟩ := found
  rw [compares, compare_eq_iff_eq] at same
  exact ⟨bound, rfl, same.symm⟩

end

/-- To `key::compare` all length codes above eight are one. -/
def lengthCode (keylenx : Nat) : Nat := min keylenx (ikeySize + 1)

/-- What a search in `n` compares of the entry in slot `p`. -/
def entryKey (n : Kind) (p : Nat) : Nat ×ₗ Nat :=
  match n with
  | .leaf l => toLex (l.body.ikey0 p, lengthCode (l.body.keylenx p))
  | .internode i => toLex (i.ikey0 p, 0)

def searchKey (n : Kind) (k : Key) : Nat ×ₗ Nat :=
  match n with
  | .leaf _ => toLex (k.ikey, lengthCode k.len)
  | .internode _ => toLex (k.ikey, 0)

theorem compare_toLex (a b c d : Nat) :
    compare (toLex (a, b)) (toLex (c, d)) = (compare a c).then (compare b d) := rfl

theorem compareKey_eq (n : Kind) (k : Key) (p : Nat) :
    n.compareKey k p = compare (searchKey n k) (entryKey n p) := by
  cases n with
  | internode i => simp [Kind.compareKey, searchKey, entryKey, compare_toLex]
  | leaf l =>
      simp only [Kind.compareKey, LeafBody.compareKey, Key.compare, searchKey, entryKey, compare_toLex]
      cases compare k.ikey (l.body.ikey0 p) with
      | lt => rfl
      | gt => rfl
      | eq =>
          simp only [Key.hasSuffix, decide_eq_true_eq, Ordering.then, lengthCode]
          split_ifs with suffix short
          · exact (compare_gt_iff_gt.mpr (by omega)).symm
          · exact (compare_eq_iff_eq.mpr (by omega)).symm
          · rcases Nat.lt_trichotomy k.len (l.body.keylenx p) with less | same | more
            · rw [compare_lt_iff_lt.mpr less, compare_lt_iff_lt.mpr (by omega)]
            · rw [same]
              simp
            · rw [compare_gt_iff_gt.mpr more, compare_gt_iff_gt.mpr (by omega)]

/-- Both searches find the same position, with the slot of the equal entry if there is one. -/
theorem keyBound_agree (n : Kind) (k : Key) (sorted : Increasing n.keyPermuter (entryKey n))
    (bound : KeyBound) :
    bound.upper k n = upperCount n.keyPermuter (entryKey n) (searchKey n k) ∧
    (bound.lower k n).i = lowerCount n.keyPermuter (entryKey n) (searchKey n k) ∧
    ((bound.lower k n).p = none ↔
      ∀ m < n.keyPermuter.size, entryKey n (n.keyPermuter.get m) ≠ searchKey n k) ∧
    (∀ p, (bound.lower k n).p = some p → (bound.lower k n).i < n.keyPermuter.size ∧
      p = n.keyPermuter.get (bound.lower k n).i ∧ entryKey n p = searchKey n k) ∧
    KeyBound.binary.upper k n = KeyBound.linear.upper k n ∧
    KeyBound.binary.lower k n = KeyBound.linear.lower k n := by
  have compares := compareKey_eq n k
  have lower : bound.lower k n = KeyBound.linear.lower k n := by
    cases bound with
    | binary => exact keyLowerBoundBy_eq compares sorted
    | linear => rfl
  have upper : bound.upper k n = upperCount n.keyPermuter (entryKey n) (searchKey n k) := by
    cases bound with
    | binary => exact keyUpperBoundBy_eq compares sorted
    | linear => exact keyFindUpperBoundBy_eq compares sorted
  have place : (KeyBound.linear.lower k n).i = _ := keyFindLowerBoundBy_i compares sorted
  rw [lower, place]
  refine ⟨upper, rfl, keyFindLowerBoundBy_none compares sorted,
    fun p => keyFindLowerBoundBy_some compares sorted, ?_, keyLowerBoundBy_eq compares sorted⟩
  exact (keyUpperBoundBy_eq compares sorted).trans (keyFindUpperBoundBy_eq compares sorted).symm

/-- A leaf with a suffix entry between two short ones, in the slots 5, 3 and 4. -/
def threeKeys : Kind :=
  .leaf ⟨.make 0, ((((LeafBody.make 0).setEntry 5 7 2 .empty).setEntry 3 7 ksufKeylenx .empty).setEntry
    4 9 0 .empty).setPermutation ⟨3, [5, 3, 4]⟩⟩

theorem keyBound_agree_threeKeys :
    KeyBound.binary.lower ⟨7, 12, []⟩ threeKeys = KeyBound.linear.lower ⟨7, 12, []⟩ threeKeys :=
  (keyBound_agree threeKeys ⟨7, 12, []⟩ (by
    intro m bound
    have small : m = 0 ∨ m = 1 := by
      change m + 1 < 3 at bound
      omega
    rcases small with rfl | rfl <;> decide) .binary).2.2.2.2.2

/-! The searches of the tree are the binary ones. -/

section
variable {perm : KeyPermuter} {comparator : Nat → Ordering}

theorem upperLoop_keyBound {fuel l r : Nat} (enough : r - l ≤ fuel) :
    upperLoop perm comparator l r =
      match keyBound (fun m => comparator (perm.get m)) fuel l r with
      | (m, true) => m + 1
      | (m, false) => m := by
  induction fuel generalizing l r with
  | zero =>
      unfold upperLoop
      simp [keyBound, show ¬ l < r by omega]
  | succ fuel ih =>
      unfold upperLoop
      simp only [keyBound]
      split
      · cases comparator (perm.get ((l + r) / 2)) with
        | lt => exact ih (by omega)
        | eq => rfl
        | gt => exact ih (by omega)
      · rfl

theorem lowerLoop_keyBound {fuel l r : Nat} (enough : r - l ≤ fuel) :
    lowerLoop perm comparator l r =
      match keyBound (fun m => comparator (perm.get m)) fuel l r with
      | (m, true) => ⟨m, some (perm.get m)⟩
      | (m, false) => ⟨m, none⟩ := by
  induction fuel generalizing l r with
  | zero =>
      unfold lowerLoop
      simp [keyBound, show ¬ l < r by omega]
  | succ fuel ih =>
      unfold lowerLoop
      simp only [keyBound]
      split
      · cases comparator (perm.get ((l + r) / 2)) with
        | lt => exact ih (by omega)
        | eq => rfl
        | gt => exact ih (by omega)
      · rfl

end

theorem leaf_lower (l : Leaf) (k : Key) :
    l.body.lower k = ((KeyBound.binary.lower k (.leaf l)).i, (KeyBound.binary.lower k (.leaf l)).p) := by
  have same : KeyBound.binary.lower k (.leaf l) = _ :=
    lowerLoop_keyBound (Nat.le_of_eq (Nat.sub_zero _))
  have search : keyLowerBound (fun m => l.body.compareKey k (l.body.permutation.get m)) l.body.size =
      keyBound (fun m => (Kind.leaf l).compareKey k ((Kind.leaf l).keyPermuter.get m))
        (Kind.leaf l).keyPermuter.size 0 (Kind.leaf l).keyPermuter.size := rfl
  rw [same, LeafBody.lower, search]
  generalize keyBound _ _ _ _ = found
  rcases found with ⟨m, _ | _⟩ <;> rfl

theorem internode_upper (i : Internode) (k : Key) :
    i.upper k.ikey = KeyBound.binary.upper k (.internode i) := by
  have same : KeyBound.binary.upper k (.internode i) = _ :=
    upperLoop_keyBound (Nat.le_of_eq (Nat.sub_zero _))
  rw [same]
  rfl

end Incll.Proof.Ksearch
