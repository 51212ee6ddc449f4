import Incll.Model.Layers
import Incll.Proof.Leaf.Entries

/-! # Bound searches

The binary searches of `ksearch.hh` find the place of a key among sorted keys. -/

namespace Incll.Proof.Layers
open Incll.Model

/-- `i` is the place of the key: it is greater than the entries before `i` and less than those behind
`i`. -/
theorem keyBound_eq {cmp : Nat → Ordering} {i : Nat} (fuel l r : Nat) (low : l ≤ i) (high : i ≤ r)
    (enough : r - l ≤ fuel) (before : ∀ m, l ≤ m → m < i → cmp m = .gt)
    (here : i < r → cmp i ≠ .gt) (behind : ∀ m, i < m → m < r → cmp m = .lt) :
    keyBound cmp fuel l r = (i, decide (i < r) && cmp i == .eq) := by
  induction fuel generalizing l r with
  | zero =>
      have same : i = l := by omega
      have last : ¬ i < r := by omega
      simp [keyBound, same, show ¬ l < r by omega]
  | succ fuel ih =>
      simp only [keyBound]
      split
      · rename_i wide
        rcases Nat.lt_trichotomy ((l + r) / 2) i with less | same | more
        · rw [before _ (by omega) less]
          exact ih _ _ (by omega) high (by omega) (fun m low' => before m (by omega)) here behind
        · rw [same]
          cases found : cmp i with
          | eq => simp [show i < r by omega]
          | gt => exact absurd found (here (by omega))
          | lt =>
              simp only
              rw [ih _ _ low le_rfl (by omega) before (fun h => absurd h (Nat.lt_irrefl i))
                (fun m low' high' => absurd low' (by omega))]
              simp
        · rw [behind _ more (by omega)]
          simp only
          rw [ih _ _ low (by omega) (by omega) before (fun _ => here (by omega))
            (fun m low' high' => behind m low' (by omega))]
          simp [more, show i < r by omega]
      · rename_i narrow
        have same : i = l := by omega
        simp [same, narrow]

/-- The child of an internode that is responsible for a key. -/
theorem upper_eq {i : Internode} {ikey j : Nat} (small : j ≤ i.nkeys)
    (sorted : ∀ m, m + 1 < i.nkeys → i.ikey0 m < i.ikey0 (m + 1))
    (low : 0 < j → i.ikey0 (j - 1) ≤ ikey) (high : j < i.nkeys → ikey < i.ikey0 j) :
    i.upper ikey = j := by
  have mono (m d : Nat) (bound : m + d < i.nkeys) : i.ikey0 m ≤ i.ikey0 (m + d) := by
    induction d with
    | zero => exact le_rfl
    | succ d ih => exact (ih (by omega)).trans (sorted (m + d) bound).le
  have below (m : Nat) (less : m < j) : i.ikey0 m ≤ ikey := by
    have step := mono m (j - 1 - m) (by omega)
    rw [show m + (j - 1 - m) = j - 1 by omega] at step
    exact step.trans (low (by omega))
  have above (m : Nat) (from' : j ≤ m) (bound : m < i.nkeys) : ikey < i.ikey0 m := by
    have step := mono j (m - j) (by omega)
    rw [show j + (m - j) = m by omega] at step
    exact (high (by omega)).trans_le step
  simp only [Internode.upper, keyUpperBound]
  by_cases exact' : 0 < j ∧ i.ikey0 (j - 1) = ikey
  · obtain ⟨pos, same⟩ := exact'
    rw [keyBound_eq _ 0 i.nkeys (Nat.zero_le (j - 1)) (by omega) (by omega)]
    · have found : (decide (j - 1 < i.nkeys) && compare ikey (i.ikey0 (j - 1)) == .eq) = true := by
        simp [same, show j - 1 < i.nkeys by omega]
      rw [found]
      simp only
      omega
    · intro m _ less
      have strict : i.ikey0 m < ikey := by
        have step := mono (m + 1) (j - 1 - (m + 1)) (by omega)
        rw [show m + 1 + (j - 1 - (m + 1)) = j - 1 by omega, same] at step
        exact (sorted m (by omega)).trans_le step
      exact compare_gt_iff_gt.mpr strict
    · intro _
      rw [same]
      simp
    · intro m less bound
      exact compare_lt_iff_lt.mpr (above m (by omega) bound)
  · rw [keyBound_eq _ 0 i.nkeys (Nat.zero_le j) small (by omega)]
    · have missing : (decide (j < i.nkeys) && compare ikey (i.ikey0 j) == .eq) = false := by
        by_cases bound : j < i.nkeys
        · have less : compare ikey (i.ikey0 j) = .lt := compare_lt_iff_lt.mpr (high bound)
          simp [less]
        · simp [bound]
      rw [missing]
    · intro m _ less
      have most := below m less
      refine compare_gt_iff_gt.mpr (lt_of_le_of_ne most fun same => ?_)
      by_cases last : m = j - 1
      · exact exact' ⟨by omega, last ▸ same⟩
      · have step := sorted m (by omega)
        have := below (m + 1) (by omega)
        omega
    · intro bound
      rw [compare_lt_iff_lt.mpr (high bound)]
      decide
    · intro m less bound
      exact compare_lt_iff_lt.mpr (above m (by omega) bound)

end Incll.Proof.Layers
