import Incll.Model.Layers

/-! # Keys in slices

A layer orders keys by the first eight bytes and then by the length, all lengths over eight being
one. -/

namespace Incll.Proof.Layers
open Incll.Model

def ikeyLimit : Nat := 2 ^ 64

/-- The place of a key in the order of its layer. -/
def rank (ikey len : Nat) : Nat := 16 * ikey + min len 9

def Key.rank (k : Key) : Nat := Layers.rank k.ikey k.len

theorem rank_inj {x y a b : Nat} (same : rank x a = rank y b) : x = y ∧ min a 9 = min b 9 := by
  simp only [rank] at same
  omega

theorem rank_le {x y a b : Nat} (le : rank x a ≤ rank y b) : x ≤ y := by
  simp only [rank] at le
  omega

theorem rank_lt {x y a b : Nat} (less : x < y) : rank x a < rank y b := by
  simp only [rank]
  omega

theorem hasSuffix_iff (k : Key) : k.hasSuffix = true ↔ 8 < k.len := decide_eq_true_iff

theorem not_hasSuffix_iff (k : Key) : k.hasSuffix = false ↔ k.len ≤ 8 :=
  decide_eq_false_iff_not.trans Nat.not_lt

theorem compare_eq (k : Key) (ikey keylenx : Nat) :
    k.compare ikey keylenx = Ord.compare (Key.rank k) (rank ikey keylenx) := by
  simp only [Key.compare, Key.rank, rank, Key.hasSuffix, ikeySize]
  rcases Nat.lt_trichotomy k.ikey ikey with less | same | more
  · rw [compare_lt_iff_lt.mpr less]
    exact (compare_lt_iff_lt.mpr (by omega)).symm
  · subst same
    simp only [compare_eq_iff_eq.mpr rfl]
    by_cases long : 8 < k.len
    · simp only [long, decide_true, if_true]
      by_cases short : keylenx ≤ 8
      · simp only [short, if_true]
        exact (compare_gt_iff_gt.mpr (by omega)).symm
      · simp only [short, if_false]
        exact (compare_eq_iff_eq.mpr (by omega)).symm
    · simp only [long, decide_false, Bool.false_eq_true, if_false]
      rcases Nat.lt_trichotomy k.len keylenx with less | same | more
      · rw [compare_lt_iff_lt.mpr less]
        exact (compare_lt_iff_lt.mpr (by omega)).symm
      · rw [compare_eq_iff_eq.mpr same]
        exact (compare_eq_iff_eq.mpr (by omega)).symm
      · rw [compare_gt_iff_gt.mpr more]
        exact (compare_gt_iff_gt.mpr (by omega)).symm
  · rw [compare_gt_iff_gt.mpr more]
    exact (compare_gt_iff_gt.mpr (by omega)).symm

/-! The first slice. -/

theorem comparable_eq (s : List UInt8) : Key.comparable s =
    256 * (256 * (256 * (256 * (256 * (256 * (256 * (s.getD 0 0).toNat + (s.getD 1 0).toNat) +
      (s.getD 2 0).toNat) + (s.getD 3 0).toNat) + (s.getD 4 0).toNat) + (s.getD 5 0).toNat) +
      (s.getD 6 0).toNat) + (s.getD 7 0).toNat := by
  simp [Key.comparable, ikeySize, List.range_succ]

theorem comparable_lt (s : List UInt8) : Key.comparable s < ikeyLimit := by
  have byte (i : Nat) : (s.getD i 0).toNat < 256 := (s.getD i 0).toNat_lt
  have := byte 0; have := byte 1; have := byte 2; have := byte 3
  have := byte 4; have := byte 5; have := byte 6; have := byte 7
  rw [comparable_eq, ikeyLimit]
  omega

theorem comparable_inj {s t : List UInt8} (same : Key.comparable s = Key.comparable t) {i : Nat}
    (small : i < 8) : s.getD i 0 = t.getD i 0 := by
  have left (i : Nat) : (s.getD i 0).toNat < 256 := (s.getD i 0).toNat_lt
  have right (i : Nat) : (t.getD i 0).toNat < 256 := (t.getD i 0).toNat_lt
  have := left 0; have := left 1; have := left 2; have := left 3
  have := left 4; have := left 5; have := left 6; have := left 7
  have := right 0; have := right 1; have := right 2; have := right 3
  have := right 4; have := right 5; have := right 6; have := right 7
  rw [comparable_eq, comparable_eq] at same
  apply UInt8.toNat_inj.mp
  match i with
  | 0 | 1 | 2 | 3 | 4 | 5 | 6 | 7 => omega
  | n + 8 => omega

theorem take_eq {s t : List UInt8} (same : Key.comparable s = Key.comparable t)
    (len : min s.length 8 = min t.length 8) : s.take 8 = t.take 8 := by
  apply List.ext_getElem
  · simp only [List.length_take]
    omega
  · intro i hi bound
    simp only [List.length_take] at hi bound
    have equal := comparable_inj same (show i < 8 by omega)
    simpa [List.getElem_take, show i < s.length by omega, show i < t.length by omega] using equal

theorem ofBytes_inj {s t : List UInt8} (place : Key.rank (.ofBytes s) = Key.rank (.ofBytes t))
    (suffix : (Key.ofBytes s).suffix = (Key.ofBytes t).suffix) : s = t := by
  obtain ⟨ikey, len⟩ := rank_inj place
  simp only [Key.ofBytes, ikeySize] at ikey len suffix
  have lengths := congrArg List.length suffix
  simp only [List.length_drop] at lengths
  rw [← List.take_append_drop 8 s, ← List.take_append_drop 8 t, suffix, take_eq ikey (by omega)]

end Incll.Proof.Layers
