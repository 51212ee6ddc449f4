import Mathlib.Data.Nat.Bitwise
import Mathlib.Tactic.Linarith

/-! # Words as lists of four-bit numbers -/

namespace Incll.Lib

variable {w v : Nat}

def nibble (x : BitVec w) (k : Nat) : Nat := (x >>> (4 * k)).toNat % 16

theorem testBit_nibble (x : BitVec w) (k b : Nat) :
    (nibble x k).testBit b = (decide (b < 4) && x.getLsbD (4 * k + b)) := by
  unfold nibble
  rw [show 16 = 2 ^ 4 from rfl, Nat.testBit_mod_two_pow, BitVec.testBit_toNat,
    BitVec.getLsbD_ushiftRight]

theorem nibble_lt (x : BitVec w) (k : Nat) : nibble x k < 16 := Nat.mod_lt _ (by decide)

theorem nibble_eq {x : BitVec w} {y : BitVec v} {j k : Nat}
    (bits : ∀ b < 4, x.getLsbD (4 * j + b) = y.getLsbD (4 * k + b)) : nibble x j = nibble y k := by
  refine Nat.eq_of_testBit_eq fun b => ?_
  rw [testBit_nibble, testBit_nibble]
  by_cases small : b < 4
  · rw [bits b small]
  · simp [small]

/-- A nibble that is a given number. -/
theorem nibble_eq_nat {x : BitVec w} {j n : Nat} (small : n < 16)
    (bits : ∀ b < 4, x.getLsbD (4 * j + b) = n.testBit b) : nibble x j = n := by
  refine Nat.eq_of_testBit_eq fun b => ?_
  rw [testBit_nibble]
  by_cases low : b < 4
  · simp [low, bits b low]
  · rw [Nat.testBit_lt_two_pow (small.trans_le (Nat.pow_le_pow_right (show 0 < 2 by decide) (not_lt.mp low)))]
    simp [low]

theorem nibble_setWidth {x : BitVec w} {k : Nat} (fits : 4 * k + 4 ≤ v) :
    nibble (x.setWidth v) k = nibble x k :=
  nibble_eq fun b small => by simp [show 4 * k + b < v by omega]

/-- The mask of the bits below `n`. -/
theorem getLsbD_twoPow_sub_one (n j : Nat) :
    (BitVec.twoPow w n - 1#w).getLsbD j = (decide (j < w) && decide (j < n)) := by
  by_cases bound : j < w
  swap
  · rw [BitVec.getLsbD_of_ge _ _ (not_lt.mp bound)]
    simp [bound]
  rcases Nat.lt_or_ge n w with less | all
  · have value : BitVec.twoPow w n - 1#w = BitVec.ofNat w (2 ^ n - 1) := by
      apply BitVec.eq_of_toNat_eq
      have pos : 0 < 2 ^ n := Nat.two_pow_pos n
      have wide : 2 ^ n < 2 ^ w := Nat.pow_lt_pow_right (by decide) less
      rw [BitVec.toNat_sub, BitVec.toNat_twoPow_of_lt less, BitVec.toNat_ofNat, BitVec.toNat_ofNat,
        Nat.mod_eq_of_lt (show 1 < 2 ^ w by omega), Nat.mod_eq_of_lt (show 2 ^ n - 1 < 2 ^ w by omega),
        show 2 ^ w - 1 + 2 ^ n = 2 ^ n - 1 + 2 ^ w by omega, Nat.add_mod_right,
        Nat.mod_eq_of_lt (by omega)]
    rw [value, BitVec.getLsbD_ofNat, Nat.testBit_two_pow_sub_one]
  · have zero : BitVec.twoPow w n = 0#w := BitVec.eq_of_toNat_eq (BitVec.toNat_twoPow_of_le all)
    rw [zero, BitVec.zero_sub, BitVec.neg_one_eq_allOnes, BitVec.getLsbD_allOnes]
    simp [bound, show j < n by omega]

theorem ofNat_shiftLeft (a n : Nat) : BitVec.ofNat w (2 ^ a) <<< n = BitVec.twoPow w (a + n) := by
  apply BitVec.eq_of_toNat_eq
  rw [BitVec.toNat_shiftLeft, BitVec.toNat_ofNat, BitVec.toNat_twoPow, Nat.shiftLeft_eq,
    Nat.mod_mul_mod, Nat.pow_add]

theorem toNat_mod (x : BitVec w) : x.toNat % 16 = nibble x 0 := by simp [nibble]

theorem getLsbD_high {x y : BitVec w} {n : Nat} (same : x.toNat / 2 ^ n = y.toNat / 2 ^ n) {j : Nat}
    (high : n ≤ j) : x.getLsbD j = y.getLsbD j := by
  obtain ⟨i, rfl⟩ := Nat.exists_eq_add_of_le' high
  rw [← BitVec.testBit_toNat, ← BitVec.testBit_toNat, ← Nat.testBit_div_two_pow,
    ← Nat.testBit_div_two_pow, same]

theorem two_pow_eq (fits : 4 ≤ w) : 2 ^ w = 16 * 2 ^ (w - 4) := by
  rw [show (16 : Nat) = 2 ^ 4 from rfl, ← Nat.pow_add, Nat.add_sub_cancel' fits]

theorem toNat_add_one {x : BitVec w} (fits : 4 ≤ w) (room : nibble x 0 < 15) :
    (x + 1#w).toNat = x.toNat + 1 := by
  have whole := two_pow_eq fits
  have pos := Nat.two_pow_pos (w - 4)
  have bound := x.isLt
  have low := toNat_mod x
  rw [BitVec.toNat_add, BitVec.toNat_ofNat, Nat.mod_eq_of_lt (show 1 < 2 ^ w by omega),
    Nat.mod_eq_of_lt (by omega)]

theorem toNat_sub_one {x : BitVec w} (fits : 4 ≤ w) (pos : 0 < nibble x 0) :
    (x - 1#w).toNat = x.toNat - 1 := by
  have whole := two_pow_eq fits
  have pos' := Nat.two_pow_pos (w - 4)
  have bound := x.isLt
  have low := toNat_mod x
  rw [BitVec.toNat_sub, BitVec.toNat_ofNat, Nat.mod_eq_of_lt (show 1 < 2 ^ w by omega),
    show 2 ^ w - 1 + x.toNat = x.toNat - 1 + 2 ^ w by omega, Nat.add_mod_right,
    Nat.mod_eq_of_lt (by omega)]

section
variable {x : BitVec w} (fits : 4 ≤ w)
include fits

theorem nibble_add_one (room : nibble x 0 < 15) : nibble (x + 1#w) 0 = nibble x 0 + 1 := by
  rw [← toNat_mod, ← toNat_mod, toNat_add_one fits room]
  have low := toNat_mod x
  omega

theorem nibble_sub_one (pos : 0 < nibble x 0) : nibble (x - 1#w) 0 = nibble x 0 - 1 := by
  rw [← toNat_mod, ← toNat_mod, toNat_sub_one fits pos]
  have low := toNat_mod x
  omega

theorem getLsbD_add_one (room : nibble x 0 < 15) {j : Nat} (high : 4 ≤ j) :
    (x + 1#w).getLsbD j = x.getLsbD j := by
  refine getLsbD_high (n := 4) ?_ high
  have low := toNat_mod x
  rw [toNat_add_one fits room]
  omega

theorem getLsbD_sub_one (pos : 0 < nibble x 0) {j : Nat} (high : 4 ≤ j) :
    (x - 1#w).getLsbD j = x.getLsbD j := by
  refine getLsbD_high (n := 4) ?_ high
  have low := toNat_mod x
  rw [toNat_sub_one fits pos]
  omega

theorem nibble_sub_one_succ (pos : 0 < nibble x 0) (k : Nat) :
    nibble (x - 1#w) (k + 1) = nibble x (k + 1) :=
  nibble_eq fun _ _ => getLsbD_sub_one fits pos (by omega)

end

end Incll.Lib
