import Incll.Lib.Nibbles
import Incll.Model.KpermuterWord
import Mathlib.Tactic.IntervalCases

/-! # The nibbles of a permutation word after each operation -/

namespace Incll.Proof.Kpermuter
open Incll.Model Incll.Lib Incll.Model.KpermuterWord

section
variable {v : Nat} {x : BitVec v}

theorem getLsbD_mask16 (n j : Nat) :
    (16#v <<< n - 1#v).getLsbD j = (decide (j < v) && decide (j < n + 4)) := by
  have power : 16#v <<< n = BitVec.twoPow v (4 + n) := ofNat_shiftLeft 4 n
  rw [power, Nat.add_comm]
  exact getLsbD_twoPow_sub_one _ j

theorem getLsbD_mask256 (n j : Nat) :
    (256#v <<< n - 1#v).getLsbD j = (decide (j < v) && decide (j < n + 8)) := by
  have power : 256#v <<< n = BitVec.twoPow v (8 + n) := ofNat_shiftLeft 8 n
  rw [power, Nat.add_comm]
  exact getLsbD_twoPow_sub_one _ j

theorem getLsbD_slot {value : Nat} (small : value < 16) (n j : Nat) :
    (BitVec.ofNat v value <<< n).getLsbD j =
      (decide (j < v) && decide (n ≤ j) && decide (j < n + 4) && value.testBit (j - n)) := by
  rw [BitVec.getLsbD_shiftLeft, BitVec.getLsbD_ofNat]
  by_cases inside : j < n + 4
  · by_cases high : n ≤ j
    · by_cases bound : j < v
      · simp [inside, high, bound, show j - n < v by omega]
      · simp [bound]
    · simp [high]
  · have none : value.testBit (j - n) = false :=
      Nat.testBit_lt_two_pow (small.trans_le (Nat.pow_le_pow_right (show 0 < 2 by decide)
        (show 4 ≤ j - n by omega)))
    simp [none]

section
variable {i value : Nat} (fits : 4 * i + 8 ≤ v) (room : nibble x 0 < 15) (small : value < 16)
include fits room small

theorem insertFromBackValue_zero :
    nibble (insertFromBackValue x i value) 0 = nibble x 0 + 1 := by
  rw [← nibble_add_one (by omega) room]
  refine nibble_eq fun b low => ?_
  simp (disch := omega) only [insertFromBackValue, BitVec.getLsbD_or, BitVec.getLsbD_and,
    getLsbD_mask16, getLsbD_mask256, BitVec.getLsbD_shiftLeft, BitVec.getLsbD_not,
    getLsbD_slot small, decide_eq_true, decide_eq_false]
  simp

theorem insertFromBackValue_succ {k : Nat} (here : 4 * k + 8 ≤ v) :
    nibble (insertFromBackValue x i value) (k + 1) =
      if k < i then nibble x (k + 1) else if k = i then value else nibble x k := by
  split_ifs with low same
  · refine nibble_eq fun b inside => ?_
    simp (disch := omega) only [insertFromBackValue, BitVec.getLsbD_or, BitVec.getLsbD_and,
      getLsbD_mask16, getLsbD_mask256, BitVec.getLsbD_shiftLeft, BitVec.getLsbD_not,
      getLsbD_slot small, getLsbD_add_one, decide_eq_true, decide_eq_false]
    simp
  · refine nibble_eq_nat small fun b inside => ?_
    simp (disch := omega) only [insertFromBackValue, BitVec.getLsbD_or, BitVec.getLsbD_and,
      getLsbD_mask16, getLsbD_mask256, BitVec.getLsbD_shiftLeft, BitVec.getLsbD_not,
      getLsbD_slot small, getLsbD_add_one, decide_eq_true, decide_eq_false]
    simp [show 4 * (k + 1) + b - (4 * i + 4) = b by omega]
  · refine nibble_eq fun b inside => ?_
    simp (disch := omega) only [insertFromBackValue, BitVec.getLsbD_or, BitVec.getLsbD_and,
      getLsbD_mask16, getLsbD_mask256, BitVec.getLsbD_shiftLeft, BitVec.getLsbD_not,
      getLsbD_slot small, getLsbD_add_one, decide_eq_true, decide_eq_false]
    simp [show 4 * (k + 1) + b - 4 = 4 * k + b by omega]

end

section
variable {di si value : Nat} (fits : 4 * si + 8 ≤ v) (room : nibble x 0 < 15) (small : value < 16)
include fits room small

theorem insertSelectedValue_zero (_ : di ≤ si) :
    nibble (insertSelectedValue x di si value) 0 = nibble x 0 + 1 := by
  rw [← nibble_add_one (by omega) room]
  refine nibble_eq fun b low => ?_
  simp (disch := omega) only [insertSelectedValue, BitVec.getLsbD_or, BitVec.getLsbD_and,
    getLsbD_mask16, getLsbD_mask256, BitVec.getLsbD_shiftLeft, BitVec.getLsbD_not,
    getLsbD_slot small, decide_eq_true, decide_eq_false]
  simp

theorem insertSelectedValue_low {k : Nat} (low : k < di) (here : 4 * k + 8 ≤ v) :
    nibble (insertSelectedValue x di si value) (k + 1) = nibble x (k + 1) := by
  refine nibble_eq fun b inside => ?_
  simp (disch := omega) only [insertSelectedValue, BitVec.getLsbD_or, BitVec.getLsbD_and,
    getLsbD_mask16, getLsbD_mask256, BitVec.getLsbD_shiftLeft, BitVec.getLsbD_not,
    getLsbD_slot small, getLsbD_add_one, decide_eq_true, decide_eq_false]
  cases x.getLsbD (4 * (k + 1) + b) <;> simp

theorem insertSelectedValue_succ (order : di ≤ si) {k : Nat} (here : 4 * k + 8 ≤ v) :
    nibble (insertSelectedValue x di si value) (k + 1) =
      if k < di then nibble x (k + 1) else if k = di then value
      else if k ≤ si then nibble x k else nibble x (k + 1) := by
  split_ifs with low same mid
  · exact insertSelectedValue_low fits room small low here
  · refine nibble_eq_nat small fun b inside => ?_
    simp (disch := omega) only [insertSelectedValue, BitVec.getLsbD_or, BitVec.getLsbD_and,
      getLsbD_mask16, getLsbD_mask256, BitVec.getLsbD_shiftLeft, BitVec.getLsbD_not,
      getLsbD_slot small, getLsbD_add_one, decide_eq_true, decide_eq_false]
    simp [show 4 * (k + 1) + b - (4 * di + 4) = b by omega]
  · refine nibble_eq fun b inside => ?_
    simp (disch := omega) only [insertSelectedValue, BitVec.getLsbD_or, BitVec.getLsbD_and,
      getLsbD_mask16, getLsbD_mask256, BitVec.getLsbD_shiftLeft, BitVec.getLsbD_not,
      getLsbD_slot small, getLsbD_add_one, decide_eq_true, decide_eq_false]
    simp [show 4 * (k + 1) + b - 4 = 4 * k + b by omega]
  · refine nibble_eq fun b inside => ?_
    simp (disch := omega) only [insertSelectedValue, BitVec.getLsbD_or, BitVec.getLsbD_and,
      getLsbD_mask16, getLsbD_mask256, BitVec.getLsbD_shiftLeft, BitVec.getLsbD_not,
      getLsbD_slot small, getLsbD_add_one, decide_eq_true, decide_eq_false]
    simp

end

section
variable {i size : Nat} (fits : 4 * size + 4 ≤ v) (live : i + 1 < size) (counted : nibble x 0 = size)
include fits live counted

theorem removeValue_zero : nibble (removeValue x i size) 0 = size - 1 := by
  rw [← counted, ← nibble_sub_one (by omega) (by omega)]
  refine nibble_eq fun b low => ?_
  simp (disch := omega) only [removeValue, BitVec.getLsbD_or, BitVec.getLsbD_and,
    getLsbD_mask16, BitVec.getLsbD_shiftLeft, BitVec.getLsbD_ushiftRight, BitVec.getLsbD_not,
    decide_eq_true]
  simp

theorem removeValue_succ {k : Nat} (here : 4 * k + 8 ≤ v) :
    nibble (removeValue x i size) (k + 1) =
      if k < i then nibble x (k + 1) else if k + 1 < size then nibble x (k + 2)
      else if k + 1 = size then nibble x (i + 1) else nibble x (k + 1) := by
  split_ifs with low mid same
  · refine nibble_eq fun b inside => ?_
    simp (disch := omega) only [removeValue, BitVec.getLsbD_or, BitVec.getLsbD_and,
      getLsbD_mask16, BitVec.getLsbD_shiftLeft, BitVec.getLsbD_ushiftRight, BitVec.getLsbD_not,
      getLsbD_sub_one, decide_eq_true]
    simp
  · refine nibble_eq fun b inside => ?_
    simp (disch := omega) only [removeValue, BitVec.getLsbD_or, BitVec.getLsbD_and,
      getLsbD_mask16, BitVec.getLsbD_shiftLeft, BitVec.getLsbD_ushiftRight, BitVec.getLsbD_not,
      getLsbD_sub_one, decide_eq_true, decide_eq_false]
    simp [show 4 + (4 * (k + 1) + b) = 4 * (k + 2) + b by omega]
  · refine nibble_eq fun b inside => ?_
    simp (disch := omega) only [removeValue, BitVec.getLsbD_or, BitVec.getLsbD_and,
      getLsbD_mask16, BitVec.getLsbD_shiftLeft, BitVec.getLsbD_ushiftRight, BitVec.getLsbD_not,
      getLsbD_sub_one, decide_eq_true, decide_eq_false]
    simp [show 4 * (k + 1) + b - 4 * (size - i - 1) = 4 * (i + 1) + b by omega]
  · refine nibble_eq fun b inside => ?_
    simp (disch := omega) only [removeValue, BitVec.getLsbD_or, BitVec.getLsbD_and,
      getLsbD_mask16, BitVec.getLsbD_shiftLeft, BitVec.getLsbD_ushiftRight, BitVec.getLsbD_not,
      getLsbD_sub_one, decide_eq_true, decide_eq_false]
    simp

end

section
variable {width i : Nat} (fits : 4 * width + 4 ≤ v) (inside : i < width) (pos : 0 < nibble x 0)
include fits inside pos

omit inside pos in
theorem nibble_live {k : Nat} (low : k ≤ width) :
    nibble (x &&& (16#v <<< (4 * width) - 1#v)) k = nibble x k := by
  refine nibble_eq fun b small => ?_
  simp (disch := omega) only [BitVec.getLsbD_and, getLsbD_mask16, decide_eq_true]
  simp

theorem removeToBackValue_zero : nibble (removeToBackValue x width i) 0 = nibble x 0 - 1 := by
  have same : nibble (x &&& (16#v <<< (4 * width) - 1#v)) 0 = nibble x 0 :=
    nibble_live fits (Nat.zero_le _)
  rw [← same, ← nibble_sub_one (by omega) (by omega)]
  refine nibble_eq fun b low => ?_
  simp (disch := omega) only [removeToBackValue, BitVec.getLsbD_or, BitVec.getLsbD_and,
    getLsbD_mask16, BitVec.getLsbD_shiftLeft, BitVec.getLsbD_ushiftRight, BitVec.getLsbD_not,
    decide_eq_true]
  simp

theorem removeToBackValue_succ {k : Nat} (here : k < width) :
    nibble (removeToBackValue x width i) (k + 1) =
      if k < i then nibble x (k + 1) else if k + 1 < width then nibble x (k + 2)
      else nibble x (i + 1) := by
  have same : nibble (x &&& (16#v <<< (4 * width) - 1#v)) 0 = nibble x 0 :=
    nibble_live fits (Nat.zero_le _)
  split_ifs with low mid
  · refine nibble_eq fun b inside => ?_
    simp (disch := omega) only [removeToBackValue, BitVec.getLsbD_or, BitVec.getLsbD_and,
      getLsbD_mask16, BitVec.getLsbD_shiftLeft, BitVec.getLsbD_ushiftRight, BitVec.getLsbD_not,
      getLsbD_sub_one, decide_eq_true]
    simp
  · refine nibble_eq fun b inside => ?_
    simp (disch := omega) only [removeToBackValue, BitVec.getLsbD_or, BitVec.getLsbD_and,
      getLsbD_mask16, BitVec.getLsbD_shiftLeft, BitVec.getLsbD_ushiftRight, BitVec.getLsbD_not,
      getLsbD_sub_one, decide_eq_true, decide_eq_false]
    simp [show 4 + (4 * (k + 1) + b) = 4 * (k + 2) + b by omega]
  · refine nibble_eq fun b inside => ?_
    simp (disch := omega) only [removeToBackValue, BitVec.getLsbD_or, BitVec.getLsbD_and,
      getLsbD_mask16, BitVec.getLsbD_shiftLeft, BitVec.getLsbD_ushiftRight, BitVec.getLsbD_not,
      getLsbD_sub_one, decide_eq_true, decide_eq_false]
    simp [show 4 * (k + 1) + b - 4 * (width - i - 1) = 4 * (i + 1) + b by omega]

end

theorem getLsbD_15 (fits : 4 ≤ v) (j : Nat) : (15#v).getLsbD j = decide (j < 4) := by
  rw [BitVec.getLsbD_ofNat]
  by_cases small : j < 4
  · simp only [show j < v by omega, decide_true, Bool.true_and]
    interval_cases j <;> rfl
  · have none : Nat.testBit 15 j = false :=
      Nat.testBit_lt_two_pow ((show 15 < 2 ^ 4 by decide).trans_le
        (Nat.pow_le_pow_right (by decide) (not_lt.mp small)))
    simp [none, small]

section
variable {n : Nat} (fits : 4 ≤ v) (small : n < 16)
include fits small

theorem setSizeValue_zero : nibble ((x &&& ~~~15#v) ||| BitVec.ofNat v n) 0 = n := by
  refine nibble_eq_nat small fun b low => ?_
  rw [BitVec.getLsbD_or, BitVec.getLsbD_and, BitVec.getLsbD_not, getLsbD_15 fits, BitVec.getLsbD_ofNat]
  simp [low, show b < v by omega]

theorem setSizeValue_succ (k : Nat) :
    nibble ((x &&& ~~~15#v) ||| BitVec.ofNat v n) (k + 1) = nibble x (k + 1) := by
  refine nibble_eq fun b low => ?_
  have none : n.testBit (4 * (k + 1) + b) = false :=
    Nat.testBit_lt_two_pow (small.trans_le (Nat.pow_le_pow_right (show 0 < 2 by decide)
      (show 4 ≤ 4 * (k + 1) + b by omega)))
  by_cases bound : 4 * (k + 1) + b < v
  · rw [BitVec.getLsbD_or, BitVec.getLsbD_and, BitVec.getLsbD_not, getLsbD_15 fits,
      BitVec.getLsbD_ofNat, none]
    simp [bound, show ¬ 4 * (k + 1) + b < 4 by omega]
  · rw [BitVec.getLsbD_of_ge _ _ (not_lt.mp bound), BitVec.getLsbD_of_ge _ _ (not_lt.mp bound)]

end

theorem getLsbD_240 (fits : 8 ≤ v) (j : Nat) :
    (240#v).getLsbD j = (decide (4 ≤ j) && decide (j < 8)) := by
  rw [BitVec.getLsbD_ofNat]
  by_cases small : j < 8
  · simp only [show j < v by omega, decide_true, Bool.true_and]
    interval_cases j <;> rfl
  · have none : Nat.testBit 240 j = false :=
      Nat.testBit_lt_two_pow ((show 240 < 2 ^ 8 by decide).trans_le
        (Nat.pow_le_pow_right (by decide) (not_lt.mp small)))
    simp [none, small]

section
variable {i j : Nat} (low : 4 * i + 8 ≤ v)
include low

theorem exchangeValue_zero : nibble (exchangeValue x i j) 0 = nibble x 0 := by
  refine nibble_eq fun b small => ?_
  simp (disch := omega) only [exchangeValue, BitVec.getLsbD_or, BitVec.getLsbD_and, BitVec.getLsbD_xor,
    getLsbD_240, BitVec.getLsbD_shiftLeft, BitVec.getLsbD_ushiftRight, decide_eq_false]
  simp

theorem exchangeValue_succ (high : 4 * j + 8 ≤ v) {k : Nat} (here : 4 * k + 8 ≤ v) :
    nibble (exchangeValue x i j) (k + 1) =
      if k = j then nibble x (i + 1) else if k = i then nibble x (j + 1) else nibble x (k + 1) := by
  have moved (m : Nat) {n b : Nat} (same : k = n) : 4 * m + (4 * (k + 1) + b - 4 * n) = 4 * (m + 1) + b := by
    omega
  split_ifs with last first
  · refine nibble_eq fun b small => ?_
    simp (disch := omega) only [exchangeValue, BitVec.getLsbD_or, BitVec.getLsbD_and,
      BitVec.getLsbD_xor, getLsbD_240, BitVec.getLsbD_shiftLeft, BitVec.getLsbD_ushiftRight,
      decide_eq_true, decide_eq_false, moved _ last]
    by_cases same : k = i
    · simp (disch := omega) only [decide_eq_true, decide_eq_false, moved _ same]
      simp [← last, ← same]
    · rw [show (decide (4 ≤ 4 * (k + 1) + b - 4 * i) && decide (4 * (k + 1) + b - 4 * i < 8)) = false by
        simp; omega]
      simp [← last, Bool.xor_left_comm]
  · refine nibble_eq fun b small => ?_
    simp (disch := omega) only [exchangeValue, BitVec.getLsbD_or, BitVec.getLsbD_and,
      BitVec.getLsbD_xor, getLsbD_240, BitVec.getLsbD_shiftLeft, BitVec.getLsbD_ushiftRight,
      decide_eq_true, decide_eq_false, moved _ first]
    rw [show (decide (4 ≤ 4 * (k + 1) + b - 4 * j) && decide (4 * (k + 1) + b - 4 * j < 8)) = false by
      simp; omega]
    simp [← first]
  · refine nibble_eq fun b small => ?_
    have apart (m : Nat) (other : k ≠ m) :
        (decide (4 ≤ 4 * (k + 1) + b - 4 * m) && decide (4 * (k + 1) + b - 4 * m < 8)) = false := by
      simp
      omega
    simp (disch := omega) only [exchangeValue, BitVec.getLsbD_or, BitVec.getLsbD_and,
      BitVec.getLsbD_xor, getLsbD_240, BitVec.getLsbD_shiftLeft, BitVec.getLsbD_ushiftRight,
      apart i first, apart j last]
    simp

end

end

end Incll.Proof.Kpermuter
