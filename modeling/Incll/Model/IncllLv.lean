import Mathlib.Tactic.Common
import Mathlib.Data.Nat.Bitwise

/-! # `leaf::incll_lv_`: one value, its slot and its epoch in a 64-bit word -/

namespace Incll.Model

def keyMid : Nat := 7

def invalidIdx : Nat := 7

namespace IncllLv

def idxMask : BitVec 64 := 7#64
def lvMask : BitVec 64 := 0x00FFFFFFFFFFFFF8#64
def leMask : BitVec 64 := 0x7F00000000000000#64
def geMask : BitVec 64 := 0x000000000000007F#64
def lvIdxGeMask : BitVec 64 := 0x7FFFFFFFFFFFFFFF#64
def epochShift : Nat := 56

end IncllLv

/-- The pointers a leaf stores: 8-byte aligned and below 2^56, as `REC_ASSERT` requires. -/
structure Leafvalue where
  x : BitVec 64
  aligned : x &&& ~~~IncllLv.lvMask = 0
  deriving DecidableEq

@[ext] theorem Leafvalue.ext {a b : Leafvalue} (h : a.x = b.x) : a = b := by
  cases a; cases b; cases h; rfl

def Leafvalue.empty : Leafvalue := ⟨0#64, by decide⟩

instance : Inhabited Leafvalue := ⟨.empty⟩

structure IncllLv where
  data : BitVec 64
  deriving DecidableEq

namespace IncllLv

def getClIdx (w : IncllLv) : Nat := (w.data &&& idxMask).toNat

def invalidateCl (w : IncllLv) : IncllLv := ⟨w.data ||| idxMask⟩

def getLoggedepoch (w : IncllLv) : Nat := ((w.data &&& leMask) >>> epochShift).toNat

def setLoggedepoch (w : IncllLv) (e : Nat) : IncllLv :=
  ⟨(w.data &&& ~~~leMask) ||| ((BitVec.ofNat 64 e &&& geMask) <<< epochShift)⟩

def setLvIdxGe (w : IncllLv) (lv : Leafvalue) (p globalepoch : Nat) : IncllLv :=
  ⟨(w.data &&& ~~~lvIdxGeMask) ||| lv.x ||| BitVec.ofNat 64 p |||
    ((BitVec.ofNat 64 globalepoch &&& geMask) <<< epochShift)⟩

def isClValid (w : IncllLv) : Bool := w.data &&& idxMask != idxMask

def getLv (w : IncllLv) : Leafvalue :=
  ⟨w.data &&& lvMask, by rw [BitVec.and_assoc, BitVec.and_not_self]; simp⟩

def make (globalepoch : Nat) : IncllLv :=
  ((⟨0#64⟩ : IncllLv).setLoggedepoch globalepoch).invalidateCl

/-! The bits of the masks. -/

theorem idxMask_bits : ∀ i : Fin 64, idxMask.getLsbD i.val = decide (i.val < 3) := by decide

theorem lvMask_bits :
    ∀ i : Fin 64, lvMask.getLsbD i.val = (decide (3 ≤ i.val) && decide (i.val < 56)) := by decide

theorem leMask_bits :
    ∀ i : Fin 64, leMask.getLsbD i.val = (decide (56 ≤ i.val) && decide (i.val < 63)) := by decide

theorem geMask_bits : ∀ i : Fin 64, geMask.getLsbD i.val = decide (i.val < 7) := by decide

theorem lvIdxGeMask_bits : ∀ i : Fin 64, lvIdxGeMask.getLsbD i.val = decide (i.val < 63) := by
  decide

section bits
variable (i : Nat) (hi : i < 64)

@[simp] theorem idxMask_bit : idxMask[i] = decide (i < 3) := by
  rw [← BitVec.getLsbD_eq_getElem]
  exact idxMask_bits ⟨i, hi⟩

@[simp] theorem lvMask_bit : lvMask[i] = (decide (3 ≤ i) && decide (i < 56)) := by
  rw [← BitVec.getLsbD_eq_getElem]
  exact lvMask_bits ⟨i, hi⟩

@[simp] theorem leMask_bit : leMask[i] = (decide (56 ≤ i) && decide (i < 63)) := by
  rw [← BitVec.getLsbD_eq_getElem]
  exact leMask_bits ⟨i, hi⟩

@[simp] theorem geMask_bit : geMask[i] = decide (i < 7) := by
  rw [← BitVec.getLsbD_eq_getElem]
  exact geMask_bits ⟨i, hi⟩

@[simp] theorem lvIdxGeMask_bit : lvIdxGeMask[i] = decide (i < 63) := by
  rw [← BitVec.getLsbD_eq_getElem]
  exact lvIdxGeMask_bits ⟨i, hi⟩

theorem ofNat_bit (x : Nat) : (BitVec.ofNat 64 x)[i] = x.testBit i := by
  rw [← BitVec.getLsbD_eq_getElem, BitVec.getLsbD_ofNat]
  simp [hi]

theorem aligned_bit (lv : Leafvalue) (out : i < 3 ∨ 56 ≤ i) : lv.x[i] = false := by
  have zero := congrArg (fun b : BitVec 64 => b[i]) lv.aligned
  by_contra set
  simp only [BitVec.getElem_and, BitVec.getElem_not, lvMask_bit] at zero
  simp only [Bool.not_eq_false] at set
  simp [set] at zero
  omega

end bits

theorem small_bit {p k i : Nat} (h : p < 2 ^ k) (hi : k ≤ i) : p.testBit i = false :=
  Nat.testBit_lt_two_pow (h.trans_le (Nat.pow_le_pow_right (by decide) hi))

/-! The three fields of a word: slot in bits 0-2, value in bits 3-55, epoch in bits 56-62. -/

section fields
variable (w : IncllLv) (lv : Leafvalue) (p e : Nat)

theorem setLvIdxGe_bit (hp : p < 8) (i : Nat) (hi : i < 64) :
    (w.setLvIdxGe lv p e).data[i] =
      if i < 3 then p.testBit i else if i < 56 then lv.x[i]
      else if i < 63 then e.testBit (i - 56) else w.data[i] := by
  have small : 3 ≤ i → p.testBit i = false := fun h3 => small_bit (k := 3) (by simpa using hp) h3
  have out := aligned_bit i hi lv
  simp only [setLvIdxGe, BitVec.getElem_or, BitVec.getElem_and, BitVec.getElem_not,
    lvIdxGeMask_bit, ofNat_bit, BitVec.getElem_shiftLeft, geMask_bit, epochShift]
  split_ifs with h3 h56 h63
  · simp [out (.inl h3), show i < 63 by omega, show i < 56 by omega]
  · simp [small (by omega), h56, show i < 63 by omega]
  · simp [small (by omega), out (by omega), h63, h56, show i - 56 < 7 by omega]
  · simp [small (by omega), out (by omega), h63, h56, show ¬ (i - 56 < 7) by omega]

theorem setLoggedepoch_bit (i : Nat) (hi : i < 64) :
    (w.setLoggedepoch e).data[i] =
      if 56 ≤ i ∧ i < 63 then e.testBit (i - 56) else w.data[i] := by
  simp only [setLoggedepoch, BitVec.getElem_or, BitVec.getElem_and, BitVec.getElem_not, leMask_bit,
    ofNat_bit, BitVec.getElem_shiftLeft, geMask_bit, epochShift]
  split_ifs with h
  · simp [h.1, h.2, show ¬ i < 56 by omega, show i - 56 < 7 by omega]
  · by_cases h56 : i < 56
    · simp [h56, show ¬ 56 ≤ i by omega]
    · simp [show ¬ i < 63 by omega, show ¬ (i - 56 < 7) by omega]

theorem getLv_congr {w w' : IncllLv} (h : ∀ i (hi : i < 64), 3 ≤ i → i < 56 → w.data[i] = w'.data[i]) :
    w.getLv = w'.getLv := by
  ext1
  apply BitVec.eq_of_getElem_eq
  intro i hi
  simp only [getLv, BitVec.getElem_and, lvMask_bit]
  by_cases h3 : 3 ≤ i
  · by_cases h56 : i < 56
    · rw [h i hi h3 h56]
    · simp [h56]
  · simp [h3]

@[simp] theorem getLv_setLvIdxGe (hp : p < 8) : (w.setLvIdxGe lv p e).getLv = lv := by
  ext1
  apply BitVec.eq_of_getElem_eq
  intro i hi
  simp only [getLv, BitVec.getElem_and, lvMask_bit, setLvIdxGe_bit w lv p e hp i hi]
  by_cases out : i < 3 ∨ 56 ≤ i
  · rw [aligned_bit i hi lv out]
    rcases out with h | h
    · simp [h]
    · simp [show ¬ i < 56 by omega]
  · simp [show ¬ i < 3 by omega, show 3 ≤ i by omega, show i < 56 by omega]

@[simp] theorem getLv_setLoggedepoch : (w.setLoggedepoch e).getLv = w.getLv := by
  apply getLv_congr
  intro i hi h3 h56
  rw [setLoggedepoch_bit, if_neg (by omega)]

theorem getClIdx_congr {w : IncllLv} {p : Nat} (hp : p < 8)
    (h : ∀ i (hi : i < 64), i < 3 → w.data[i] = p.testBit i) : w.getClIdx = p := by
  have same : w.data &&& idxMask = BitVec.ofNat 64 p := by
    apply BitVec.eq_of_getElem_eq
    intro i hi
    rw [BitVec.getElem_and, idxMask_bit, ofNat_bit]
    by_cases h3 : i < 3
    · simp [h3, h i hi h3]
    · simp [h3, small_bit (k := 3) (show p < 2^3 by simpa using hp) (Nat.le_of_not_lt h3)]
  rw [getClIdx, same, BitVec.toNat_ofNat]
  omega

theorem getClIdx_lt : w.getClIdx < 8 := by
  have := BitVec.toNat_and w.data idxMask
  have mask : idxMask.toNat = 2^3 - 1 := by decide
  rw [getClIdx, this, mask, Nat.and_two_pow_sub_one_eq_mod]
  omega

theorem getClIdx_bit (i : Nat) (hi : i < 64) (h3 : i < 3) : w.data[i] = w.getClIdx.testBit i := by
  rw [getClIdx, BitVec.testBit_toNat, BitVec.getLsbD_eq_getElem hi, BitVec.getElem_and, idxMask_bit]
  simp [h3]

@[simp] theorem getClIdx_setLvIdxGe (hp : p < 8) : (w.setLvIdxGe lv p e).getClIdx = p := by
  apply getClIdx_congr hp
  intro i hi h3
  rw [setLvIdxGe_bit w lv p e hp i hi, if_pos h3]

@[simp] theorem getClIdx_setLoggedepoch : (w.setLoggedepoch e).getClIdx = w.getClIdx := by
  apply getClIdx_congr w.getClIdx_lt
  intro i hi h3
  rw [setLoggedepoch_bit, if_neg (by omega), getClIdx_bit w i hi h3]

theorem isClValid_iff : w.isClValid = true ↔ w.getClIdx ≠ invalidIdx := by
  have mask : idxMask = BitVec.ofNat 64 7 := rfl
  simp only [isClValid, bne_iff_ne, ne_eq, getClIdx, invalidIdx]
  constructor
  · intro h hidx
    apply h
    apply BitVec.eq_of_toNat_eq
    rw [hidx]
    decide
  · intro h hidx
    apply h
    rw [hidx]
    decide

@[simp] theorem isClValid_setLvIdxGe (hp : p < 7) : (w.setLvIdxGe lv p e).isClValid = true := by
  rw [isClValid_iff, getClIdx_setLvIdxGe _ _ _ _ (by omega)]
  exact Nat.ne_of_lt hp

@[simp] theorem isClValid_setLoggedepoch : (w.setLoggedepoch e).isClValid = w.isClValid := by
  rw [Bool.eq_iff_iff, isClValid_iff, isClValid_iff, getClIdx_setLoggedepoch]

@[simp] theorem isClValid_invalidateCl : w.invalidateCl.isClValid = false := by
  simp only [isClValid, invalidateCl, bne_eq_false_iff_eq]
  apply BitVec.eq_of_getElem_eq
  intro i hi
  rw [BitVec.getElem_and, BitVec.getElem_or, idxMask_bit]
  cases w.data[i] <;> cases decide (i < 3) <;> rfl

theorem getLoggedepoch_congr {w : IncllLv} {e : Nat}
    (h : ∀ i (hi : i < 7), w.data[i + 56] = e.testBit i) : w.getLoggedepoch = e % 128 := by
  have same : (w.data &&& leMask) >>> epochShift = BitVec.ofNat 64 e &&& geMask := by
    apply BitVec.eq_of_getElem_eq
    intro i hi
    rw [BitVec.getElem_and, ofNat_bit, geMask_bit, epochShift, BitVec.getElem_ushiftRight]
    by_cases h7 : i < 7
    · have bound : 56 + i < 64 := by omega
      rw [BitVec.getLsbD_eq_getElem bound, BitVec.getElem_and, leMask_bit]
      have bit := h i h7
      simp only [Nat.add_comm i 56] at bit
      simp [h7, bit, show 56 + i < 63 by omega]
    · by_cases bound : 56 + i < 64
      · rw [BitVec.getLsbD_eq_getElem bound, BitVec.getElem_and, leMask_bit]
        simp [h7, show ¬ 56 + i < 63 by omega]
      · rw [BitVec.getLsbD_of_ge _ _ (by omega)]
        simp [h7]
  have mask : geMask.toNat = 2^7 - 1 := by decide
  rw [getLoggedepoch, same, BitVec.toNat_and, BitVec.toNat_ofNat, mask,
    Nat.and_two_pow_sub_one_eq_mod]
  omega

@[simp] theorem getLoggedepoch_setLvIdxGe (hp : p < 8) :
    (w.setLvIdxGe lv p e).getLoggedepoch = e % 128 := by
  apply getLoggedepoch_congr
  intro i hi
  rw [setLvIdxGe_bit w lv p e hp, if_neg (by omega), if_neg (by omega), if_pos (by omega)]
  simp

@[simp] theorem getLoggedepoch_setLoggedepoch :
    (w.setLoggedepoch e).getLoggedepoch = e % 128 := by
  apply getLoggedepoch_congr
  intro i hi
  rw [setLoggedepoch_bit, if_pos (by omega)]
  simp

end fields

end IncllLv
end Incll.Model
