import Incll.Proof.Msgpack.Turns
import Mathlib.Tactic.NormNum

/-! # What `scan` finds in the output of the writers -/

namespace Incll.Proof.Msgpack
open Incll.Model.Msgpack (Bytes Form form readInNetOrder writeInNetOrder signed writeString
  writeArrayHeader writeUnsigned writeSigned)
open Incll.Model.Streaming

theorem writeInNetOrder_succ (width x : Nat) :
    writeInNetOrder (width + 1) x = writeInNetOrder width (x / 256) ++ [UInt8.ofNat x] := by
  simp only [writeInNetOrder, List.range_succ, List.map_append, List.map_cons, List.map_nil,
    Nat.add_sub_cancel, Nat.sub_self, Nat.pow_zero, Nat.div_one]
  congr 1
  refine List.map_congr_left fun i member => ?_
  have bound := List.mem_range.mp member
  rw [Nat.div_div_eq_div_mul, show width - i = (width - 1 - i) + 1 by omega, Nat.pow_succ,
    Nat.mul_comm]

theorem foldl_writeInNetOrder (width x : Nat) :
    (writeInNetOrder width x).foldl (fun n b => n * 256 + b.toNat) 0 = x % 256 ^ width := by
  induction width generalizing x with
  | zero => simp [writeInNetOrder, Nat.mod_one]
  | succ width ih =>
      rw [writeInNetOrder_succ, List.foldl_append, ih, Nat.pow_succ, Nat.mul_comm (256 ^ width),
        Nat.mod_mul]
      simp only [List.foldl_cons, List.foldl_nil, UInt8.toNat_ofNat']
      omega

theorem length_writeInNetOrder (width x : Nat) : (writeInNetOrder width x).length = width := by
  simp [writeInNetOrder]

theorem readInNetOrder_write {width x : Nat} (small : x < 256 ^ width) (rest : Bytes) :
    readInNetOrder width (writeInNetOrder width x ++ rest) = some (x, rest) := by
  have length := length_writeInNetOrder width x
  rw [readInNetOrder, if_pos (by rw [List.length_append]; omega), List.take_left' length,
    List.drop_left' length, foldl_writeInNetOrder, Nat.mod_eq_of_lt small]

/-- The output of a writer, as `scan` finds it before any other bytes. -/
def Scans (written : Bytes) (f : Bytes → Scan) : Prop :=
  ∃ b h, written = b :: h ∧ ∀ rest, scan b (h ++ rest) = f rest

theorem scans_number {b : UInt8} {width x : Nat} {f : Nat → Bytes → Scan}
    (scanned : ∀ s, scan b s = .number width s f) (small : x < 256 ^ width) :
    Scans (b :: writeInNetOrder width x) (f x) := by
  refine ⟨b, _, rfl, fun rest => ?_⟩
  rw [scanned, Scan.number, readInNetOrder_write small]

theorem scans_byte {b : UInt8} {f : Bytes → Scan} (scanned : ∀ s, scan b s = f s) : Scans [b] f :=
  ⟨b, [], rfl, scanned⟩

theorem form_fixint {x : Nat} (small : x < 0x80) : form (UInt8.ofNat x) = .fixint x := by
  have byte : (UInt8.ofNat x).toNat = x := by
    rw [UInt8.toNat_ofNat']
    omega
  simp only [form, byte]
  rw [if_pos small]

theorem form_fixmap {n : Nat} (small : n < 0x10) : form (UInt8.ofNat (0x80 + n)) = .fixmap n := by
  have byte : (UInt8.ofNat (0x80 + n)).toNat = 0x80 + n := by
    rw [UInt8.toNat_ofNat']
    omega
  simp only [form, byte]
  rw [if_neg (by omega), if_pos (by omega), Nat.add_sub_cancel_left]

theorem form_fixarray {n : Nat} (small : n < 0x10) :
    form (UInt8.ofNat (0x90 + n)) = .fixarray n := by
  have byte : (UInt8.ofNat (0x90 + n)).toNat = 0x90 + n := by
    rw [UInt8.toNat_ofNat']
    omega
  simp only [form, byte]
  rw [if_neg (by omega), if_neg (by omega), if_pos (by omega), Nat.add_sub_cancel_left]

theorem form_fixstr {n : Nat} (small : n < 0x20) : form (UInt8.ofNat (0xA0 + n)) = .fixstr n := by
  have byte : (UInt8.ofNat (0xA0 + n)).toNat = 0xA0 + n := by
    rw [UInt8.toNat_ofNat']
    omega
  simp only [form, byte]
  rw [if_neg (by omega), if_neg (by omega), if_neg (by omega), if_pos (by omega),
    Nat.add_sub_cancel_left]

theorem form_negative {x : Nat} (low : 0xE0 ≤ x) (high : x < 0x100) :
    form (UInt8.ofNat x) = .fixint (x - 256) := by
  have byte : (UInt8.ofNat x).toNat = x := by
    rw [UInt8.toNat_ofNat']
    omega
  simp only [form, byte]
  rw [if_neg (by omega), if_neg (by omega), if_neg (by omega), if_neg (by omega), if_pos low]

theorem scans_writeArrayHeader {size : Nat} (small : size < 2 ^ 31) :
    Scans (writeArrayHeader size) (.array size) := by
  rw [writeArrayHeader]
  split
  · exact scans_byte fun s => by rw [scan, form_fixarray ‹_›]
  · split
    · exact scans_number (fun s => rfl) (by omega)
    · exact scans_number (fun s => rfl) (by omega)

theorem scans_writeMapHeader {size : Nat} (small : size < 2 ^ 31) :
    Scans (writeMapHeader size) (.map size) := by
  rw [writeMapHeader]
  split
  · exact scans_byte fun s => by rw [scan, form_fixmap ‹_›]
  · split
    · exact scans_number (fun s => rfl) (by omega)
    · exact scans_number (fun s => rfl) (by omega)

theorem scans_writeString {s : Bytes} (small : s.length < 2 ^ 31) :
    ∃ header, writeString s = header ++ s ∧ Scans header (.raw s.length) := by
  refine ⟨_, rfl, ?_⟩
  split
  · exact scans_byte fun s => by rw [scan, form_fixstr ‹_›]
  · split
    · exact scans_number (fun s => rfl) (by omega)
    · split
      · exact scans_number (fun s => rfl) (by omega)
      · exact scans_number (fun s => rfl) (by omega)

/-! Integers: the range tests on wrapped numbers are range tests on integers. -/

theorem writeInNetOrder_one (x : Nat) : writeInNetOrder 1 x = [UInt8.ofNat x] := by
  simp [writeInNetOrder]

theorem writeUnsigned4_eq {v : BitVec 32} {x : Nat} (value : v.toNat = x) :
    writeUnsigned4 v = writeUnsigned x := by
  have bound := v.isLt
  have fix : v < 0x80 ↔ x < 0x80 := by rw [BitVec.lt_def, value]; exact Iff.rfl
  have one : v < 256 ↔ x < 2 ^ 8 := by rw [BitVec.lt_def, value]; exact Iff.rfl
  have two : v < 65536 ↔ x < 2 ^ 16 := by rw [BitVec.lt_def, value]; exact Iff.rfl
  simp only [writeUnsigned4, writeUnsigned, fix, one, two, byte, value, BitVec.toNat_setWidth,
    writeInNetOrder_one]
  split_ifs with small
  any_goals rfl
  · rw [Nat.mod_eq_of_lt ‹_›]
  · omega

theorem writeUnsigned8_eq {x : Nat} (small : x < 2 ^ 64) :
    writeUnsigned8 (BitVec.ofNat 64 x) = writeUnsigned x := by
  have whole : (BitVec.ofNat 64 x).toNat = x := by
    rw [BitVec.toNat_ofNat]
    omega
  have test : BitVec.ofNat 64 x < 4294967296 ↔ x < 2 ^ 32 := by
    rw [BitVec.lt_def, whole]
    exact Iff.rfl
  rw [writeUnsigned8]
  split
  · rename_i narrow
    apply writeUnsigned4_eq
    rw [BitVec.toNat_setWidth, whole, Nat.mod_eq_of_lt (test.mp narrow)]
  · rename_i wide
    rw [test] at wide
    rw [whole, writeUnsigned, if_neg (by omega), if_neg (by omega), if_neg (by omega), if_neg wide]

/-- The test `x + a < b` on a wrapped number. -/
theorem wrapped_lt_iff {w a b : Nat} {v : BitVec (w + 1)} {x : Int}
    (value : (v.toNat : Int) = x % 2 ^ (w + 1)) (low : -2 ^ w ≤ x) (high : x < 2 ^ w)
    (small : b ≤ 2 ^ w) (order : a ≤ b) :
    v + BitVec.ofNat (w + 1) a < BitVec.ofNat (w + 1) b ↔ -(a : Int) ≤ x ∧ x < b - a := by
  rw [BitVec.lt_def, BitVec.toNat_add, BitVec.toNat_ofNat, BitVec.toNat_ofNat]
  have bound := v.isLt
  have double : (2 : Int) ^ (w + 1) = 2 * 2 ^ w := by rw [pow_succ, mul_comm]
  have cast : (2 : Int) ^ w = ((2 ^ w : Nat) : Int) := by simp
  rw [double] at value
  rw [cast] at value low high
  rw [Nat.pow_succ, Nat.mul_comm] at bound ⊢
  have positive : 0 < 2 ^ w := Nat.two_pow_pos w
  generalize v.toNat = y at value bound ⊢
  generalize 2 ^ w = m at *
  rw [Nat.mod_eq_of_lt (show a < 2 * m by omega), Nat.mod_eq_of_lt (show b < 2 * m by omega)]
  rcases Int.lt_or_le x 0 with negative | nonneg
  · have wrapped : (y : Int) = x + 2 * m := by
      rw [value, ← Int.add_emod_right, Int.emod_eq_of_lt (by omega) (by omega)]
    by_cases carry : y + a < 2 * m
    · rw [Nat.mod_eq_of_lt carry]
      omega
    · rw [Nat.mod_eq_sub_mod (by omega), Nat.mod_eq_of_lt (by omega)]
      omega
  · have plain : (y : Int) = x := by rw [value, Int.emod_eq_of_lt nonneg (by omega)]
    rw [Nat.mod_eq_of_lt (by omega)]
    omega

theorem toNat_ofInt (w : Nat) (x : Int) : ((BitVec.ofInt w x).toNat : Int) = x % 2 ^ w := by
  have positive : (0 : Int) < 2 ^ w := by positivity
  rw [BitVec.toNat_ofInt, Int.toNat_of_nonneg (Int.emod_nonneg _ (by simp))]
  simp

theorem writeSigned4_eq {v : BitVec 32} {x : Int} (value : (v.toNat : Int) = x % 2 ^ 32)
    (low : -2 ^ 31 ≤ x) (high : x < 2 ^ 31) : writeSigned4 v = writeSigned x := by
  have fix : v + 0x20 < 0xA0 ↔ -0x20 ≤ x ∧ x < 0x80 :=
    wrapped_lt_iff value low high (by decide) (by decide)
  have one : v + 128 < 256 ↔ -2 ^ 7 ≤ x ∧ x < 2 ^ 7 :=
    wrapped_lt_iff value low high (by decide) (by decide)
  have two : v + 32768 < 65536 ↔ -2 ^ 15 ≤ x ∧ x < 2 ^ 15 :=
    wrapped_lt_iff value low high (by decide) (by decide)
  have bits : v.toNat = (x % 2 ^ (8 * 4)).toNat := by omega
  have byte' : byte v = UInt8.ofNat (x % 2 ^ (8 * 1)).toNat := by
    apply UInt8.toNat_inj.mp
    rw [byte, UInt8.toNat_ofNat', UInt8.toNat_ofNat']
    omega
  have short : (v.setWidth 16).toNat = (x % 2 ^ (8 * 2)).toNat := by
    rw [BitVec.toNat_setWidth]
    omega
  simp only [writeSigned4, writeSigned, fix, one, two, bits, byte', short, writeInNetOrder_one]
  split_ifs with small
  any_goals rfl
  omega

theorem writeSigned8_eq {x : Int} (low : -2 ^ 63 ≤ x) (high : x < 2 ^ 63) :
    writeSigned8 (BitVec.ofInt 64 x) = writeSigned x := by
  have whole := toNat_ofInt 64 x
  have test : BitVec.ofInt 64 x + 2147483648 < 4294967296 ↔ -2 ^ 31 ≤ x ∧ x < 2 ^ 31 :=
    wrapped_lt_iff whole low high (by decide) (by decide)
  rw [writeSigned8]
  split
  · rename_i narrow
    obtain ⟨low', high'⟩ := test.mp narrow
    refine writeSigned4_eq ?_ low' high'
    rw [BitVec.toNat_setWidth]
    omega
  · rename_i wide
    rw [test] at wide
    have bits : (BitVec.ofInt 64 x).toNat = (x % 2 ^ (8 * 8)).toNat := by omega
    simp only [writeSigned, bits]
    rw [if_neg (by omega), if_neg (by omega), if_neg (by omega), if_neg wide]

/-- The value that the parser makes of an unsigned integer. -/
def rereadUnsigned (x : Nat) : Json := if x < 2 ^ 16 then .int x else .unsigned x

theorem scans_unsigned {b : UInt8} {width x : Nat} {v : Json}
    (scanned : ∀ s, scan b s =
      .number width s fun x => .scalar (if width ≤ 2 then .int x else .unsigned x))
    (small : x < 256 ^ width) (value : (if width ≤ 2 then .int x else .unsigned x) = v) :
    Scans (b :: writeInNetOrder width x) (.scalar v) :=
  value ▸ scans_number scanned small

theorem scans_writeUnsigned {x : Nat} (small : x < 2 ^ 64) :
    Scans (writeUnsigned x) (.scalar (rereadUnsigned x)) := by
  rw [writeUnsigned, rereadUnsigned]
  split
  · rw [if_pos (by omega)]
    exact scans_byte fun s => by rw [scan, form_fixint ‹_›]
  · split
    · exact scans_unsigned (fun s => rfl) (by omega) (if_pos (show x < 2 ^ 16 by omega)).symm
    · split
      · exact scans_unsigned (fun s => rfl) (by omega) rfl
      · split
        · exact scans_unsigned (fun s => rfl) (by omega) rfl
        · exact scans_unsigned (fun s => rfl) (by omega) rfl

theorem signed_bits {width : Nat} (positive : 0 < width) {x : Int} (low : -2 ^ (8 * width - 1) ≤ x)
    (high : x < 2 ^ (8 * width - 1)) : signed width (x % 2 ^ (8 * width)).toNat = x := by
  have double : (2 : Int) ^ (8 * width) = 2 * 2 ^ (8 * width - 1) := by
    rw [← pow_succ', Nat.sub_add_cancel (by omega)]
  have half : (0 : Int) < 2 ^ (8 * width - 1) := by positivity
  have cast : ((2 ^ (8 * width - 1) : Nat) : Int) = 2 ^ (8 * width - 1) := by simp
  rw [signed]
  rcases Int.lt_or_le x 0 with negative | nonneg
  · have wrapped : x % 2 ^ (8 * width) = x + 2 ^ (8 * width) := by
      rw [← Int.add_emod_right, Int.emod_eq_of_lt (by omega) (by omega)]
    rw [wrapped, if_neg (by omega), Int.toNat_of_nonneg (by omega)]
    omega
  · rw [Int.emod_eq_of_lt nonneg (by omega), if_pos (by omega), Int.toNat_of_nonneg nonneg]

theorem scans_signed {b : UInt8} {width : Nat} {x : Int} (positive : 0 < width)
    (scanned : ∀ s, scan b s = .number width s fun x => .scalar (.int (signed width x)))
    (low : -2 ^ (8 * width - 1) ≤ x) (high : x < 2 ^ (8 * width - 1)) :
    Scans (b :: writeInNetOrder width (x % 2 ^ (8 * width)).toNat) (.scalar (.int x)) := by
  have bits : (x % 2 ^ (8 * width)).toNat < 256 ^ width := by
    have range : x % 2 ^ (8 * width) < 2 ^ (8 * width) := Int.emod_lt_of_pos _ (by positivity)
    have cast : ((256 ^ width : Nat) : Int) = 2 ^ (8 * width) := by
      rw [pow_mul]
      simp
    have nonneg : 0 ≤ x % 2 ^ (8 * width) := Int.emod_nonneg _ (by positivity)
    omega
  have found := scans_number scanned bits
  rw [signed_bits positive low high] at found
  exact found

theorem scans_writeSigned {x : Int} (low : -2 ^ 63 ≤ x) (high : x < 2 ^ 63) :
    Scans (writeSigned x) (.scalar (.int x)) := by
  simp only [writeSigned]
  split
  · rename_i small
    refine scans_byte fun s => ?_
    rcases Int.lt_or_le x 0 with negative | nonneg
    · rw [scan, form_negative (by omega) (by omega)]
      exact congrArg (fun x => Scan.scalar (.int x) s) (by omega)
    · rw [scan, form_fixint (by omega)]
      exact congrArg (fun x => Scan.scalar (.int x) s) (by omega)
  · split
    · exact scans_signed (by decide) (fun s => rfl) (by omega) (by omega)
    · split
      · exact scans_signed (by decide) (fun s => rfl) (by omega) (by omega)
      · split
        · exact scans_signed (by decide) (fun s => rfl) (by omega) (by omega)
        · exact scans_signed (by decide) (fun s => rfl) (by omega) (by omega)

end Incll.Proof.Msgpack
