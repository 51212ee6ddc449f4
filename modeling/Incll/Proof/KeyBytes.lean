import Incll.Model.KeyBytes
import Incll.Proof.Layers.Keys
import Incll.Proof.Loginfo.Codec
import Mathlib.Tactic.Linarith
import Mathlib.Tactic.Ring

/-! # The order of slices is the order of strings -/

namespace Incll.Proof.KeyBytes
open Incll.Model Incll.Model.StringSlice

/-! The first `n` bytes of a string, padded with zeros, as a number. -/

def value : Nat → List UInt8 → Nat
  | 0, _ => 0
  | n + 1, l => (l.headD 0).toNat * 256 ^ n + value n l.tail

theorem value_lt (n : Nat) (l : List UInt8) : value n l < 256 ^ n := by
  induction n generalizing l with
  | zero => simp [value]
  | succ n ih =>
      have head := (l.headD 0).toNat_lt
      have tail := ih l.tail
      rw [value, Nat.pow_succ]
      nlinarith [Nat.two_pow_pos n]

@[simp] theorem value_nil (n : Nat) : value n [] = 0 := by
  induction n with
  | zero => rfl
  | succ n ih => simp [value, ih]

theorem value_cons (n : Nat) (x : UInt8) (l : List UInt8) :
    value (n + 1) (x :: l) = x.toNat * 256 ^ n + value n l := rfl

theorem compare_mul_add {n x y a b : Nat} (ha : a < n) (hb : b < n) :
    compare (x * n + a) (y * n + b) = (compare x y).then (compare a b) := by
  rcases Nat.lt_trichotomy x y with less | same | more
  · rw [compare_lt_iff_lt.mpr less]
    refine compare_lt_iff_lt.mpr ?_
    nlinarith
  · subst same
    rw [compare_eq_iff_eq.mpr rfl]
    rcases Nat.lt_trichotomy a b with less | same | more
    · rw [compare_lt_iff_lt.mpr less]
      exact compare_lt_iff_lt.mpr (by omega)
    · subst same
      simp
    · rw [compare_gt_iff_gt.mpr more]
      exact compare_gt_iff_gt.mpr (by omega)
  · rw [compare_gt_iff_gt.mpr more]
    refine compare_gt_iff_gt.mpr ?_
    nlinarith

theorem compare_toNat (x y : UInt8) : compare x.toNat y.toNat = compare x y := by
  simp only [Ord.compare, compareOfLessAndEq, UInt8.lt_iff_toNat_lt, UInt8.toNat_inj]

/-- The order of strings by their first `n` bytes and then by what is behind them, or by the lengths
up to `n` where one string ends. -/
theorem compare_slice (n : Nat) (a b : List UInt8) :
    compare a b = (compare (value n a) (value n b)).then
      (if n < a.length ∧ n < b.length then compare (a.drop n) (b.drop n)
      else compare (min a.length (n + 1)) (min b.length (n + 1))) := by
  induction n generalizing a b with
  | zero =>
      cases a with
      | nil =>
          cases b with
          | nil => rfl
          | cons y b => simpa [value] using (Nat.compare_eq_lt.mpr Nat.one_pos).symm
      | cons x a =>
          cases b with
          | nil => simpa [value] using (Nat.compare_eq_gt.mpr Nat.one_pos).symm
          | cons y b => simp [value]
  | succ n ih =>
      cases a with
      | nil =>
          cases b with
          | nil => simp
          | cons y b =>
              rcases Nat.eq_zero_or_pos (value (n + 1) (y :: b)) with zero | pos
              · rw [zero, value_nil]
                simpa using (Nat.compare_eq_lt.mpr (Nat.succ_pos _)).symm
              · rw [value_nil, Nat.compare_eq_lt.mpr pos]
                simp
      | cons x a =>
          cases b with
          | nil =>
              rcases Nat.eq_zero_or_pos (value (n + 1) (x :: a)) with zero | pos
              · rw [zero, value_nil]
                simpa using (Nat.compare_eq_gt.mpr (Nat.succ_pos _)).symm
              · rw [value_nil, Nat.compare_eq_gt.mpr pos]
                simp
          | cons y b =>
              have ends : compare (min (a.length + 1) (n + 1 + 1)) (min (b.length + 1) (n + 1 + 1)) =
                  compare (min a.length (n + 1)) (min b.length (n + 1)) := by
                rw [Nat.add_min_add_right, Nat.add_min_add_right]
                simp only [Nat.compare_eq_ite_lt, Nat.add_lt_add_iff_right]
              rw [List.compare_cons_cons, ih, value_cons, value_cons,
                compare_mul_add (value_lt n a) (value_lt n b), compare_toNat]
              simp only [List.length_cons, Nat.add_lt_add_iff_right, List.drop_succ_cons, ends]
              cases compare x y <;> rfl

/-! The loads. -/

theorem foldl_value (l : List UInt8) (x : Nat) :
    l.foldl (fun x c => c.toNat + 256 * x) x = x * 256 ^ l.length + value l.length l := by
  induction l generalizing x with
  | nil => simp
  | cons c l ih =>
      rw [List.foldl_cons, ih, List.length_cons, value_cons, Nat.pow_succ]
      ring

theorem ofLittleEndian_reverse (l : List UInt8) : ofLittleEndian l.reverse = value l.length l := by
  rw [ofLittleEndian, List.foldr_reverse, foldl_value, Nat.zero_mul, Nat.zero_add]

theorem ofLittleEndian_lt (l : List UInt8) : ofLittleEndian l < 256 ^ l.length := by
  have bound := value_lt l.reverse.length l.reverse
  rwa [← ofLittleEndian_reverse, List.reverse_reverse, List.length_reverse] at bound

theorem ofLittleEndian_cons (c : UInt8) (l : List UInt8) :
    ofLittleEndian (c :: l) = c.toNat + 256 * ofLittleEndian l := rfl

theorem littleEndian_ofLittleEndian (l : List UInt8) : littleEndian l.length (ofLittleEndian l) = l := by
  induction l with
  | nil => rfl
  | cons c l ih =>
      have byte := c.toNat_lt
      have high : (c.toNat + 256 * ofLittleEndian l) / 256 = ofLittleEndian l := by omega
      have low : UInt8.ofNat (c.toNat + 256 * ofLittleEndian l) = c := by
        apply UInt8.toNat_inj.mp
        simp
      rw [List.length_cons, ofLittleEndian_cons, Loginfo.littleEndian_succ, high, low, ih]

theorem ofLittleEndian_drop (l : List UInt8) (k : Nat) :
    ofLittleEndian l / 256 ^ k = ofLittleEndian (l.drop k) := by
  induction k generalizing l with
  | zero => simp
  | succ k ih =>
      cases l with
      | nil => simp [ofLittleEndian]
      | cons c l =>
          have byte := c.toNat_lt
          rw [List.drop_succ_cons, ← ih, ofLittleEndian_cons, Nat.pow_succ', ← Nat.div_div_eq_div_mul]
          congr 1
          omega

theorem ofLittleEndian_zeros (l : List UInt8) (k : Nat) :
    ofLittleEndian (l ++ List.replicate k 0) = ofLittleEndian l := by
  induction l with
  | nil =>
      induction k with
      | zero => rfl
      | succ k ih =>
          rw [List.replicate_succ, List.nil_append, ofLittleEndian_cons]
          simpa [ofLittleEndian] using ih
  | cons c l ih => rw [List.cons_append, ofLittleEndian_cons, ofLittleEndian_cons, ih]

theorem value_zeros (n k : Nat) (l : List UInt8) : value n (l ++ List.replicate k 0) = value n l := by
  induction n generalizing l k with
  | zero => rfl
  | succ n ih =>
      cases l with
      | nil =>
          cases k with
          | zero => rfl
          | succ k =>
              have rest := ih k []
              rw [List.nil_append] at rest
              simp [List.replicate_succ, value_cons, rest]
      | cons c l => rw [List.cons_append, value_cons, value_cons, ih]

theorem value_take (n k : Nat) (l : List UInt8) (le : n ≤ k) : value n (l.take k) = value n l := by
  induction n generalizing l k with
  | zero => rfl
  | succ n ih =>
      obtain ⟨k, rfl⟩ := Nat.exists_eq_add_of_le' (show 1 ≤ k by omega)
      cases l with
      | nil => rfl
      | cons c l => rw [List.take_succ_cons, value_cons, value_cons, ih _ _ (by omega)]

theorem comparable_value (l : List UInt8) : Key.comparable l = value 8 l := by
  have byte (k : Nat) : (l.drop k).headD 0 = l.getD k 0 := by
    simp [List.headD_eq_head?_getD, List.head?_drop]
  have first : l.headD 0 = l.getD 0 0 := byte 0
  rw [Layers.comparable_eq]
  simp only [value, ← List.drop_one, List.drop_drop, byte, first]
  simp only [Nat.reduceAdd, Nat.reducePow]
  omega

@[simp] theorem length_bytes (m : Chars) (s n : Nat) : (m.bytes s n).length = n := by simp [Chars.bytes]

theorem drop_bytes (m : Chars) (s n k : Nat) : (m.bytes s n).drop k = m.bytes (s + k) (n - k) := by
  refine List.ext_getElem (by simp) fun i hi hj => ?_
  simp [Chars.bytes, Nat.add_assoc]

theorem take_bytes (m : Chars) (s n k : Nat) : (m.bytes s n).take k = m.bytes s (min k n) := by
  refine List.ext_getElem (by simp) fun i hi hj => ?_
  simp [Chars.bytes]

/-- The first eight bytes of a string, padded. -/
def slice (l : List UInt8) : List UInt8 := l.take 8 ++ List.replicate (8 - l.length) 0

theorem length_slice (l : List UInt8) : (slice l).length = 8 := by
  simp only [slice, List.length_append, List.length_take, List.length_replicate]
  omega

theorem value_slice (l : List UInt8) : value 8 (slice l) = Key.comparable l := by
  rw [slice, value_zeros, value_take 8 8 l le_rfl, comparable_value]

theorem toNat_load {l : List UInt8} (length : l.length = 8) : (load l).toNat = ofLittleEndian l := by
  have bound := ofLittleEndian_lt l
  rw [length] at bound
  rw [load, BitVec.toNat_ofNat]
  exact Nat.mod_eq_of_lt bound

theorem image_load {l : List UInt8} (length : l.length = 8) : image (load l) = l := by
  rw [image, toNat_load length]
  have whole := littleEndian_ofLittleEndian l
  rwa [length] at whole

theorem netOrder_load {l : List UInt8} (length : l.length = 8) : netOrder (load l) = load l.reverse := by
  rw [netOrder, image_load length]

theorem netOrder_netOrder {l : List UInt8} (length : l.length = 8) :
    netOrder (netOrder (load l)) = load l := by
  rw [netOrder_load length, netOrder_load (by simpa using length), List.reverse_reverse]

theorem make_eq (m : Chars) (s len : Nat) : make m s len = load (slice (m.bytes s len)) := by
  have whole (le : 8 ≤ len) : slice (m.bytes s len) = m.bytes s 8 := by
    rw [slice, take_bytes, Nat.min_eq_left le, length_bytes, Nat.sub_eq_zero_of_le le]
    simp
  rw [make]
  split_ifs with empty long
  · subst empty
    rfl
  · rw [whole long]
    rfl
  · rw [slice, take_bytes, length_bytes, Nat.min_comm, StringSlice.size]
    congr 3
    simp only [StringSlice.size] at long
    omega

/-- The load in front of a short string loses what is not of the string. -/
theorem makeSloppy_eq (m : Chars) (s len : Nat) (room : 8 ≤ s + len) :
    makeSloppy m s len = make m s len := by
  rw [make_eq, makeSloppy]
  split_ifs with empty long
  · subst empty
    rfl
  · have exact' := make_eq m s len
    rw [make, if_neg empty, if_pos long] at exact'
    exact exact'
  · simp only [StringSlice.size] at long ⊢
    have tail : (m.bytes (s - (8 - len)) 8).drop (8 - len) = m.bytes s len := by
      rw [drop_bytes, show s - (8 - len) + (8 - len) = s by omega, show 8 - (8 - len) = len by omega]
    apply BitVec.eq_of_toNat_eq
    rw [BitVec.toNat_ushiftRight, toNat_load (length_bytes _ _ _), toNat_load (length_slice _),
      Nat.shiftRight_eq_div_pow, Nat.pow_mul, show 2 ^ 8 = 256 from rfl, ofLittleEndian_drop, tail,
      slice, List.take_of_length_le (by simp; omega), ofLittleEndian_zeros]

theorem netOrder_make (m : Chars) (s len : Nat) :
    (makeComparable m s len).toNat = Key.comparable (m.bytes s len) := by
  rw [makeComparable, make_eq, netOrder_load (length_slice _),
    toNat_load (by rw [List.length_reverse, length_slice]), ofLittleEndian_reverse, length_slice,
    value_slice]

theorem image_makeComparable (m : Chars) (s len : Nat) :
    image (netOrder (makeComparable m s len)) = slice (m.bytes s len) := by
  rw [makeComparable, make_eq, netOrder_netOrder (length_slice _), image_load (length_slice _)]

/-! Keys. -/

/-- The slice of the key is the one of its string. -/
def Current (m : Chars) (k : KeyPtr) : Prop := k.ikey0 = makeComparable m k.s k.len

theorem current_make (m : Chars) (s len : Nat) : Current m (.make m s len) := rfl

theorem current_shift {m : Chars} {k : KeyPtr} : Current m (k.shift m) := by
  simp only [Current, KeyPtr.shift, makeComparableSloppy, makeComparable, ikeySize]
  rw [makeSloppy_eq]
  omega

def string (m : Chars) (k : KeyPtr) : List UInt8 := m.bytes k.s k.len

theorem string_shift (m : Chars) (k : KeyPtr) : string m (k.shift m) = (string m k).drop 8 := by
  rw [string, string, drop_bytes]
  rfl

theorem suffix_eq (m : Chars) (k : KeyPtr) : k.suffix m = (string m k).drop 8 := by
  rw [string, drop_bytes]
  rfl

theorem key_eq {m : Chars} {k : KeyPtr} (current : Current m k) : k.key m = .ofBytes (string m k) := by
  rw [KeyPtr.key, current, netOrder_make, suffix_eq]
  simp [Key.ofBytes, string, ikeySize]

theorem hasSuffix_iff (m : Chars) (k : KeyPtr) : k.hasSuffix = true ↔ 8 < (string m k).length := by
  rw [string, length_bytes, KeyPtr.hasSuffix, decide_eq_true_iff]
  rfl

theorem strCompare_eq (a b : List UInt8) : strCompare a b = compare a b := by
  induction a generalizing b with
  | nil => cases b <;> rfl
  | cons x a ih =>
      cases b with
      | nil => rfl
      | cons y b =>
          have rest := ih b
          simp only [strCompare, List.length_cons, Nat.add_min_add_right, List.take_succ_cons,
            List.compare_cons_cons] at rest ⊢
          rw [← rest]
          cases compare x y with
          | lt => rfl
          | gt => rfl
          | eq =>
              have lengths : compare (a.length + 1) (b.length + 1) = compare a.length b.length := by
                simp only [Nat.compare_eq_ite_lt, Nat.add_lt_add_iff_right]
              rw [lengths]
              rfl

theorem keylenx_place (m : Chars) (x : KeyPtr) (below : Nat) :
    min (x.keylenx below) 9 = min (string m x).length 9 := by
  have suffix := hasSuffix_iff m x
  rw [string, length_bytes] at suffix ⊢
  simp only [KeyPtr.keylenx, suffix]
  split_ifs <;> simp only [ksufKeylenx, layerKeylenx] <;> omega

/-- The comparison in one layer. -/
theorem compare_layer {m m' : Chars} {k x : KeyPtr} (current : Current m k) (current' : Current m' x)
    (below : Nat) : k.compare m x.ikey0 (x.keylenx below) =
      (compare (value 8 (string m k)) (value 8 (string m' x))).then
        (compare (min (string m k).length 9) (min (string m' x).length 9)) := by
  have bound (l : List UInt8) : min l.length 9 < 16 := by omega
  rw [KeyPtr.compare, key_eq current, current', netOrder_make, Layers.compare_eq]
  simp only [Layers.Key.rank, Layers.rank, Key.ofBytes]
  rw [keylenx_place m', Nat.mul_comm 16, Nat.mul_comm 16, compare_mul_add (bound _) (bound _),
    comparable_value, comparable_value]
  rfl

/-- The comparison in one layer, followed by `next` for two keys that go on behind it. -/
theorem compare_next {m m' : Chars} {k x : KeyPtr} (current : Current m k) (current' : Current m' x)
    (below : Nat) {next : Ordering} (goes : next = compare ((string m k).drop 8) ((string m' x).drop 8)) :
    (match k.compare m x.ikey0 (x.keylenx below) with
      | .eq => if k.hasSuffix then next else .eq
      | c => c) = compare (string m k) (string m' x) := by
  have suffix := hasSuffix_iff m k
  rw [compare_layer current current', compare_slice 8 (string m k), goes]
  generalize string m k = a at *
  generalize string m' x = b at *
  cases compare (value 8 a) (value 8 b) with
  | lt => rfl
  | gt => rfl
  | eq =>
      by_cases both : 8 < a.length ∧ 8 < b.length
      · have ends : compare (min a.length 9) (min b.length 9) = .eq := compare_eq_iff_eq.mpr (by omega)
        simp only [ends, Ordering.then, suffix.mpr both.1, if_true, if_pos both]
      · simp only [Ordering.then, if_neg both]
        cases ends : compare (min a.length 9) (min b.length 9) with
        | lt => rfl
        | gt => rfl
        | eq =>
            have same := compare_eq_iff_eq.mp ends
            have short : ¬ k.hasSuffix = true := by
              rw [suffix]
              omega
            simp only [if_neg short]

theorem layerCompare_eq {m m' : Chars} {k x : KeyPtr} (current : Current m k) (current' : Current m' x)
    (below : Nat) : layerCompare m m' k x below = compare (string m k) (string m' x) := by
  induction below generalizing k x with
  | zero =>
      have goes : strCompare (k.suffix m) (x.suffix m') =
          compare ((string m k).drop 8) ((string m' x).drop 8) := by
        rw [strCompare_eq, suffix_eq, suffix_eq]
      rw [← compare_next current current' 0 goes, layerCompare.eq_def]
      cases k.compare m x.ikey0 (x.keylenx 0) <;> rfl
  | succ below ih =>
      have goes : layerCompare m m' (k.shift m) (x.shift m') below =
          compare ((string m k).drop 8) ((string m' x).drop 8) := by
        rw [ih current_shift current_shift, string_shift, string_shift]
      rw [← compare_next current current' (below + 1) goes, layerCompare.eq_def]
      cases k.compare m x.ikey0 (x.keylenx (below + 1)) <;> rfl

theorem compare_eq_eq {a b : List UInt8} : compare a b = .eq ↔ a = b :=
  Std.LawfulEqOrd.compare_eq_iff_eq

theorem compare_eq_lt {a b : List UInt8} : compare a b = .lt ↔ a < b := by
  induction a generalizing b with
  | nil => cases b <;> simp
  | cons x a ih =>
      cases b with
      | nil => simp
      | cons y b =>
          rw [List.compare_cons_cons, List.cons_lt_cons_iff, ← ih]
          rw [← compare_toNat, UInt8.lt_iff_toNat_lt, ← UInt8.toNat_inj]
          rcases Nat.lt_trichotomy x.toNat y.toNat with less | same | more
          · simp [Nat.compare_eq_lt.mpr less, less]
          · simp [same]
          · simp [Nat.compare_eq_gt.mpr more, more.not_gt, more.ne']

/-! From slices back to strings. -/

theorem take_slice (l : List UInt8) {n : Nat} (place : n = min 8 l.length) : (slice l).take n = l.take 8 := by
  rw [slice, List.take_append_of_le_length (by simp; omega), List.take_of_length_le (by simp; omega)]

theorem unparse_eq {m : Chars} {k : KeyPtr} {l : List UInt8}
    (slices : image (netOrder k.ikey0) = slice l) (len : k.len = l.length)
    (suffix : k.suffix m = l.drop 8) : k.unparse m k.len = l := by
  have rest : (if ikeySize < k.len then m.bytes (k.s + ikeySize) (k.len - ikeySize) else []) = l.drop 8 := by
    split_ifs with long
    · exact suffix
    · rw [List.drop_of_length_le (by simp only [ikeySize] at long; omega)]
  simp only [KeyPtr.unparse, Nat.min_self, unparseComparable, slices, rest]
  conv_rhs => rw [← List.take_append_drop 8 l]
  congr 1
  exact take_slice l (by simp only [ikeySize, StringSlice.size]; omega)

section
variable {m : Chars} {s : Nat} {l : List UInt8}

theorem write_out {i : Nat} (out : i < s ∨ s + l.length ≤ i) : m.write s l i = m i :=
  if_neg (by omega)

theorem bytes_congr {m' : Chars} {n : Nat} (same : ∀ i, s ≤ i → i < s + n → m' i = m i) :
    m'.bytes s n = m.bytes s n :=
  List.map_congr_left fun i inside => same _ (by omega) (by
    have := List.mem_range.mp inside
    omega)

theorem bytes_write : (m.write s l).bytes s l.length = l := by
  refine List.ext_getElem (by simp) fun i hi hj => ?_
  simp [Chars.bytes, Chars.write, hj]

theorem bytes_append (a b : Nat) : m.bytes s (a + b) = m.bytes s a ++ m.bytes (s + a) b := by
  rw [← List.take_append_drop a (m.bytes s (a + b)), take_bytes, drop_bytes]
  simp

end

theorem slice_word {m : Chars} {x : KeyPtr} (current : Current m x) :
    image (netOrder x.ikey0) = slice (string m x) := by
  rw [current, image_makeComparable]
  rfl

theorem length_image (x : BitVec 64) : (image x).length = 8 := Loginfo.length_littleEndian _ _

/-- The first eight bytes of the string are at `s` after its slice is stored there. -/
theorem bytes_slice (b : Chars) (s : Nat) (l : List UInt8) :
    (b.write s (slice l)).bytes s (min 8 l.length) = l.take 8 := by
  have whole := bytes_write (m := b) (s := s) (l := slice l)
  have first := congrArg (List.take (min 8 l.length)) whole
  rwa [take_bytes, take_slice l rfl, length_slice, Nat.min_eq_left (Nat.min_le_left _ _)] at first

theorem entryPath_succ (m : Chars) (x : KeyPtr) (below : Nat) : x.entryPath m (below + 1) =
    (x.ikey0 :: ((x.shift m).entryPath m below).1, ((x.shift m).entryPath m below).2) := rfl

theorem storeEntry_bytes {m b : Chars} {k x : KeyPtr} (current : Current m x) :
    (storeEntry k b x.ikey0 (x.keylenx 0) (x.suffix m)).2.bytes k.s x.len = string m x ∧
    (∀ i, i < k.s ∨ k.s + max 8 x.len ≤ i →
      (storeEntry k b x.ikey0 (x.keylenx 0) (x.suffix m)).2 i = b i) ∧
    (storeEntry k b x.ikey0 (x.keylenx 0) (x.suffix m)).1 = { k with ikey0 := x.ikey0, len := x.len } := by
  have suffix := hasSuffix_iff m x
  have length : (string m x).length = x.len := length_bytes _ _ _
  have rest : (x.suffix m).length = x.len - 8 := by
    rw [suffix_eq, List.length_drop, length]
  rw [length] at suffix
  simp only [storeEntry, KeyPtr.keylenx, if_true, KeyPtr.assignStoreIkey, KeyPtr.assignStoreSuffix,
    KeyPtr.assignStoreLength, slice_word current]
  by_cases long : 8 < x.len
  · rw [if_pos (suffix.mpr long), if_pos rfl]
    simp only [rest, ikeySize]
    refine ⟨?_, ?_, by simp only [KeyPtr.mk.injEq, true_and, and_true]; omega⟩
    · have first := bytes_slice (b.write (k.s + 8) (x.suffix m)) k.s (string m x)
      have second := bytes_write (m := b) (s := k.s + 8) (l := x.suffix m)
      rw [length, Nat.min_eq_left (by omega)] at first
      rw [rest] at second
      have kept : ((b.write (k.s + 8) (x.suffix m)).write k.s (slice (string m x))).bytes (k.s + 8) (x.len - 8) =
          (b.write (k.s + 8) (x.suffix m)).bytes (k.s + 8) (x.len - 8) :=
        bytes_congr fun i low _ => write_out (by rw [length_slice]; omega)
      have parts : x.len = 8 + (x.len - 8) := by omega
      rw [parts, bytes_append, first, kept, second, suffix_eq,
        List.take_append_drop]
    · intro i out
      rw [write_out (by rw [length_slice]; omega), write_out (by rw [rest]; omega)]
  · rw [if_neg (mt suffix.mp long), if_neg (by simp only [ksufKeylenx]; omega)]
    refine ⟨?_, ?_, rfl⟩
    · have first := bytes_slice b k.s (string m x)
      rw [length, Nat.min_eq_right (by omega), List.take_of_length_le (by omega)] at first
      exact first
    · intro i out
      exact write_out (by rw [length_slice]; omega)

theorem storeLayers_cons (reverse : Bool) (k : KeyPtr) (b : Chars) (ikey : BitVec 64)
    (ikeys : List (BitVec 64)) : storeLayers reverse (k, b) (ikey :: ikeys) =
      storeLayers reverse
        (if reverse then ({ k with ikey0 := ikey } : KeyPtr).shiftClearReverse
          else ({ k with ikey0 := ikey } : KeyPtr).shiftClear, b.write k.s (image (netOrder ikey))) ikeys := rfl

/-- The key and the buffer of a scan that emits the entry for `x`. -/
def emitted (reverse : Bool) (m b : Chars) (k x : KeyPtr) (below : Nat) : KeyPtr × Chars :=
  let (ikeys, entry) := x.entryPath m below
  let (k, b) := storeLayers reverse (k, b) ikeys
  storeEntry k b entry.ikey0 (entry.keylenx 0) (entry.suffix m)

theorem emitted_bytes (reverse : Bool) {m b : Chars} {k x : KeyPtr} {below : Nat} (current : Current m x)
    (deep : below = 0 ∨ 8 * below < x.len) :
    (emitted reverse m b k x below).2.bytes k.s x.len = string m x ∧
    (∀ i, i < k.s ∨ k.s + max (8 * below + 8) x.len ≤ i → (emitted reverse m b k x below).2 i = b i) ∧
    (emitted reverse m b k x below).1 =
      ⟨(x.entryPath m below).2.ikey0, x.len - 8 * below, k.s + 8 * below, k.first⟩ := by
  induction below generalizing b k x with
  | zero =>
      obtain ⟨bytes, frame, key⟩ := storeEntry_bytes (b := b) (k := k) current
      exact ⟨bytes, frame, key⟩
  | succ below ih =>
      have long : 8 < x.len := by omega
      have length : (string m x).length = x.len := length_bytes _ _ _
      obtain ⟨k', place, first, next⟩ : ∃ k' : KeyPtr, k'.s = k.s + 8 ∧ k'.first = k.first ∧
          emitted reverse m b k x (below + 1) =
            emitted reverse m (b.write k.s (slice (string m x))) k' (x.shift m) below := by
        refine ⟨if reverse then ({ k with ikey0 := x.ikey0 } : KeyPtr).shiftClearReverse
          else ({ k with ikey0 := x.ikey0 } : KeyPtr).shiftClear, ?_, ?_, ?_⟩
        · cases reverse <;> rfl
        · cases reverse <;> rfl
        · rw [← slice_word current]
          rfl
      obtain ⟨bytes, frame, key⟩ := ih (b := b.write k.s (slice (string m x))) (k := k')
        (x := x.shift m) current_shift (by
          simp only [KeyPtr.shift, ikeySize]
          omega)
      have shifted : (x.shift m).len = x.len - 8 := rfl
      rw [place, shifted] at bytes frame
      rw [next]
      refine ⟨?_, ?_, ?_⟩
      · have head := bytes_slice b k.s (string m x)
        rw [length, Nat.min_eq_left (by omega)] at head
        have kept : (emitted reverse m (b.write k.s (slice (string m x))) k' (x.shift m) below).2.bytes k.s 8 =
            (b.write k.s (slice (string m x))).bytes k.s 8 :=
          bytes_congr fun i _ high => frame i (.inl high)
        have parts : x.len = 8 + (x.len - 8) := by omega
        rw [parts, bytes_append, kept, head, bytes, string_shift, List.take_append_drop]
      · intro i out
        rw [frame i (by omega), write_out (by rw [length_slice]; omega)]
      · rw [key, shifted, place, first]
        simp only [KeyPtr.entryPath, KeyPtr.mk.injEq, true_and, and_true]
        omega

/-- The order of slices is the order of strings, in which a proper prefix comes first, and the slices
give the string back: through `unparse`, of the key and of the entry that holds it, and through what a
scan stores. -/
theorem slices_faithful (m m' : Chars) (s s' la lb below : Nat) :
    layerCompare m m' (.make m s la) (.make m' s' lb) below = compare (m.bytes s la) (m'.bytes s' lb) ∧
    (layerCompare m m' (.make m s la) (.make m' s' lb) below = .lt ↔ m.bytes s la < m'.bytes s' lb) ∧
    (layerCompare m m' (.make m s la) (.make m' s' lb) below = .eq ↔ m.bytes s la = m'.bytes s' lb) ∧
    (KeyPtr.make m s la).unparse m la = m.bytes s la ∧
    (la ≤ 8 → (KeyPtr.ofIkey (KeyPtr.make m s la).ikey0 la).unparse m' la = m.bytes s la) ∧
    (∀ suf, 8 ≤ suf → 8 < la → m'.bytes suf (la - 8) = (KeyPtr.make m s la).suffix m →
      (KeyPtr.ofSuffix (KeyPtr.make m s la).ikey0 suf (la - 8)).unparse m' la = m.bytes s la) ∧
    (∀ reverse b k, k.s = k.first → below = 0 ∨ 8 * below < la →
      (emitted reverse m b k (.make m s la) below).1.fullString
        (emitted reverse m b k (.make m s la) below).2 = m.bytes s la ∧
      (la ≤ maxKeyLen → ∀ i, i < k.first ∨ k.first + 256 ≤ i →
        (emitted reverse m b k (.make m s la) below).2 i = b i)) := by
  have current := current_make m s la
  have order := layerCompare_eq current (current_make m' s' lb) below
  have word := slice_word current
  have length : (m.bytes s la).length = la := length_bytes _ _ _
  refine ⟨order, ?_, ?_, ?_, ?_, ?_, ?_⟩
  · rw [order, compare_eq_lt]
    rfl
  · rw [order, compare_eq_eq]
    rfl
  · exact unparse_eq word length.symm (suffix_eq _ _)
  · intro short
    have len : (KeyPtr.ofIkey (KeyPtr.make m s la).ikey0 la).len = la := Nat.min_eq_left short
    have whole := unparse_eq (m := m') (k := KeyPtr.ofIkey (KeyPtr.make m s la).ikey0 la) word
      (len.trans length.symm) (by
        rw [KeyPtr.suffix, len, List.drop_of_length_le (by rw [string, length_bytes]; exact short)]
        simp [Chars.bytes, ikeySize, short])
    rwa [len] at whole
  · intro suf room long stored
    have len : (KeyPtr.ofSuffix (KeyPtr.make m s la).ikey0 suf (la - 8)).len = la := by
      simp only [KeyPtr.ofSuffix, ikeySize]
      omega
    have whole := unparse_eq (m := m') (k := KeyPtr.ofSuffix (KeyPtr.make m s la).ikey0 suf (la - 8)) word
      (len.trans length.symm) (by
        rw [← suffix_eq, ← stored, KeyPtr.suffix, len]
        simp only [KeyPtr.ofSuffix, ikeySize]
        rw [Nat.sub_add_cancel room])
    rwa [len] at whole
  · intro reverse b k start deep
    obtain ⟨bytes, frame, key⟩ := emitted_bytes reverse (b := b) (k := k) current deep
    have len : (KeyPtr.make m s la).len = la := rfl
    rw [len] at bytes frame key
    rw [start] at bytes frame
    constructor
    · rw [KeyPtr.fullString, key]
      simp only [start]
      rw [show k.first + 8 * below + (la - 8 * below) - k.first = la by omega]
      exact bytes
    · intro short i out
      simp only [maxKeyLen] at short
      exact frame i (by omega)

end Incll.Proof.KeyBytes
