import Incll.Lib.Nibbles
import Incll.Model.NodeversionWord

/-! # The version word as a record -/

namespace Incll.Proof.NodeversionWord
open Incll.Model Incll.Lib Incll.Model.Nodeversion32

def counter (x : Nodeversion32) : Nat := (x.v.extractLsb' 3 25).toNat

/-- The fields of the word without the leaf bit. -/
def fields (x : Nodeversion32) : Nodeversion where
  locked := x.v.getLsbD 0
  inserting := x.v.getLsbD 1
  splitting := x.v.getLsbD 2
  deleted := x.v.getLsbD 29
  root := x.v.getLsbD 30
  counter := counter x

theorem and_bit (v : BitVec 32) {k : Nat} (bound : k < 32) : (v &&& 1#32 <<< k != 0#32) = v.getLsbD k := by
  have nonzero : BitVec.twoPow 32 k ≠ 0#32 := by
    intro zero
    have bit := congrArg (·.getLsbD k) zero
    simp [bound] at bit
  rw [← BitVec.twoPow_eq, BitVec.and_twoPow]
  cases v.getLsbD k with
  | false => simp
  | true => simpa using nonzero

section
variable (x : Nodeversion32)

theorem isleaf_eq : x.isleaf = x.v.getLsbD 31 := and_bit _ (by decide)
theorem locked_eq : x.locked = (fields x).locked := and_bit _ (by decide)
theorem splitting_eq : x.splitting = (fields x).splitting := and_bit _ (by decide)
theorem deleted_eq : x.deleted = (fields x).deleted := and_bit _ (by decide)
theorem isRoot_eq : x.isRoot = (fields x).root := and_bit _ (by decide)

theorem dirty_eq : x.dirty = (fields x).dirty := by
  have inserting : (x.v &&& insertingBit != 0#32) = (fields x).inserting := and_bit _ (by decide)
  have splitting : (x.v &&& splittingBit != 0#32) = (fields x).splitting := and_bit _ (by decide)
  rw [Nodeversion.dirty, ← inserting, ← splitting, dirty, dirtyMask, BitVec.and_or_distrib_left,
    Bool.eq_iff_iff]
  simp only [bne_iff_ne, ne_eq, Bool.or_eq_true, BitVec.or_eq_zero_iff, not_and_or]

end

/-- The word has the leaf bit `leaf` and the fields `n`, and its unused bit is clear. -/
structure Reads (x : Nodeversion32) (leaf : Bool) (n : Nodeversion) : Prop where
  isleaf : x.v.getLsbD 31 = leaf
  fields : fields x = n
  unused1 : x.v.getLsbD 28 = false

variable {x : Nodeversion32} {leaf : Bool} {n : Nodeversion}

/-- Or-ing bits that are not in the counter. -/
theorem reads_or (h : Reads x leaf n) {c : BitVec 32} (high : c.getLsbD 31 = false)
    (unused : c.getLsbD 28 = false) (outside : c.extractLsb' 3 25 = 0#25) :
    Reads ⟨x.v ||| c⟩ leaf
      { n with
        locked := n.locked || c.getLsbD 0
        inserting := n.inserting || c.getLsbD 1
        splitting := n.splitting || c.getLsbD 2
        deleted := n.deleted || c.getLsbD 29
        root := n.root || c.getLsbD 30 } := by
  obtain ⟨isleaf, rfl, none⟩ := h
  refine ⟨?_, ?_, ?_⟩
  · rw [BitVec.getLsbD_or, isleaf, high, Bool.or_false]
  · simp only [fields, counter, BitVec.getLsbD_or, BitVec.extractLsb'_or, outside, BitVec.or_zero]
  · rw [BitVec.getLsbD_or, none, unused, Bool.or_false]

/-- And-ing with a mask that keeps the leaf bit. -/
theorem fields_and (v c : BitVec 32) : fields ⟨v &&& c⟩ =
    { locked := (fields ⟨v⟩).locked && c.getLsbD 0
      inserting := (fields ⟨v⟩).inserting && c.getLsbD 1
      splitting := (fields ⟨v⟩).splitting && c.getLsbD 2
      deleted := (fields ⟨v⟩).deleted && c.getLsbD 29
      root := (fields ⟨v⟩).root && c.getLsbD 30
      counter := (v.extractLsb' 3 25 &&& c.extractLsb' 3 25).toNat } := by
  simp only [fields, counter, BitVec.getLsbD_and, BitVec.extractLsb'_and]

theorem lock_reads (h : Reads x leaf n) (free : n.locked = false) (clean : n.dirty = false) :
    ∃ y, x.lock = some y ∧ Reads y leaf { n with locked := true } := by
  refine ⟨⟨x.v ||| lockBit⟩, ?_, ?_⟩
  · rw [lock, locked_eq, dirty_eq, h.fields, free, clean]
    rfl
  · have whole := reads_or h (c := lockBit) (by decide) (by decide) (by decide)
    simpa [lockBit] using whole

/-- What a mark does to the fields. -/
def mark (n : Nodeversion) : Mark → Nodeversion
  | .insert => { n with inserting := true }
  | .split => { n with splitting := true }
  | .deleted => { n with deleted := true, splitting := true }
  | .root => { n with root := true }
  | .nonroot => { n with root := false }

theorem mark_reads (h : Reads x leaf n) (held : n.locked = true) (m : Mark) :
    ∃ y, m.apply x = some y ∧ Reads y leaf (mark n m) := by
  have locked : x.locked = true := by rw [locked_eq, h.fields, held]
  cases m with
  | insert =>
      have whole := reads_or h (c := insertingBit) (by decide) (by decide) (by decide)
      refine ⟨_, if_pos locked, ?_⟩
      simpa [insertingBit, mark] using whole
  | split =>
      have whole := reads_or h (c := splittingBit) (by decide) (by decide) (by decide)
      refine ⟨_, if_pos locked, ?_⟩
      simpa [splittingBit, mark] using whole
  | deleted =>
      have whole := reads_or h (c := deletedBit ||| splittingBit) (by decide) (by decide) (by decide)
      refine ⟨_, rfl, ?_⟩
      simpa [markDeleted, deletedBit, splittingBit, mark] using whole
  | root =>
      have whole := reads_or h (c := rootBit) (by decide) (by decide) (by decide)
      refine ⟨_, rfl, ?_⟩
      simpa [markRoot, rootBit, mark] using whole
  | nonroot =>
      obtain ⟨isleaf, rfl, none⟩ := h
      have outside : (~~~rootBit).extractLsb' 3 25 = BitVec.allOnes 25 := by decide
      refine ⟨_, rfl, ?_, ?_, ?_⟩
      · simp [Nodeversion32.markNonroot, rootBit, ← isleaf]
      · rw [Nodeversion32.markNonroot, fields_and, outside, BitVec.and_allOnes]
        simp [rootBit, mark, fields, counter]
      · simp [Nodeversion32.markNonroot, rootBit] at none ⊢
        exact none

theorem add_high {v : BitVec 32} (none : v.getLsbD 28 = false) {m : Nat} (small : m ≤ 2 ^ 9) {j : Nat}
    (high : 29 ≤ j) : (v + BitVec.ofNat 32 m).getLsbD j = v.getLsbD j := by
  refine getLsbD_high (n := 29) ?_ high
  have bit : v.toNat / 2 ^ 28 % 2 = 0 := by
    rw [← BitVec.testBit_toNat, Nat.testBit_eq_decide_div_mod_eq] at none
    simp only [decide_eq_false_iff_not] at none
    omega
  have bound := v.isLt
  rw [BitVec.toNat_add, BitVec.toNat_ofNat, Nat.mod_eq_of_lt (show m < 2 ^ 32 by omega)]
  omega

theorem add_counter (v : BitVec 32) (m : Nat) :
    ((v + BitVec.ofNat 32 (8 * m)).extractLsb' 3 25).toNat = (counter ⟨v⟩ + m) % 2 ^ 25 := by
  simp only [counter, BitVec.extractLsb'_toNat, BitVec.toNat_add, BitVec.toNat_ofNat,
    Nat.shiftRight_eq_div_pow]
  omega

theorem and_split_mask (a : BitVec 25) : (a &&& ~~~63#25).toNat = a.toNat / 2 ^ 6 * 2 ^ 6 := by
  have same : a &&& ~~~63#25 = a >>> 6 <<< 6 := by
    have mask : ∀ i < 25, (~~~63#25).getLsbD i = decide (6 ≤ i) := by decide
    refine BitVec.eq_of_getLsbD_eq fun i bound => ?_
    rw [BitVec.getLsbD_and, mask i bound, BitVec.getLsbD_shiftLeft, BitVec.getLsbD_ushiftRight]
    by_cases low : i < 6
    · simp [low, show ¬ 6 ≤ i by omega]
    · simp [low, bound, show 6 ≤ i by omega, show 6 + (i - 6) = i by omega]
  have bound := a.isLt
  rw [same, BitVec.toNat_shiftLeft, BitVec.toNat_ushiftRight, Nat.shiftLeft_eq,
    Nat.shiftRight_eq_div_pow]
  omega

theorem unlock_reads (h : Reads x leaf n) (held : n.locked = true) :
    ∃ y, x.unlock = some y ∧ Reads y leaf n.unlock := by
  have locked : x.locked = true := by rw [locked_eq, h.fields, held]
  have splitting := splitting_eq x
  obtain ⟨isleaf, rfl, none⟩ := h
  refine ⟨_, if_pos locked, ?_⟩
  by_cases split : (fields x).splitting = true
  · rw [if_pos (splitting.trans split), Nodeversion.unlock, if_pos split]
    have outside : splitUnlockMask.extractLsb' 3 25 = ~~~63#25 := by decide
    obtain ⟨bit0, bit1, bit2, bit28, bit29, bit30, bit31⟩ :
        splitUnlockMask.getLsbD 0 = false ∧ splitUnlockMask.getLsbD 1 = false ∧
        splitUnlockMask.getLsbD 2 = false ∧ splitUnlockMask.getLsbD 28 = false ∧
        splitUnlockMask.getLsbD 29 = true ∧ splitUnlockMask.getLsbD 30 = false ∧
        splitUnlockMask.getLsbD 31 = true := by decide
    have high (j : Nat) (bound : 29 ≤ j) : (x.v + vsplitLowbit).getLsbD j = x.v.getLsbD j :=
      add_high none (m := 512) (by decide) bound
    have deleted : (fields ⟨x.v + vsplitLowbit⟩).deleted = (fields x).deleted := high 29 le_rfl
    have sum : ((x.v + vsplitLowbit).extractLsb' 3 25).toNat = (counter x + 64) % 2 ^ 25 :=
      add_counter x.v 64
    have carried : (counter x + 64) % 2 ^ 25 / 2 ^ 6 * 2 ^ 6 =
        ((fields x).vsplit + 1) % 2 ^ 19 * 2 ^ 6 := by
      simp only [Nodeversion.vsplit, fields]
      omega
    refine ⟨?_, ?_, ?_⟩
    · rw [BitVec.getLsbD_and, high 31 (by decide), isleaf, bit31, Bool.and_true]
    · rw [fields_and, outside, and_split_mask, sum, carried, deleted]
      simp only [bit0, bit1, bit2, bit29, bit30, Bool.and_false, Bool.and_true]
    · rw [BitVec.getLsbD_and, bit28, Bool.and_false]
  · rw [if_neg (fun h => split (splitting.symm.trans h)), Nodeversion.unlock, if_neg split]
    have outside : unlockMask.extractLsb' 3 25 = BitVec.allOnes 25 := by decide
    obtain ⟨bit0, bit1, bit2, bit28, bit29, bit30, bit31⟩ :
        unlockMask.getLsbD 0 = false ∧ unlockMask.getLsbD 1 = false ∧
        unlockMask.getLsbD 2 = false ∧ unlockMask.getLsbD 28 = false ∧
        unlockMask.getLsbD 29 = true ∧ unlockMask.getLsbD 30 = true ∧
        unlockMask.getLsbD 31 = true := by decide
    have amount : (x.v &&& insertingBit) <<< 2 =
        BitVec.ofNat 32 (8 * (fields x).inserting.toNat) := by
      have single : x.v &&& insertingBit = if x.v.getLsbD 1 then BitVec.twoPow 32 1 else 0#32 := by
        rw [insertingBit, ← BitVec.twoPow_eq, BitVec.and_twoPow]
      have bit : (fields x).inserting = x.v.getLsbD 1 := rfl
      rw [single, bit]
      cases x.v.getLsbD 1 <;> rfl
    have small : 8 * (fields x).inserting.toNat ≤ 2 ^ 9 := by
      cases (fields x).inserting <;> decide
    rw [amount]
    have high (j : Nat) (bound : 29 ≤ j) :
        (x.v + BitVec.ofNat 32 (8 * (fields x).inserting.toNat)).getLsbD j = x.v.getLsbD j :=
      add_high none small bound
    have sum := add_counter x.v (fields x).inserting.toNat
    have deleted : (fields ⟨x.v + BitVec.ofNat 32 (8 * (fields x).inserting.toNat)⟩).deleted =
        (fields x).deleted := high 29 le_rfl
    have root : (fields ⟨x.v + BitVec.ofNat 32 (8 * (fields x).inserting.toNat)⟩).root =
        (fields x).root := high 30 (by decide)
    have whole : (fields x).splitting = false := by simpa using split
    refine ⟨?_, ?_, ?_⟩
    · rw [BitVec.getLsbD_and, high 31 (by decide), isleaf, bit31, Bool.and_true]
    · rw [fields_and, outside, BitVec.and_allOnes, sum, deleted, root]
      simp only [bit0, bit1, bit2, bit29, bit30, Bool.and_false, Bool.and_true, whole]
      rfl
    · rw [BitVec.getLsbD_and, bit28, Bool.and_false]

/-! Critical sections. -/

/-- `mark_deleted` marks a split too. -/
def splits : Mark → Bool
  | .split | .deleted => true
  | _ => false

def inserts : Mark → Bool
  | .insert => true
  | _ => false

def deletes : Mark → Bool
  | .deleted => true
  | _ => false

def changes (m : Mark) : Bool := inserts m || splits m

/-- What the marks alone do to the root bit. -/
def markRootBit (root : Bool) : Mark → Bool
  | .root => true
  | .nonroot => false
  | _ => root

theorem foldl_mark (ms : List Mark) (n : Nodeversion) : ms.foldl mark n =
    { locked := n.locked
      inserting := n.inserting || ms.any inserts
      splitting := n.splitting || ms.any splits
      deleted := n.deleted || ms.any deletes
      root := ms.foldl markRootBit n.root
      counter := n.counter } := by
  induction ms generalizing n with
  | nil => simp
  | cons m ms ih =>
      rw [List.foldl_cons, ih]
      cases m <;> simp [mark, splits, inserts, deletes, markRootBit]

def sectionFields (n : Nodeversion) (ms : List Mark) : Nodeversion :=
  (ms.foldl mark { n with locked := true }).unlock

theorem marks_reads (h : Reads x leaf n) (held : n.locked = true) (ms : List Mark) :
    ∃ y, x.marks ms = some y ∧ Reads y leaf (ms.foldl mark n) := by
  induction ms generalizing x n with
  | nil => exact ⟨x, rfl, h⟩
  | cons m ms ih =>
      obtain ⟨y, step, reads⟩ := mark_reads h held m
      have held' : (mark n m).locked = true := by cases m <;> exact held
      obtain ⟨z, rest, reads⟩ := ih reads held'
      exact ⟨z, by rw [marks, List.foldlM_cons, step]; exact rest, reads⟩

theorem critical_reads (h : Reads x leaf n) (free : n.locked = false) (clean : n.dirty = false)
    (ms : List Mark) : ∃ y, x.critical ms = some y ∧ Reads y leaf (sectionFields n ms) := by
  obtain ⟨y, locks, reads⟩ := lock_reads h free clean
  obtain ⟨z, marked, reads⟩ := marks_reads reads rfl ms
  have held : (ms.foldl mark { n with locked := true }).locked = true := by rw [foldl_mark]
  obtain ⟨w, unlocks, reads⟩ := unlock_reads reads held
  exact ⟨w, by simp [critical, locks, marked, unlocks], reads⟩

theorem sectionFields_free (n : Nodeversion) (ms : List Mark) :
    (sectionFields n ms).locked = false ∧ (sectionFields n ms).dirty = false := by
  rw [sectionFields, Nodeversion.unlock]
  split
  · exact ⟨rfl, rfl⟩
  · rename_i whole
    exact ⟨rfl, by simpa [Nodeversion.dirty] using whole⟩

theorem run_reads (h : Reads x leaf n) (free : n.locked = false) (clean : n.dirty = false)
    (done : List (List Mark)) :
    ∃ y, x.run done = some y ∧ Reads y leaf (done.foldl sectionFields n) ∧
      (done.foldl sectionFields n).locked = false ∧ (done.foldl sectionFields n).dirty = false := by
  induction done generalizing x n with
  | nil => exact ⟨x, rfl, h, free, clean⟩
  | cons ms done ih =>
      obtain ⟨y, step, reads⟩ := critical_reads h free clean ms
      obtain ⟨free', clean'⟩ := sectionFields_free n ms
      obtain ⟨z, rest, reads⟩ := ih reads free' clean'
      exact ⟨z, by rw [run, List.foldlM_cons, step]; exact rest, reads⟩

/-- From `c` to `c'` the counter rises by at most 64 and its split part by at most one in each of `k`
sections, and by at least one where `changed` and `split` say so. -/
def Advance (c c' k : Nat) (changed split : Prop) : Prop :=
  c' < 2 ^ 25 ∧ (∃ d ≤ 64 * k, (changed → 0 < d) ∧ c' = (c + d) % 2 ^ 25) ∧
  ∃ e ≤ k, (split → 0 < e) ∧ c' / 2 ^ 6 = (c / 2 ^ 6 + e) % 2 ^ 19

section
variable {c c' c'' k k' : Nat} {changed changed' split split' : Prop}

theorem Advance.refl (bound : c < 2 ^ 25) : Advance c c 0 False False :=
  ⟨bound, ⟨0, by omega, False.elim, by omega⟩, 0, by omega, False.elim, by omega⟩

theorem Advance.trans (first : Advance c c' k changed split) (second : Advance c' c'' k' changed' split') :
    Advance c c'' (k + k') (changed ∨ changed') (split ∨ split') := by
  obtain ⟨-, ⟨d, most, least, rfl⟩, e, mostSplit, leastSplit, here⟩ := first
  obtain ⟨bound, ⟨d', most', least', rfl⟩, e', mostSplit', leastSplit', here'⟩ := second
  refine ⟨bound, ⟨d + d', by omega, ?_, by omega⟩, e + e', by omega, ?_, by omega⟩
  · rintro (some | some)
    · have := least some
      omega
    · have := least' some
      omega
  · rintro (some | some)
    · have := leastSplit some
      omega
    · have := leastSplit' some
      omega

theorem Advance.ne (h : Advance c c' k changed split) (few : k < 2 ^ 19)
    (some : changed) : c' ≠ c := by
  obtain ⟨bound, ⟨d, most, least, rfl⟩, -⟩ := h
  have := least some
  omega

theorem Advance.split_ne (h : Advance c c' k changed split) (few : k < 2 ^ 19)
    (some : split) : c' / 2 ^ 6 ≠ c / 2 ^ 6 := by
  obtain ⟨-, -, e, most, least, here⟩ := h
  have := least some
  omega

end

theorem any_changes (ms : List Mark) : ms.any changes = (ms.any inserts || ms.any splits) := by
  induction ms with
  | nil => rfl
  | cons m ms ih =>
      simp only [List.any_cons, ih, changes]
      cases inserts m <;> cases splits m <;> simp

theorem section_advance {n : Nodeversion} (bound : n.counter < 2 ^ 25) (clean : n.dirty = false)
    (ms : List Mark) :
    Advance n.counter (sectionFields n ms).counter 1 (ms.any changes) (ms.any splits) := by
  obtain ⟨inserting, splitting⟩ : n.inserting = false ∧ n.splitting = false := by
    simpa [Nodeversion.dirty] using clean
  rw [any_changes, sectionFields, foldl_mark, Nodeversion.unlock]
  simp only [inserting, splitting, Bool.false_or]
  cases ms.any splits with
  | true =>
      refine ⟨by simp only [if_true]; omega, ⟨64 - n.counter % 64, by omega, by omega, ?_⟩, 1, le_rfl,
        by simp, ?_⟩
      · simp only [if_true, Nodeversion.vsplit]
        omega
      · simp only [if_true, Nodeversion.vsplit]
        omega
  | false =>
      cases ms.any inserts with
      | true =>
          refine ⟨?_, ⟨1, by decide, by simp, ?_⟩, if n.counter % 64 = 63 then 1 else 0, ?_, by simp, ?_⟩
          · simp
            omega
          · simp
          · split <;> omega
          · simp
            split <;> omega
      | false =>
          refine ⟨?_, ⟨0, by decide, by simp, ?_⟩, 0, by decide, by simp, ?_⟩
          · simp
            omega
          · simp
          · simp
            omega

theorem run_advance {n : Nodeversion} (bound : n.counter < 2 ^ 25) (clean : n.dirty = false)
    (done : List (List Mark)) :
    Advance n.counter (done.foldl sectionFields n).counter done.length
      (∃ ms ∈ done, ms.any changes) (∃ ms ∈ done, ms.any splits) := by
  induction done generalizing n with
  | nil => simpa using Advance.refl bound
  | cons ms done ih =>
      have first := section_advance bound clean ms
      have whole := first.trans (ih first.1 (sectionFields_free n ms).2)
      rw [Nat.add_comm 1] at whole
      simpa using whole

/-- The root bit after a critical section. -/
def sectionRoot (root : Bool) (ms : List Mark) : Bool :=
  !ms.any splits && ms.foldl markRootBit root

theorem run_root (n : Nodeversion) (clean : n.dirty = false) (done : List (List Mark)) :
    (done.foldl sectionFields n).root = done.foldl sectionRoot n.root := by
  induction done generalizing n with
  | nil => rfl
  | cons ms done ih =>
      obtain ⟨inserting, splitting⟩ : n.inserting = false ∧ n.splitting = false := by
        simpa [Nodeversion.dirty] using clean
      rw [List.foldl_cons, List.foldl_cons, ih _ (sectionFields_free n ms).2]
      congr 1
      rw [sectionFields, foldl_mark, Nodeversion.unlock, sectionRoot]
      simp only [splitting, Bool.false_or]
      cases ms.any splits <;> simp

theorem run_deleted (n : Nodeversion) (done : List (List Mark)) :
    (done.foldl sectionFields n).deleted = (n.deleted || done.any (·.any deletes)) := by
  induction done generalizing n with
  | nil => simp
  | cons ms done ih =>
      have one : (sectionFields n ms).deleted = (n.deleted || ms.any deletes) := by
        rw [sectionFields, foldl_mark, Nodeversion.unlock]
        split <;> rfl
      rw [List.foldl_cons, ih, one, List.any_cons, Bool.or_assoc]

theorem le_xor {a b : BitVec 32} {j : Nat} (differ : a.getLsbD j ≠ b.getLsbD j) :
    2 ^ j ≤ (a ^^^ b).toNat := by
  by_contra small
  have none := Nat.testBit_lt_two_pow (not_le.mp small)
  rw [BitVec.testBit_toNat, BitVec.getLsbD_xor] at none
  exact differ (by simpa using none)

theorem extract_differ {a b : BitVec 32} {start len : Nat}
    (differ : a.extractLsb' start len ≠ b.extractLsb' start len) :
    ∃ j, start ≤ j ∧ a.getLsbD j ≠ b.getLsbD j := by
  by_contra same
  refine differ (BitVec.eq_of_getLsbD_eq fun i bound => ?_)
  by_contra apart
  refine same ⟨start + i, by omega, ?_⟩
  simpa [BitVec.getLsbD_extractLsb', bound] using apart

section
variable {y : Nodeversion32}

theorem hasChanged_of {j : Nat} (high : 1 ≤ j) (differ : x.v.getLsbD j ≠ y.v.getLsbD j) :
    y.hasChanged x = true := by
  have big := (Nat.pow_le_pow_right (show 0 < 2 by decide) high).trans (le_xor differ)
  simp only [hasChanged, decide_eq_true_eq, BitVec.lt_def]
  exact big

theorem hasSplit_of {j : Nat} (high : 9 ≤ j) (differ : x.v.getLsbD j ≠ y.v.getLsbD j) :
    y.hasSplit x = true := by
  have big := (Nat.pow_le_pow_right (show 0 < 2 by decide) high).trans (le_xor differ)
  simp only [hasSplit, decide_eq_true_eq, BitVec.le_def]
  exact big

theorem hasChanged_counter (differ : counter x ≠ counter y) : y.hasChanged x = true := by
  obtain ⟨j, high, differ⟩ := extract_differ (fun same => differ (congrArg BitVec.toNat same))
  exact hasChanged_of (by omega) differ

theorem hasSplit_counter (differ : counter x / 2 ^ 6 ≠ counter y / 2 ^ 6) : y.hasSplit x = true := by
  have part (z : Nodeversion32) : (z.v.extractLsb' 9 19).toNat = counter z / 2 ^ 6 := by
    simp only [counter, BitVec.extractLsb'_toNat, Nat.shiftRight_eq_div_pow]
    omega
  have apart : x.v.extractLsb' 9 19 ≠ y.v.extractLsb' 9 19 := by
    intro same
    rw [← part, ← part, same] at differ
    exact differ rfl
  obtain ⟨j, high, differ⟩ := extract_differ apart
  exact hasSplit_of high differ

end

/-- What a reader that saw the unlocked word `v` learns after the critical sections `done`, and while a
further one is open. -/
theorem changes_detected (v : Nodeversion32) (free : v.locked = false) (clean : v.dirty = false)
    (unused : v.v &&& unused1Bit = 0#32) (done : List (List Mark)) (last : List Mark) :
    (∃ w, v.run done = some w ∧
      (done.length < 2 ^ 19 → (∃ ms ∈ done, ms.any changes) → w.hasChanged v) ∧
      (done.length < 2 ^ 19 → (∃ ms ∈ done, ms.any splits) → w.hasSplit v) ∧
      w.isleaf = v.isleaf ∧ w.deleted = (v.deleted || done.any (·.any deletes)) ∧
      w.isRoot = done.foldl sectionRoot v.isRoot) ∧
    ∃ w, v.runOpen done last = some w ∧
      (done.length + 1 < 2 ^ 19 → (∃ ms ∈ done ++ [last], ms.any changes) → w.hasChanged v) ∧
      (done.length + 1 < 2 ^ 19 → (∃ ms ∈ done, ms.any splits) → w.hasSplit v) ∧
      w.isleaf = v.isleaf ∧
      w.deleted = (v.deleted || done.any (·.any deletes) || last.any deletes) ∧
      w.isRoot = last.foldl markRootBit (done.foldl sectionRoot v.isRoot) := by
  have reads : Reads v (v.v.getLsbD 31) (fields v) := by
    refine ⟨rfl, rfl, ?_⟩
    have bit := and_bit v.v (show 28 < 32 by decide)
    rw [← bit, bne_eq_false_iff_eq]
    exact unused
  rw [locked_eq] at free
  rw [dirty_eq] at clean
  have bound : (fields v).counter < 2 ^ 25 := (v.v.extractLsb' 3 25).isLt
  obtain ⟨y, runs, reads', free', clean'⟩ := run_reads reads free clean done
  have advance := run_advance bound clean done
  have root := run_root (fields v) clean done
  have deleted := run_deleted (fields v) done
  obtain ⟨z, locks, held⟩ := lock_reads reads' free' clean'
  obtain ⟨w, marked, opened⟩ := marks_reads held rfl last
  rw [foldl_mark] at opened
  have counted : counter w = (done.foldl sectionFields (fields v)).counter :=
    congrArg Nodeversion.counter opened.fields
  refine ⟨⟨y, runs, ?_, ?_, ?_, ?_, ?_⟩, w, by simp [runOpen, runs, locks, marked], ?_, ?_, ?_, ?_, ?_⟩
  · intro few some
    have apart := advance.ne few some
    rw [← congrArg Nodeversion.counter reads'.fields] at apart
    exact hasChanged_counter apart.symm
  · intro few some
    have apart := advance.split_ne few some
    rw [← congrArg Nodeversion.counter reads'.fields] at apart
    exact hasSplit_counter apart.symm
  · rw [isleaf_eq, isleaf_eq, reads'.isleaf]
  · rw [deleted_eq, deleted_eq, reads'.fields, deleted]
  · rw [isRoot_eq, isRoot_eq, reads'.fields, root]
  · rintro few ⟨ms, member, some⟩
    rcases List.mem_append.mp member with member | member
    · have apart := advance.ne (by omega) ⟨ms, member, some⟩
      rw [← counted] at apart
      exact hasChanged_counter apart.symm
    · obtain rfl := List.mem_singleton.mp member
      have ⟨inserting, splitting⟩ : v.v.getLsbD 1 = false ∧ v.v.getLsbD 2 = false := by
        rw [Nodeversion.dirty, Bool.or_eq_false_iff] at clean
        exact clean
      rw [any_changes, Bool.or_eq_true] at some
      rcases some with some | some
      · have bit : w.v.getLsbD 1 = true := by
          have := congrArg Nodeversion.inserting opened.fields
          rw [some, Bool.or_true] at this
          exact this
        exact hasChanged_of le_rfl (ne_of_eq_of_ne inserting (by rw [bit]; decide))
      · have bit : w.v.getLsbD 2 = true := by
          have := congrArg Nodeversion.splitting opened.fields
          rw [some, Bool.or_true] at this
          exact this
        exact hasChanged_of (by decide) (ne_of_eq_of_ne splitting (by rw [bit]; decide))
  · intro few some
    have apart := advance.split_ne (by omega) some
    rw [← counted] at apart
    exact hasSplit_counter apart.symm
  · rw [isleaf_eq, isleaf_eq, opened.isleaf]
  · rw [deleted_eq, deleted_eq, opened.fields]
    simp only [deleted]
  · rw [isRoot_eq, isRoot_eq, opened.fields]
    simp only [root]

theorem changes_detected_insert : ∃ w, (Nodeversion32.mk 0x87FFFFF8#32).run [[.insert]] = some w ∧
    w.hasChanged ⟨0x87FFFFF8#32⟩ := by
  obtain ⟨⟨w, runs, changed, -⟩, -⟩ :=
    changes_detected ⟨0x87FFFFF8#32⟩ (by decide) (by decide) (by decide) [[.insert]] []
  exact ⟨w, runs, changed (by decide) ⟨[.insert], by decide, by decide⟩⟩

end Incll.Proof.NodeversionWord
