import Incll.Model.Kvrow
import Mathlib.Algebra.BigOperators.Group.List.Basic
import Mathlib.Data.List.Basic

/-! # `value_bag::update` lays out the changed columns -/

namespace Incll.Proof.Kvrow
open Incll.Model.Kvrow Incll.Model.Kvrow.ValueBag

/-! Columns as a bag lays them out. -/

def total (cols : List (List UInt8)) : Nat := (cols.map List.length).sum

@[simp] theorem total_nil : total [] = 0 := rfl

@[simp] theorem total_cons (v : List UInt8) (vs : List (List UInt8)) :
    total (v :: vs) = v.length + total vs := by
  simp [total]

@[simp] theorem total_append (vs ws : List (List UInt8)) :
    total (vs ++ ws) = total vs + total ws := by
  simp [total]

variable {o : Nat}

/-- The columns lie one after the other, from column `i` at `start` on. -/
def Laid (b : ValueBag o) : Nat → Nat → List (List UInt8) → Prop
  | _, _, [] => True
  | i, start, v :: vs =>
      b.pos i = start ∧ bytes b.s start v.length = v ∧ Laid b (i + 1) (start + v.length) vs

theorem laid_append {b : ValueBag o} {vs ws : List (List UInt8)} {i start : Nat} :
    Laid b i start (vs ++ ws) ↔
      Laid b i start vs ∧ Laid b (i + vs.length) (start + total vs) ws := by
  induction vs generalizing i start with
  | nil => simp [Laid]
  | cons v vs ih =>
      simp only [List.cons_append, Laid, ih, List.length_cons, total_cons, and_assoc]
      rw [show i + 1 + vs.length = i + (vs.length + 1) by omega, Nat.add_assoc]

theorem bytes_congr {s s' : Nat → UInt8} {start n : Nat}
    (same : ∀ k, start ≤ k → k < start + n → s' k = s k) : bytes s' start n = bytes s start n := by
  refine List.map_congr_left fun k member => same _ (by omega) ?_
  have := List.mem_range.mp member
  omega

theorem Laid.congr {b b' : ValueBag o} {vs : List (List UInt8)} {i start : Nat}
    (h : Laid b i start vs) (pos : ∀ j, i ≤ j → j < i + vs.length → b'.pos j = b.pos j)
    (s : ∀ k, start ≤ k → k < start + total vs → b'.s k = b.s k) : Laid b' i start vs := by
  induction vs generalizing i start with
  | nil => trivial
  | cons v vs ih =>
      obtain ⟨here, data, rest⟩ := h
      simp only [List.length_cons, total_cons] at pos s
      refine ⟨(pos i (by omega) (by omega)).trans here, ?_, ih rest ?_ ?_⟩
      · exact (bytes_congr fun k low high => s k low (by omega)).trans data
      · exact fun j low high => pos j (by omega) (by omega)
      · exact fun k low high => s k (by omega) (by omega)

/-- A bag with these columns. -/
structure Shows (b : ValueBag o) (ts : Nat) (cols : List (List UInt8)) : Prop where
  ts : b.ts = ts
  ncol : b.ncol = cols.length
  laid : Laid b 0 (headerSize o cols.length) cols
  stop : b.pos cols.length = headerSize o cols.length + total cols
  small : headerSize o cols.length + total cols < 2 ^ (8 * o)

theorem total_take_drop (cols : List (List UInt8)) (i : Nat) :
    total (cols.take i) + total (cols.drop i) = total cols := by
  rw [← total_append, List.take_append_drop]

theorem Shows.pos {b : ValueBag o} {ts : Nat} {cols : List (List UInt8)} (h : Shows b ts cols)
    {i : Nat} (bound : i ≤ cols.length) :
    b.pos i = headerSize o cols.length + total (cols.take i) := by
  rcases Nat.lt_or_eq_of_le bound with inside | rfl
  · have laid := h.laid
    rw [← List.take_append_drop i cols, laid_append, List.take_append_drop] at laid
    rw [List.drop_eq_getElem_cons inside, List.length_take, Nat.min_eq_left bound,
      Nat.zero_add] at laid
    exact laid.2.1
  · rw [h.stop, List.take_length]

theorem total_take_succ {cols : List (List UInt8)} {i : Nat} (inside : i < cols.length) :
    total (cols.take (i + 1)) = total (cols.take i) + cols[i].length := by
  rw [List.take_add_one, List.getElem?_eq_getElem inside, total_append, Option.toList_some,
    total_cons, total_nil, Nat.add_zero]

theorem Shows.columnLength {b : ValueBag o} {ts : Nat} {cols : List (List UInt8)}
    (h : Shows b ts cols) {i : Nat} (inside : i < cols.length) :
    b.columnLength i = cols[i].length := by
  have small := h.small
  have parts := total_take_drop cols (i + 1)
  have step := total_take_succ inside
  rw [ValueBag.columnLength, offset, h.pos (show i + 1 ≤ cols.length from inside),
    h.pos (show i ≤ cols.length by omega)]
  rw [show headerSize o cols.length + total (cols.take (i + 1)) + 2 ^ (8 * o) -
    (headerSize o cols.length + total (cols.take i)) = cols[i].length + 2 ^ (8 * o) by omega]
  rw [Nat.add_mod_right, Nat.mod_eq_of_lt (by omega)]

theorem Shows.col {b : ValueBag o} {ts : Nat} {cols : List (List UInt8)} (h : Shows b ts cols)
    (i : Nat) : b.col i = cols.getD i [] := by
  rw [ValueBag.col, h.ncol]
  split
  · rename_i inside
    have laid := h.laid
    rw [← List.take_append_drop i cols, laid_append, List.take_append_drop,
      List.drop_eq_getElem_cons inside, List.length_take, Nat.min_eq_left (by omega),
      Nat.zero_add] at laid
    rw [h.columnLength inside, laid.2.1, laid.2.2.1, List.getD_eq_getElem?_getD,
      List.getElem?_eq_getElem inside, Option.getD_some]
  · rename_i outside
    rw [List.getD_eq_getElem?_getD, List.getElem?_eq_none (by omega), Option.getD_none]

/-! The loop of `value_bag::update`. -/

/-- The draft has got the columns `seg`. -/
structure Extends (d d' : Draft o) (seg : List (List UInt8)) : Prop where
  ts : d'.row.ts = d.row.ts
  ncol : d'.row.ncol = d.row.ncol
  col : d'.col = d.col + seg.length
  sz : d'.sz = d.sz + total seg
  laid : Laid d'.row d.col d.sz seg
  pos : ∀ i < d.col, d'.row.pos i = d.row.pos i
  s : ∀ k < d.sz, d'.row.s k = d.row.s k

theorem Extends.refl (d : Draft o) : Extends d d [] :=
  ⟨rfl, rfl, rfl, rfl, trivial, fun _ _ => rfl, fun _ _ => rfl⟩

theorem Extends.trans {d e f : Draft o} {vs ws : List (List UInt8)} (first : Extends d e vs)
    (second : Extends e f ws) : Extends d f (vs ++ ws) := by
  have col := first.col
  have sz := first.sz
  refine ⟨second.ts.trans first.ts, second.ncol.trans first.ncol, ?_, ?_, laid_append.mpr ⟨?_, ?_⟩,
    ?_, ?_⟩
  · rw [second.col, col, List.length_append, Nat.add_assoc]
  · rw [second.sz, sz, total_append, Nat.add_assoc]
  · exact first.laid.congr (fun j _ high => second.pos j (by omega))
      fun k _ high => second.s k (by omega)
  · rw [← col, ← sz]
    exact second.laid
  · exact fun i low => (second.pos i (by omega)).trans (first.pos i low)
  · exact fun k low => (second.s k (by omega)).trans (first.s k low)

theorem copy_outside {s source : Nat → UInt8} {start n k : Nat} (low : k < start) :
    copy s start source n k = s k := by
  rw [copy, if_neg (by omega)]

theorem bytes_copyStr (s : Nat → UInt8) (start : Nat) (value : List UInt8) :
    bytes (copyStr s start value) start value.length = value := by
  refine List.ext_getElem (by simp [bytes]) fun k low high => ?_
  simp only [bytes, List.getElem_map, List.getElem_range, copyStr, copy]
  rw [if_pos (by omega), Nat.add_sub_cancel_left, List.getD_eq_getElem?_getD,
    List.getElem?_eq_getElem high, Option.getD_some]

theorem offset_of_lt {n : Nat} (small : n < 2 ^ (8 * o)) : offset o n = n := Nat.mod_eq_of_lt small

theorem extends_copyChange {d : Draft o} {value : List UInt8} (small : d.sz < 2 ^ (8 * o)) :
    Extends d (copyChange value d) [value] := by
  refine ⟨rfl, rfl, rfl, by simp [copyChange], ⟨?_, bytes_copyStr .., trivial⟩, ?_, ?_⟩
  · simp [copyChange, offset_of_lt small]
  · exact fun i low => Function.update_of_ne (by omega) ..
  · intro k low
    simp only [copyChange, copyStr]
    exact copy_outside low

theorem extends_markEmpty (n : Nat) {d : Draft o} (small : d.sz < 2 ^ (8 * o)) :
    Extends d (markEmpty n d) (List.replicate n []) := by
  induction n generalizing d with
  | zero => exact .refl d
  | succ n ih =>
      let one : Draft o := { d with
        row := { d.row with pos := Function.update d.row.pos d.col (offset o d.sz) }
        col := d.col + 1 }
      have marked : Extends d one [[]] := by
        refine ⟨rfl, rfl, rfl, rfl, ⟨?_, rfl, trivial⟩, ?_, fun _ _ => rfl⟩
        · simp [one, offset_of_lt small]
        · exact fun i low => Function.update_of_ne (by omega) ..
      exact marked.trans (ih (d := one) small)

/-- The same columns at another place. -/
theorem Laid.shift {b b' : ValueBag o} {vs : List (List UInt8)} {i start start' : Nat}
    (h : Laid b i start vs)
    (pos : ∀ j, i ≤ j → j < i + vs.length → b'.pos j = b.pos j + start' - start)
    (s : ∀ k < total vs, b'.s (start' + k) = b.s (start + k)) : Laid b' i start' vs := by
  induction vs generalizing i start start' with
  | nil => trivial
  | cons v vs ih =>
      obtain ⟨here, data, rest⟩ := h
      simp only [List.length_cons, total_cons] at pos s
      refine ⟨?_, ?_, ih rest ?_ ?_⟩
      · rw [pos i le_rfl (by omega), here, Nat.add_sub_cancel_left]
      · refine (List.map_congr_left fun k member => ?_).trans data
        exact s k (by have := List.mem_range.mp member; omega)
      · intro j low high
        rw [pos j (by omega) (by omega)]
        omega
      · intro k bound
        rw [Nat.add_assoc, Nat.add_assoc]
        exact s (v.length + k) (by omega)

theorem Shows.laid_segment {b : ValueBag o} {ts : Nat} {cols : List (List UInt8)}
    (h : Shows b ts cols) {i : Nat} (bound : i ≤ cols.length) (n : Nat) :
    Laid b i (b.pos i) ((cols.drop i).take n) := by
  have laid := h.laid
  rw [← List.take_append_drop i cols, laid_append, List.take_append_drop,
    ← List.take_append_drop n (cols.drop i), laid_append, List.length_take,
    Nat.min_eq_left bound, Nat.zero_add, ← h.pos bound] at laid
  exact laid.2.1

theorem Shows.pos_segment {b : ValueBag o} {ts : Nat} {cols : List (List UInt8)}
    (h : Shows b ts cols) {i j : Nat} (low : i ≤ j) (bound : j ≤ cols.length) :
    b.pos j = b.pos i + total ((cols.drop i).take (j - i)) := by
  have split : cols.take j = cols.take i ++ (cols.drop i).take (j - i) := by
    rw [← List.take_add]
    congr 1
    omega
  rw [h.pos bound, h.pos (low.trans bound), split, total_append, Nat.add_assoc]

theorem extends_copyOld {b : ValueBag o} {ts : Nat} {cols : List (List UInt8)}
    (h : Shows b ts cols) {d : Draft o} {thisCol : Nat} (order : d.col ≤ thisCol)
    (small : d.sz + total ((cols.drop d.col).take (min thisCol cols.length - d.col)) < 2 ^ (8 * o)) :
    Extends d (b.copyOld thisCol d) ((cols.drop d.col).take (min thisCol cols.length - d.col)) := by
  rw [copyOld, h.ncol]
  split
  · rename_i active
    have length : ((cols.drop d.col).take (min thisCol cols.length - d.col)).length =
        min thisCol cols.length - d.col := by
      simp only [List.length_take, List.length_drop]
      omega
    have amt := h.pos_segment (show d.col ≤ min thisCol cols.length by omega) (by omega)
    refine ⟨rfl, rfl, ?_, ?_, (h.laid_segment (by omega) _).shift ?_ ?_, ?_, ?_⟩
    · simp only [length]
      omega
    · simp only
      omega
    · intro j low high
      rw [length] at high
      have place := h.pos_segment low (show j ≤ cols.length by omega)
      have rest := h.pos_segment (show j ≤ min thisCol cols.length by omega) (by omega)
      simp only
      rw [if_pos (by omega)]
      split
      · omega
      · exact offset_of_lt (by omega)
    · intro k bound
      simp only [copy]
      rw [if_pos (by omega), Nat.add_sub_cancel_left]
    · intro i low
      simp only
      rw [if_neg (by omega)]
    · intro k low
      simp only
      exact copy_outside low
  · rename_i idle
    have none : (cols.drop d.col).take (min thisCol cols.length - d.col) = [] := by
      rw [List.take_eq_nil_iff]
      left
      omega
    rw [none]
    exact .refl d

/-- The columns from `i` up to `j`, and empty ones behind the last. -/
def upTo (f : Nat → List UInt8) (i j : Nat) : List (List UInt8) := (List.range' i (j - i)).map f

theorem upTo_append (f : Nat → List UInt8) {i j k : Nat} (low : i ≤ j) (high : j ≤ k) :
    upTo f i k = upTo f i j ++ upTo f j k := by
  rw [upTo, upTo, upTo, ← List.map_append, show k - i = (j - i) + (k - j) by omega,
    List.range'_append_1.symm]
  congr 2
  rw [show i + (j - i) = j by omega]

theorem segment_eq_upTo (cols : List (List UInt8)) {i j : Nat} (order : i ≤ j) :
    (cols.drop i).take (min j cols.length - i) ++
        List.replicate (j - (i + ((cols.drop i).take (min j cols.length - i)).length)) [] =
      upTo (cols.getD · []) i j := by
  refine List.ext_getElem ?_ fun k low high => ?_
  · simp [upTo]
    omega
  · simp only [upTo, List.length_map, List.length_range'] at high
    simp only [upTo, List.getElem_map, List.getElem_range', Nat.one_mul, List.getElem_append,
      List.getElem_replicate, List.getElem_take, List.getElem_drop, List.length_take,
      List.length_drop, List.getD_eq_getElem?_getD]
    split
    · rw [List.getElem?_eq_getElem (by omega), Option.getD_some]
    · rw [List.getElem?_eq_none (by omega), Option.getD_none]

theorem extends_advance {b : ValueBag o} {ts : Nat} {cols : List (List UInt8)}
    (h : Shows b ts cols) {d : Draft o} {thisCol : Nat} (order : d.col ≤ thisCol)
    (small : d.sz + total (upTo (cols.getD · []) d.col thisCol) < 2 ^ (8 * o)) :
    ∃ d', b.advance thisCol d = some d' ∧
      Extends d d' (upTo (cols.getD · []) d.col thisCol) := by
  rw [← segment_eq_upTo cols order] at small ⊢
  rw [total_append] at small
  have old := extends_copyOld h order (by omega)
  have sz := old.sz
  have col := old.col
  refine ⟨_, if_pos ?_, ?_⟩
  · rw [col, List.length_take, List.length_drop]
    omega
  · have empties := extends_markEmpty (thisCol - (b.copyOld thisCol d).col)
      (d := b.copyOld thisCol d) (by omega)
    rw [col] at empties
    simp only [col]
    exact old.trans empties

/-! What the changes do to the columns. -/

def changed (f : Nat → List UInt8) (changes : List Change) : Nat → List UInt8 :=
  changes.foldl (fun f c => Function.update f c.1 c.2) f

theorem changed_congr {f g : Nat → List UInt8} (changes : List Change) {i : Nat}
    (same : f i = g i) : changed f changes i = changed g changes i := by
  induction changes generalizing f g with
  | nil => exact same
  | cons c rest ih =>
      apply ih
      by_cases here : i = c.1
      · subst here
        simp
      · simp [Function.update_of_ne here, same]

theorem changed_of_ne {f : Nat → List UInt8} {changes : List Change} {i : Nat}
    (other : ∀ c ∈ changes, i ≠ c.1) : changed f changes i = f i := by
  induction changes generalizing f with
  | nil => rfl
  | cons c rest ih =>
      refine (ih fun c' member => other c' (by simp [member])).trans ?_
      exact Function.update_of_ne (other c (by simp)) ..

/-- The columns of the changes are strictly increasing. -/
def Increasing (changes : List Change) : Prop := changes.Pairwise fun c c' => c.1 < c'.1

theorem upTo_congr {f g : Nat → List UInt8} {i j : Nat} (same : ∀ k, i ≤ k → k < j → f k = g k) :
    upTo f i j = upTo g i j := by
  refine List.map_congr_left fun k member => ?_
  have := List.mem_range'_1.mp member
  exact same k (by omega) (by omega)

theorem upTo_cons (f : Nat → List UInt8) {i j : Nat} (low : i < j) :
    upTo f i j = f i :: upTo f (i + 1) j := by
  rw [upTo, show j - i = (j - (i + 1)) + 1 by omega, List.range'_succ]
  rfl

theorem extends_fill {b : ValueBag o} {ts : Nat} {cols : List (List UInt8)} (h : Shows b ts cols)
    {ncol : Nat} {changes : List Change} {d : Draft o} (order : d.col ≤ ncol)
    (increasing : Increasing changes) (from' : ∀ c ∈ changes, d.col ≤ c.1 ∧ c.1 < ncol)
    (small : d.sz + total (upTo (changed (cols.getD · []) changes) d.col ncol) < 2 ^ (8 * o)) :
    ∃ d', b.fill ncol changes d = some d' ∧
      Extends d d' (upTo (changed (cols.getD · []) changes) d.col ncol) := by
  induction changes generalizing d with
  | nil => exact extends_advance h order small
  | cons c rest ih =>
      obtain ⟨thisCol, value⟩ := c
      obtain ⟨above, increasing⟩ := List.pairwise_cons.mp increasing
      obtain ⟨low, high⟩ := from' (thisCol, value) (by simp)
      simp only at above low high
      have before : upTo (changed (cols.getD · []) ((thisCol, value) :: rest)) d.col thisCol =
          upTo (cols.getD · []) d.col thisCol := by
        refine upTo_congr fun k _ bound => changed_of_ne fun c member => ?_
        rcases List.mem_cons.mp member with rfl | member
        · exact bound.ne
        · exact (bound.trans (above c member)).ne
      have here : changed (cols.getD · []) ((thisCol, value) :: rest) thisCol = value :=
        (changed_of_ne fun c member => (above c member).ne).trans (Function.update_self ..)
      have behind : upTo (changed (cols.getD · []) ((thisCol, value) :: rest)) (thisCol + 1) ncol =
          upTo (changed (cols.getD · []) rest) (thisCol + 1) ncol := by
        refine upTo_congr fun k bound _ => changed_congr rest ?_
        exact Function.update_of_ne (by omega) ..
      rw [upTo_append _ low high.le, upTo_cons _ high, before, here, behind] at small ⊢
      simp only [total_append, total_cons] at small
      obtain ⟨e, advances, first⟩ := extends_advance h low (by omega)
      have col : e.col = thisCol := by
        rw [first.col]
        simp only [upTo, List.length_map, List.length_range']
        omega
      have sz := first.sz
      have second : Extends e (copyChange value e) [value] := extends_copyChange (by omega)
      have next : (copyChange value e).col = thisCol + 1 := by rw [second.col, col]; rfl
      have nextSz : (copyChange value e).sz = e.sz + value.length := rfl
      obtain ⟨d', fills, third⟩ := ih (d := copyChange value e) (by omega) increasing
        (fun c member => ⟨by have := above c member; omega, (from' c (by simp [member])).2⟩)
        (by rw [next]; omega)
      refine ⟨d', ?_, ?_⟩
      · simp only [fill, advances, bind, Option.bind_some]
        rw [if_neg (by omega), fills]
      · rw [next] at third
        exact first.trans (second.trans third)

theorem lastColumn_cons_cons (c c' : Change) (rest : List Change) :
    lastColumn (c :: c' :: rest) = lastColumn (c' :: rest) := by
  simp [lastColumn, List.getLast?_cons_cons]

theorem lastColumn_mem {changes : List Change} {last : Nat} (h : lastColumn changes = some last) :
    ∃ c ∈ changes, c.1 = last := by
  obtain ⟨c, found, rfl⟩ := Option.map_eq_some_iff.mp h
  exact ⟨c, List.mem_of_getLast? found, rfl⟩

theorem le_lastColumn {changes : List Change} {last : Nat} (increasing : Increasing changes)
    (h : lastColumn changes = some last) {c : Change} (member : c ∈ changes) : c.1 ≤ last := by
  induction changes generalizing c with
  | nil => simp at member
  | cons c' rest ih =>
      obtain ⟨above, increasing'⟩ := List.pairwise_cons.mp increasing
      cases rest with
      | nil =>
          cases h
          rw [List.mem_singleton.mp member]
          exact le_rfl
      | cons c'' rest =>
          rw [lastColumn_cons_cons] at h
          rcases List.mem_cons.mp member with rfl | member
          · exact (above c'' (by simp)).le.trans (ih increasing' h (by simp))
          · exact ih increasing' h member

theorem measure_cons (b : ValueBag o) (c : Change) (rest : List Change) (sz n : Nat) :
    b.measure (c :: rest) (sz, n) =
      if c.1 < b.ncol then b.measure rest (sz + c.2.length - b.columnLength c.1, n)
      else b.measure rest (sz + c.2.length, c.1 + 1) := by
  simp only [ValueBag.measure]
  split <;> rfl

theorem measure_ncol (b : ValueBag o) {changes : List Change} {last : Nat}
    (increasing : Increasing changes) (h : lastColumn changes = some last) (sz n : Nat) :
    (b.measure changes (sz, n)).2 = if last < b.ncol then n else last + 1 := by
  induction changes generalizing sz n with
  | nil => cases h
  | cons c rest ih =>
      obtain ⟨above, increasing'⟩ := List.pairwise_cons.mp increasing
      have bound := le_lastColumn increasing h (List.mem_cons_self ..)
      rw [measure_cons]
      cases rest with
      | nil =>
          have single : c.1 = last := Option.some.inj h
          rw [← single]
          split <;> rfl
      | cons c' rest =>
          rw [lastColumn_cons_cons] at h
          split
          · exact ih increasing' h _ _
          · rw [ih increasing' h, if_neg (by omega), if_neg (by omega)]

theorem upTo_length (f : Nat → List UInt8) (n : Nat) : (upTo f 0 n).length = n := by simp [upTo]

/-- The draft that `fill` leaves, with its last offset. -/
theorem shows_filled {d d' : Draft o} {ncol : Nat} {cols : List (List UInt8)} (positive : 0 < o)
    (filled : Extends d d' cols) (length : cols.length = ncol) (col : d.col = 0)
    (sz : d.sz = headerSize o ncol) (rowNcol : d.row.ncol = offset o ncol)
    (small : headerSize o ncol + total cols < 2 ^ (8 * o)) :
    Shows (o := o) { d'.row with pos := Function.update d'.row.pos ncol (offset o d'.sz) }
      d.row.ts cols := by
  subst length
  have below : cols.length ≤ cols.length * o := Nat.le_mul_of_pos_right _ positive
  have header : headerSize o cols.length = 2 * o + cols.length * o := rfl
  have stop := filled.sz
  have laid := filled.laid
  rw [col, sz] at laid
  refine ⟨filled.ts, ?_, laid.congr ?_ fun _ _ _ => rfl, ?_, small⟩
  · exact filled.ncol.trans (rowNcol.trans (offset_of_lt (by omega)))
  · exact fun j _ high => Function.update_of_ne (by omega) ..
  · simp only [Function.update_self]
    rw [offset_of_lt (by omega), stop, sz]

/-- One column is replaced by another one of the same length. -/
theorem shows_replaced {b : ValueBag o} {ts ts' : Nat} {cols : List (List UInt8)}
    (h : Shows b ts cols) {idx : Nat} (inside : idx < cols.length) {value : List UInt8}
    (length : value.length = cols[idx].length) (memory : Nat → UInt8) :
    Shows (o := o) ⟨ts', b.ncol, b.pos, copyStr (copy memory 0 b.s (b.size - 8)) (b.pos idx) value⟩
      ts' (cols.set idx value) := by
  have stop := h.stop
  have whole : b.size - 8 = headerSize o cols.length + total cols := by
    rw [size, h.ncol, stop]
    omega
  have before := h.pos (show idx ≤ cols.length by omega)
  have split := total_take_drop cols idx
  rw [List.drop_eq_getElem_cons inside, total_cons] at split
  have laid := h.laid
  rw [← List.take_append_drop idx cols, laid_append, List.take_append_drop, List.length_take,
    Nat.min_eq_left inside.le, Nat.zero_add] at laid
  obtain ⟨first, rest⟩ := laid
  rw [List.drop_eq_getElem_cons inside] at rest
  obtain ⟨here, -, rest⟩ := rest
  have kept {k : Nat} (bound : k < headerSize o cols.length + total cols)
      (out : k < b.pos idx ∨ b.pos idx + value.length ≤ k) :
      copyStr (copy memory 0 b.s (b.size - 8)) (b.pos idx) value k = b.s k := by
    rw [copyStr, copy, if_neg (by omega), copy, whole, if_pos (by omega), Nat.sub_zero]
  have same : total (cols.set idx value) = total cols := by
    rw [List.set_eq_take_append_cons_drop, if_pos inside, total_append, total_cons]
    omega
  refine ⟨rfl, by simp [h.ncol], ?_, ?_, ?_⟩
  · rw [List.length_set, List.set_eq_take_append_cons_drop, if_pos inside, laid_append,
      List.length_take, Nat.min_eq_left inside.le, Nat.zero_add]
    refine ⟨first.congr (fun _ _ _ => rfl) ?_, here, ?_, ?_⟩
    · exact fun k _ high => kept (by omega) (.inl (by omega))
    · rw [← before]
      exact bytes_copyStr ..
    · rw [length]
      exact rest.congr (fun _ _ _ => rfl) fun k low high => kept (by omega) (.inr (by omega))
  · rw [List.length_set, same]
    exact stop
  · rw [List.length_set, same]
    exact h.small

theorem upTo_set (cols : List (List UInt8)) (idx : Nat) (value : List UInt8) :
    upTo (changed (cols.getD · []) [(idx, value)]) 0 cols.length = cols.set idx value := by
  refine List.ext_getElem (by simp [upTo]) fun k low high => ?_
  simp only [List.length_set] at high
  simp only [upTo, List.getElem_map, List.getElem_range', Nat.one_mul, Nat.zero_add, changed,
    List.foldl_cons, List.foldl_nil, List.getElem_set, Function.update_apply, eq_comm,
    List.getD_eq_getElem?_getD, List.getElem?_eq_getElem high, Option.getD_some]

/-- The size that `update` computes tells whether the one changed column keeps its length. -/
theorem sameLength_of_measure {b : ValueBag o} {ts : Nat} {cols : List (List UInt8)}
    (h : Shows b ts cols) {idx : Nat} (inside : idx < cols.length) {value : List UInt8}
    (same : (b.measure [(idx, value)] (b.size, b.ncol)).1 = b.size) :
    value.length = cols[idx].length := by
  have columns := total_take_drop cols idx
  rw [List.drop_eq_getElem_cons inside, total_cons] at columns
  rw [measure_cons, if_pos (h.ncol ▸ inside), h.columnLength inside] at same
  simp only [ValueBag.measure, ValueBag.size, h.ncol, h.stop] at same
  omega

/-- `value_bag::update` shows the changed columns. -/
theorem shows_update {b : ValueBag o} {ts : Nat} {cols : List (List UInt8)} (positive : 0 < o)
    (h : Shows b ts cols) {changes : List Change} {last ncol : Nat}
    (increasing : Increasing changes) (lastCol : lastColumn changes = some last)
    (ncol_eq : max cols.length (last + 1) = ncol) (memory : ValueBag o) (ts' : Nat)
    (small : headerSize o ncol + total (upTo (changed (cols.getD · []) changes) 0 ncol) <
      2 ^ (8 * o)) :
    ∃ b', b.update memory changes ts' = some b' ∧
      Shows b' ts' (upTo (changed (cols.getD · []) changes) 0 ncol) := by
  have measured : (b.measure changes (b.size, b.ncol)).2 = ncol := by
    rw [measure_ncol b increasing lastCol, h.ncol]
    split <;> omega
  have slow : ∃ b' : ValueBag o, ((b.fill ncol changes
        ⟨{ memory with ts := ts', ncol := offset o ncol }, headerSize o ncol, 0⟩).bind fun d =>
          some { d.row with pos := Function.update d.row.pos ncol (offset o d.sz) }) = some b' ∧
      Shows b' ts' (upTo (changed (cols.getD · []) changes) 0 ncol) := by
    obtain ⟨d, fills, filled⟩ := extends_fill h
      (d := ⟨{ memory with ts := ts', ncol := offset o ncol }, headerSize o ncol, 0⟩)
      (Nat.zero_le ncol) increasing
      (fun c member => ⟨Nat.zero_le _, by have := le_lastColumn increasing lastCol member; omega⟩)
      small
    rw [fills]
    exact ⟨_, rfl, shows_filled positive filled (upTo_length ..) rfl rfl rfl small⟩
  rw [ValueBag.update]
  split
  rename_i m n pair
  rw [pair] at measured
  simp only at measured
  subst measured
  rcases changes with _ | ⟨⟨idx, value⟩, _ | ⟨c, rest⟩⟩
  · cases lastCol
  · have only : idx = last := Option.some.inj lastCol
    subst only
    simp only
    by_cases fast : n = b.ncol ∧ (if b.ncol < n then m + (n - b.ncol) * o else m) = b.size ∧
        value.length ≤ 16
    · rw [if_pos fast]
      obtain ⟨sameCol, sameSize, -⟩ := fast
      rw [if_neg (by omega)] at sameSize ⊢
      have count : cols.length = n := by rw [← h.ncol, sameCol]
      have inside : idx < cols.length := by omega
      have length := sameLength_of_measure h inside (by rw [pair]; exact sameSize)
      refine ⟨_, rfl, ?_⟩
      rw [← count, upTo_set, sameSize]
      exact shows_replaced h inside length memory.s
    · rw [if_neg fast]
      exact slow
  · exact slow

theorem shows_empty (positive : 0 < o) : Shows (ValueBag.empty o) 0 [] := by
  refine ⟨rfl, rfl, trivial, by simp [ValueBag.empty, headerSize], ?_⟩
  have : o < 2 ^ o := Nat.lt_two_pow_self
  have grows : 2 ^ (o + 1) ≤ 2 ^ (8 * o) := Nat.pow_le_pow_right (by omega) (by omega)
  simp only [headerSize, List.length_nil, total_nil]
  rw [Nat.pow_succ] at grows
  omega

theorem shows_create1 {value : List UInt8} {ts : Nat} (memory : ValueBag o)
    (small : headerSize o 1 + value.length < 2 ^ (8 * o)) :
    Shows (ValueBag.create1 memory value ts) ts [value] := by
  have header : headerSize o 1 = 3 * o := by
    rw [headerSize]
    omega
  rw [header] at small
  have start : offset o (3 * o) = 3 * o := offset_of_lt (by omega)
  refine ⟨rfl, rfl, ?_, ?_, ?_⟩
  · simp only [List.length_singleton, header]
    refine ⟨?_, ?_, trivial⟩
    · simp [ValueBag.create1, start]
    · simp only [ValueBag.create1, start]
      exact bytes_copyStr ..
  · simp only [List.length_singleton, header, ValueBag.create1, Function.update_self, total_cons,
      total_nil]
    exact offset_of_lt (by omega)
  · simpa [header] using small

end Incll.Proof.Kvrow
