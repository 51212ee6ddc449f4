import Incll.Proof.Kvrow.Bag
import Mathlib.Data.List.GetD

/-! # The size of an updated bag, and the two ways to make it -/

namespace Incll.Proof.Kvrow
open Incll.Model.Kvrow Incll.Model.Kvrow.ValueBag

variable {o : Nat}

/-- The number of columns after the changes. -/
def newNcol (ncol : Nat) (changes : List Change) : Nat :=
  match lastColumn changes with
  | none => ncol
  | some last => max ncol (last + 1)

theorem total_update (f : Nat → List UInt8) {i n : Nat} (bound : i < n) (value : List UInt8) :
    total (upTo (Function.update f i value) 0 n) + (f i).length = total (upTo f 0 n) + value.length := by
  have before : upTo (Function.update f i value) 0 i = upTo f 0 i :=
    upTo_congr fun k _ high => Function.update_of_ne high.ne ..
  have behind : upTo (Function.update f i value) (i + 1) n = upTo f (i + 1) n :=
    upTo_congr fun k low _ => Function.update_of_ne (by omega) ..
  rw [upTo_append _ (Nat.zero_le i) bound.le, upTo_append f (Nat.zero_le i) bound.le,
    upTo_cons _ bound, upTo_cons f bound, before, behind, Function.update_self]
  simp only [total_append, total_cons]
  omega

theorem le_total {f : Nat → List UInt8} {i n : Nat} (bound : i < n) :
    (f i).length ≤ total (upTo f 0 n) := by
  rw [upTo_append f (Nat.zero_le i) bound.le, upTo_cons f bound, total_append, total_cons]
  omega

/-- The loop over the changes counts the bytes of the new columns. -/
theorem measure_total {b : ValueBag o} {ts : Nat} {cols : List (List UInt8)} (h : Shows b ts cols)
    {n : Nat} {changes : List Change} (increasing : Increasing changes)
    (bound : ∀ c ∈ changes, c.1 < n) {f : Nat → List UInt8}
    (old : ∀ c ∈ changes, f c.1 = cols.getD c.1 []) (header m : Nat) :
    (b.measure changes (header + total (upTo f 0 n), m)).1 =
      header + total (upTo (changed f changes) 0 n) := by
  induction changes generalizing f m with
  | nil => rfl
  | cons c rest ih =>
      obtain ⟨above, increasing⟩ := List.pairwise_cons.mp increasing
      have inside := bound c (by simp)
      have here := old c (by simp)
      have step := total_update f inside c.2
      have least := le_total (f := f) inside
      have rest' (m : Nat) := ih increasing (fun c' member => bound c' (by simp [member]))
        (f := Function.update f c.1 c.2) (fun c' member => by
          rw [Function.update_of_ne (above c' member).ne']
          exact old c' (by simp [member])) m
      have result : changed f (c :: rest) = changed (Function.update f c.1 c.2) rest := rfl
      rw [measure_cons, result]
      split
      · rename_i live
        rw [h.ncol] at live
        have width := h.columnLength live
        rw [List.getD_eq_getElem _ _ live] at here
        have moved : header + total (upTo f 0 n) + c.2.length - (f c.1).length =
            header + total (upTo (Function.update f c.1 c.2) 0 n) := by omega
        rw [width, ← here, moved, rest' m]
      · rename_i new
        rw [h.ncol] at new
        rw [List.getD_eq_default _ _ (by omega)] at here
        rw [here, List.length_nil] at step
        have moved : header + total (upTo f 0 n) + c.2.length =
            header + total (upTo (Function.update f c.1 c.2) 0 n) := by omega
        rw [moved, rest' (c.1 + 1)]

theorem total_getD (cols : List (List UInt8)) {n : Nat} (wide : cols.length ≤ n) :
    total (upTo (cols.getD · []) 0 n) = total cols := by
  have own : upTo (cols.getD · []) 0 cols.length = cols := by
    refine List.ext_getElem (by simp [upTo]) fun k low high => ?_
    simp [upTo, high]
  have empty : total (upTo (cols.getD · []) cols.length n) = 0 := by
    have blank : upTo (cols.getD · []) cols.length n = upTo (fun _ => []) cols.length n :=
      upTo_congr fun k low _ => List.getD_eq_default _ _ low
    rw [blank]
    simp [total, upTo]
  rw [upTo_append _ (Nat.zero_le _) wide, total_append, own, empty, Nat.add_zero]

theorem measure_newNcol {b : ValueBag o} {changes : List Change} (increasing : Increasing changes)
    (sz : Nat) : (b.measure changes (sz, b.ncol)).2 = newNcol b.ncol changes := by
  unfold newNcol
  cases last : lastColumn changes with
  | none =>
      have empty : changes = [] := by
        simpa [lastColumn] using last
      subst empty
      rfl
  | some last' =>
      rw [measure_ncol b increasing last]
      simp only
      split <;> omega

theorem lt_newNcol {changes : List Change} (increasing : Increasing changes) (n : Nat) {c : Change}
    (member : c ∈ changes) : c.1 < newNcol n changes := by
  unfold newNcol
  cases last : lastColumn changes with
  | none =>
      have empty : changes = [] := by
        simpa [lastColumn] using last
      simp [empty] at member
  | some last' =>
      have := le_lastColumn increasing last member
      simp only
      omega

theorem le_newNcol (n : Nat) (changes : List Change) : n ≤ newNcol n changes := by
  unfold newNcol
  cases lastColumn changes with
  | none => exact le_rfl
  | some last => exact le_max_left ..

/-- The columns that `update` leaves. -/
def newCols (cols : List (List UInt8)) (changes : List Change) : List (List UInt8) :=
  upTo (changed (cols.getD · []) changes) 0 (newNcol cols.length changes)

theorem length_newCols (cols : List (List UInt8)) (changes : List Change) :
    (newCols cols changes).length = newNcol cols.length changes := upTo_length ..

section
variable {b : ValueBag o} {ts : Nat} {cols : List (List UInt8)} (h : Shows b ts cols)
  {changes : List Change} (increasing : Increasing changes)
include h increasing

theorem allocated_eq : b.allocated changes =
    8 + (headerSize o (newNcol cols.length changes) + total (newCols cols changes)) := by
  have wide := le_newNcol cols.length changes
  have start : b.size = 8 + headerSize o cols.length +
      total (upTo (cols.getD · []) 0 (newNcol cols.length changes)) := by
    rw [total_getD cols wide, size, h.ncol, h.stop, Nat.add_assoc]
  have measured := measure_total h increasing (fun c member => lt_newNcol increasing cols.length member)
    (f := (cols.getD · [])) (fun _ _ => rfl) (8 + headerSize o cols.length) b.ncol
  have count := measure_newNcol increasing (b := b) b.size
  rw [h.ncol] at count measured
  rw [allocated, h.ncol]
  rw [← start] at measured
  generalize b.measure changes (b.size, cols.length) = pair at *
  obtain ⟨m, n⟩ := pair
  simp only at measured count ⊢
  subst count
  rw [measured, newCols]
  have grown : headerSize o (newNcol cols.length changes) =
      headerSize o cols.length + (newNcol cols.length changes - cols.length) * o := by
    rw [headerSize, headerSize, Nat.add_assoc, ← Nat.add_mul cols.length, Nat.add_sub_cancel' wide]
  split
  · omega
  · have same : newNcol cols.length changes - cols.length = 0 := by omega
    rw [same] at grown
    omega

variable (positive : 0 < o) (memory : ValueBag o) (ts' : Nat)
  (fits : b.allocated changes < 8 + 2 ^ (8 * o))
include positive fits

theorem shows_updateGeneral :
    ∃ b', b.updateGeneral memory changes ts' = some b' ∧ Shows b' ts' (newCols cols changes) := by
  have size := allocated_eq h increasing
  have count := measure_newNcol increasing (b := b) b.size
  rw [h.ncol] at count
  have inside (c : Change) (member : c ∈ changes) : 0 ≤ c.1 ∧ c.1 < newNcol cols.length changes :=
    ⟨Nat.zero_le _, lt_newNcol increasing cols.length member⟩
  obtain ⟨d, fills, filled⟩ := extends_fill h
    (d := ⟨{ memory with ts := ts', ncol := offset o (newNcol cols.length changes) },
      headerSize o (newNcol cols.length changes), 0⟩)
    (Nat.zero_le _) increasing inside
    (show headerSize o (newNcol cols.length changes) + total (newCols cols changes) < _ by omega)
  rw [updateGeneral, h.ncol, count]
  simp only [fills, bind, Option.bind_some]
  exact ⟨_, rfl, shows_filled positive filled (upTo_length ..) rfl rfl rfl (by
    change _ + total (newCols cols changes) < _
    omega)⟩

theorem shows_update_all :
    ∃ b', b.update memory changes ts' = some b' ∧ Shows b' ts' (newCols cols changes) := by
  have size := allocated_eq h increasing
  cases last : lastColumn changes with
  | none =>
      have empty : changes = [] := by
        simpa [lastColumn] using last
      subst empty
      exact shows_updateGeneral h increasing positive memory ts' fits
  | some last' =>
      have count : max cols.length (last' + 1) = newNcol cols.length changes := by
        rw [newNcol, last]
      exact shows_update positive h increasing last count memory ts' (by
        change _ + total (newCols cols changes) < _
        omega)

end

/-- Equal in every byte of the allocated rows that a reader uses. -/
structure SameRow (b b' : ValueBag o) : Prop where
  ts : b'.ts = b.ts
  ncol : b'.ncol = b.ncol
  pos : ∀ i ≤ b.ncol, b'.pos i = b.pos i
  s : ∀ k, headerSize o b.ncol ≤ k → k < b.pos b.ncol → b'.s k = b.s k

theorem bytes_add (s : Nat → UInt8) (start m n : Nat) :
    bytes s start (m + n) = bytes s start m ++ bytes s (start + m) n := by
  simp [bytes, List.range_add, Nat.add_assoc]

theorem Laid.bytes {b : ValueBag o} {vs : List (List UInt8)} {i start : Nat} (h : Laid b i start vs) :
    bytes b.s start (total vs) = vs.flatten := by
  induction vs generalizing i start with
  | nil => rfl
  | cons v vs ih =>
      obtain ⟨-, here, rest⟩ := h
      rw [total_cons, bytes_add, here, ih rest, List.flatten_cons]

theorem Shows.sameRow {b b' : ValueBag o} {ts : Nat} {cols : List (List UInt8)} (h : Shows b ts cols)
    (h' : Shows b' ts cols) : SameRow b b' := by
  refine ⟨h'.ts.trans h.ts.symm, h'.ncol.trans h.ncol.symm, fun i bound => ?_, fun k low high => ?_⟩
  · rw [h.ncol] at bound
    rw [h.pos bound, h'.pos bound]
  · rw [h.ncol] at low high
    rw [h.stop] at high
    have same := h'.laid.bytes.trans h.laid.bytes.symm
    have byte := congrArg (·[k - headerSize o cols.length]?) same
    simpa [bytes, show k - headerSize o cols.length < total cols by omega,
      Nat.add_sub_cancel' low] using byte

theorem changed_mem {f : Nat → List UInt8} {changes : List Change} (increasing : Increasing changes)
    {c : Change} (member : c ∈ changes) : changed f changes c.1 = c.2 := by
  induction changes generalizing f with
  | nil => cases member
  | cons c' rest ih =>
      obtain ⟨above, increasing⟩ := List.pairwise_cons.mp increasing
      rcases List.mem_cons.mp member with rfl | member
      · exact (changed_of_ne fun c' later => (above c' later).ne).trans (Function.update_self ..)
      · exact ih increasing member

theorem getD_newCols (cols : List (List UInt8)) (changes : List Change) (i : Nat) :
    (newCols cols changes).getD i [] =
      if i < newNcol cols.length changes then changed (cols.getD · []) changes i else [] := by
  split
  · rename_i inside
    rw [List.getD_eq_getElem _ _ (by rwa [length_newCols])]
    simp [newCols, upTo]
  · rename_i outside
    exact List.getD_eq_default _ _ (by rw [length_newCols]; omega)

/-- `update` is a functional update of the columns, in a row of the allocated size; `memory` and
`memory'` are what the allocated rows hold before. -/
theorem bag_update (positive : 0 < o) {b : ValueBag o} {ts : Nat} {cols : List (List UInt8)}
    (h : Shows b ts cols) {changes : List Change} (increasing : Increasing changes)
    (fits : b.allocated changes < 8 + 2 ^ (8 * o)) (memory memory' : ValueBag o) (ts' : Nat) :
    (∃ b', b.update memory changes ts' = some b' ∧ (∃ cols', Shows b' ts' cols') ∧
      b'.ts = ts' ∧ b'.ncol = newNcol b.ncol changes ∧
      (∀ c ∈ changes, b'.col c.1 = c.2) ∧
      (∀ i < b.ncol, (∀ c ∈ changes, i ≠ c.1) → b'.col i = b.col i) ∧
      (∀ i, b.ncol ≤ i → (∀ c ∈ changes, i ≠ c.1) → b'.col i = []) ∧
      b'.size = b.allocated changes ∧
      ∃ b'', b.updateGeneral memory' changes ts' = some b'' ∧ SameRow b' b'') ∧
    ValueBag.create memory changes ts' = (ValueBag.empty o).update memory changes ts' ∧
    Shows (ValueBag.empty o) 0 [] := by
  refine ⟨?_, rfl, shows_empty positive⟩
  obtain ⟨b', updates, shows'⟩ := shows_update_all h increasing positive memory ts' fits
  obtain ⟨b'', general, shows''⟩ := shows_updateGeneral h increasing positive memory' ts' fits
  have wide := le_newNcol cols.length changes
  refine ⟨b', updates, ⟨_, shows'⟩, shows'.ts, ?_, ?_, ?_, ?_, ?_, b'', general, shows'.sameRow shows''⟩
  · rw [shows'.ncol, length_newCols, h.ncol]
  · intro c member
    rw [shows'.col, getD_newCols, if_pos (lt_newNcol increasing _ member),
      changed_mem increasing member]
  · intro i live other
    rw [h.ncol] at live
    rw [shows'.col, getD_newCols, if_pos (by omega), changed_of_ne other, h.col]
  · intro i free other
    rw [h.ncol] at free
    rw [shows'.col, getD_newCols, changed_of_ne other, List.getD_eq_default _ _ free, ite_self]
  · rw [allocated_eq h increasing, size, shows'.ncol, shows'.stop, length_newCols]

/-- A new column two behind the last one of a 16-bit bag with one column. -/
theorem bag_update_two : ∃ b', (ValueBag.create1 (ValueBag.empty 2) [7] 3).update (ValueBag.empty 2)
    [(0, [1, 2]), (2, [9])] 5 = some b' ∧ b'.col 1 = [] := by
  have shows : Shows (ValueBag.create1 (ValueBag.empty 2) [7] 3) 3 [[7]] :=
    shows_create1 _ (by decide)
  have increasing : Increasing [(0, [1, 2]), (2, [9])] := by simp [Increasing]
  obtain ⟨⟨b', updates, -, -, -, -, -, empty, -⟩, -⟩ :=
    bag_update (by decide) shows increasing (by decide) (ValueBag.empty 2) (ValueBag.empty 2) 5
  exact ⟨b', updates, empty 1 (by decide) (by decide)⟩

end Incll.Proof.Kvrow
