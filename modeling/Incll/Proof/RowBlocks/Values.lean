import Incll.Proof.RowBlocks.Rows

/-! # The values in the blocks

With the contents of the blocks, a row of blocks is a `ValueVersionedArray`, and `update` of the one
is `update` of the other. -/

namespace Incll.Proof.RowBlocks
open Incll.Model
open Incll.Model.RowBlocks
open Incll.Model.Kvrow (Change Column ValueVersionedArray lastColumn setColumns copyColumns)

/-- What the columns show when `heap` holds the blocks. -/
def shown (heap : Nat → List UInt8) (cols : Nat → Option Nat) : Nat → Column :=
  fun i => (cols i).map heap

/-- All blocks have been allocated. -/
def Allocated (next : Nat) (cols : Nat → Option Nat) : Prop := ∀ i b, cols i = some b → b < next

theorem shown_congr {next : Nat} {heap heap' : Nat → List UInt8} {cols : Nat → Option Nat}
    (same : ∀ b < next, heap' b = heap b) {i : Nat} (old : ∀ b, cols i = some b → b < next) :
    shown heap' cols i = shown heap cols i := by
  cases at_i : cols i with
  | none => simp [shown, at_i]
  | some b => simp [shown, at_i, same b (old b at_i)]

theorem change_shown (heap : Nat → List UInt8) {d : Draft} (old : Allocated d.next d.cols)
    (c : Change) :
    ∃ heap', (∀ b < d.next, heap' b = heap b) ∧ d.next ≤ (d.change c).next ∧
      Allocated (d.change c).next (d.change c).cols ∧
      shown heap' (d.change c).cols =
        Function.update (shown heap d.cols) c.1 (Kvrow.makeColumn c.2) := by
  refine ⟨Function.update heap d.next c.2, fun b lt => Function.update_of_ne lt.ne ..,
    (makeColumn_fresh c.2 d.next).1, fun i b at_i => ?_, funext fun i => ?_⟩
  · by_cases changed : i = c.1
    · simp only [Draft.change, changed, Function.update_self, makeColumn] at at_i ⊢
      split_ifs at at_i ⊢
      cases at_i
      exact Nat.lt_succ_self _
    · simp only [Draft.change, Function.update_of_ne changed] at at_i
      exact lt_of_lt_of_le (old i b at_i) (makeColumn_fresh c.2 d.next).1
  · by_cases changed : i = c.1
    · subst changed
      simp only [Draft.change, shown, Function.update_self, makeColumn, Kvrow.makeColumn]
      split_ifs <;> simp
    · have before : shown (Function.update heap d.next c.2) d.cols i = shown heap d.cols i :=
        shown_congr (fun b lt => Function.update_of_ne lt.ne ..) (old i)
      simpa only [Draft.change, shown, Function.update_of_ne changed] using before

theorem changes_shown (changes : List Change) (heap : Nat → List UInt8) {d : Draft}
    (old : Allocated d.next d.cols) :
    ∃ heap', (∀ b < d.next, heap' b = heap b) ∧
      shown heap' (changes.foldl Draft.change d).cols = setColumns (shown heap d.cols) changes := by
  induction changes generalizing heap d with
  | nil => exact ⟨heap, fun _ _ => rfl, rfl⟩
  | cons c rest ih =>
      obtain ⟨heap₁, same₁, later, old₁, first⟩ := change_shown heap old c
      obtain ⟨heap₂, same₂, others⟩ := ih heap₁ old₁
      refine ⟨heap₂, fun b lt => (same₂ b (lt_of_lt_of_le lt later)).trans (same₁ b lt), ?_⟩
      rw [List.foldl_cons, others, first]
      rfl

/-- A column after the changes depends on this column before only. -/
theorem setColumns_congr {cols cols' : Nat → Column} {i : Nat} (same : cols i = cols' i)
    (changes : List Change) : setColumns cols changes i = setColumns cols' changes i := by
  induction changes generalizing cols cols' with
  | nil => exact same
  | cons c rest ih =>
      refine ih ?_
      by_cases changed : i = c.1
      · simp [changed]
      · simp [changed, same]

/-- The values of the updated row, and what the allocated memory holds does not matter. -/
theorem update_shown {row : Row} (full : Full row) {changes : List Change} {alwaysCopy : Bool}
    {next : Nat} {u : Updated} (old : Allocated next row.cols)
    (updated : row.update changes alwaysCopy next = some u) (heap : Nat → List UInt8) :
    ∃ heap', (∀ b < next, heap' b = heap b) ∧
      ∀ (memory : Nat → Column) (a : ValueVersionedArray) (ts : Nat),
        a.ncol = row.ncol → a.ncolCap = row.ncolCap → a.cols = shown heap row.cols →
        ∃ a', a.update memory changes ts alwaysCopy = some a' ∧ a'.ncol = u.row.ncol ∧
          a'.ncolCap = u.row.ncolCap ∧ ∀ i < u.row.ncol, a'.cols i = shown heap' u.row.cols i := by
  simp only [Row.update, bind, Option.bind_eq_some_iff] at updated
  obtain ⟨last, last_eq, updated⟩ := updated
  split_ifs at updated with isCopy outside outside <;> cases updated
  · -- a copy with `last + 1` columns
    obtain ⟨heap', same, shows⟩ := changes_shown changes heap
      (d := ⟨fun i => if i < row.ncol then row.cols i else none, [], next⟩)
      fun i b at_i => by simp only at at_i; split_ifs at at_i; exact old i b at_i
    simp only [isCopy, or_true, if_true]
    have copies : row.ncolCap < last + 1 ∨ alwaysCopy = true := by simpa using isCopy
    refine ⟨heap', same, fun memory a ts ncol cap cols => ⟨⟨ts, 0, last + 1, last + 1,
      setColumns (copyColumns memory a.cols a.ncol (last + 1)) changes⟩, ?_, rfl, rfl,
      fun i inside => ?_⟩⟩
    · have fits : ¬ last + 1 < a.ncol := by grind
      simp only [ValueVersionedArray.update, last_eq, Option.bind_eq_bind, Option.bind_some, cap,
        if_pos copies, if_neg fits]
    · rw [shows]
      refine setColumns_congr ?_ changes
      simp only [copyColumns, ncol, cols, shown]
      split_ifs <;> rfl
  · -- in place, where `last + 1` columns fit
    have fits : ¬ row.ncol < last + 1 := by
      simp only [Bool.or_eq_true, decide_eq_true_eq, not_or] at isCopy
      rw [full]
      exact isCopy.1
    obtain ⟨heap', same, shows⟩ := changes_shown changes heap
      (d := ⟨fun i => if i < row.ncol then row.cols i else
        if i < last + 1 ∨ (decide (row.ncolCap < last + 1) || alwaysCopy) = true then none
        else row.cols i, [], next⟩)
      fun i b at_i => by simp only at at_i; split_ifs at at_i <;> exact old i b at_i
    have inPlace : ¬ (row.ncolCap < last + 1 ∨ alwaysCopy = true) := by simpa using isCopy
    refine ⟨heap', same, fun memory a ts ncol cap cols => ⟨{ a with
      ver := Kvrow.Rowversion.clearandbump (Kvrow.Rowversion.setdirty a.ver)
      ncol := max a.ncol (last + 1)
      cols := setColumns a.cols changes }, ?_, by rw [ncol], cap, fun i inside => ?_⟩⟩
    · simp only [ValueVersionedArray.update, last_eq, Option.bind_eq_bind, Option.bind_some, cap,
        if_neg inPlace, ncol, if_neg fits]
    · rw [shows]
      refine setColumns_congr ?_ changes
      have within : i < row.ncol := by
        simp only at inside
        omega
      simp only [cols, shown, within, if_true]

end Incll.Proof.RowBlocks
