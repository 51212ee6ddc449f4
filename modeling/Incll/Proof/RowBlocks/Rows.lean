import Mathlib.Tactic.SplitIfs
import Mathlib.Data.List.Basic
import Incll.Model.RowBlocks

/-! # Where the blocks of a row are after an update

`update` keeps each block of the row, in the row or among those it has retired, and allocates new
ones. -/

namespace Incll.Proof.RowBlocks
open Incll.Model.RowBlocks
open Incll.Model.Kvrow (Change lastColumn)

/-- The blocks in the first `n` columns. -/
def pointers (n : Nat) (cols : Nat → Option Nat) : List Nat := (List.range n).filterMap cols

theorem columns_eq (row : Row) : row.columns = pointers row.ncol row.cols := rfl

theorem pointers_succ (n : Nat) (cols : Nat → Option Nat) :
    pointers (n + 1) cols = pointers n cols ++ (cols n).toList := by
  simp only [pointers, List.range_succ, List.filterMap_append]
  cases at_n : cols n with
  | none => simp [at_n]
  | some b => simp [at_n]

theorem mem_pointers {n : Nat} {cols : Nat → Option Nat} {b : Nat} :
    b ∈ pointers n cols ↔ ∃ i < n, cols i = some b := by
  simp [pointers]

theorem pointers_congr {n : Nat} {cols cols' : Nat → Option Nat}
    (same : ∀ i < n, cols i = cols' i) : pointers n cols = pointers n cols' :=
  List.filterMap_congr fun i member => same i (List.mem_range.mp member)

/-- Columns past the end that are null add nothing. -/
theorem pointers_extend {m n : Nat} (le : m ≤ n) (cols : Nat → Option Nat) :
    pointers n (fun i => if i < m then cols i else none) = pointers m cols := by
  induction n, le using Nat.le_induction with
  | base => exact pointers_congr fun i inside => by simp [inside]
  | succ n le ih => rw [pointers_succ, ih]; simp [Nat.not_lt.mpr le]

theorem count_pointers_update (cols : Nat → Option Nat) {i n : Nat} (inside : i < n)
    (column : Option Nat) (b : Nat) :
    (pointers n (Function.update cols i column)).count b + (cols i).toList.count b =
      (pointers n cols).count b + column.toList.count b := by
  induction n with
  | zero => omega
  | succ n ih =>
      simp only [pointers_succ, List.count_append]
      by_cases last : i = n
      · subst last
        have below : pointers i (Function.update cols i column) = pointers i cols :=
          pointers_congr fun j lt => Function.update_of_ne lt.ne ..
        rw [below]
        simp only [Function.update_self]
        omega
      · have rest := ih (by omega)
        rw [Function.update_of_ne (by omega)]
        omega

/-- One if the block is allocated when the number of the next block goes from `next` to `next'`. -/
def fresh (next next' b : Nat) : Nat := if next ≤ b ∧ b < next' then 1 else 0

theorem fresh_self (next b : Nat) : fresh next next b = 0 := by
  rw [fresh, if_neg (by omega)]

theorem fresh_trans {i j k : Nat} (ij : i ≤ j) (jk : j ≤ k) (b : Nat) :
    fresh i j b + fresh j k b = fresh i k b := by
  simp only [fresh]
  split_ifs <;> omega

theorem makeColumn_fresh (value : List UInt8) (next : Nat) :
    next ≤ (makeColumn value next).2 ∧
      ∀ b, (makeColumn value next).1.toList.count b = fresh next (makeColumn value next).2 b := by
  simp only [makeColumn]
  split_ifs with nonempty
  · refine ⟨Nat.le_succ next, fun b => ?_⟩
    simp only [Option.toList_some, List.count_singleton, fresh, beq_iff_eq]
    split_ifs <;> omega
  · exact ⟨le_rfl, fun b => by simp [fresh_self]⟩

theorem change_kept (d : Draft) {c : Change} {ncol : Nat} (inside : c.1 < ncol) :
    d.next ≤ (d.change c).next ∧
      ∀ b, (pointers ncol (d.change c).cols).count b + (d.change c).retired.count b =
        (pointers ncol d.cols).count b + d.retired.count b + fresh d.next (d.change c).next b := by
  obtain ⟨later, made⟩ := makeColumn_fresh c.2 d.next
  refine ⟨later, fun b => ?_⟩
  have moved := count_pointers_update d.cols inside (makeColumn c.2 d.next).1 b
  simp only [Draft.change, List.count_append, ← made b]
  omega

theorem changes_kept (changes : List Change) {ncol : Nat} (d : Draft)
    (inside : ∀ c ∈ changes, c.1 < ncol) :
    let d' := changes.foldl Draft.change d
    d.next ≤ d'.next ∧
      ∀ b, (pointers ncol d'.cols).count b + d'.retired.count b =
        (pointers ncol d.cols).count b + d.retired.count b + fresh d.next d'.next b := by
  induction changes generalizing d with
  | nil => simp [fresh_self]
  | cons c rest ih =>
      obtain ⟨later, kept⟩ := change_kept d (inside c (by simp))
      obtain ⟨latest, keptRest⟩ := ih (d.change c) fun c member => inside c (by simp [member])
      refine ⟨later.trans latest, fun b => ?_⟩
      have first := kept b
      have others := keptRest b
      have both := fresh_trans later latest b
      simp only [List.foldl_cons]
      omega

/-- The changes to a row of `n` columns that starts with those of `row`. -/
theorem extension_kept {row : Row} {n : Nat} (le : row.ncol ≤ n) {cols : Nat → Option Nat}
    (extension : ∀ i < n, cols i = if i < row.ncol then row.cols i else none)
    {changes : List Change} (inside : ∀ c ∈ changes, c.1 < n) (next : Nat) :
    let d := changes.foldl Draft.change ⟨cols, [], next⟩
    next ≤ d.next ∧
      ∀ b, (pointers n d.cols).count b + d.retired.count b =
        row.columns.count b + fresh next d.next b := by
  obtain ⟨later, kept⟩ := changes_kept changes ⟨cols, [], next⟩ inside
  have start : pointers n cols = row.columns :=
    (pointers_congr extension).trans (pointers_extend le row.cols)
  refine ⟨later, fun b => ?_⟩
  rw [kept b, start, List.count_nil, Nat.add_zero]

/-- A row that the tree can hold has no room behind its columns. -/
def Full (row : Row) : Prop := row.ncol = row.ncolCap

theorem empty_full : Full .empty := rfl

theorem update_kept {row : Row} (full : Full row) {changes : List Change} {alwaysCopy : Bool}
    {next : Nat} {u : Updated} (updated : row.update changes alwaysCopy next = some u) :
    Full u.row ∧ next ≤ u.next ∧
      ∀ b, u.row.columns.count b + u.retired.count b =
        row.columns.count b + fresh next u.next b := by
  simp only [Row.update, bind, Option.bind_eq_some_iff] at updated
  obtain ⟨last, -, updated⟩ := updated
  split_ifs at updated with isCopy outside outside <;> cases updated
  · -- a copy with `last + 1` columns
    have fits : row.ncol ≤ last + 1 := by grind
    have inside : ∀ c ∈ changes, c.1 < last + 1 := by grind
    refine ⟨rfl, extension_kept fits (fun i inside => ?_) inside next⟩
    simp only [isCopy, or_true, if_true]
  · -- in place
    have wide : max row.ncol (last + 1) = row.ncol := by
      simp only [Bool.or_eq_true, decide_eq_true_eq, not_or, Nat.not_lt] at isCopy
      rw [Full] at full
      omega
    have inside : ∀ c ∈ changes, c.1 < row.ncol := by grind [Full]
    simp only [wide]
    refine ⟨full, extension_kept le_rfl (fun i inside => ?_) inside next⟩
    simp only [inside, if_true]

/-- A row of the tree can be updated with changes that end at the highest column. -/
theorem update_defined {row : Row} (full : Full row) {changes : List Change} {last : Nat}
    (last_eq : lastColumn changes = some last) (highest : ∀ c ∈ changes, c.1 ≤ last) (next : Nat) :
    ∃ u, row.update changes false next = some u := by
  simp only [Row.update, last_eq, Option.bind_eq_bind, Option.bind_some, Bool.or_false,
    decide_eq_true_eq]
  split_ifs with grows outside outside
  · obtain ⟨-, fits⟩ | ⟨c, member, high⟩ := outside
    · rw [Full] at full
      omega
    · have low := highest c member
      omega
  · exact ⟨_, rfl⟩
  · obtain ⟨grows', -⟩ | ⟨c, member, high⟩ := outside
    · exact absurd grows' grows
    · have low := highest c member
      omega
  · exact ⟨_, rfl⟩

theorem create1_kept (value : List UInt8) (next : Nat) :
    let created := Row.create1 value next
    Full created.1 ∧ next ≤ created.2 ∧
      ∀ b, created.1.columns.count b = fresh next created.2 b := by
  obtain ⟨later, made⟩ := makeColumn_fresh value next
  refine ⟨rfl, later, fun b => ?_⟩
  have moved := count_pointers_update (fun _ => none) Nat.zero_lt_one (makeColumn value next).1 b
  have none_before : pointers 1 (fun _ => none) = [] := rfl
  have placed := made b
  simp only [none_before, Option.toList_none, List.count_nil] at moved
  simp only [Row.create1, columns_eq]
  omega

theorem copied_inside {row : Row} {f : List Int} {indices : List Nat}
    (copied : row.copied f = some indices) : ∀ i ∈ indices, i < row.ncol := by
  unfold Row.copied at copied
  split at copied
  · split_ifs at copied with inside
    cases copied
    simp only [List.mem_singleton, forall_eq]
    omega
  · cases copied
    exact fun i => List.mem_range.mp

/-- A snapshot points to blocks of its row, and frees only those of a storage row it replaces. -/
theorem snapshot_shares {row : Row} {storage : Option Row} {f : List Int} {new : Row}
    {taken freed : List Nat} (snapshot : row.snapshot storage f = some (new, taken, freed)) :
    (∀ b ∈ taken, b ∈ row.columns) ∧ freed = (row.reserve storage).2 ∧
      ∀ i b, new.cols i = some b →
        b ∈ row.columns ∨ ∃ old, storage = some old ∧ old.cols i = some b := by
  simp only [Row.snapshot, bind, Option.bind_eq_some_iff, Option.some.injEq, Prod.mk.injEq]
    at snapshot
  obtain ⟨indices, copied, rfl, rfl, rfl⟩ := snapshot
  refine ⟨fun b member => ?_, rfl, fun i b at_i => ?_⟩
  · obtain ⟨i, chosen, at_i⟩ := List.mem_filterMap.mp member
    exact mem_pointers.mpr ⟨i, copied_inside copied i chosen, at_i⟩
  · simp only at at_i
    split_ifs at at_i with chosen
    · exact .inl (mem_pointers.mpr ⟨i, copied_inside copied i chosen, at_i⟩)
    · cases storage with
      | none => simp [Row.reserve, Row.makeSizedRow] at at_i
      | some old =>
          simp only [Row.reserve] at at_i
          split_ifs at at_i
          · simp [Row.makeSizedRow] at at_i
          · exact .inr ⟨old, rfl, at_i⟩

end Incll.Proof.RowBlocks
