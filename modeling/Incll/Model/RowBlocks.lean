import Mathlib.Logic.Function.Basic
import Incll.Lib.Machine
import Incll.Model.Kvrow

/-! # The column blocks of `value_versioned_array` (`value_versioned_array.cc`, `kvrow.hh`)

A row points to its columns, and a copy of a row shares them. Every block that is allocated has a
number of its own. A call of `query` holds the lock of its leaf and is one step; what is passed to
`deallocate_rcu` is freed when the threads that were in a section at that step have been
quiescent. -/

namespace Incll.Model.RowBlocks
open Incll.Lib
open Incll.Model.Kvrow (Change lastColumn)

structure Row where
  ncol : Nat
  ncolCap : Nat
  cols : Nat → Option Nat

namespace Row

def empty : Row := ⟨0, 0, fun _ => none⟩

def makeSizedRow (ncol : Nat) : Row := ⟨ncol, ncol, fun _ => none⟩

/-- The blocks that `deallocate` and `deallocate_rcu` pass on. -/
def columns (row : Row) : List Nat := (List.range row.ncol).filterMap row.cols

/-- The storage for a snapshot of `row`, and the columns that are deallocated. -/
def reserve (row : Row) : Option Row → Row × List Nat
  | none => (makeSizedRow row.ncol, [])
  | some storage =>
      if storage.ncolCap < row.ncol then (makeSizedRow row.ncol, storage.columns) else (storage, [])

/-- The columns that are copied for the fields `f`; `none` if the row does not have the column. -/
def copied (row : Row) : List Int → Option (List Nat)
  | [c] => if 0 ≤ c ∧ c < row.ncol then some [c.toNat] else none
  | _ => some (List.range row.ncol)

/-- The storage after `snapshot`, the blocks that it points to now, and those that are freed. -/
def snapshot (row : Row) (storage : Option Row) (f : List Int) :
    Option (Row × List Nat × List Nat) := do
  let indices ← row.copied f
  let (storage, freed) := row.reserve storage
  some (⟨row.ncol, storage.ncolCap, fun i => if i ∈ indices then row.cols i else storage.cols i⟩,
    indices.filterMap row.cols, freed)

end Row

/-- `make_column`, with the number of the next block. -/
def makeColumn (value : List UInt8) (next : Nat) : Option Nat × Nat :=
  if value ≠ [] then (some next, next + 1) else (none, next)

/-- The columns that `update` changes, and the blocks it has passed to `deallocate_column_rcu`. -/
structure Draft where
  cols : Nat → Option Nat
  retired : List Nat
  next : Nat

def Draft.change (d : Draft) (c : Change) : Draft :=
  let (column, next) := makeColumn c.2 d.next
  ⟨Function.update d.cols c.1 column, (d.cols c.1).toList ++ d.retired, next⟩

structure Updated where
  row : Row
  isCopy : Bool
  retired : List Nat
  next : Nat

namespace Row

/-- `none` if a change is outside of the row, or the row does not fit into its copy. -/
def update (row : Row) (changes : List Change) (alwaysCopy : Bool) (next : Nat) :
    Option Updated := do
  let last ← lastColumn changes
  let ncol := last + 1
  let isCopy := row.ncolCap < ncol || alwaysCopy
  let ncolCap := if isCopy then ncol else row.ncolCap
  if (isCopy ∧ ncol < row.ncol) ∨ ∃ c ∈ changes, ncolCap ≤ c.1 then none else
    let cols := fun i =>
      if i < row.ncol then row.cols i else if i < ncol ∨ isCopy then none else row.cols i
    let d := changes.foldl Draft.change ⟨cols, [], next⟩
    some ⟨⟨if isCopy then ncol else max row.ncol ncol, ncolCap, d.cols⟩, isCopy, d.retired, d.next⟩

def create (changes : List Change) (next : Nat) : Option Updated := empty.update changes true next

def create1 (value : List UInt8) (next : Nat) : Row × Nat :=
  let (column, next) := makeColumn value next
  (⟨1, 1, Function.update (fun _ => none) 0 column⟩, next)

end Row

/-- What is passed to `deallocate_rcu`: the block of a row itself, or a column. -/
inductive Object where
  | row (r : Nat)
  | column (b : Nat)
  deriving DecidableEq

/-- The objects in `limbo` stand with the threads that were in a section when they were passed to
`deallocate_rcu`, and have not been quiescent since. `freed` are the columns freed so far, with
repetitions. `snapshot q` is the `snapshot_` of a query, and the response of thread `t` points to the
blocks `taken t`, which the snapshots of `t` have copied since `t` was last quiescent. -/
structure State where
  rows : Nat → Row
  tree : List Nat
  limbo : List (Object × List Nat)
  freed : List Nat
  snapshot : Nat → Option Row
  taken : Nat → List Nat
  inside : List Nat
  nextRow : Nat
  nextColumn : Nat

namespace State

def init : State := ⟨fun _ => .empty, [], [], [], fun _ => none, fun _ => [], [], 0, 0⟩

def columnsOf (s : State) (r : Nat) : List Nat := (s.rows r).columns

def retire (s : State) (objects : List Object) : State :=
  { s with limbo := objects.map (fun o => (o, s.inside)) ++ s.limbo }

/-- A new row is stored in the tree. -/
def link (s : State) (row : Row) (nextColumn : Nat) : State :=
  { s with
    rows := Function.update s.rows s.nextRow row
    tree := s.nextRow :: s.tree
    nextRow := s.nextRow + 1
    nextColumn := nextColumn }

def unlink (s : State) (r : Nat) : State := { s with tree := s.tree.erase r }

/-- A row is changed in place. -/
def store (s : State) (r : Nat) (row : Row) (nextColumn : Nat) : State :=
  { s with rows := Function.update s.rows r row, nextColumn := nextColumn }

/-- `deallocate_rcu` of a row that leaves the tree. -/
def deallocateRcu (s : State) (r : Nat) : State :=
  (s.retire (.row r :: (s.columnsOf r).map .column)).unlink r

def create (s : State) (changes : List Change) : Option State :=
  (Row.create changes s.nextColumn).map fun u =>
    (s.retire (u.retired.map .column)).link u.row u.next

def update (s : State) (r : Nat) (changes : List Change) : Option State :=
  ((s.rows r).update changes false s.nextColumn).map fun u =>
    if u.isCopy then
      -- deallocate_rcu_after_update passes on the block of the old row only
      ((s.retire (.row r :: u.retired.map .column)).unlink r).link u.row u.next
    else (s.retire (u.retired.map .column)).store r u.row u.next

def create1 (s : State) (value : List UInt8) : State :=
  let (row, next) := Row.create1 value s.nextColumn
  s.link row next

/-- Thread `t` can still reach the row: it is in the tree, or it was in this section of `t`. -/
def reads (s : State) (t r : Nat) : Bool :=
  r ∈ s.tree || s.limbo.any fun e => e.1 = .row r && t ∈ e.2

def release (s : State) (t : Nat) : State :=
  { s with
    limbo := s.limbo.map fun e => (e.1, e.2.filter (· ≠ t))
    taken := Function.update s.taken t [] }

/-- The snapshot of row `r` in query `q` of thread `t`. -/
def emitFields (s : State) (t q r : Nat) (f : List Int) : Option State :=
  ((s.rows r).snapshot (s.snapshot q) f).map fun (storage, taken, freed) =>
    { s with
      snapshot := Function.update s.snapshot q (some storage)
      taken := Function.update s.taken t (taken ++ s.taken t)
      freed := freed ++ s.freed }

/-- An object in limbo is freed. -/
def free (s : State) (o : Object) : State :=
  { s with
    limbo := s.limbo.erase (o, [])
    freed := match o with
      | .row _ => s.freed
      | .column b => b :: s.freed }

end State

/-- `found` is the row that the cursor has found in the tree. -/
inductive Call where
  | applyPut (found : Option Nat) (isMarker : Bool) (changes : List Change)
  | applyReplace (found : Option Nat) (value : List UInt8)
  | applyRemove (r : Nat)
  | emitFields (t q r : Nat) (f : List Int)
  | rcuStart (t : Nat)
  | rcuQuiesce (t : Nat)
  | rcuStop (t : Nat)
  | free (o : Object)

def step (s : State) : Call → Option State
  | .applyPut none _ changes => s.create changes
  | .applyPut (some r) isMarker changes =>
      if r ∈ s.tree then
        if isMarker then (s.deallocateRcu r).create changes else s.update r changes
      else none
  | .applyReplace none value => some (s.create1 value)
  | .applyReplace (some r) value =>
      if r ∈ s.tree then some ((s.deallocateRcu r).create1 value) else none
  | .applyRemove r => if r ∈ s.tree then some (s.deallocateRcu r) else none
  | .emitFields t q r f => if t ∈ s.inside ∧ s.reads t r then s.emitFields t q r f else none
  | .rcuStart t => if t ∈ s.inside then none else some { s with inside := t :: s.inside }
  | .rcuQuiesce t => if t ∈ s.inside then some (s.release t) else none
  | .rcuStop t =>
      if t ∈ s.inside then
        some { s.release t with inside := s.inside.filter (· ≠ t) }
      else none
  | .free o => if (o, []) ∈ s.limbo then some (s.free o) else none

def machine : Machine State Call where
  initial s := s = .init
  step := step

end Incll.Model.RowBlocks
