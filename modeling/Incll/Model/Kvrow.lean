import Mathlib.Logic.Function.Basic
import Mathlib.Data.BitVec

/-! # The representations of a row: `value_bag`, `value_array` and `value_versioned_array`

The number of columns is a `short` in the source, and is within its limits here. Column blocks are
values: no function writes to a block after `make_column`. -/

namespace Incll.Model.Kvrow

/-- A column and its new value. -/
abbrev Change := Nat × List UInt8

/-- `last[-2]`. -/
def lastColumn (changes : List Change) : Option Nat := changes.getLast?.map Prod.fst

/-- `value_bag<O>`, where `o` is `sizeof(O)`: `pos` is the array of offsets, `s` the bytes behind it. -/
structure ValueBag (o : Nat) where
  ts : Nat
  ncol : Nat
  pos : Nat → Nat
  s : Nat → UInt8

namespace ValueBag
variable {o : Nat}

def offset (o n : Nat) : Nat := n % 2 ^ (8 * o)

/-- `sizeof(bagdata) + ncol * sizeof(offset_type)`. -/
def headerSize (o ncol : Nat) : Nat := 2 * o + ncol * o

def empty (o : Nat) : ValueBag o := ⟨0, 0, fun _ => 2 * o, fun _ => 0⟩

def size (b : ValueBag o) : Nat := 8 + b.pos b.ncol

def columnLength (b : ValueBag o) (i : Nat) : Nat :=
  offset o (b.pos (i + 1) + 2 ^ (8 * o) - b.pos i)

def bytes (s : Nat → UInt8) (start n : Nat) : List UInt8 := (List.range n).map fun k => s (start + k)

def col (b : ValueBag o) (i : Nat) : List UInt8 :=
  if i < b.ncol then bytes b.s (b.pos i) (b.columnLength i) else []

/-- `memcpy` of `n` bytes. -/
def copy (s : Nat → UInt8) (start : Nat) (source : Nat → UInt8) (n : Nat) : Nat → UInt8 :=
  fun k => if start ≤ k ∧ k < start + n then source (k - start) else s k

def copyStr (s : Nat → UInt8) (start : Nat) (value : List UInt8) : Nat → UInt8 :=
  copy s start (fun k => value.getD k 0) value.length

/-- The size and the number of columns of the new row. -/
def measure (b : ValueBag o) : List Change → Nat × Nat → Nat × Nat
  | [], m => m
  | (idx, value) :: rest, (sz, ncol) =>
      let sz := sz + value.length
      measure b rest (if idx < b.ncol then (sz - b.columnLength idx, ncol) else (sz, idx + 1))

/-- The row under construction, with the end of its data and its next column. -/
structure Draft (o : Nat) where
  row : ValueBag o
  sz : Nat
  col : Nat

/-- Copy data from the old row. -/
def copyOld (b : ValueBag o) (thisCol : Nat) (d : Draft o) : Draft o :=
  if d.col ≠ thisCol ∧ d.col < b.ncol then
    let endCol := min thisCol b.ncol
    let amt := b.pos endCol - b.pos d.col
    { row := { d.row with
        pos := fun i =>
          if d.col ≤ i ∧ i < endCol then
            if d.sz = b.pos d.col then b.pos i else offset o (b.pos i + d.sz - b.pos d.col)
          else d.row.pos i
        s := copy d.row.s d.sz (fun k => b.s (b.pos d.col + k)) amt }
      sz := d.sz + amt
      col := endCol }
  else d

/-- Mark empty columns; `n` turns. -/
def markEmpty : Nat → Draft o → Draft o
  | 0, d => d
  | n + 1, d => markEmpty n { d with
      row := { d.row with pos := Function.update d.row.pos d.col (offset o d.sz) }
      col := d.col + 1 }

/-- Copy data from a change. -/
def copyChange (value : List UInt8) (d : Draft o) : Draft o :=
  { row := { d.row with
      pos := Function.update d.row.pos d.col (offset o d.sz)
      s := copyStr d.row.s d.sz value }
    sz := d.sz + value.length
    col := d.col + 1 }

/-- Up to the next change; the columns are strictly increasing, so `col` is not past it. -/
def advance (b : ValueBag o) (thisCol : Nat) (d : Draft o) : Option (Draft o) :=
  let d := b.copyOld thisCol d
  if d.col ≤ thisCol then some (markEmpty (thisCol - d.col) d) else none

def fill (b : ValueBag o) (ncol : Nat) : List Change → Draft o → Option (Draft o)
  | [], d => b.advance ncol d
  | (thisCol, value) :: rest, d => do
      let d ← b.advance thisCol d
      if d.col = ncol then some d else b.fill ncol rest (copyChange value d)

/-- `memory` is what the allocated row holds. -/
def update (b memory : ValueBag o) (changes : List Change) (ts : Nat) :
    Option (ValueBag o) :=
  let (measured, ncol) := b.measure changes (b.size, b.ncol)
  let sz := if b.ncol < ncol then measured + (ncol - b.ncol) * o else measured
  let row : ValueBag o := { memory with ts := ts }
  let slow : Option (ValueBag o) := do
    let d ← b.fill ncol changes ⟨{ row with ncol := offset o ncol }, headerSize o ncol, 0⟩
    some { d.row with pos := Function.update d.row.pos ncol (offset o d.sz) }
  match changes with
  | [(idx, value)] =>
      if ncol = b.ncol ∧ sz = b.size ∧ value.length ≤ 16 then
        some ⟨ts, b.ncol, b.pos, copyStr (copy memory.s 0 b.s (sz - 8)) (b.pos idx) value⟩
      else slow
  | _ => slow

/-- The size that `update` allocates. -/
def allocated (b : ValueBag o) (changes : List Change) : Nat :=
  let (measured, ncol) := b.measure changes (b.size, b.ncol)
  if b.ncol < ncol then measured + (ncol - b.ncol) * o else measured

/-- `update` without its branch for one small column. -/
def updateGeneral (b memory : ValueBag o) (changes : List Change) (ts : Nat) :
    Option (ValueBag o) := do
  let ncol := (b.measure changes (b.size, b.ncol)).2
  let d ← b.fill ncol changes ⟨{ memory with ts := ts, ncol := offset o ncol }, headerSize o ncol, 0⟩
  some { d.row with pos := Function.update d.row.pos ncol (offset o d.sz) }

def create (memory : ValueBag o) (changes : List Change) (ts : Nat) : Option (ValueBag o) :=
  (empty o).update memory changes ts

def create1 (memory : ValueBag o) (value : List UInt8) (ts : Nat) : ValueBag o :=
  { ts := ts
    ncol := 1
    pos := Function.update (Function.update memory.pos 0 (offset o (3 * o))) 1
      (offset o (3 * o + value.length))
    s := copyStr memory.s (offset o (3 * o)) value }

end ValueBag

/-- A pointer to a column block, or null. -/
abbrev Column := Option (List UInt8)

def makeColumn (value : List UInt8) : Column := if value ≠ [] then some value else none

def setColumns (cols : Nat → Column) (changes : List Change) : Nat → Column :=
  changes.foldl (fun cols c => Function.update cols c.1 (makeColumn c.2)) cols

/-- The first `n` columns are copied, and the others up to `m` are null. -/
def copyColumns (memory cols : Nat → Column) (n m : Nat) : Nat → Column :=
  fun i => if i < n then cols i else if i < m then none else memory i

structure ValueArray where
  ts : Nat
  ncol : Nat
  cols : Nat → Column

namespace ValueArray

def empty : ValueArray := ⟨0, 0, fun _ => none⟩

def col (a : ValueArray) (i : Nat) : List UInt8 := if i < a.ncol then (a.cols i).getD [] else []

def update (memory : Nat → Column) (a : ValueArray) (changes : List Change) (ts : Nat) :
    Option ValueArray := do
  let last ← lastColumn changes
  if ts < a.ts then none else
    let ncol := max a.ncol (last + 1)
    some ⟨ts, ncol, setColumns (copyColumns memory a.cols a.ncol ncol) changes⟩

def create (memory : Nat → Column) (changes : List Change) (ts : Nat) : Option ValueArray :=
  empty.update memory changes ts

def create1 (memory : Nat → Column) (value : List UInt8) (ts : Nat) : ValueArray :=
  ⟨ts, 1, Function.update memory 0 (makeColumn value)⟩

end ValueArray

/-- The counter of changes and, in the highest bit, that a change is under way. -/
abbrev Rowversion := BitVec 32

namespace Rowversion

def setdirty (v : Rowversion) : Rowversion := v ||| 0x80000000#32

def clearandbump (v : Rowversion) : Rowversion := (v + 1) &&& 0x7fffffff#32

end Rowversion

structure ValueVersionedArray where
  ts : Nat
  ver : Rowversion
  ncol : Nat
  ncolCap : Nat
  cols : Nat → Column

namespace ValueVersionedArray

def empty : ValueVersionedArray := ⟨0, 0, 0, 0, fun _ => none⟩

def col (a : ValueVersionedArray) (i : Nat) : List UInt8 :=
  if i < a.ncol then (a.cols i).getD [] else []

/-- The row is copied if it has to grow; else it is changed in place, and `ts` is not stored. -/
def update (memory : Nat → Column) (a : ValueVersionedArray) (changes : List Change) (ts : Nat)
    (alwaysCopy : Bool) : Option ValueVersionedArray := do
  let last ← lastColumn changes
  let ncol := last + 1
  if a.ncolCap < ncol ∨ alwaysCopy then
    if ncol < a.ncol then none else
      some ⟨ts, 0, ncol, ncol, setColumns (copyColumns memory a.cols a.ncol ncol) changes⟩
  else
    let cols := if a.ncol < ncol then copyColumns a.cols a.cols a.ncol ncol else a.cols
    some { a with
      ver := Rowversion.clearandbump (Rowversion.setdirty a.ver)
      ncol := max a.ncol ncol
      cols := setColumns cols changes }

def create (memory : Nat → Column) (changes : List Change) (ts : Nat) :
    Option ValueVersionedArray :=
  empty.update memory changes ts true

def create1 (memory : Nat → Column) (value : List UInt8) (ts : Nat) : ValueVersionedArray :=
  ⟨ts, 0, 1, 1, Function.update memory 0 (makeColumn value)⟩

end ValueVersionedArray
end Incll.Model.Kvrow
