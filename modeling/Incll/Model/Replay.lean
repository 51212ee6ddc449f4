import Incll.Model.LogRecord
import Mathlib.Logic.Function.Basic

/-! # Replay of log records (`logrecord::run`, `logrecord::apply`)

A row type is what `create`, `create1` and `update` make of the changes that `parse_changeset` finds
in a record. A value is a chain of delta markers over a row or over nothing. -/

namespace Incll.Model

structure RowType (Row Change : Type) where
  parseChangeset : List UInt8 → List Change
  create : List Change → Row
  create1 : List UInt8 → Row
  update : Row → List Change → Row

inductive Value (Row : Type) where
  | null
  | row (ts : Kvtimestamp) (r : Row)
  /-- A delta marker, with the bytes of its request behind the header. -/
  | delta (ts prevTs : Kvtimestamp) (req : List UInt8) (prev : Value Row)
  deriving DecidableEq

namespace Value
variable {Row Change : Type} (rowType : RowType Row Change)

/-- The time of a value that is there. -/
def timestamp? : Value Row → Option Kvtimestamp
  | .null => none
  | .row ts _ => some ts
  | .delta ts _ _ _ => some ts

/-- `apply` from "if not modifying" on, at the point of the chain that is to change. The time of a
marker is odd, so it is not the previous time of a record. -/
def change (lr : Logrecord) (cur : Value Row) : Value Row :=
  if lr.command = Logcmd.replace then .row lr.ts (rowType.create1 lr.val)
  else if lr.command ≠ Logcmd.modify then
    .row lr.ts (rowType.create (rowType.parseChangeset lr.val))
  else
    match cur with
    | .row ts r =>
        if ts = lr.prevTs then .row lr.ts (rowType.update r (rowType.parseChangeset lr.val))
        else .delta (lr.ts ||| 1) lr.prevTs lr.val cur
    | _ => .delta (lr.ts ||| 1) lr.prevTs lr.val cur

/-- A value at least as new as the record. -/
def outOfDate (lr : Logrecord) (cur : Value Row) : Bool :=
  match cur.timestamp? with
  | none => false
  | some ts => lr.ts.toNat ≤ ts.toNat

/-- Find the point where the record belongs and change the chain there. -/
def insert (lr : Logrecord) : Value Row → Option (Value Row)
  | .delta ts prevTs req prev =>
      if lr.ts.toNat < ts.toNat then (insert lr prev).map (.delta ts prevTs req ·)
      else if outOfDate lr (.delta ts prevTs req prev) then none
      else some (change rowType lr (.delta ts prevTs req prev))
  | cur => if outOfDate lr cur then none else some (change rowType lr cur)

/-- Apply the last marker of the chain to the row below it. -/
def collapse : Value Row → Option (Value Row)
  | .delta ts prevTs req (.row ts' r) =>
      if prevTs = ts' then some (.row (ts - 1) (rowType.update r (rowType.parseChangeset req))) else none
  | .delta ts prevTs req prev => (collapse prev).map (.delta ts prevTs req ·)
  | _ => none

def depth : Value Row → Nat
  | .delta _ _ _ prev => depth prev + 1
  | _ => 0

/-- The loop "clean up". -/
def cleanUp : Nat → Value Row → Value Row
  | 0, v => v
  | fuel + 1, v =>
      match collapse rowType v with
      | some v' => cleanUp fuel v'
      | none => v

end Value

namespace Logrecord
variable {Row Change : Type} (rowType : RowType Row Change)

def apply (lr : Logrecord) (value : Value Row) : Value Row :=
  match Value.insert rowType lr value with
  | none => value
  | some v => v.cleanUp rowType v.depth

/-- `row_marker::mt_remove`. -/
def mtRemove : Nat := 1

/-- `run` on the values of the keys. -/
def run (lr : Logrecord) (table : List UInt8 → Value Row) : List UInt8 → Value Row :=
  let lr := if lr.command = Logcmd.remove then
      { lr with ts := lr.ts ||| 1, val := littleEndian 4 mtRemove }
    else lr
  Function.update table lr.key (lr.apply rowType (table lr.key))

end Logrecord

end Incll.Model
