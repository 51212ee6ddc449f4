import Incll.Model.Msgpack
import Incll.Model.Replay

/-! # Replay into rows with columns (`log.cc`, `log.hh`, `kvproto.hh`, `kvrow.hh`)

`logrecord::run` with the parser of `parse_changeset`, which may fail: an assertion of the parser, or a
read behind the bytes of the record, is `none`. -/

namespace Incll.Model

/-- What replay and queries use of a row type. -/
structure Rows (Row : Type) where
  create : List (Nat × List UInt8) → Row
  create1 : List UInt8 → Row
  update : Row → List (Nat × List UInt8) → Row
  col : Row → Nat → List UInt8

namespace Rows
variable {Row : Type} (rows : Rows Row)

/-- `row_marker::marker_type_`, at the start of column 0. -/
def markerType (r : Row) : Nat := ofLittleEndian ((rows.col r 0).take 4)

def rowIsMarker (ts : Kvtimestamp) : Bool := ts &&& 1 ≠ 0

/-- The row that `run_get`, `run_get1` and scans find: they pass over markers. -/
def get : Value Row → Option Row
  | .row ts r => if rowIsMarker ts then none else some r
  | _ => none

/-- `apply` from "if not modifying" on, at the point of the chain that is to change. -/
def change (lr : Logrecord) (cur : Value Row) : Option (Value Row) :=
  if lr.command = Logcmd.replace then some (.row lr.ts (rows.create1 lr.val))
  else if lr.command ≠ Logcmd.modify then
    (Msgpack.parseChangeset lr.val).map fun changes => .row lr.ts (rows.create changes)
  else
    match cur with
    | .row ts r =>
        if ts = lr.prevTs then
          (Msgpack.parseChangeset lr.val).map fun changes => .row lr.ts (rows.update r changes)
        else some (.delta (lr.ts ||| 1) lr.prevTs lr.val cur)
    | _ => some (.delta (lr.ts ||| 1) lr.prevTs lr.val cur)

/-- Whether the value at the point where the record belongs is at least as new. -/
def late (lr : Logrecord) : Value Row → Bool
  | .delta ts prevTs req prev =>
      if lr.ts.toNat < ts.toNat then late lr prev
      else Value.outOfDate lr (.delta ts prevTs req prev)
  | cur => Value.outOfDate lr cur

/-- Find the point where the record belongs and change the chain there. -/
def insert (lr : Logrecord) : Value Row → Option (Value Row)
  | .delta ts prevTs req prev =>
      if lr.ts.toNat < ts.toNat then (insert lr prev).map (.delta ts prevTs req ·)
      else rows.change lr (.delta ts prevTs req prev)
  | cur => rows.change lr cur

/-- Whether the last marker of the chain is for the row below it. -/
def collapses : Value Row → Bool
  | .delta _ prevTs _ (.row ts _) => prevTs = ts
  | .delta _ _ _ prev => collapses prev
  | _ => false

/-- Apply the last marker of the chain to the row below it. -/
def collapse : Value Row → Option (Value Row)
  | .delta ts _ req (.row _ r) =>
      (Msgpack.parseChangeset req).map fun changes => .row (ts - 1) (rows.update r changes)
  | .delta ts prevTs req prev => (collapse prev).map (.delta ts prevTs req ·)
  | v => some v

/-- The loop "clean up". -/
def cleanUp : Nat → Value Row → Option (Value Row)
  | 0, v => some v
  | fuel + 1, v => if collapses v then (rows.collapse v).bind (cleanUp fuel) else some v

def apply (lr : Logrecord) (value : Value Row) : Option (Value Row) :=
  if late lr value then some value else (rows.insert lr value).bind fun v => rows.cleanUp v.depth v

/-- `run` on the values of the keys. -/
def run (lr : Logrecord) (table : List UInt8 → Value Row) : Option (List UInt8 → Value Row) :=
  let lr := if lr.command = Logcmd.remove then
      { lr with ts := lr.ts ||| 1, val := littleEndian 4 Logrecord.mtRemove }
    else lr
  (rows.apply lr (table lr.key)).map (Function.update table lr.key)

end Rows

end Incll.Model
