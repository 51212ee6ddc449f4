import Incll.Lib.Machine
import Incll.Model.Query

/-! # The timestamps of a table (`kvrow.hh`, `kvthread.hh`, `masstree_split.hh`, `masstree_remove.hh`)

`run_put`, `run_replace` and `run_remove` hold the lock of the leaf that is responsible for their key
and are one step each. Of the tree this keeps which leaf is responsible for a key: a split, a new
layer, and the removal of a leaf or a layer make another leaf responsible. `need_phantom_epoch` is
false, so none of them carries the phantom epoch over. -/

namespace Incll.Model.Timestamps
open Incll.Lib

variable {n : Nat} {K : Type} [DecidableEq K]

/-- `row` has the timestamps of the rows, and `assigned` the timestamps that the operations on a key
have got, the last one first. -/
structure State (nthreads : Nat) (Key : Type) where
  ts : Fin nthreads → Kvtimestamp
  row : Key → Option Kvtimestamp
  leafOf : Key → Nat
  leaf : Nat → Option LeafMemory
  assigned : Key → List Kvtimestamp

namespace State

/-- `assign_timestamp`; the row of the key is then `row`. -/
def assignTimestamp (s : State n K) (t : Fin n) (k : K) (ts : Kvtimestamp)
    (row : Option Kvtimestamp) : State n K :=
  { s with
    ts := Function.update s.ts t ts
    row := Function.update s.row k row
    assigned := Function.update s.assigned k (ts :: s.assigned k) }

/-- `run_put` and `run_replace`. A marker that is found has its timestamp assigned like a row. -/
def runPut (s : State n K) (t : Fin n) (k : K) : Option (State n K) :=
  (s.leaf (s.leafOf k)).map fun m =>
    let ts := putTimestamp (s.ts t) m (s.row k)
    s.assignTimestamp t k ts (some ts)

def runRemove (s : State n K) (t : Fin n) (k : K) : Option (State n K) :=
  (s.leaf (s.leafOf k)).bind fun m => (s.row k).map fun old =>
    let (ts, m) := applyRemove (s.ts t) old m
    { s.assignTimestamp t k ts none with leaf := Function.update s.leaf (s.leafOf k) (some m) }

/-- Entries and suffixes of a leaf change. When `assign_ksuf` gives up the internal suffix bag, its
header stays where it is. -/
def change (s : State n K) (l : Nat) (body : LeafBody) : Option (State n K) :=
  (s.leaf l).bind fun m =>
    if body.extrasize64 = m.body.extrasize64 ∨
        0 ≤ m.body.extrasize64 ∧ body.extrasize64 = -m.body.extrasize64 - 1 then
      some { s with leaf := Function.update s.leaf l (some ⟨body, m.phantomEpoch⟩) }
    else none

end State

inductive Label (nthreads : Nat) (Key : Type) where
  | put (t : Fin nthreads) (k : Key)
  | replace (t : Fin nthreads) (k : Key)
  | remove (t : Fin nthreads) (k : Key)
  | makeLeaf (l ksufsize : Nat) (spare : Kvtimestamp)
  | change (l : Nat) (body : LeafBody)
  | pass (k : Key) (l : Nat)

def step (s : State n K) : Label n K → Option (State n K)
  | .put t k | .replace t k => s.runPut t k
  | .remove t k => s.runRemove t k
  -- `spare` is what the memory holds that the leaf gets
  | .makeLeaf l ksufsize spare =>
      if s.leaf l = none then
        some { s with leaf := Function.update s.leaf l (some ⟨.make ksufsize, spare⟩) }
      else none
  | .change l body => s.change l body
  | .pass k l =>
      if (s.leaf l).isSome then some { s with leafOf := Function.update s.leafOf k l } else none

/-- Threads start with `ts_ = 2`; a recovered table has rows. -/
def machine (n : Nat) (K : Type) [DecidableEq K] : Machine (State n K) (Label n K) where
  initial s := s.ts = (fun _ => 2) ∧ s.leaf = (fun _ => none) ∧ s.assigned = fun _ => []
  step := step

end Incll.Model.Timestamps
