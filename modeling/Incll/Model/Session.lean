import Incll.Lib.Calls
import Incll.Model.Layers

/-! # A table in use (`masstree.hh`, `masstree_remove.hh`) -/

namespace Incll.Model.Layers
open Incll.Lib

/-- No node is allocated yet. -/
def Mem.blank : Mem where
  kind _ := none
  version _ := .make
  fresh := nodeSize
  root := 0
  callbacks := []

/-- `basic_table::initialize`. -/
def initializeTable : T Unit := do
  let root ← makeRoot (.make 0)
  modify fun m => { m with root := root }

inductive Call where
  | get (s : List UInt8)
  | put (s : List UInt8) (v : Leafvalue)
  | remove (s : List UInt8)
  | callback (i : Nat)

/-- `rcu` calls the callback `i` of those that are registered. -/
def callback (i : Nat) : T Unit := do
  match (← get).callbacks[i]? with
  | none => return
  | some cb =>
      modify fun m => { m with callbacks := m.callbacks.eraseIdx i }
      runCallback cb

def call : Call → T (Option Leafvalue)
  | .get s => findUnlocked s
  | .put s v => do
      put s v
      return none
  | .remove s => do
      remove s
      return none
  | .callback i => do
      callback i
      return none

/-- A new table, and calls to it. -/
def session (cs : List Call) : T (List (Option Leafvalue)) := do
  initializeTable
  calls call cs

end Incll.Model.Layers
