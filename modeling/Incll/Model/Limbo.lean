import Incll.Lib.Machine
import Mathlib.Data.BitVec
import Mathlib.Logic.Function.Basic

/-! # Limbo lists (`kvthread.hh`, `kvthread.cc`)

The limbo list of one thread with its groups and their links, as `record_rcu` and `hard_rcu_quiesce`
change it. A group is a number below `allocated`. A failed assertion and a null pointer are `none`. -/

namespace Incll.Model.Limbo
open Incll.Lib

abbrev Epoch := BitVec 64

/-- `limbo_element`: a null pointer with an epoch, or a pointer with its tag. -/
inductive Element where
  | marker (epoch : Epoch)
  | object (ptr : Nat) (tag : Int)
  deriving DecidableEq

/-- `u_.epoch`. -/
def Element.epoch : Element → Epoch
  | .marker epoch => epoch
  | .object _ tag => BitVec.ofInt 64 tag

/-- The tag of a callback. -/
def callbackTag : Int := -1

/-- `mrcu_signed_epoch_type(bound - epoch) < 0`. -/
def before (bound epoch : Epoch) : Bool := (bound - epoch).toInt < 0

structure LimboGroup where
  head : Nat
  tail : Nat
  epoch : Epoch
  e : Nat → Element

namespace LimboGroup

def capacity : Nat := (4076 - 8 - 8) / 16

def make : LimboGroup := ⟨0, 0, 0, fun _ => .marker 0⟩

def empty (g : LimboGroup) : Bool := g.head = g.tail

/-- `e_[tail_] = x; ++tail_`. -/
def add (g : LimboGroup) (x : Element) : LimboGroup :=
  { g with tail := g.tail + 1, e := Function.update g.e g.tail x }

def pushBack (g : LimboGroup) (ptr : Nat) (tag : Int) (epoch : Epoch) : LimboGroup :=
  if g.empty ∨ g.epoch ≠ epoch then
    { g.add (.marker epoch) with epoch := epoch }.add (.object ptr tag)
  else g.add (.object ptr tag)

end LimboGroup

/-- The variables of a call of `hard_rcu_quiesce`. -/
structure Pass where
  bound : Epoch
  count : Nat
  emptyHead : Option Nat
  emptyTail : Option Nat

/-- The loop of `clean_until`, with its `epoch`; in `freeing` the first element is passed to
`free_rcu`. -/
inductive Pc where
  | idle
  | clean (p : Pass) (epoch : Epoch)
  | freeing (p : Pass) (epoch : Epoch)

/-- A call of `record_rcu`, and the epoch that it has read. -/
structure Recorded where
  ptr : Nat
  tag : Int
  epoch : Epoch
  deriving DecidableEq

/-- A call of `free_rcu`, and the bound of the pass. -/
structure Freed where
  ptr : Nat
  tag : Int
  bound : Epoch
  deriving DecidableEq

/-- The calls so far are `recorded` and `freed`. -/
structure State where
  group : Nat → LimboGroup
  next : Nat → Option Nat
  allocated : Nat
  limboHead : Nat
  limboTail : Nat
  performGcEpoch : Epoch
  pc : Pc
  recorded : List Recorded
  freed : List Freed

namespace State

def rcuFreeCount : Nat := 128

def setGroup (s : State) (i : Nat) (g : LimboGroup) : State :=
  { s with group := Function.update s.group i g }

def setNext (s : State) (i : Nat) (j : Option Nat) : State :=
  { s with next := Function.update s.next i j }

def refillRcu (s : State) : Option State :=
  let s := match s.next s.limboTail with
    | some _ => s
    | none =>
        { ((s.setGroup s.allocated .make).setNext s.allocated none).setNext s.limboTail
            (some s.allocated) with
          allocated := s.allocated + 1 }
  (s.next s.limboTail).bind fun i =>
    if (s.group i).head = 0 ∧ (s.group i).tail = 0 then some { s with limboTail := i } else none

def recordRcu (s : State) (ptr : Nat) (tag : Int) (globalepoch : Epoch) : Option State :=
  let room := if LimboGroup.capacity < (s.group s.limboTail).tail + 2 then s.refillRcu else some s
  room.bind fun s =>
    let g := s.group s.limboTail
    if g.tail + 2 ≤ LimboGroup.capacity then
      some { s.setGroup s.limboTail (g.pushBack ptr tag globalepoch) with
        recorded := s.recorded ++ [⟨ptr, tag, globalepoch⟩] }
    else none

/-- The end of `hard_rcu_quiesce`. -/
def done (s : State) (bound : Epoch) (count : Nat) : State :=
  { s with performGcEpoch := if count = 0 then bound else bound + 1, pc := .idle }

/-- Hook the empty groups after `limbo_tail_`. -/
def hook (s : State) (p : Pass) : Option State :=
  match p.emptyHead with
  | none => some s
  | some first => p.emptyTail.map fun last =>
      (s.setNext last (s.next s.limboTail)).setNext s.limboTail (some first)

/-- `clean_until` has returned and the first group is not empty. -/
def stop (s : State) (p : Pass) : Option State := (s.hook p).map (·.done p.bound p.count)

/-- `clean_until` has returned and the first group is empty. -/
def nextGroup (s : State) (p : Pass) : Option State :=
  let i := s.limboHead
  let first := p.emptyHead.getD i
  if i = s.limboTail then some ({ s with limboHead := first, limboTail := first }.done p.bound p.count)
  else (s.next i).map fun j =>
    { s with limboHead := j, pc := .clean { p with emptyHead := some first, emptyTail := some i } 0 }

/-- One turn of the loop of `clean_until`, up to `free_rcu`. -/
def clean (s : State) (p : Pass) (epoch : Epoch) : Option State :=
  let g := s.group s.limboHead
  if g.empty then (s.setGroup s.limboHead { g with head := 0, tail := 0 }).nextGroup p
  else
    match g.e g.head with
    | .object ptr tag =>
        some { s with pc := .freeing p epoch, freed := s.freed ++ [⟨ptr, tag, p.bound⟩] }
    | .marker e =>
        if before p.bound e then s.stop p
        else some { s.setGroup s.limboHead { g with head := g.head + 1 } with pc := .clean p e }

/-- The rest of the turn, after `free_rcu`. -/
def freedRcu (s : State) (p : Pass) (epoch : Epoch) : Option State :=
  let g := s.group s.limboHead
  let p := { p with count := p.count - 1 }
  if p.count = 0 then
    (s.setGroup s.limboHead { g with e := Function.update g.e g.head (.marker epoch) }).stop p
  else some { s.setGroup s.limboHead { g with head := g.head + 1 } with pc := .clean p epoch }

/-- `hard_rcu_quiesce` up to its loop. -/
def hardRcuQuiesce (s : State) (activeEpoch : Epoch) : State :=
  let bound := activeEpoch - 1
  let g := s.group s.limboHead
  if g.empty ∨ before bound (g.e g.head).epoch then s.done bound rcuFreeCount
  else { s with pc := .clean ⟨bound, rcuFreeCount, none, none⟩ 0 }

/-- The element that is passed to `free_rcu` is a callback. -/
def inCallback (s : State) : Bool :=
  match s.pc, s.freed.getLast? with
  | .freeing .., some x => x.tag = callbackTag
  | _, _ => false

def isIdle (s : State) : Bool :=
  match s.pc with
  | .idle => true
  | _ => false

end State

inductive Label where
  | recordRcu (ptr : Nat) (tag : Int) (globalepoch : Epoch)
  | hardRcuQuiesce (activeEpoch : Epoch)
  | turn

/-- What the thread may do: `record_rcu` is called between the passes and by callbacks. -/
def enabled (s : State) : Label → Bool
  | .recordRcu .. => s.isIdle || s.inCallback
  | .hardRcuQuiesce _ => s.isIdle
  | .turn => !s.isIdle

def execute (s : State) : Label → Option State
  | .recordRcu ptr tag globalepoch => s.recordRcu ptr tag globalepoch
  | .hardRcuQuiesce activeEpoch => some (s.hardRcuQuiesce activeEpoch)
  | .turn =>
      match s.pc with
      | .idle => some s
      | .clean p epoch => s.clean p epoch
      | .freeing p epoch => s.freedRcu p epoch

/-- `threadinfo::threadinfo`. -/
def init : State := ⟨fun _ => .make, fun _ => none, 1, 0, 0, 0, .idle, [], []⟩

def machine : Machine State Label where
  initial s := s = init
  step s l := if enabled s l then execute s l else none

end Incll.Model.Limbo
