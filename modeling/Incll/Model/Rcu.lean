import Incll.Lib.Machine
import Incll.Model.Kvthread

/-! # Read-copy-update (`kvthread.hh`, `kvthread.cc`, `mttest.cc`, `mtd.cc`)

Every access to `globalepoch`, `active_epoch` and to the `gc_epoch_` of a thread is a step of its own.
As in all callers, a thread opens a section with `rcu_start`, reads shared pointers in a section only,
and ends it with `rcu_stop`; a callback that `free_rcu` runs is in the section of its thread. One
epoch advance runs at a time: `mttest.cc` takes `global_epoch_lock`, and in `mtd.cc` the handler of
`SIGALRM` does it. Pages and size classes are left to `Pool`. -/

namespace Incll.Model.Rcu
open Incll.Lib
open Incll.Model.Kvthread (epochBefore epochLimit minActiveEpoch rcuFreeCount)

/-- `limbo_element`: a null pointer with the epoch of what follows, or an object. -/
inductive Element where
  | epoch (e : Nat)
  | object (o : Nat)
  deriving DecidableEq

/-- `limbo_group`, with the elements from `head_` on. -/
structure LimboGroup where
  tail : Nat
  epoch : Nat
  elements : List Element
  deriving DecidableEq

namespace LimboGroup

def capacity : Nat := (4076 - 8 - 8) / 16

def make : LimboGroup := ⟨0, 0, []⟩

/-- The epoch in the first element. -/
def firstEpoch (g : LimboGroup) : Nat :=
  match g.elements with
  | .epoch e :: _ => e
  | _ => 0

def pushBack (g : LimboGroup) (o epoch : Nat) : LimboGroup :=
  if g.elements = [] ∨ g.epoch ≠ epoch then
    ⟨g.tail + 2, epoch, g.elements ++ [.epoch epoch, .object o]⟩
  else { g with tail := g.tail + 1, elements := g.elements ++ [.object o] }

end LimboGroup

inductive Call where
  | rcuStart | rcuQuiesce | rcuStop
  deriving DecidableEq

/-- What a thread does next in a call. `clean` is the loop of `hard_rcu_quiesce` and `clean_until`,
with `epoch_bound`, `count` and `epoch`; in `freeRcu` the first element is being freed. -/
inductive Pc where
  | idle
  | compareEpoch (c : Call)
  | readEpoch (c : Call)
  | storeEpoch (c : Call) (e : Nat)
  | compareActive (c : Call)
  | readActive (c : Call)
  | clean (c : Call) (bound count epoch : Nat)
  | freeRcu (c : Call) (bound count epoch : Nat)
  | clearEpoch
  deriving DecidableEq

/-- The groups from `limbo_head_` on are `limbo` and, last, `limboTail`. The thread has read pointers
to the objects in `held` since it was last quiescent, it has taken those in `unlinked` out of the
structure and not passed them to `record_rcu`, and `recording` is the object for which `record_rcu`
has read the epoch. -/
structure Threadinfo where
  gcEpoch : Nat
  performGcEpoch : Nat
  limbo : List LimboGroup
  limboTail : LimboGroup
  pc : Pc
  inside : Bool
  held : List Nat
  unlinked : List Nat
  recording : Option (Nat × Nat)
  deriving DecidableEq

namespace Threadinfo

def make : Threadinfo := ⟨0, 0, [], .make, .idle, false, [], [], none⟩

def limboHead (ti : Threadinfo) : LimboGroup := ti.limbo.headD ti.limboTail

/-- The first group without its first elements. -/
def setHead (ti : Threadinfo) (elements : List Element) : Threadinfo :=
  match ti.limbo with
  | [] => { ti with limboTail.elements := elements }
  | g :: rest => { ti with limbo := { g with elements := elements } :: rest }

/-- The thread runs the caller's code, or a callback in `free_rcu`, and is not in `record_rcu`. -/
def running (ti : Threadinfo) : Bool :=
  ti.recording.isNone && match ti.pc with
    | .idle | .freeRcu .. => true
    | _ => false

/-- `record_rcu` after it has read the epoch. -/
def recordRcu (ti : Threadinfo) (o epoch : Nat) : Threadinfo :=
  if LimboGroup.capacity < ti.limboTail.tail + 2 then
    { ti with limbo := ti.limbo ++ [ti.limboTail], limboTail := LimboGroup.make.pushBack o epoch }
  else { ti with limboTail := ti.limboTail.pushBack o epoch }

/-- The end of a call. -/
def finished (ti : Threadinfo) (c : Call) : Threadinfo :=
  { ti with pc := if c = .rcuStop then .clearEpoch else .idle }

/-- The end of `hard_rcu_quiesce`. -/
def done (ti : Threadinfo) (c : Call) (bound count : Nat) : Threadinfo :=
  { ti with performGcEpoch := if count = 0 then bound else (bound + 1) % 2 ^ 64 }.finished c

end Threadinfo

variable {n : Nat}

/-- The life of an object. `readers` are the threads that were in a section when the object was
unlinked, and have not been quiescent since. -/
inductive Status (nthreads : Nat) where
  | fresh
  | linked
  | unlinked (readers : List (Fin nthreads))
  | freed (readers : List (Fin nthreads))
  deriving DecidableEq

/-- The thread is quiescent. -/
def Status.release (t : Fin n) : Status n → Status n
  | .unlinked readers => .unlinked (readers.filter (· ≠ t))
  | .freed readers => .freed (readers.filter (· ≠ t))
  | status => status

def Status.free : Status n → Status n
  | .unlinked readers => .freed readers
  | status => status

/-- An epoch advance: `globalepoch` is to be stored, then read in `min_active_epoch`, and then the
loop of `min_active_epoch` has some threads left and `ae`. -/
inductive Advance (nthreads : Nat) where
  | raise (e : Nat)
  | readGlobal
  | scan (rest : List (Fin nthreads)) (ae : Nat)
  deriving DecidableEq

structure State (nthreads : Nat) where
  globalepoch : Nat
  activeEpoch : Nat
  advance : Option (Advance nthreads)
  allthreads : List (Fin nthreads)
  ti : Fin nthreads → Threadinfo
  status : Nat → Status nthreads

namespace State

def setTi (s : State n) (t : Fin n) (ti : Threadinfo) : State n :=
  { s with ti := Function.update s.ti t ti }

def release (s : State n) (t : Fin n) : State n := { s with status := fun o => (s.status o).release t }

def freeRcu (s : State n) (o : Nat) : State n :=
  { s with status := Function.update s.status o (s.status o).free }

/-- One turn of the loops in `hard_rcu_quiesce` and `clean_until`, up to `free_rcu`. -/
def clean (s : State n) (t : Fin n) (c : Call) (bound count epoch : Nat) : State n :=
  let ti := s.ti t
  match ti.limboHead.elements with
  | [] =>
      match ti.limbo with
      | [] => s.setTi t ({ ti with limboTail := .make }.done c bound count)
      | _ :: rest => s.setTi t { ti with limbo := rest, pc := .clean c bound count 0 }
  | .epoch e :: elements =>
      if epochBefore bound e then s.setTi t (ti.done c bound count)
      else s.setTi t { ti.setHead elements with pc := .clean c bound count e }
  | .object o :: _ => (s.setTi t { ti with pc := .freeRcu c bound count epoch }).freeRcu o

/-- The rest of the turn. -/
def freedRcu (s : State n) (t : Fin n) (c : Call) (bound count epoch : Nat) : State n :=
  let ti := s.ti t
  let elements := ti.limboHead.elements.tail
  if count = 1 then s.setTi t ((ti.setHead (.epoch epoch :: elements)).done c bound 0)
  else s.setTi t { ti.setHead elements with pc := .clean c bound (count - 1) epoch }

/-- The end of the `rcu_start` in a call. In `rcu_quiesce` the thread is quiescent here. -/
def started (s : State n) (t : Fin n) (ti : Threadinfo) (c : Call) : State n :=
  if c = .rcuQuiesce then
    (s.setTi t { ti with inside := true, held := [], pc := .compareActive c }).release t
  else s.setTi t { ti with inside := true, pc := .idle }

def stepThread (s : State n) (t : Fin n) : Option (State n) :=
  let ti := s.ti t
  match ti.pc with
  | .idle => none
  | .compareEpoch c =>
      if ti.gcEpoch ≠ s.globalepoch then some (s.setTi t { ti with pc := .readEpoch c })
      else some (s.started t ti c)
  | .readEpoch c => some (s.setTi t { ti with pc := .storeEpoch c s.globalepoch })
  | .storeEpoch c e => some (s.started t { ti with gcEpoch := e } c)
  | .compareActive c =>
      if ti.performGcEpoch ≠ s.activeEpoch then some (s.setTi t { ti with pc := .readActive c })
      else some (s.setTi t (ti.finished c))
  | .readActive c =>
      let bound := (s.activeEpoch + 2 ^ 64 - 1) % 2 ^ 64
      if ti.limboHead.elements = [] ∨ epochBefore bound ti.limboHead.firstEpoch then
        some (s.setTi t (ti.done c bound rcuFreeCount))
      else some (s.setTi t { ti with pc := .clean c bound rcuFreeCount 0 })
  | .clean c bound count epoch => some (s.clean t c bound count epoch)
  | .freeRcu c bound count epoch => some (s.freedRcu t c bound count epoch)
  | .clearEpoch =>
      some ((s.setTi t { ti with gcEpoch := 0, inside := false, held := [], pc := .idle }).release t)

def stepAdvance (s : State n) : Option (State n) :=
  s.advance.map fun
    | .raise e => { s with globalepoch := e, advance := some .readGlobal }
    | .readGlobal => { s with advance := some (.scan s.allthreads s.globalepoch) }
    | .scan (t :: rest) ae =>
        { s with advance := some (.scan rest (minActiveEpoch ae (s.ti t).gcEpoch)) }
    | .scan [] ae => { s with activeEpoch := ae, advance := none }

/-- `set_global_epoch` and `epochinc` have read `globalepoch`. -/
def raise (s : State n) (e : Nat) : State n :=
  let d := (e + 2 ^ 64 - s.globalepoch) % 2 ^ 64
  if 0 < d ∧ d < 2 ^ 63 then { s with advance := some (.raise e) } else s

end State

inductive Label (nthreads : Nat) where
  | make (t : Fin nthreads)
  | setGlobalEpoch (e : Nat)
  | epochinc
  | advance
  | call (t : Fin nthreads) (c : Call)
  | thread (t : Fin nthreads)
  | link (o : Nat)
  | read (t : Fin nthreads) (o : Nat)
  | unlink (t : Fin nthreads) (o : Nat)
  | recordRcu (t : Fin nthreads) (o : Nat)
  | pushBack (t : Fin nthreads)

/-- The first step of a call. -/
def entry : Call → Pc
  | .rcuStop => .compareActive .rcuStop
  | c => .compareEpoch c

def step (s : State n) : Label n → Option (State n)
  | .make t =>
      if t ∈ s.allthreads then none else some { s with allthreads := t :: s.allthreads }
  -- the epoch comes from the clock
  | .setGlobalEpoch e => if s.advance = none ∧ e < epochLimit then some (s.raise e) else none
  | .epochinc =>
      if s.advance = none ∧ s.globalepoch + 2 < epochLimit then some (s.raise (s.globalepoch + 2))
      else none
  | .advance => s.stepAdvance
  | .call t c =>
      if t ∈ s.allthreads ∧ (s.ti t).pc = .idle ∧ (s.ti t).running ∧
          (c = .rcuStart → (s.ti t).inside = false) then
        some (s.setTi t { s.ti t with pc := entry c })
      else none
  | .thread t => if (s.ti t).recording = none then s.stepThread t else none
  | .link o =>
      if s.status o = .fresh then some { s with status := Function.update s.status o .linked }
      else none
  | .read t o =>
      if (s.ti t).inside ∧ (s.ti t).running ∧ s.status o = .linked then
        some (s.setTi t { s.ti t with held := o :: (s.ti t).held })
      else none
  | .unlink t o =>
      if (s.ti t).inside ∧ (s.ti t).running ∧ s.status o = .linked then
        some { s.setTi t { s.ti t with unlinked := o :: (s.ti t).unlinked } with
          status := Function.update s.status o
            (.unlinked (s.allthreads.filter fun u => (s.ti u).inside)) }
      else none
  | .recordRcu t o =>
      if (s.ti t).running ∧ o ∈ (s.ti t).unlinked then
        some (s.setTi t { s.ti t with
          unlinked := (s.ti t).unlinked.erase o
          recording := some (o, s.globalepoch) })
      else none
  | .pushBack t => (s.ti t).recording.map fun (o, e) =>
      s.setTi t { (s.ti t).recordRcu o e with recording := none }

/-- The server or a test starts, with epoch 1 or an epoch from the clock. -/
def init (n e : Nat) : State n := ⟨e, e, none, [], fun _ => .make, fun _ => .fresh⟩

def machine (n : Nat) : Machine (State n) (Label n) where
  initial s := ∃ e, 0 < e ∧ e < epochLimit ∧ s = init n e
  step := step

end Incll.Model.Rcu
