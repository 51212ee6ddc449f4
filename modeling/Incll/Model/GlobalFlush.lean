import Mathlib.Algebra.Group.Nat.Defs
import Mathlib.Data.Fintype.Basic
import Mathlib.Logic.Function.Basic
import Incll.Lib.Machine

/-! # `incll_gf.hh` and `set_global_epoch`

Every atomic load and store, mutex operation and semaphore operation of `set_global_epoch`,
`GlobalFlush::flush`, `ack_flush` and `thread_done` is one step of the thread that executes it. -/

namespace Incll.Model.GlobalFlush
open Incll.Lib

/-- `mrcu_signed_epoch_type(e - globalepoch) > 0` on 64-bit epochs. -/
def epochLater (e globalepoch : Nat) : Bool :=
  let d := (e + 2^64 - globalepoch) % 2^64
  0 < d && d < 2^63

/-- Where a thread stands. Each constructor is the point before the statement it is named after. -/
inductive Pc where
  | idle
  -- set_global_epoch
  | lockEpoch (e : Nat) | compareEpoch (e : Nat) | raiseEpoch (e : Nat)
  | testInFlush | unlockEpoch (shouldFlush : Bool)
  -- flush
  | storeWarning | flushCheckDone | storeWaiting | waitAck (i : Nat) | globalFlush | clearWaiting
  | postRelease (i : Nat) | flushCheckpoint | clearWarning
  -- ack_flush
  | loadWarning | ackCheckDone | loadWaiting | postAck | waitRelease | ackCheckpoint
  -- thread_done
  | doneWarning | doneCount
  deriving DecidableEq

/-- What an idle thread does next. -/
inductive Call where
  | setGlobalEpoch (e : Nat)
  | ackFlush
  | threadDone
  deriving DecidableEq

structure State (nthreads : Nat) where
  epochLock : Option (Fin nthreads)
  globalepoch : Nat
  influshWarning : Bool
  waitingFlush : Bool
  doneThreads : Nat
  ackSem : Nat
  flushAckSem : Nat
  pc : Fin nthreads → Pc

variable {n : Nat}

def State.goto (s : State n) (t : Fin n) (pc : Pc) : State n :=
  { s with pc := Function.update s.pc t pc }

@[simp] theorem goto_pc (s : State n) (t : Fin n) (pc : Pc) :
    (s.goto t pc).pc = Function.update s.pc t pc := rfl

@[simp] theorem goto_influshWarning (s : State n) (t : Fin n) (pc : Pc) :
    (s.goto t pc).influshWarning = s.influshWarning := rfl

@[simp] theorem goto_waitingFlush (s : State n) (t : Fin n) (pc : Pc) :
    (s.goto t pc).waitingFlush = s.waitingFlush := rfl

@[simp] theorem goto_ackSem (s : State n) (t : Fin n) (pc : Pc) :
    (s.goto t pc).ackSem = s.ackSem := rfl

@[simp] theorem goto_flushAckSem (s : State n) (t : Fin n) (pc : Pc) :
    (s.goto t pc).flushAckSem = s.flushAckSem := rfl

@[simp] theorem goto_epochLock (s : State n) (t : Fin n) (pc : Pc) :
    (s.goto t pc).epochLock = s.epochLock := rfl

@[simp] theorem goto_globalepoch (s : State n) (t : Fin n) (pc : Pc) :
    (s.goto t pc).globalepoch = s.globalepoch := rfl

def checkDone (s : State n) : Bool := s.doneThreads == n

/-- The thread that moves, and the call it makes if it is idle. -/
structure Label (nthreads : Nat) where
  thread : Fin nthreads
  call : Call
  deriving DecidableEq

/-- Thread `t` alone: `k` steps of it, `call` being made whenever it is idle. -/
def burst (t : Fin n) (call : Call) (k : Nat) : List (Label n) := List.replicate k ⟨t, call⟩

def begin : Call → Pc
  | .setGlobalEpoch e => .lockEpoch e
  | .ackFlush => .loadWarning
  | .threadDone => .doneWarning

def stepThread (s : State n) (t : Fin n) (call : Call) : Pc → Option (State n)
  | .idle => some (s.goto t (begin call))
  | .lockEpoch e =>
      if s.epochLock = none then some { s.goto t (.compareEpoch e) with epochLock := some t }
      else none
  | .compareEpoch e =>
      some (s.goto t (if epochLater e s.globalepoch then .raiseEpoch e else .unlockEpoch false))
  | .raiseEpoch e => some { s.goto t .testInFlush with globalepoch := e }
  | .testInFlush => some (s.goto t (.unlockEpoch (!s.influshWarning)))
  | .unlockEpoch shouldFlush =>
      some { s.goto t (if shouldFlush then .storeWarning else .idle) with epochLock := none }
  | .storeWarning => some { s.goto t .flushCheckDone with influshWarning := true }
  | .flushCheckDone => some (s.goto t (if checkDone s then .idle else .storeWaiting))
  | .storeWaiting => some { s.goto t (.waitAck 0) with waitingFlush := true }
  | .waitAck i =>
      if i < n - 1 then
        if 0 < s.ackSem then some { s.goto t (.waitAck (i + 1)) with ackSem := s.ackSem - 1 }
        else none
      else some (s.goto t .globalFlush)
  | .globalFlush => some (s.goto t .clearWaiting)
  | .clearWaiting => some { s.goto t (.postRelease 0) with waitingFlush := false }
  | .postRelease i =>
      if i < n - 1 then
        some { s.goto t (.postRelease (i + 1)) with flushAckSem := s.flushAckSem + 1 }
      else some (s.goto t .flushCheckpoint)
  | .flushCheckpoint => some (s.goto t .clearWarning)
  | .clearWarning => some { s.goto t .idle with influshWarning := false }
  | .loadWarning => some (s.goto t (if s.influshWarning then .ackCheckDone else .idle))
  | .ackCheckDone => some (s.goto t (if checkDone s then .idle else .loadWaiting))
  | .loadWaiting => some (s.goto t (if s.waitingFlush then .postAck else .idle))
  | .postAck => some { s.goto t .waitRelease with ackSem := s.ackSem + 1 }
  | .waitRelease =>
      if 0 < s.flushAckSem then
        some { s.goto t .ackCheckpoint with flushAckSem := s.flushAckSem - 1 }
      else none
  | .ackCheckpoint => some (s.goto t .idle)
  | .doneWarning => some { s.goto t .doneCount with influshWarning := true }
  | .doneCount => some { s.goto t .idle with doneThreads := s.doneThreads + 1 }

/-- `GlobalFlush::init` with epoch `e`. -/
def init (n e : Nat) : State n where
  epochLock := none
  globalepoch := e
  influshWarning := false
  waitingFlush := false
  doneThreads := 0
  ackSem := 0
  flushAckSem := 0
  pc := fun _ => .idle

def machine (n : Nat) : Machine (State n) (Label n) where
  initial s := ∃ e, s = init n e
  step s l := stepThread s l.thread l.call (s.pc l.thread)

theorem reachable_init {allowed : State n → Label n → Prop} (e : Nat) :
    (machine n).Reachable allowed (init n e) := .initial ⟨e, rfl⟩

/-- The thread is between the store of `influshWarning` in `flush` and its clearing at the end. -/
def inFlush : Pc → Bool
  | .flushCheckDone | .storeWaiting | .waitAck _ | .globalFlush | .clearWaiting
  | .postRelease _ | .flushCheckpoint | .clearWarning => true
  | _ => false

/-- The thread has decided to flush, but has not yet stored `influshWarning`. -/
def willFlush : Pc → Bool
  | .unlockEpoch shouldFlush => shouldFlush
  | .storeWarning => true
  | _ => false

end Incll.Model.GlobalFlush
