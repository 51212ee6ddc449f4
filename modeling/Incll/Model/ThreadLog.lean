import Incll.Model.GlobalFlush

/-! # The logs of the threads around a global flush (`incll_gf.hh`, `incll_pextlog.hh`) -/

namespace Incll.Model.GlobalFlush
open Incll.Lib

/-- The records of one thread; `last_flush` points behind the first `lastFlush` of them. -/
structure ThreadLog (R : Type) where
  records : List R
  lastFlush : Nat

namespace ThreadLog
variable {R : Type}

def record (log : ThreadLog R) (r : R) : ThreadLog R := { log with records := log.records ++ [r] }

def checkpoint (log : ThreadLog R) : ThreadLog R := { log with lastFlush := log.records.length }

/-- What `undo` would visit, and what `checkpoint` drops. -/
def since (log : ThreadLog R) : List R := log.records.drop log.lastFlush

end ThreadLog

/-- `begun` counts the rounds whose flusher has stored `waitingFlush` and `completed` those whose
`global_flush()` is over; `acked t` is the round that thread `t` acknowledged last. A record is
the value of `completed` at the time it was appended. -/
structure LogState (nthreads : Nat) where
  flush : State nthreads
  begun : Nat
  completed : Nat
  acked : Fin nthreads → Nat
  log : Fin nthreads → ThreadLog Nat

inductive LogLabel (nthreads : Nat) where
  | flush (l : Label nthreads)
  | record (t : Fin nthreads)

variable {n : Nat}

def LogState.checkpoint (s : LogState n) (t : Fin n) : LogState n :=
  { s with log := Function.update s.log t (s.log t).checkpoint }

/-- The bookkeeping of a step of thread `t` at `pc` that leads to `f`. -/
def LogState.follow (s : LogState n) (f : State n) (t : Fin n) : Pc → LogState n
  | .storeWaiting => { s with flush := f, begun := s.begun + 1 }
  | .globalFlush => { s with flush := f, completed := s.completed + 1 }
  | .postAck => { s with flush := f, acked := Function.update s.acked t s.begun }
  | .ackCheckpoint | .flushCheckpoint => { s with flush := f }.checkpoint t
  | _ => { s with flush := f }

@[simp] theorem follow_flush (s : LogState n) (f : State n) (t : Fin n) (pc : Pc) :
    (s.follow f t pc).flush = f := by
  cases pc <;> rfl

/-- A thread appends records only between its calls. -/
def logStep (s : LogState n) : LogLabel n → Option (LogState n)
  | .flush l => (stepThread s.flush l.thread l.call (s.flush.pc l.thread)).map
      (s.follow · l.thread (s.flush.pc l.thread))
  | .record t =>
      if s.flush.pc t = .idle then
        some { s with log := Function.update s.log t ((s.log t).record s.completed) }
      else none

def logInit (n e : Nat) : LogState n where
  flush := init n e
  begun := 0
  completed := 0
  acked := fun _ => 0
  log := fun _ => ⟨[], 0⟩

def logMachine (n : Nat) : Machine (LogState n) (LogLabel n) where
  initial s := ∃ e, s = logInit n e
  step := logStep

end Incll.Model.GlobalFlush
