import Incll.Lib.Machine
import Incll.Model.LogRecord
import Mathlib.Logic.Function.Basic

/-! # Loggers (`log.cc`, `kvrow.hh`)

Epochs are plain numbers: they do not come near 2^63. The sections that hold the lock of a log are
single steps, except that a thread which has taken the lock and read `global_log_epoch` updates the
tree before it calls `record`. -/

namespace Incll.Model
open Incll.Lib

/-- `loginfo::query_times`. -/
structure QueryTimes where
  epoch : Nat
  ts : Kvtimestamp
  prevTs : Kvtimestamp
  deriving DecidableEq

/-- The arguments of `record`. -/
structure LogCall where
  command : Command
  qtimes : QueryTimes
  key : List UInt8
  value : List UInt8
  deriving DecidableEq

/-- `buf` is what `buf_` holds up to `pos_`. -/
structure Loginfo where
  buf : List Record
  logEpoch : Nat
  quiescentEpoch : Nat
  wakeEpoch : Nat
  flushedEpoch : Nat
  deriving DecidableEq

namespace Loginfo

def len : Nat := 20 * 1024 * 1024

def make : Loginfo := ⟨[], 0, 0, 0, 0⟩

def pos (l : Loginfo) : Nat := (l.buf.map Record.size).sum

def store (l : Loginfo) (r : Record) : Loginfo := { l with buf := l.buf ++ [r] }

/-- The space that `record` asks for. -/
def fits (l : Loginfo) (c : LogCall) : Bool :=
  l.pos + (Record.sizeofKvdelta + c.key.length + c.value.length + Record.sizeofEpoch +
    Record.sizeofBase) ≤ len

/-- The data record of a call. -/
def dataRecord (c : LogCall) : Record :=
  if c.command = .put ∧ c.qtimes.prevTs ≠ 0 ∧ c.qtimes.prevTs &&& 1 = 0 then
    .kvdelta c.qtimes.ts c.qtimes.prevTs c.key c.value
  else .kv c.command c.qtimes.ts c.key c.value

/-- `record` for a new epoch. -/
def recordEpoch (e : Nat) (l : Loginfo) : Loginfo :=
  if e ≠ l.logEpoch then { l.store (.epoch e) with logEpoch := e } else l

/-- `record` on a log that is quiescent: the log and `global_wake_epoch`. -/
def leaveQuiescence (e we : Nat) (l : Loginfo) : Loginfo × Nat :=
  if l.quiescentEpoch ≠ 0 then
    ({ l with
        flushedEpoch := if l.flushedEpoch = l.quiescentEpoch then e else l.flushedEpoch
        quiescentEpoch := 0 },
      max we e)
  else (l, we)

/-- `record` for a new wake epoch. -/
def recordWake (e we : Nat) (l : Loginfo) : Loginfo :=
  let we := if we ≠ l.wakeEpoch ∧ e < we then e else we
  if we ≠ l.wakeEpoch then { l.store .wake with wakeEpoch := we } else l

/-- The part of `record` that writes, with `we` for `global_wake_epoch`. -/
def write (l : Loginfo) (we : Nat) (c : LogCall) : Loginfo × Nat :=
  let (l, we) := (l.recordEpoch c.qtimes.epoch).leaveQuiescence c.qtimes.epoch we
  ((l.recordWake c.qtimes.epoch we).store (dataRecord c), we)

/-- `run` for a new wake epoch. -/
def noticeWake (we : Nat) (l : Loginfo) : Loginfo :=
  if l.wakeEpoch ≠ we then { l with wakeEpoch := we, quiescentEpoch := 0 } else l

/-- `run` up to the quiescence notification. -/
def quiesce (l : Loginfo) (ge we : Nat) (waiting : Bool) : Loginfo :=
  let l := l.noticeWake we
  if l.pos = 0 ∧ l.quiescentEpoch = 0 ∧ ge ≠ l.logEpoch ∧ ge ≠ we ∧ waiting = false then
    { l with
      quiescentEpoch := ge
      logEpoch := ge
      buf := [.epoch ge] ++ (if ge = l.wakeEpoch then [.wake] else []) ++ [.quiesce] }
  else l

end Loginfo

namespace Logger

/-- One log. `holder` is the epoch that the thread with the lock has read, `waiting` the list
`f_.waiting_` of the calls that have stalled, `inflight` the buffer that the logger writes, with
`x_epoch`, and `disk` the file. `made` lists all records, each with the epoch of the call that made
it. -/
structure Log where
  info : Loginfo
  holder : Option Nat
  waiting : List LogCall
  inflight : Option (List Record × Nat)
  disk : List Record
  made : List (Nat × Record)

structure State (nlogger : Nat) where
  globalLogEpoch : Nat
  globalWakeEpoch : Nat
  log : Fin nlogger → Log

inductive Label (nlogger : Nat) where
  /-- A thread takes the lock of a log and reads `global_log_epoch`. -/
  | acquire (i : Fin nlogger)
  /-- It calls `record`. -/
  | record (i : Fin nlogger) (command : Command) (ts prevTs : Kvtimestamp)
      (key value : List UInt8)
  /-- The first of the threads that have stalled tries again. -/
  | retry (i : Fin nlogger)
  /-- The logger swaps the buffers. -/
  | swap (i : Fin nlogger)
  /-- It has written and synced the buffer. -/
  | flush (i : Fin nlogger)
  /-- `check_epoch` of the first logger. -/
  | checkEpoch

variable {n : Nat}

namespace Log

/-- The log after a call has written, and `global_wake_epoch`. -/
def write (l : Log) (we : Nat) (c : LogCall) : Log × Nat :=
  let (info, we) := l.info.write we c
  ({ l with
      info := info
      made := l.made ++ (info.buf.drop l.info.buf.length).map (c.qtimes.epoch, ·) },
    we)

/-- `run` with the lock. -/
def swap (l : Log) (ge we : Nat) : Log :=
  let info := l.info.quiesce ge we (!l.waiting.isEmpty)
  let l := { l with made := l.made ++ (info.buf.drop l.info.buf.length).map (ge, ·) }
  if info.buf = [] then { l with info := info }
  else { l with
    info := { info with buf := [] }
    inflight := some (info.buf, info.logEpoch) }

end Log

namespace State

def setLog (s : State n) (i : Fin n) (l : Log) : State n :=
  { s with log := Function.update s.log i l }

def writeLog (s : State n) (i : Fin n) (l : Log) (c : LogCall) : State n :=
  let (l, we) := l.write s.globalWakeEpoch c
  { s.setLog i l with globalWakeEpoch := we }

end State

def stepRecord (s : State n) (i : Fin n) (c : LogCall) : State n :=
  let l := { s.log i with holder := none }
  if l.info.fits c then s.writeLog i l c
  else s.setLog i { l with waiting := l.waiting ++ [c] }

def step (s : State n) : Label n → Option (State n)
  | .acquire i =>
      if (s.log i).holder = none then
        some (s.setLog i { s.log i with holder := some s.globalLogEpoch })
      else none
  | .record i command ts prevTs key value =>
      (s.log i).holder.map fun epoch => stepRecord s i ⟨command, ⟨epoch, ts, prevTs⟩, key, value⟩
  | .retry i =>
      if (s.log i).holder = none then
        match (s.log i).waiting with
        | [] => none
        | c :: waiting =>
            if (s.log i).info.fits c then some (s.writeLog i { s.log i with waiting := waiting } c)
            else some s
      else none
  | .swap i =>
      if (s.log i).holder = none ∧ (s.log i).inflight = none then
        some (s.setLog i ((s.log i).swap s.globalLogEpoch s.globalWakeEpoch))
      else none
  | .flush i =>
      (s.log i).inflight.map fun (x, xEpoch) => s.setLog i { s.log i with
        inflight := none
        disk := (s.log i).disk ++ x
        info := { (s.log i).info with flushedEpoch := xEpoch } }
  | .checkEpoch =>
      if ∀ i : Fin n, i.val = 0 → (s.log i).inflight = none then
        some { s with globalLogEpoch := s.globalLogEpoch + 1 }
      else none

/-- The records of a file with the epochs they belong to. -/
def tagged : Nat → List Record → List (Nat × Record)
  | _, [] => []
  | cur, r :: rs => (r.epochAfter cur, r) :: tagged (r.epochAfter cur) rs

/-- A file that the server finds when it starts: it begins with an epoch, and the epochs do not
decrease. -/
structure WellFormed (epoch : Nat) (disk : List Record) : Prop where
  first : ∀ x ∈ tagged 0 disk, 0 < x.1
  sorted : (tagged 0 disk).Pairwise fun x y => x.1 ≤ y.1
  bound : ∀ x ∈ tagged 0 disk, x.1 ≤ epoch

def Log.start (disk : List Record) : Log where
  info := .make
  holder := none
  waiting := []
  inflight := none
  disk := disk
  made := tagged 0 disk

def machine (n : Nat) : Machine (State n) (Label n) where
  initial s := 0 < s.globalLogEpoch ∧
    ∀ i, ∃ disk, WellFormed s.globalLogEpoch disk ∧ s.log i = .start disk
  step := step

end Logger

end Incll.Model
