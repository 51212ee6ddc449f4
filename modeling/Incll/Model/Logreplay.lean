import Incll.Model.Replay

/-! # Recovery from the logs (`logreplay`, `recover`)

A file is its bytes; a log without bytes has no `buf_`. Epochs are plain numbers. A failed assertion
is `none`. -/

namespace Incll.Model

/-- `logreplay::info_type`. -/
structure InfoType where
  firstEpoch : Nat
  lastEpoch : Nat
  wakeEpoch : Nat
  minPostQuiescentWakeEpoch : Nat
  quiescent : Bool
  deriving DecidableEq

namespace Logreplay

/-- What `info` does with a record. -/
def noteEpoch (x : InfoType) (e : Nat) : InfoType :=
  { x with
    firstEpoch := if x.firstEpoch = 0 then e else x.firstEpoch
    lastEpoch := e
    wakeEpoch := if x.wakeEpoch ≠ 0 ∧ e < x.wakeEpoch then 0 else x.wakeEpoch }

/-- The commands of data records and of the quiescence notification. -/
def known (command : Nat) : Bool :=
  command = Logcmd.put ∨ command = Logcmd.replace ∨ command = Logcmd.modify ∨
    command = Logcmd.remove ∨ command = Logcmd.quiesce

def infoLoop : Nat → InfoType → List UInt8 → InfoType
  | 0, x, _ => x
  | fuel + 1, x, buf =>
      let command := Logrecord.field buf 0 4
      let size := Logrecord.field buf 4 4
      if buf.length < Record.sizeofBase ∨ size < Record.sizeofBase ∨ buf.length < size then x
      else
        let x := { x with quiescent := command = Logcmd.quiesce }
        if command = Logcmd.epoch then
          if size < Record.sizeofEpoch then x
          else infoLoop fuel (noteEpoch x (Logrecord.field buf 8 8)) (buf.drop size)
        else if command = Logcmd.wake then
          infoLoop fuel { x with wakeEpoch := x.lastEpoch } (buf.drop size)
        else if known command then infoLoop fuel x (buf.drop size)
        else x

def info (buf : List UInt8) : InfoType := infoLoop buf.length ⟨0, 0, 0, 0, true⟩ buf

def wakeLoop (quiescentEpoch : Nat) : Nat → Nat → List UInt8 → Nat
  | 0, _, _ => 0
  | fuel + 1, e, buf =>
      let command := Logrecord.field buf 0 4
      let size := Logrecord.field buf 4 4
      if buf.length < Record.sizeofBase ∨ size < Record.sizeofBase ∨ buf.length < size then 0
      else if command = Logcmd.epoch then
        if size < Record.sizeofEpoch then 0
        else wakeLoop quiescentEpoch fuel (Logrecord.field buf 8 8) (buf.drop size)
      else if command = Logcmd.wake ∧ e ≠ 0 ∧ quiescentEpoch ≤ e then e
      else wakeLoop quiescentEpoch fuel e (buf.drop size)

def minPostQuiescentWakeEpoch (quiescentEpoch : Nat) (buf : List UInt8) : Nat :=
  wakeLoop quiescentEpoch buf.length 0 buf

/-- The variables of `replayandclean1`, with the records it has run. -/
structure Progress where
  pos : Nat
  repbegin : Option Nat
  repend : Option Nat
  run : List Logrecord

/-- `repbegin` behind an epoch record. -/
def beginAt (minEpoch : Nat) (p : Progress) (lr : Logrecord) : Option Nat :=
  if lr.command = Logcmd.epoch ∧
      ((minEpoch ≠ 0 ∧ lr.epoch.toNat < minEpoch) ∨ (minEpoch = 0 ∧ p.repbegin = none)) then
    some p.pos
  else p.repbegin

def isData (lr : Logrecord) : Bool :=
  lr.command = Logcmd.put ∨ lr.command = Logcmd.replace ∨ lr.command = Logcmd.modify ∨
    lr.command = Logcmd.remove

def replayLoop (minEpoch maxEpoch : Nat) :
    Nat → Logrecord → List UInt8 → Progress → Option Progress
  | 0, _, _, p => some p
  | fuel + 1, lr, buf, p =>
      if buf = [] then some p
      else
        let x := lr.extract buf
        let lr := x.1
        let nextpos := p.pos + (buf.length - x.2.length)
        if lr.command = Logcmd.none then some p
        else
          let repbegin := beginAt minEpoch p lr
          if lr.command = Logcmd.epoch ∧ maxEpoch ≤ lr.epoch.toNat then
            if repbegin = none then none
            else some { p with repbegin := repbegin, repend := some nextpos }
          else if lr.epoch.toNat = 0 ∨ (minEpoch ≠ 0 ∧ lr.epoch.toNat < minEpoch) then
            replayLoop minEpoch maxEpoch fuel lr x.2
              { p with
                pos := nextpos
                repbegin := repbegin
                repend := if repbegin = none then p.repend else some nextpos }
          else if repbegin = none then none
          else
            replayLoop minEpoch maxEpoch fuel lr x.2
              { pos := nextpos
                repbegin := repbegin
                repend := some nextpos
                run := if lr.key ≠ [] ∧ isData lr then p.run ++ [lr] else p.run }

/-- The rewritten file and the records that were run. -/
def replayandclean1 (minEpoch maxEpoch : Nat) (buf : List UInt8) :
    Option (List UInt8 × List Logrecord) :=
  (replayLoop minEpoch maxEpoch buf.length .make buf ⟨0, none, none, []⟩).map fun p =>
    match p.repbegin with
    | none => ([], p.run)
    | some first => ((buf.take (p.repend.getD p.pos)).drop first, p.run)

end Logreplay

namespace Recover

/-- What the server finds: the epochs of the checkpoint (0 without one), the logs, and what the memory
of `rec_log_infos` held in place of the flags that `info` does not set. -/
structure Found (nlogger : Nat) where
  ckpMinEpoch : Nat
  ckpMaxEpoch : Nat
  log : Fin nlogger → List UInt8
  stale : Fin nlogger → Bool

variable {n : Nat} (f : Found n)

/-- `rec_log_infos` after the first phase. -/
def info (i : Fin n) : InfoType :=
  if f.log i = [] then ⟨0, 0, 0, 0, f.stale i⟩ else Logreplay.info (f.log i)

def infos : List InfoType := List.ofFn (info f)

/-- The largest value that is not 0; 0 stands for none. -/
def largest (start : Nat) (xs : List Nat) : Nat :=
  xs.foldl (fun m x => if x ≠ 0 ∧ (m = 0 ∨ m < x) then x else m) start

def maxEpoch : Nat :=
  largest (if f.ckpMaxEpoch ≠ 0 then f.ckpMaxEpoch + 1 else 0) ((infos f).map (·.lastEpoch))

def maxFirstEpoch : Nat := largest 0 ((infos f).map (·.firstEpoch))

def maxWakeEpoch : Nat := largest 0 ((infos f).map (·.wakeEpoch))

def minQuiescentLastEpoch : Nat :=
  (infos f).foldl (fun m x => if x.quiescent ∧ (m = 0 ∨ x.lastEpoch < m) then x.lastEpoch else m) 0

/-- `rec_replay_min_quiescent_last_epoch`. -/
def replayMinQuiescentLastEpoch : Nat :=
  if maxWakeEpoch f ≠ 0 ∧ minQuiescentLastEpoch f ≤ maxWakeEpoch f then minQuiescentLastEpoch f else 0

/-- `rec_log_infos` after the phase `REC_LOG_ANALYZE_WAKE`. -/
def analyzed (i : Fin n) : InfoType :=
  let q := replayMinQuiescentLastEpoch f
  if f.log i ≠ [] ∧ q ≠ 0 ∧ q ≤ (info f i).wakeEpoch then
    { info f i with
      minPostQuiescentWakeEpoch := Logreplay.minPostQuiescentWakeEpoch q (f.log i) }
  else info f i

/-- `rec_replay_max_epoch` against one log. -/
def lower (m : Nat) (x : InfoType) : Nat :=
  let m := if x.quiescent = false ∧ x.lastEpoch ≠ 0 ∧ x.lastEpoch < m then x.lastEpoch else m
  if x.minPostQuiescentWakeEpoch ≠ 0 ∧ x.minPostQuiescentWakeEpoch < m then
    x.minPostQuiescentWakeEpoch
  else m

/-- `rec_replay_max_epoch`. -/
def replayMaxEpoch : Nat := (List.ofFn (analyzed f)).foldl lower (maxEpoch f)

/-- The checks of `recover`. -/
def checks : Bool :=
  f.ckpMinEpoch = 0 ∨ (maxFirstEpoch f < f.ckpMinEpoch ∧ f.ckpMinEpoch < replayMaxEpoch f ∧
    f.ckpMaxEpoch < replayMaxEpoch f)

/-- One log in the phase `REC_LOG_REPLAY`. -/
def replayed (i : Fin n) : Option (List UInt8 × List Logrecord) :=
  Logreplay.replayandclean1 f.ckpMinEpoch (replayMaxEpoch f) (f.log i)

/-- The state after `recover`. -/
structure Recovered (nlogger : Nat) where
  globalLogEpoch : Nat
  log : Fin nlogger → List UInt8
  run : Fin nlogger → List Logrecord

def recover : Option (Recovered n) :=
  if h : checks f = true ∧ ∀ i, (replayed f i).isSome then
    some
      { globalLogEpoch := replayMaxEpoch f + 1
        log := fun i => ((replayed f i).get (h.2 i)).1
        run := fun i => ((replayed f i).get (h.2 i)).2 }
  else none

/-- The loggers replay their logs at the same time, each record under the lock of its leaf: the
values of the keys before and after. -/
inductive Rebuilds {Row Change : Type} (rowType : RowType Row Change) :
    (Fin n → List Logrecord) → (List UInt8 → Value Row) → (List UInt8 → Value Row) → Prop
  | done {run table} : (∀ i, run i = []) → Rebuilds rowType run table table
  | next {run table table'} (i : Fin n) (lr : Logrecord) (rest : List Logrecord) :
      run i = lr :: rest → Rebuilds rowType (Function.update run i rest) (lr.run rowType table) table' →
      Rebuilds rowType run table table'

end Recover

end Incll.Model
