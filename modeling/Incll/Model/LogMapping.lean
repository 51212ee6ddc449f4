import Incll.Model.Logreplay

/-! # The reads of log decoding (`log.cc`)

The decoders again, with positions in the mapping of a file for the pointers. A field that is not inside
the mapping is a fault, and so are a failed assertion and a loop that does not end. -/

namespace Incll.Model.LogMapping

inductive Fault where
  | outside | assertion | spins
  deriving DecidableEq

/-- The field of `width` bytes at a position. -/
def read (file : List UInt8) (pos width : Nat) : Except Fault Nat :=
  if pos + width ≤ file.length then .ok (ofLittleEndian ((file.drop pos).take width))
  else .error .outside

/-- What a `Str` designates. -/
structure Slice where
  first : Nat
  len : Nat
  deriving DecidableEq

def Slice.bytes (file : List UInt8) (s : Slice) : List UInt8 := (file.drop s.first).take s.len

/-- `logrecord`, whose `key` and `val` point into the mapping. -/
structure Logrecord where
  command : Nat
  key : Slice
  val : Slice
  ts : Kvtimestamp
  prevTs : Kvtimestamp
  epoch : BitVec 64
  deriving DecidableEq

namespace Logrecord

def make : Logrecord := ⟨Logcmd.none, ⟨0, 0⟩, ⟨0, 0⟩, 0, 0, 0⟩

/-- The record with the bytes of its slices. -/
def view (file : List UInt8) (lr : Logrecord) : Model.Logrecord :=
  ⟨lr.command, lr.key.bytes file, lr.val.bytes file, lr.ts, lr.prevTs, lr.epoch⟩

end Logrecord

section
variable (file : List UInt8)

def fail (lr : Logrecord) : Logrecord × Nat := ({ lr with command := Logcmd.none }, file.length)

/-- The branch of `logrec_kv`. -/
def extractKv (lr : Logrecord) (pos size : Nat) : Except Fault (Logrecord × Nat) :=
  if size < Record.sizeofKv then pure (fail file lr)
  else do
    let keylen ← read file (pos + 16) 4
    if maxKeyLen < keylen ∨ size < Record.sizeofKv + keylen then pure (fail file lr)
    else do
      let ts ← read file (pos + 8) 8
      pure ({ lr with
        ts := BitVec.ofNat 64 ts
        key := ⟨pos + 20, keylen⟩
        val := ⟨pos + 20 + keylen, size - Record.sizeofKv - keylen⟩ }, pos + size)

/-- The branch of `logrec_kvdelta`, which reads `keylen_` first. -/
def extractKvdelta (lr : Logrecord) (pos size : Nat) : Except Fault (Logrecord × Nat) := do
  let keylen ← read file (pos + 24) 4
  if maxKeyLen < keylen ∨ size < Record.sizeofKvdelta + keylen then pure (fail file lr)
  else do
    let ts ← read file (pos + 8) 8
    let prevTs ← read file (pos + 16) 8
    pure ({ lr with
      ts := BitVec.ofNat 64 ts
      prevTs := BitVec.ofNat 64 prevTs
      key := ⟨pos + 28, keylen⟩
      val := ⟨pos + 28 + keylen, size - Record.sizeofKvdelta - keylen⟩ }, pos + size)

/-- The branch of `logrec_epoch`. -/
def extractEpoch (lr : Logrecord) (pos size : Nat) : Except Fault (Logrecord × Nat) :=
  if size < Record.sizeofEpoch then pure (fail file lr)
  else do
    let epoch ← read file (pos + 8) 8
    pure ({ lr with epoch := BitVec.ofNat 64 epoch }, pos + size)

/-- `extract(buf, end)`: the record, and the pointer that is returned. -/
def extract (lr : Logrecord) (pos : Nat) : Except Fault (Logrecord × Nat) :=
  if file.length - pos < Record.sizeofBase then pure (fail file lr)
  else do
    let size ← read file (pos + 4) 4
    if size < Record.sizeofBase ∨ file.length - pos < size then pure (fail file lr)
    else do
      let command ← read file pos 4
      let lr := { lr with command := command }
      if command = Logcmd.none then pure (fail file lr)
      else if command = Logcmd.put ∨ command = Logcmd.replace ∨ command = Logcmd.remove then
        extractKv file lr pos size
      else if command = Logcmd.modify then extractKvdelta file lr pos size
      else if command = Logcmd.epoch then extractEpoch file lr pos size
      else pure (lr, pos + size)

def infoLoop : Nat → InfoType → Nat → Except Fault InfoType
  | 0, _, _ => .error .spins
  | fuel + 1, x, pos =>
      if pos + Record.sizeofBase ≤ file.length then do
        let size ← read file (pos + 4) 4
        if size < Record.sizeofBase ∨ file.length < pos + size then pure x
        else do
          let command ← read file pos 4
          let x := { x with quiescent := command = Logcmd.quiesce }
          if command = Logcmd.epoch then
            if size < Record.sizeofEpoch then pure x
            else do
              let epoch ← read file (pos + 8) 8
              infoLoop fuel (Logreplay.noteEpoch x epoch) (pos + size)
          else if command = Logcmd.wake then
            infoLoop fuel { x with wakeEpoch := x.lastEpoch } (pos + size)
          else if Logreplay.known command then infoLoop fuel x (pos + size)
          else pure x
      else pure x

def info : Except Fault InfoType := infoLoop file (file.length + 1) ⟨0, 0, 0, 0, true⟩ 0

def wakeLoop (quiescentEpoch : Nat) : Nat → Nat → Nat → Except Fault Nat
  | 0, _, _ => .error .spins
  | fuel + 1, e, pos =>
      if pos + Record.sizeofBase ≤ file.length then do
        let size ← read file (pos + 4) 4
        if size < Record.sizeofBase ∨ file.length < pos + size then pure 0
        else do
          let command ← read file pos 4
          if command = Logcmd.epoch then
            if size < Record.sizeofEpoch then pure 0
            else do
              let epoch ← read file (pos + 8) 8
              wakeLoop quiescentEpoch fuel epoch (pos + size)
          else if command = Logcmd.wake ∧ e ≠ 0 ∧ quiescentEpoch ≤ e then pure e
          else wakeLoop quiescentEpoch fuel e (pos + size)
      else pure 0

def minPostQuiescentWakeEpoch (quiescentEpoch : Nat) : Except Fault Nat :=
  wakeLoop file quiescentEpoch (file.length + 1) 0 0

/-- The variables of `replayandclean1`, with the records it has run. -/
structure Progress where
  pos : Nat
  repbegin : Option Nat
  repend : Option Nat
  run : List Logrecord

def beginAt (minEpoch : Nat) (p : Progress) (lr : Logrecord) : Option Nat :=
  if lr.command = Logcmd.epoch ∧
      ((minEpoch ≠ 0 ∧ lr.epoch.toNat < minEpoch) ∨ (minEpoch = 0 ∧ p.repbegin = none)) then
    some p.pos
  else p.repbegin

def isData (command : Nat) : Bool :=
  command = Logcmd.put ∨ command = Logcmd.replace ∨ command = Logcmd.modify ∨
    command = Logcmd.remove

def replayLoop (minEpoch maxEpoch : Nat) :
    Nat → Logrecord → Progress → Except Fault Progress
  | 0, _, _ => .error .spins
  | fuel + 1, lr, p =>
      if p.pos < file.length then do
        let (lr, nextpos) ← extract file lr p.pos
        if lr.command = Logcmd.none then pure p
        else
          let repbegin := beginAt minEpoch p lr
          if lr.command = Logcmd.epoch ∧ maxEpoch ≤ lr.epoch.toNat then
            if repbegin = none then .error .assertion
            else pure { p with repbegin := repbegin, repend := some nextpos }
          else if lr.epoch.toNat = 0 ∨ (minEpoch ≠ 0 ∧ lr.epoch.toNat < minEpoch) then
            replayLoop minEpoch maxEpoch fuel lr
              { p with
                pos := nextpos
                repbegin := repbegin
                repend := if repbegin = none then p.repend else some nextpos }
          else if repbegin = none then .error .assertion
          else
            replayLoop minEpoch maxEpoch fuel lr
              { pos := nextpos
                repbegin := repbegin
                repend := some nextpos
                run := if lr.key.len ≠ 0 ∧ isData lr.command then p.run ++ [lr] else p.run }
      else pure p

/-- The rewritten file and the records that were run. -/
def replayandclean1 (minEpoch maxEpoch : Nat) : Except Fault (List UInt8 × List Logrecord) := do
  let p ← replayLoop file minEpoch maxEpoch (file.length + 1) .make ⟨0, none, none, []⟩
  match p.repbegin with
  | none => pure ([], p.run)
  | some first => pure ((file.take (p.repend.getD p.pos)).drop first, p.run)

end

end Incll.Model.LogMapping
