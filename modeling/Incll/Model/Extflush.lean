import Incll.Model.PExtNodeLogger

/-! # Flushed cache lines (`incll_extflush.hh`) and the log in persistent memory

A crash keeps a byte if the byte was flushed after it was last written. -/

namespace Incll.Model

/-- The bytes flushed since they were last written. -/
abbrev Synced := Nat → Bool

namespace Synced

/-- A store to `[start, stop)`. -/
def write (start stop : Nat) (synced : Synced) : Synced :=
  fun b => synced b && !(decide (start ≤ b) && decide (b < stop))

def flush (p : Nat) (synced : Synced) : Synced :=
  fun b => synced b || b / 64 == p / 64

def flushAll (pp stop : Nat) (synced : Synced) : Synced :=
  if pp < stop then flushAll (pp + 64) stop (synced.flush pp) else synced
termination_by stop - pp

def syncRange (start stop : Nat) (synced : Synced) : Synced :=
  flushAll ((start ||| 63) + 1) stop (synced.flush start)

end Synced

/-- The log of one thread at its place in the log region. -/
structure PLog (W : Type) where
  tid : Nat
  log : PExtNodeLogger W
  synced : Synced

namespace PLog
variable {W : Type}

def logRegionAddr : Nat := 2 ^ 24

def addr (p : PLog W) : Nat := logRegionAddr + p.tid * PExtNodeLogger.pbufSize

/-- The address of `buf_`, behind `curr`, `last_flush`, `buf_size` and `root`. -/
def bufAddr (p : PLog W) : Nat := p.addr + 32

def init (tid : Nat) (buf : Nat → W) (synced : Synced) : PLog W :=
  let p : PLog W := ⟨tid, .init buf, synced⟩
  { p with synced := (synced.write p.addr (p.addr + 24)).syncRange p.addr (p.addr + 32) }

def checkpoint (root : Addr) (p : PLog W) : PLog W :=
  { p with
    log := p.log.checkpoint root
    synced := ((p.synced.write (p.addr + 24) (p.addr + 32)).write (p.addr + 8) (p.addr + 16)).syncRange
      (p.addr + 8) (p.addr + 32) }

variable [Word W]

/-- Where `record` puts an entry, and the size it gives it. -/
def place (log : PExtNodeLogger W) (e : LogEntry W) : Option (Nat × Nat) :=
  if log.wraps (PExtNodeLogger.getEntrySize e) then do
    let size ← log.load 0
    pure (0, Word.val size)
  else pure (log.curr, PExtNodeLogger.getEntrySize e)

def record (p : PLog W) (e : LogEntry W) : Option (PLog W) := do
  let (start, _) ← place p.log e
  let log ← p.log.record e
  let lr := p.bufAddr + start
  let content := lr + PExtNodeLogger.entryMetaSize
  let nodeSize := 8 * e.content.length
  let written := (p.synced.write lr content).write content (content + nodeSize)
  let imageSynced := written.syncRange content (content + nodeSize)
  let currWritten := imageSynced.write p.addr (p.addr + 8)
  return { p with log := log, synced := currWritten.syncRange p.addr (p.addr + 8) }

end PLog
end Incll.Model
