import Incll.Lib.Machine
import Mathlib.Data.BitVec

/-! # `PExtNodeLogger` (`incll_pextlog.hh`)

The buffer is a function from byte offsets to 8-byte words. Words are abstract: the logger reads
and writes numbers in its headers and copies all others. -/

namespace Incll.Model

abbrev Addr := Nat

class Word (W : Type) where
  num : Nat → W
  val : W → Nat
  val_num : ∀ n, n < 2 ^ 64 → val (num n) = n

attribute [simp] Word.val_num

instance : Word (BitVec 64) where
  num := BitVec.ofNat 64
  val := BitVec.toNat
  val_num n h := by rw [BitVec.toNat_ofNat, Nat.mod_eq_of_lt h]

structure PExtNodeLogger (W : Type) where
  curr : Nat
  lastFlush : Nat
  bufSize : Nat
  root : Addr
  buf : Nat → W

/-- A recorded node: its address and the words of its image. -/
structure LogEntry (W : Type) where
  nodeAddr : Addr
  content : List W
  deriving DecidableEq

namespace PExtNodeLogger
variable {W : Type}

def entryMetaSize : Nat := 24
def entryValidMagic : Nat := 18
def fullFlushRange : Nat := 32
def pbufSize : Nat := 2 ^ 28

def init (buf : Nat → W) : PExtNodeLogger W where
  curr := 0
  lastFlush := 0
  bufSize := pbufSize - fullFlushRange
  root := 0
  buf := buf

def checkpoint (root : Addr) (log : PExtNodeLogger W) : PExtNodeLogger W :=
  { log with root := root, lastFlush := log.curr }

/-- Accesses outside the buffer and misaligned ones are not modelled. -/
def load (log : PExtNodeLogger W) (offset : Nat) : Option W :=
  if offset % 8 = 0 ∧ offset + 8 ≤ log.bufSize then some (log.buf offset) else none

def loadAll (log : PExtNodeLogger W) (offset : Nat) : Nat → Option (List W)
  | 0 => some []
  | n + 1 => do
      let w ← log.load offset
      let ws ← log.loadAll (offset + 8) n
      return w :: ws

def store (log : PExtNodeLogger W) (offset : Nat) (w : W) : Option (PExtNodeLogger W) :=
  if offset % 8 = 0 ∧ offset + 8 ≤ log.bufSize then
    some { log with buf := Function.update log.buf offset w }
  else none

def storeAll (log : PExtNodeLogger W) (offset : Nat) : List W → Option (PExtNodeLogger W)
  | [] => some log
  | w :: ws => do
      let log ← log.store offset w
      log.storeAll (offset + 8) ws

variable [Word W]

def getEntrySize (e : LogEntry W) : Nat := entryMetaSize + 8 * e.content.length

def wraps (log : PExtNodeLogger W) (size : Nat) : Bool := log.bufSize < (log.curr + size) % 2 ^ 64

/-- The three header words and the image of an entry of size `size`. -/
def entryWords (size : Nat) (e : LogEntry W) : List W :=
  Word.num size :: Word.num e.nodeAddr :: Word.num entryValidMagic :: e.content

def record (log : PExtNodeLogger W) (e : LogEntry W) : Option (PExtNodeLogger W) := do
  let (curr, size) ←
    if log.wraps (getEntrySize e) then do
      let size ← log.load 0
      pure (0, Word.val size)
    else pure (log.curr, getEntrySize e)
  let log ← log.storeAll curr (entryWords size e)
  return { log with curr := (curr + size) % 2 ^ 64 }

/-- The test by which the reader goes back to the beginning of the buffer. -/
def endsAt (log : PExtNodeLogger W) (offset : Nat) : Option Bool := do
  let size ← log.load offset
  let validity ← log.load (offset + 16)
  return Word.val validity ≠ entryValidMagic ||
    decide (log.bufSize < (offset + Word.val size) % 2 ^ 64)

def entryAt (log : PExtNodeLogger W) (offset : Nat) : Option (Nat × LogEntry W) := do
  let size ← log.load offset
  if Word.val size < entryMetaSize ∨ Word.val size % 8 ≠ 0 then none else
    let addr ← log.load (offset + 8)
    let content ← log.loadAll (offset + entryMetaSize) ((Word.val size - entryMetaSize) / 8)
    return (Word.val size, ⟨Word.val addr, content⟩)

/-- A record that goes back to the beginning finds there an entry of its own size, leaves behind
a header at which the reader goes back too, and ends before `last_flush`; another one does not run
into `last_flush`. -/
def Benign (log : PExtNodeLogger W) (e : LogEntry W) : Bool :=
  if log.wraps (getEntrySize e) then
    (log.load 0).any (fun w => Word.val w == getEntrySize e) &&
      log.endsAt log.curr == some true && decide (log.lastFlush ≤ log.curr) &&
      decide (getEntrySize e < log.lastFlush)
  else decide (log.lastFlush ≤ log.curr) || decide (log.curr + getEntrySize e < log.lastFlush)

/-- The loop of `undo`; `visit` copies the image of the entry back and repairs the node. -/
def undo {S : Type} (visit : S → LogEntry W → Option S) :
    Nat → PExtNodeLogger W → S → Option (PExtNodeLogger W × S)
  | 0, log, s => if log.lastFlush = log.curr then some (log, s) else none
  | fuel + 1, log, s =>
      if log.lastFlush = log.curr then some (log, s) else do
        let back ← log.endsAt log.lastFlush
        let start := if back then 0 else log.lastFlush
        let (size, e) ← log.entryAt start
        let s ← visit s e
        undo visit fuel { log with lastFlush := (start + size) % 2 ^ 64 } s

/-- The loop of `undo_next_prev`; `visit` repairs the links of the node. The address is read before
the test that sends the reader back to the beginning of the buffer. -/
def undoNextPrev {S : Type} (visit : S → Addr → Option S) (log : PExtNodeLogger W) :
    Nat → Nat → S → Option S
  | 0, flush, s => if flush = log.curr then some s else none
  | fuel + 1, flush, s =>
      if flush = log.curr then some s else do
        let addr ← log.load (flush + 8)
        let back ← log.endsAt flush
        let start := if back then 0 else flush
        let size ← log.load start
        let s ← visit s (Word.val addr)
        undoNextPrev visit log fuel ((start + Word.val size) % 2 ^ 64) s

end PExtNodeLogger
end Incll.Model
