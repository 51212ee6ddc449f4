import Mathlib.Data.BitVec
import Incll.Lib.Machine

/-! # Persistent pointer cells (`kvthread_persistent.hh`)

Stores of 64-bit words are atomic, so a crash in `write` can only fall between its two stores. -/

namespace Incll.Model
open Incll.Lib

structure PPP where
  next : BitVec 64
  nextLog : BitVec 64
  deriving DecidableEq

namespace PPP

def pointerMask : BitVec 64 := 0x0000FFFFFFFFFFF0#64

/-- `globalepoch`, `currexec` and `failedepoch`. -/
structure Epochs where
  globalepoch : BitVec 64
  currexec : BitVec 64
  failedepoch : BitVec 64

def epochIsValid (es : Epochs) (e : BitVec 64) : Bool := e != es.failedepoch

/-- The epoch as `read` and `write` put it together from the two words. -/
def epoch (c : PPP) : BitVec 64 := c.next >>> 48 ||| (c.nextLog >>> 32 &&& 0xFF00#64)

/-- The validity bits of the two words agree. -/
def whole (c : PPP) : Bool := c.next &&& 1#64 == c.nextLog &&& 1#64

def failed (es : Epochs) (c : PPP) : Bool := c.epoch < es.currexec && !epochIsValid es c.epoch

def read (es : Epochs) (c : PPP) : BitVec 64 :=
  if c.whole then
    if c.failed es then c.nextLog &&& pointerMask else c.next &&& pointerMask
  else c.nextLog &&& pointerMask

inductive Store where
  | next (w : BitVec 64)
  | nextLog (w : BitVec 64)

def store (c : PPP) : Store → PPP
  | .next w => { c with next := w }
  | .nextLog w => { c with nextLog := w }

def ehigh (es : Epochs) : BitVec 64 := es.globalepoch <<< 32 &&& 0xFFFF000000000000#64

def elow (es : Epochs) : BitVec 64 := es.globalepoch <<< 48

/-- The stores of `write`, in order. -/
def write (es : Epochs) (c : PPP) (val : BitVec 64) : List Store :=
  if !c.whole then
    [.nextLog (ehigh es ||| (c.nextLog &&& 0x0000FFFFFFFFFFFF#64)),
      .next (elow es ||| (val &&& pointerMask) ||| (c.nextLog &&& 1#64))]
  else if c.failed es then
    let valid := (c.nextLog &&& 1#64) ^^^ 1#64
    [.nextLog (ehigh es ||| (c.nextLog &&& pointerMask) ||| valid),
      .next (elow es ||| (val &&& pointerMask) ||| valid)]
  else if c.epoch = es.globalepoch then
    [.next ((c.next &&& 0xFFFF00000000000F#64) ||| (val &&& pointerMask))]
  else
    let valid := (c.nextLog &&& 1#64) ^^^ 1#64
    [.nextLog (ehigh es ||| (c.next &&& pointerMask) ||| valid),
      .next (elow es ||| (val &&& pointerMask) ||| valid)]

/-- The cell of a run; `value` is the pointer it stands for and `saved` the one it stood for when
the current epoch began. -/
structure Run where
  cell : PPP
  epochs : Epochs
  value : BitVec 64
  saved : BitVec 64
  restarted : Bool

/-- `tear v` is a crash between the two stores of `write v`. -/
inductive Label where
  | write (v : BitVec 64)
  | advance (e : BitVec 64)
  | crash
  | tear (v : BitVec 64)

/-- `init_exist` after a crash. -/
def Epochs.restart (es : Epochs) : Epochs where
  globalepoch := es.globalepoch + 1
  currexec := es.globalepoch + 1
  failedepoch := es.globalepoch

def Run.restart (s : Run) (cell : PPP) : Option Run :=
  if s.restarted then none
  else some ⟨cell, s.epochs.restart, s.saved, s.saved, true⟩

def aligned (v : BitVec 64) : Bool := v &&& pointerMask == v

def step (s : Run) : Label → Option Run
  | .write v =>
      if aligned v then
        some { s with cell := (write s.epochs s.cell v).foldl store s.cell, value := v }
      else none
  | .advance e =>
      if s.epochs.globalepoch < e ∧ e < BitVec.twoPow 64 32 then
        some { s with epochs := { s.epochs with globalepoch := e }, saved := s.value }
      else none
  | .crash => s.restart s.cell
  | .tear v =>
      if aligned v then
        match write s.epochs s.cell v with
        | [first, _] => s.restart (s.cell.store first)
        | _ => none
      else none

/-- A run starts in any execution with a cell of zeroes. -/
def machine : Machine Run Label where
  initial s := s.cell = ⟨0, 0⟩ ∧ s.epochs.globalepoch < BitVec.twoPow 64 32 ∧
    s.epochs.currexec ≤ s.epochs.globalepoch ∧ s.value = 0 ∧ s.saved = 0 ∧ s.restarted = false
  step := step

end PPP
end Incll.Model
