import Incll.Lib.Machine
import Incll.Model.Kvthread

/-! # Thread records (`kvthread.cc`, `kvthread_pallocator.hh`)

`threadinfo::make` of the build with `PALLOCATOR`. Its constructor allocates a `limbo_group`, so it
takes a superpage of the data region. `mtd` makes the record of the main thread first and then those
of loggers, checkpointers and workers, each kind with the indices from 0 on. -/

namespace Incll.Model.Allthreads
open Incll.Lib

inductive Purpose where
  | main | process | log | checkpoint
  deriving DecidableEq

def dataRegionAddr : Nat := 2 ^ 45

def skipToTi : Nat := 64

def tiSize : Nat := 8192

def skipToData : Nat := 2 * 2 ^ 20

def allocateTi (pindex : Nat) : Nat := dataRegionAddr + skipToTi + pindex * tiSize

structure Threadinfo where
  purpose : Purpose
  index : Int
  gcEpoch : Nat
  next : Option Nat
  deriving DecidableEq

/-- `ti` gives the records by their addresses. -/
structure Memory where
  mapped : Bool
  nvmFreeAddr : Nat
  ti : Nat → Option Threadinfo
  allthreads : Option Nat

/-- The records behind a write of the bytes from `low` up to `high`. -/
def overwrite (low high : Nat) (ti : Nat → Option Threadinfo) : Nat → Option Threadinfo := fun a =>
  if low < a + tiSize ∧ a < high then none else ti a

/-- `threadinfo::make`. The region is mapped once: a second `init` fails an assertion. -/
def make (superpageSize : Nat) (purpose : Purpose) (index : Int) (m : Memory) :
    Option (Nat × Memory) :=
  let pindex := (index + 1).toNat
  if m.mapped = decide (pindex = 0) then none
  else
    let a := allocateTi pindex
    let ti := Function.update (overwrite a (a + tiSize) m.ti) a (some ⟨purpose, index, 0, none⟩)
    let ti := overwrite m.nvmFreeAddr (m.nvmFreeAddr + superpageSize) ti
    some (a,
      { mapped := true
        nvmFreeAddr := m.nvmFreeAddr + superpageSize
        ti := Function.update ti a ((ti a).map ({ · with next := m.allthreads }))
        allthreads := some a })

/-- The loop of `min_active_epoch`; `none` if it has not come to an end, or has left the records. -/
def scan (ti : Nat → Option Threadinfo) : Nat → Option Nat → Nat → Option Nat
  | _, none, ae => some ae
  | 0, some _, _ => none
  | fuel + 1, some a, ae => (ti a).bind fun r => scan ti fuel r.next (Kvthread.minActiveEpoch ae r.gcEpoch)

/-- A thread: its record, what it was made for, and the epoch that it has last set. -/
structure Thread where
  addr : Nat
  purpose : Purpose
  index : Int
  epoch : Nat
  deriving DecidableEq

/-- `threads` lists the last one first. -/
structure State where
  memory : Memory
  threads : List Thread

inductive Label where
  | make (purpose : Purpose) (index : Int)
  /-- A thread sets its `gc_epoch_`. -/
  | setGcEpoch (k : Nat) (epoch : Nat)

/-- The calls of the server: the main thread comes first, and an index comes after all smaller
ones. -/
def performed (threads : List Thread) (purpose : Purpose) (index : Int) : Bool :=
  if threads = [] then purpose = .main ∧ index = -1
  else purpose ≠ .main ∧ 0 ≤ index ∧ index < threads.length

def step (superpageSize : Nat) (s : State) : Label → Option State
  | .make purpose index =>
      if performed s.threads purpose index then
        (make superpageSize purpose index s.memory).map fun (a, m) =>
          ⟨m, ⟨a, purpose, index, 0⟩ :: s.threads⟩
      else none
  | .setGcEpoch k epoch =>
      s.threads[k]?.map fun t =>
        ⟨{ s.memory with
            ti := Function.update s.memory.ti t.addr
              ((s.memory.ti t.addr).map ({ · with gcEpoch := epoch })) },
          s.threads.set k { t with epoch := epoch }⟩

/-- A server whose data region is new or has been used before. -/
def machine (superpageSize : Nat) : Machine State Label where
  initial s := ∃ nvm, dataRegionAddr + skipToData ≤ nvm ∧ s = ⟨⟨false, nvm, fun _ => none, none⟩, []⟩
  step := step superpageSize

end Incll.Model.Allthreads
