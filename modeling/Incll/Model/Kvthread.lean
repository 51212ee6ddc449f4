import Incll.Model.GlobalFlush
import Incll.Model.Leaf

/-! # Blocks of memory (`kvthread.hh`, `kvthread.cc`, `kvthread_pallocator.hh`)

`set_global_epoch` and the flushes run as in `GlobalFlush`; a thread that is in none of them
allocates, links and retires blocks. A thread takes a block out of the tree and hands it to
`record_rcu` in one operation, and no flush completes inside an operation, so the two are one step.
Of the tree only the blocks that can be reached are left. -/

namespace Incll.Model.Kvthread
open Incll.Lib

/-- `timestamp() >> GL_FREQ` is below this. -/
def epochLimit : Nat := 2 ^ 63

def poolMaxNlines : Nat := 70

def cacheLineSize : Nat := 64

def rcuFreeCount : Nat := 128

/-- `pool` holds the free lists of all classes, with the class of each block, and `limbo` the
retired blocks, with the epoch and the class. The blocks in `own` are allocated and not linked. -/
structure Threadinfo where
  gcEpoch : Nat
  performGcEpoch : Nat
  pool : List (Nat × Addr)
  limbo : List (Nat × Nat × Addr)
  own : List (Nat × Addr)

/-- `threadinfo::make` clears the record. -/
def Threadinfo.make : Threadinfo := ⟨0, 0, [], [], []⟩

/-- `mrcu_signed_epoch_type(a - b) < 0`. -/
def epochBefore (a b : Nat) : Bool := 2 ^ 63 ≤ (a + 2 ^ 64 - b) % 2 ^ 64

/-- `scan` is the loop of `min_active_epoch`: the threads that are left and `ae`. `flushedEpoch` and
`flushedFree` are `globalepoch` and `nvm_free_addr` at the last completed flush, or at the restart.
`reused` says that `pool_allocate` has returned a block that the checkpoint or the tree needs. -/
structure State (nthreads : Nat) where
  flush : GlobalFlush.State nthreads
  activeEpoch : Nat
  scan : Option (List (Fin nthreads) × Nat)
  nvmFreeAddr : Nat
  ti : Fin nthreads → Threadinfo
  tree : Addr → Option Nat
  checkpoint : Addr → Option Nat
  flushedEpoch : Nat
  flushedFree : Nat
  reused : Bool

inductive Act where
  | rcuStart | rcuStop | rcuQuiesce
  | allocate (nl : Nat)
  | deallocate (nl : Nat) (a : Addr)
  | link (nl : Nat) (a : Addr)
  | retire (a : Addr)

inductive Label (nthreads : Nat) where
  | flush (l : GlobalFlush.Label nthreads)
  | act (t : Fin nthreads) (a : Act)
  | crash (e nvm : Nat)

variable {n : Nat}

/-- One thread of the loop in `min_active_epoch`. -/
def minActiveEpoch (ae te : Nat) : Nat := if te ≠ 0 ∧ epochBefore te ae then te else ae

namespace Threadinfo

def rcuStart (globalepoch : Nat) (ti : Threadinfo) : Threadinfo := { ti with gcEpoch := globalepoch }

/-- The retired blocks that one call may free. -/
def ready (active : Nat) (ti : Threadinfo) : List (Nat × Nat × Addr) :=
  (ti.limbo.takeWhile fun x => !epochBefore ((active + 2 ^ 64 - 1) % 2 ^ 64) x.1).take rcuFreeCount

def hardRcuQuiesce (active : Nat) (ti : Threadinfo) : Threadinfo :=
  let bound := (active + 2 ^ 64 - 1) % 2 ^ 64
  let ready := ti.ready active
  { ti with
    limbo := ti.limbo.drop ready.length
    pool := (ready.map Prod.snd).reverse ++ ti.pool
    performGcEpoch := if ready.length = rcuFreeCount then bound else (bound + 1) % 2 ^ 64 }

def quiesce (active : Nat) (ti : Threadinfo) : Threadinfo :=
  if ti.performGcEpoch ≠ active then ti.hardRcuQuiesce active else ti

/-- `pool_[nl - 1]`. -/
def first (nl : Nat) (ti : Threadinfo) : Option (Nat × Addr) := ti.pool.find? (·.1 == nl)

end Threadinfo

/-- `initialize_pool`: a page at `base` in blocks of `nl` cache lines. -/
def initializePool (superpageSize base nl : Nat) : List (Nat × Addr) :=
  (List.range (superpageSize / (nl * cacheLineSize))).map fun i =>
    (nl, base + i * (nl * cacheLineSize))

namespace State

def setTi (s : State n) (t : Fin n) (ti : Threadinfo) : State n :=
  { s with ti := Function.update s.ti t ti }

/-- `refill_pool`, with a page that holds a block of the class. -/
def refillPool (superpageSize : Nat) (s : State n) (t : Fin n) (nl : Nat) : Option (State n) :=
  if nl * cacheLineSize ≤ superpageSize then
    some { s.setTi t { s.ti t with
        pool := initializePool superpageSize s.nvmFreeAddr nl ++ (s.ti t).pool } with
      nvmFreeAddr := s.nvmFreeAddr + superpageSize }
  else none

def popPool (s : State n) (t : Fin n) (b : Nat × Addr) : State n :=
  { s.setTi t { s.ti t with pool := (s.ti t).pool.erase b, own := b :: (s.ti t).own } with
    reused := s.reused || (s.checkpoint b.2).isSome || (s.tree b.2).isSome }

def poolAllocate (superpageSize : Nat) (s : State n) (t : Fin n) (nl : Nat) : Option (State n) :=
  if nl = 0 ∨ poolMaxNlines < nl then none
  else
    (if ((s.ti t).first nl).isNone then s.refillPool superpageSize t nl else some s).bind fun s =>
      ((s.ti t).first nl).map (s.popPool t)

/-- The effect of a step of `set_global_epoch` or `flush` that leads to `f`. -/
def follow (s : State n) (f : GlobalFlush.State n) : GlobalFlush.Pc → State n
  | .raiseEpoch e => { s with flush := f, scan := some (List.finRange n, e) }
  | .globalFlush => { s with
      flush := f
      checkpoint := s.tree
      flushedEpoch := s.flush.globalepoch
      flushedFree := s.nvmFreeAddr }
  | _ => { s with flush := f }

end State

def stepAct (superpageSize : Nat) (s : State n) (t : Fin n) : Act → Option (State n)
  | .rcuStart => some (s.setTi t ((s.ti t).rcuStart s.flush.globalepoch))
  | .rcuStop => some (s.setTi t { (s.ti t).quiesce s.activeEpoch with gcEpoch := 0 })
  | .rcuQuiesce =>
      some (s.setTi t (((s.ti t).rcuStart s.flush.globalepoch).quiesce s.activeEpoch))
  | .allocate nl => s.poolAllocate superpageSize t nl
  | .deallocate nl a =>
      if (nl, a) ∈ (s.ti t).own then
        some (s.setTi t { s.ti t with
          own := (s.ti t).own.erase (nl, a), pool := (nl, a) :: (s.ti t).pool })
      else none
  | .link nl a =>
      if (nl, a) ∈ (s.ti t).own then
        some { s.setTi t { s.ti t with own := (s.ti t).own.erase (nl, a) } with
          tree := Function.update s.tree a (some nl) }
      else none
  | .retire a => (s.tree a).map fun nl =>
      { s.setTi t { s.ti t with limbo := (s.ti t).limbo ++ [(s.flush.globalepoch, nl, a)] } with
        tree := Function.update s.tree a none }

/-- The epoch of a call comes from the clock. -/
def inLimit : GlobalFlush.Call → Bool
  | .setGlobalEpoch e => e < epochLimit
  | _ => true

/-- After a crash `nvm_free_addr` is what it was at some moment since the last flush. -/
def restart (s : State n) (e nvm : Nat) : State n where
  flush := GlobalFlush.init n e
  activeEpoch := e
  scan := none
  nvmFreeAddr := nvm
  ti := fun _ => .make
  tree := s.checkpoint
  checkpoint := s.checkpoint
  flushedEpoch := e
  flushedFree := s.flushedFree
  reused := s.reused

def step (superpageSize : Nat) (s : State n) : Label n → Option (State n)
  | .flush l =>
      if inLimit l.call then
        match s.flush.pc l.thread, s.scan with
        -- `set_global_epoch` has stored `globalepoch` and computes `active_epoch`
        | .testInFlush, some (u :: rest, ae) =>
            some { s with scan := some (rest, minActiveEpoch ae (s.ti u).gcEpoch) }
        | .testInFlush, some ([], ae) => some { s with activeEpoch := ae, scan := none }
        | pc, _ => (GlobalFlush.stepThread s.flush l.thread l.call pc).map (s.follow · pc)
      else none
  | .act t a => if s.flush.pc t = .idle then stepAct superpageSize s t a else none
  | .crash e nvm =>
      if e < epochLimit ∧ s.flushedFree ≤ nvm ∧ nvm ≤ s.nvmFreeAddr then some (restart s e nvm)
      else none

/-- A new region: no block is in use. -/
def init (n e nvm : Nat) : State n where
  flush := GlobalFlush.init n e
  activeEpoch := e
  scan := none
  nvmFreeAddr := nvm
  ti := fun _ => .make
  tree := fun _ => none
  checkpoint := fun _ => none
  flushedEpoch := e
  flushedFree := nvm
  reused := false

def machine (n superpageSize : Nat) : Machine (State n) (Label n) where
  initial s := ∃ e nvm, e < epochLimit ∧ s = init n e nvm
  step := step superpageSize

end Incll.Model.Kvthread
