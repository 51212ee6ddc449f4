import Incll.Model.Recovery
import Incll.Model.ThreadLog

/-! # Threads that recover, log and change nodes together (`masstree_struct.hh`, `incll_bl.hh`)

A thread that has nothing under way starts a call on a node: `lazy_recovery`, which takes no lock
but the bucket lock of the leaf, or one of the logging calls, a store and the release of a node whose
lock it holds. The calls are cut at every access to memory that another thread can see. -/

namespace Incll.Model.Threads
open Incll.Lib GlobalFlush

/-- The entries that `undo_incll` tests, in its order. -/
inductive Entry where
  | cl0 | cl1 | cl2
  deriving DecidableEq

inductive LogCall where
  | recordNode
  | saveCl0Insert
  | saveCl12Update (p : Nat)
  deriving DecidableEq

/-- Where a thread stands. Each constructor is the point before the statement it is named after. -/
inductive Pc where
  | idle
  -- lazy_recovery and undo_incll
  | guard (a : Addr) | test (e : Entry) (a : Addr) | lockBucket (e : Entry) (a : Addr)
  | recover (e : Entry) (a : Addr) | recoverFinal (a : Addr) | unlockBucket (a : Addr)
  -- record_node, save_cl0_insert and save_cl1_2_update
  | logTest (c : LogCall) (a : Addr) | save (c : LogCall) (a : Addr) | updateEpochs (a : Addr)
  | setNotLogged (a : Addr) | record (c : LogCall) (a : Addr) | tag (a : Addr)
  | invalidate (a : Addr)
  deriving DecidableEq

/-- A store to the fields of a node other than the logging words. -/
inductive Change where
  | leaf (f : LeafBody → LeafBody)
  | internode (f : Internode → Internode)

def Change.apply : Change → Kind → Kind
  | .leaf f, .leaf l => .leaf { l with body := f l.body }
  | .internode f, .internode i => .internode { f i with loggedepoch := i.loggedepoch }
  | _, k => k

/-- What a thread does: the next step of its call, or the start of another one. -/
inductive Act where
  | go
  | lazyRecovery (a : Addr)
  | lock (a : Addr)
  | log (c : LogCall) (a : Addr)
  | store (c : Change) (a : Addr)
  | unlock (a : Addr)
  | makeLeaf (b : LeafBody)
  | makeInternode (i : Internode)
  | raise

structure Label (nthreads : Nat) where
  thread : Fin nthreads
  act : Act

def bucketLocksSize : Nat := 10000

def computeBucket (a : Addr) : Nat := a % bucketLocksSize

/-- The fields from `visited` on say what happened: the leaf that a thread last finished
`lazy_recovery` on, how often the entry of a leaf was written back, how many operations on it ended
after that, and whether an entry was written back after such an end. -/
structure State (nthreads : Nat) where
  heap : Addr → Option Kind
  fresh : Addr
  globalepoch : Nat
  failedepoch : Nat
  lock : Addr → Option (Fin nthreads)
  bucket : Nat → Option (Fin nthreads)
  log : Fin nthreads → ThreadLog (Addr × Kind)
  pc : Fin nthreads → Pc
  visited : Fin nthreads → Option Addr
  rollbacks : Addr → Nat
  finished : Addr → Nat
  overwritten : Addr → Bool

variable {n : Nat}

def leafAt (s : State n) (a : Addr) : Option Leaf := (s.heap a).bind (·.leaf?)

namespace State

def goto (s : State n) (t : Fin n) (pc : Pc) : State n :=
  { s with pc := Function.update s.pc t pc }

def setLeaf (s : State n) (a : Addr) (l : Leaf) : State n :=
  { s with heap := Function.update s.heap a (some (.leaf l)) }

def setKind (s : State n) (a : Addr) (k : Kind) : State n :=
  { s with heap := Function.update s.heap a (some k) }

/-- The end of `lazy_recovery`. -/
def visit (s : State n) (t : Fin n) (a : Addr) : State n :=
  { s.goto t .idle with visited := Function.update s.visited t (some a) }

def noteRollback (s : State n) (a : Addr) : State n :=
  { s with
    rollbacks := Function.update s.rollbacks a (s.rollbacks a + 1)
    overwritten := Function.update s.overwritten a (s.overwritten a || 0 < s.finished a) }

def append (s : State n) (t : Fin n) (a : Addr) (k : Kind) : State n :=
  { s with log := Function.update s.log t ((s.log t).record (a, k)) }

end State

def holds (fe : Nat) (l : Leaf) : Entry → Bool
  | .cl0 => l.incll.loggedepoch == fe && l.incll.cl0Idx != invalidIdx
  | .cl1 => l.incll.lvCl1.getLoggedepoch == fe && l.incll.lvCl1.isClValid
  | .cl2 => l.incll.lvCl2.getLoggedepoch == fe && l.incll.lvCl2.isClValid

def recoverEntry (l : Leaf) : Entry → Leaf
  | .cl0 => l.recoverCl0
  | .cl1 => l.recoverCl1
  | .cl2 => l.recoverCl2

/-- The entry that is stored by the first insertion or update of an epoch. -/
def saveEntry (ge : Nat) (l : Leaf) : LogCall → Leaf
  | .saveCl12Update p =>
      if p < keyMid then
        { l with incll := { l.incll with lvCl1 := l.incll.lvCl1.setLvIdxGe (l.body.lv p) p ge } }
      else
        { l with
          incll := { l.incll with lvCl2 := l.incll.lvCl2.setLvIdxGe (l.body.lv p) (p - keyMid) ge } }
  | _ => { l with incll := { l.incll with permCl0 := l.body.permutation, cl0Idx := 0 } }

/-- The branch that a logging call takes on a leaf. -/
def logBranch (ge : Nat) (l : Leaf) (c : LogCall) (a : Addr) : Pc :=
  if c = .recordNode then
    if l.incll.loggedepoch ≠ ge ∨ l.incll.notLogged = true then .record c a else .idle
  else if l.incll.loggedepoch ≠ ge then .save c a
  else if l.incll.notLogged = true then .record c a
  else .idle

def stepRecovery (s : State n) (t : Fin n) : Pc → Option (State n)
  | .guard a => (leafAt s a).map fun l =>
      if l.incll.loggedepoch ≤ s.failedepoch then s.goto t (.test .cl0 a) else s.visit t a
  | .test e a => (leafAt s a).map fun l =>
      if holds s.failedepoch l e then s.goto t (.lockBucket e a)
      else match e with
        | .cl0 => s.goto t (.test .cl1 a)
        | .cl1 => s.goto t (.test .cl2 a)
        | .cl2 => s.visit t a
  | .lockBucket e a =>
      if s.bucket (computeBucket a) = none then
        some { s.goto t (.recover e a) with
          bucket := Function.update s.bucket (computeBucket a) (some t) }
      else none
  | .recover e a => (leafAt s a).map fun l =>
      ((s.setLeaf a (recoverEntry l e)).noteRollback a).goto t (.recoverFinal a)
  | .recoverFinal a => (leafAt s a).map fun l =>
      (s.setLeaf a (l.recoverFinal s.globalepoch)).goto t (.unlockBucket a)
  | .unlockBucket a =>
      some { s.visit t a with bucket := Function.update s.bucket (computeBucket a) none }
  | _ => none

def stepLog (s : State n) (t : Fin n) : Pc → Option (State n)
  | .logTest c a => (s.heap a).map fun
      | .leaf l => s.goto t (logBranch s.globalepoch l c a)
      | .internode i => s.goto t (if i.loggedepoch ≠ s.globalepoch then .record c a else .idle)
  | .save c a => (leafAt s a).map fun l =>
      (s.setLeaf a (saveEntry s.globalepoch l c)).goto t (.updateEpochs a)
  | .updateEpochs a => (leafAt s a).map fun l =>
      (s.setLeaf a { l with incll := l.incll.updateEpochs s.globalepoch }).goto t (.setNotLogged a)
  | .setNotLogged a => (leafAt s a).map fun l =>
      (s.setLeaf a { l with incll := { l.incll with notLogged := true } }).goto t .idle
  | .record c a => (s.heap a).map fun
      | .leaf l =>
          let image : Leaf := { l with incll := { l.incll with notLogged := false } }
          ((s.setLeaf a image).append t a (.leaf image)).goto t
            (if c = .recordNode then .tag a else .invalidate a)
      | .internode i => (s.append t a (.internode i)).goto t (.tag a)
  | .tag a => (s.heap a).map fun
      | .leaf l =>
          (s.setLeaf a { l with incll := { l.incll with loggedepoch := s.globalepoch } }).goto t
            (.invalidate a)
      | .internode i =>
          (s.setKind a (.internode { i with loggedepoch := s.globalepoch })).goto t .idle
  | .invalidate a => (leafAt s a).map fun l =>
      (s.setLeaf a { l with incll := l.incll.invalidateCls }).goto t .idle
  | _ => none

/-- The start of a call by a thread that has nothing under way. -/
def start (s : State n) (t : Fin n) : Act → Option (State n)
  | .go => none
  | .lazyRecovery a => (leafAt s a).map fun _ => s.goto t (.guard a)
  | .lock a =>
      if (s.heap a).isSome ∧ s.lock a = none then
        some { s with lock := Function.update s.lock a (some t) }
      else none
  | .log c a =>
      if s.lock a = some t ∧ ((leafAt s a).isSome ∨ c = .recordNode) then
        some (s.goto t (.logTest c a))
      else none
  | .store c a =>
      if s.lock a = some t then (s.heap a).map fun k => s.setKind a (c.apply k) else none
  | .unlock a =>
      if s.lock a = some t then
        some { s with
          lock := Function.update s.lock a none
          finished := Function.update s.finished a
            (s.finished a + if 0 < s.rollbacks a then 1 else 0) }
      else none
  | .makeLeaf b => some { s.setLeaf s.fresh ⟨.make s.globalepoch, b⟩ with
      fresh := s.fresh + 1, lock := Function.update s.lock s.fresh (some t) }
  | .makeInternode i =>
      some { s.setKind s.fresh (.internode { i with loggedepoch := s.globalepoch }) with
        fresh := s.fresh + 1, lock := Function.update s.lock s.fresh (some t) }
  | .raise => some { s with globalepoch := s.globalepoch + 1 }

def step (s : State n) (l : Label n) : Option (State n) :=
  match s.pc l.thread, l.act with
  | .idle, act => start s l.thread act
  | pc, .go => (stepRecovery s l.thread pc).or (stepLog s l.thread pc)
  | _, _ => none

/-- A state after a restart or a checkpoint: no call is under way and nothing was recorded yet. -/
structure Initial (s : State n) : Prop where
  epochs : s.failedepoch < s.globalepoch
  below : ∀ a, (s.heap a).isSome → a < s.fresh
  lock : s.lock = fun _ => none
  bucket : s.bucket = fun _ => none
  log : ∀ t, (s.log t).since = []
  pc : s.pc = fun _ => .idle
  visited : s.visited = fun _ => none
  rollbacks : s.rollbacks = fun _ => 0
  finished : s.finished = fun _ => 0
  overwritten : s.overwritten = fun _ => false

def machine (n : Nat) : Machine (State n) (Label n) where
  initial := Initial
  step := step

/-- What the logs of all threads hold since the last checkpoint. -/
def allRecords (s : State n) : List (Addr × Kind) :=
  (List.finRange n).flatMap fun t => (s.log t).since

/-- The body of the loop of `undo`, with `fix_all` for a leaf. -/
def undoRecord (heap : Addr → Option Kind) (r : Addr × Kind) : Addr → Option Kind :=
  Function.update heap r.1 <| some <| match r.2 with
    | .leaf l => .leaf { l with body := { l.body with modstate := .insert } }
    | .internode i => .internode i

end Incll.Model.Threads
