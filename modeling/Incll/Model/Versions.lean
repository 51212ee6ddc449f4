import Incll.Lib.Machine
import Incll.Model.Node

/-! # Version words over crashes (`nodeversion.hh`, `masstree_struct.hh`, `incll_pextlog.hh`)

Every operation locks, marks, logs and unlocks nodes; here a thread does so in any order that the
locks allow. A store goes to the cache, a crash leaves what was written back. The entries and the
links of the nodes play no part, and `lazy_recovery` leaves the version word alone. -/

namespace Incll.Model.Versions
open Incll.Lib

/-- The words of a node that locking and logging use. -/
structure Header where
  isLeaf : Bool
  version : Nodeversion
  loggedepoch : Nat
  notLogged : Bool

namespace Header

/-- `fix_all` of a leaf, `fix_lock` of an internode. -/
def fixState (h : Header) : Header :=
  if h.isLeaf then { h with version := h.version.resetState }
  else { h with version := h.version.fixLock }

def setVersion (f : Nodeversion → Nodeversion) (h : Header) : Header :=
  { h with version := f h.version }

end Header

inductive Act where
  /-- `find_locked`. -/
  | lock (a : Addr)
  /-- The first half of `lock_persistent`; the second is `record`. -/
  | lockPersistent (a : Addr)
  | record
  | logPersistent (a : Addr)
  | saveCl (a : Addr)
  | markInsert (a : Addr)
  | markSplit (a : Addr)
  | markDeleted (a : Addr)
  | setRoot (a : Addr) (root : Bool)
  | unlock (a : Addr)
  /-- A new node, with the version of the locked node `like` or an unlocked one. -/
  | make (a : Addr) (isLeaf : Bool) (like : Option Addr)

inductive Label (nthreads : Nat) where
  | thread (t : Fin nthreads) (act : Act)
  | writeBack (a : Addr)
  /-- A global flush and the next epoch; from now on, these nodes are reachable after a crash. -/
  | checkpoint (tree : List Addr)
  /-- A crash, and `undo` when the program has been started again. -/
  | crash

structure State (nthreads : Nat) where
  cache : Addr → Header
  memory : Addr → Header
  /-- The nodes that operations can come to. -/
  nodes : List Addr
  /-- The nodes that were reachable at the last checkpoint. -/
  tree : List Addr
  log : List (Addr × Header)
  globalepoch : Nat
  /-- The thread that has taken the lock in this execution. -/
  holder : Addr → Option (Fin nthreads)
  /-- The node that a thread has locked and is about to record. -/
  recording : Fin nthreads → Option Addr

variable {n : Nat}

namespace State

def modify (s : State n) (a : Addr) (f : Header → Header) : State n :=
  { s with cache := Function.update s.cache a (f (s.cache a)) }

/-- `lock` spins as long as the lock bit is set. -/
def lock (s : State n) (t : Fin n) (a : Addr) : Option (State n) :=
  if a ∈ s.nodes ∧ (s.cache a).version.locked = false then
    some { s.modify a (.setVersion fun v => { v with locked := true }) with
      holder := Function.update s.holder a (some t) }
  else none

/-- `record_node` of a leaf or an internode. -/
def recordNode (s : State n) (a : Addr) : State n :=
  let h := s.cache a
  if h.loggedepoch ≠ s.globalepoch ∨ (h.isLeaf = true ∧ h.notLogged = true) then
    let h := if h.isLeaf then { h with notLogged := false } else h
    { s.modify a fun _ => { h with loggedepoch := s.globalepoch } with log := s.log ++ [(a, h)] }
  else s

/-- `save_cl0_insert` and `save_cl1_2_update`. -/
def saveCl (s : State n) (a : Addr) : State n :=
  let h := s.cache a
  if h.loggedepoch ≠ s.globalepoch then
    s.modify a fun h => { h with loggedepoch := s.globalepoch, notLogged := true }
  else if h.notLogged = true then
    let h := { h with notLogged := false }
    { s.modify a fun _ => h with log := s.log ++ [(a, h)] }
  else s

def unlock (s : State n) (a : Addr) : State n :=
  { s.modify a (.setVersion (·.unlock)) with holder := Function.update s.holder a none }

def make (s : State n) (t : Fin n) (a : Addr) (isLeaf : Bool) (version : Nodeversion) : State n :=
  { s.modify a fun _ => ⟨isLeaf, version, s.globalepoch, false⟩ with
    nodes := a :: s.nodes
    holder := Function.update s.holder a (if version.locked then some t else none) }

/-- One entry of `undo`. -/
def undoEntry (cache : Addr → Header) (e : Addr × Header) : Addr → Header :=
  Function.update cache e.1 e.2.fixState

def crash (s : State n) : State n :=
  { s with
    cache := s.log.foldl undoEntry s.memory
    nodes := s.tree
    log := []
    globalepoch := s.globalepoch + 1
    holder := fun _ => none
    recording := fun _ => none }

def checkpoint (s : State n) (tree : List Addr) : State n :=
  { s with memory := s.cache, tree := tree, log := [], globalepoch := s.globalepoch + 1 }

end State

def mark (s : State n) (t : Fin n) (a : Addr) (f : Nodeversion → Nodeversion) : Option (State n) :=
  if s.holder a = some t then some (s.modify a (.setVersion f)) else none

def act (s : State n) (t : Fin n) : Option Addr → Act → Option (State n)
  | none, .lock a => s.lock t a
  | none, .lockPersistent a => (s.lock t a).map fun s =>
      { s with recording := Function.update s.recording t (some a) }
  | some a, .record => some { s.recordNode a with recording := Function.update s.recording t none }
  | none, .logPersistent a =>
      if s.holder a = some t ∧ (s.cache a).isLeaf = true then some (s.recordNode a) else none
  | none, .saveCl a =>
      if s.holder a = some t ∧ (s.cache a).isLeaf = true then some (s.saveCl a) else none
  | none, .markInsert a => mark s t a fun v => { v with inserting := true }
  | none, .markSplit a => mark s t a fun v => { v with splitting := true }
  | none, .markDeleted a => mark s t a fun v => { v with deleted := true, splitting := true }
  | none, .setRoot a root =>
      if a ∈ s.nodes then some (s.modify a (.setVersion fun v => { v with root := root })) else none
  | none, .unlock a => if s.holder a = some t then some (s.unlock a) else none
  | none, .make a isLeaf none => if a ∈ s.nodes then none else some (s.make t a isLeaf .make)
  | none, .make a isLeaf (some like) =>
      if a ∉ s.nodes ∧ s.holder like = some t then
        some (s.make t a isLeaf (s.cache like).version)
      else none
  | _, _ => none

def step (s : State n) : Label n → Option (State n)
  | .thread t a => act s t (s.recording t) a
  | .writeBack a => some { s with memory := Function.update s.memory a (s.cache a) }
  | .checkpoint tree => if tree ⊆ s.nodes then some (s.checkpoint tree) else none
  | .crash => some s.crash

/-- No operation is under way. -/
structure Initial (s : State n) : Prop where
  memory : s.memory = s.cache
  tree : s.tree = s.nodes
  log : s.log = []
  holder : s.holder = fun _ => none
  recording : s.recording = fun _ => none
  clean : ∀ a ∈ s.nodes, (s.cache a).version.locked = false ∧ (s.cache a).version.dirty = false

def machine (n : Nat) : Machine (State n) (Label n) where
  initial := Initial
  step := step

end Incll.Model.Versions
