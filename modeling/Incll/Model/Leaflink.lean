import Incll.Lib.Machine
import Incll.Model.Leaf

/-! # The list of leaves (`btree_leaflink.hh`)

One epoch, in which any number of threads split and remove leaves. Every access to a link of a leaf
that other threads may see is a step of its own. A store goes to the cache; when a line is written
back, the link is in the memory that a crash leaves. `record_node` writes its entry back itself. -/

namespace Incll.Model.Leaflink
open Incll.Lib

/-- `next_`; the lowest bit of the pointer is the mark. -/
structure Next where
  ptr : Addr
  mark : Bool
  deriving DecidableEq

structure Links where
  next : Next
  prev : Addr
  deriving DecidableEq

/-- What a thread does next, before the statement that the constructor is named after. -/
inductive Pc where
  | idle
  -- find_locked, and the choice after record_node
  | found (n : Addr) | recorded (n : Addr)
  -- link_split
  | storeNrPrev (n nr : Addr) | lockNext (n nr : Addr) | storeNrNext (n nr next : Addr)
  | storeNextPrev (n nr next : Addr) | storeNext (n nr : Addr)
  -- unlink
  | lockNextUnlink (n : Addr) | readPrev (n next : Addr) | swapPrevNext (n next prev : Addr)
  | unlinkNextPrev (n next prev : Addr) | unlinkPrevNext (n next prev : Addr)
  | finish (n nr : Addr)
  deriving DecidableEq

/-- `go` is the next step of a call; the others decide what the entries of the leaves do not say here. -/
inductive Act where
  | find (n : Addr)
  | save
  | record
  | split (nr : Addr)
  | remove
  | done
  | go

/-- A step of a thread, a leaf that `internode::split_into` locks, records and unlocks, or a line that
is written back. -/
inductive Label (nthreads : Nat) where
  | thread (t : Fin nthreads) (act : Act)
  | lockPersistent (n : Addr)
  | writeBackNext (n : Addr)
  | writeBackPrev (n : Addr)

structure State (nthreads : Nat) where
  cache : Addr → Links
  memory : Addr → Links
  loggedepoch : Addr → Nat
  notLogged : Addr → Bool
  locked : Addr → Bool
  deleted : Addr → Bool
  /-- The leaves of the tree, and those that were put into the list or removed since the checkpoint. -/
  leaves : List Addr
  /-- The leaves that were made since the checkpoint. -/
  made : List Addr
  /-- The leaves that were recorded since the checkpoint. -/
  log : List Addr
  pc : Fin nthreads → Pc

variable {nthreads : Nat}

namespace State

def goto (s : State nthreads) (t : Fin nthreads) (pc : Pc) : State nthreads :=
  { s with pc := Function.update s.pc t pc }

def setNext (s : State nthreads) (n : Addr) (next : Next) : State nthreads :=
  { s with cache := Function.update s.cache n { s.cache n with next := next } }

def setPrev (s : State nthreads) (n prev : Addr) : State nthreads :=
  { s with cache := Function.update s.cache n { s.cache n with prev := prev } }

def lock (s : State nthreads) (n : Addr) : State nthreads :=
  { s with locked := Function.update s.locked n true }

def unlock (s : State nthreads) (n : Addr) : State nthreads :=
  { s with locked := Function.update s.locked n false }

def markDeleted (s : State nthreads) (n : Addr) : State nthreads :=
  { s with deleted := Function.update s.deleted n true }

def recordNode (globalepoch : Nat) (s : State nthreads) (n : Addr) : State nthreads :=
  if s.loggedepoch n ≠ globalepoch ∨ s.notLogged n = true then
    { s with
      notLogged := Function.update s.notLogged n false
      log := s.log ++ [n]
      loggedepoch := Function.update s.loggedepoch n globalepoch }
  else s

/-- `save_cl0_insert` and `save_cl1_2_update`. -/
def saveCl (globalepoch : Nat) (s : State nthreads) (n : Addr) : State nthreads :=
  if s.loggedepoch n ≠ globalepoch then
    { s with
      loggedepoch := Function.update s.loggedepoch n globalepoch
      notLogged := Function.update s.notLogged n true }
  else if s.notLogged n = true then
    { s with notLogged := Function.update s.notLogged n false, log := s.log ++ [n] }
  else s

/-- A new leaf, locked as `assign_version` leaves it; its links are not initialised. -/
def make (globalepoch : Nat) (s : State nthreads) (nr : Addr) : State nthreads :=
  { s.lock nr with
    made := nr :: s.made
    loggedepoch := Function.update s.loggedepoch nr globalepoch
    notLogged := Function.update s.notLogged nr false }

def add (s : State nthreads) (nr : Addr) : State nthreads := { s with leaves := nr :: s.leaves }

/-- `lock_next`: the pointer, which is marked unless it is null. -/
def lockNext (s : State nthreads) (n : Addr) : Option (Addr × State nthreads) :=
  let next := (s.cache n).next
  if next.ptr = 0 then some (0, s)
  else if next.mark then none
  else some (next.ptr, s.setNext n { next with mark := true })

end State

def act (globalepoch : Nat) (s : State nthreads) (t : Fin nthreads) :
    Pc → Act → Option (State nthreads)
  | .idle, .find n =>
      if n ∈ s.leaves ∧ s.locked n = false ∧ s.deleted n = false then
        some ((s.lock n).goto t (.found n))
      else none
  | .found n, .save => some ((s.saveCl globalepoch n).goto t (.found n))
  | .found n, .record => some ((s.recordNode globalepoch n).goto t (.recorded n))
  | .found n, .done => some ((s.unlock n).goto t .idle)
  | .recorded n, .done => some ((s.unlock n).goto t .idle)
  -- split_into
  | .recorded n, .split nr =>
      if nr ≠ 0 ∧ nr ∉ s.leaves ∧ nr ∉ s.made then
        some ((s.make globalepoch nr).goto t (.storeNrPrev n nr))
      else none
  | .storeNrPrev n nr, .go => some ((s.setPrev nr n).goto t (.lockNext n nr))
  | .lockNext n nr, .go => do
      let (next, s) ← s.lockNext n
      return s.goto t (.storeNrNext n nr next)
  | .storeNrNext n nr next, .go =>
      some (((s.setNext nr ⟨next, false⟩).add nr).goto t
        (if next = 0 then .storeNext n nr else .storeNextPrev n nr next))
  | .storeNextPrev n nr next, .go => some ((s.setPrev next nr).goto t (.storeNext n nr))
  | .storeNext n nr, .go => some ((s.setNext n ⟨nr, false⟩).goto t (.finish n nr))
  -- remove_leaf
  | .recorded n, .remove =>
      if (s.cache n).prev = 0 then none else some ((s.markDeleted n).goto t (.lockNextUnlink n))
  | .lockNextUnlink n, .go => do
      let (next, s) ← s.lockNext n
      return s.goto t (.readPrev n next)
  | .readPrev n next, .go => some (s.goto t (.swapPrevNext n next (s.cache n).prev))
  | .swapPrevNext n next prev, .go =>
      if (s.cache prev).next = ⟨n, false⟩ then
        some ((s.setNext prev ⟨n, true⟩).goto t
          (if next = 0 then .unlinkPrevNext n next prev else .unlinkNextPrev n next prev))
      else some (s.goto t (.readPrev n next))
  | .unlinkNextPrev n next prev, .go =>
      some ((s.setPrev next prev).goto t (.unlinkPrevNext n next prev))
  | .unlinkPrevNext n next prev, .go =>
      some ((s.setNext prev ⟨next, false⟩).goto t (.finish n n))
  | .finish n nr, .go => some (((s.unlock n).unlock nr).goto t .idle)
  | _, _ => none

def step (globalepoch : Nat) (s : State nthreads) : Label nthreads → Option (State nthreads)
  | .thread t a => act globalepoch s t (s.pc t) a
  | .lockPersistent n =>
      if n ∈ s.leaves ∧ s.locked n = false then some (s.recordNode globalepoch n) else none
  | .writeBackNext n =>
      some { s with
        memory := Function.update s.memory n { s.memory n with next := (s.cache n).next } }
  | .writeBackPrev n =>
      some { s with
        memory := Function.update s.memory n { s.memory n with prev := (s.cache n).prev } }

/-- The links that a leaf of the sequence `xs ++ n :: ys` has in a list without marks. -/
def inOrder (xs ys : List Addr) : Links := ⟨⟨ys.headD 0, false⟩, xs.getLastD 0⟩

/-- A checkpoint: all links are written back, and no leaf has been logged in the new epoch. -/
structure Checkpoint (globalepoch : Nat) (chain : List Addr) (s : State nthreads) : Prop where
  leaves : s.leaves = chain
  linked : ∀ xs n ys, chain = xs ++ n :: ys → s.cache n = inOrder xs ys
  memory : s.memory = s.cache
  epoch : ∀ n ∈ chain, s.loggedepoch n ≠ globalepoch
  made : s.made = []
  log : s.log = []
  pc : s.pc = fun _ => .idle

def machine (nthreads globalepoch : Nat) (chain : List Addr) :
    Machine (State nthreads) (Label nthreads) where
  initial := Checkpoint globalepoch chain
  step := step globalepoch

end Incll.Model.Leaflink
