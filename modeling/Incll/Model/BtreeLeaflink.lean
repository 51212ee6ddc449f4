import Incll.Model.Leaflink

/-! # Concurrent calls of `link_split` and `unlink` (`btree_leaflink.hh`)

Every load, store and exchange is a step. The caller of `link_split (n, nr)` or `unlink n` has locked
`n`, and `nr` is a new leaf that it has locked too, so `pc n` is where the only call on `n` is. A
leaf is made once; its address is not used again. -/

namespace Incll.Model.BtreeLeaflink
open Incll.Lib
open Incll.Model.Leaflink (Next Links)

inductive Call where
  | linkSplit (n nr : Addr)
  | unlink (n : Addr)
  deriving DecidableEq

/-- What a call makes of the sequence of leaves. -/
def Call.apply (chain : List Addr) : Call → List Addr
  | .linkSplit n nr => chain.flatMap fun a => if a = n then [a, nr] else [a]
  | .unlink n => chain.filter (· ≠ n)

/-- The sequence of leaves after some calls. -/
def leavesAfter (chain : List Addr) (calls : List Call) : List Addr := calls.foldl Call.apply chain

/-- What a call of `lock_next` returns to. -/
inductive Caller where
  | linkSplit (nr : Addr)
  | unlink
  deriving DecidableEq

/-- What the call on a leaf does next: the load and the exchange in `lock_next`, the stores of
`link_split`, then those of `unlink`. -/
inductive Pc where
  | idle
  | load (caller : Caller)
  | mark (next : Addr) (caller : Caller)
  | storeNrNext (nr next : Addr)
  | storeNextPrev (nr next : Addr)
  | storeNext (nr next : Addr)
  | readPrev (next : Addr)
  | swapPrevNext (next prev : Addr)
  | unlinkNextPrev (next prev : Addr)
  | unlinkPrevNext (next prev : Addr)
  deriving DecidableEq

/-- `calls` are the calls that have begun, the last one at the end. -/
structure State where
  links : Addr → Links
  locked : Addr → Bool
  pc : Addr → Pc
  calls : List Call

namespace State

def goto (s : State) (n : Addr) (pc : Pc) : State := { s with pc := Function.update s.pc n pc }

def setNext (s : State) (n : Addr) (next : Next) : State :=
  { s with links := Function.update s.links n { s.links n with next := next } }

def setPrev (s : State) (n prev : Addr) : State :=
  { s with links := Function.update s.links n { s.links n with prev := prev } }

def setLocked (s : State) (n : Addr) (locked : Bool) : State :=
  { s with locked := Function.update s.locked n locked }

/-- The call begins. -/
def begin (s : State) (c : Call) (n : Addr) (caller : Caller) : State :=
  { (s.setLocked n true).goto n (.load caller) with calls := s.calls ++ [c] }

/-- The call on `n` returns. -/
def finish (s : State) (n : Addr) : State := (s.goto n .idle).setLocked n false

end State

/-- After `lock_next`. -/
def Caller.resume (next : Addr) : Caller → Pc
  | .linkSplit nr => .storeNrNext nr next
  | .unlink => .readPrev next

/-- One step of the call on `n`. -/
def go (s : State) (n : Addr) : Option State :=
  match s.pc n with
  | .idle => none
  | .load caller =>
      let next := (s.links n).next
      if next = ⟨0, false⟩ then some (s.goto n (caller.resume 0))
      else if next.mark then some s
      else some (s.goto n (.mark next.ptr caller))
  | .mark next caller =>
      if (s.links n).next = ⟨next, false⟩ then
        some ((s.setNext n ⟨next, true⟩).goto n (caller.resume next))
      else some (s.goto n (.load caller))
  | .storeNrNext nr next =>
      some ((s.setNext nr ⟨next, false⟩).goto n
        (if next = 0 then .storeNext nr next else .storeNextPrev nr next))
  | .storeNextPrev nr next => some ((s.setPrev next nr).goto n (.storeNext nr next))
  | .storeNext nr _ => some (((s.setNext n ⟨nr, false⟩).finish n).setLocked nr false)
  | .readPrev next => some (s.goto n (.swapPrevNext next (s.links n).prev))
  | .swapPrevNext next prev =>
      if (s.links prev).next = ⟨n, false⟩ then
        some ((s.setNext prev ⟨n, true⟩).goto n
          (if next = 0 then .unlinkPrevNext next prev else .unlinkNextPrev next prev))
      else some (s.goto n (.readPrev next))
  | .unlinkNextPrev next prev =>
      some ((s.setPrev next prev).goto n (.unlinkPrevNext next prev))
  | .unlinkPrevNext next prev => some ((s.setNext prev ⟨next, false⟩).finish n)

/-- The leaves that have ever been in the sequence. -/
def everLinked (chain : List Addr) (calls : List Call) : List Addr :=
  leavesAfter chain (calls.filter fun c => c matches .linkSplit ..)

inductive Label where
  | call (c : Call)
  | go (n : Addr)

/-- The first store of `link_split` is to a leaf that no other thread sees, and is the step in which
the call begins. -/
def step (chain : List Addr) (s : State) : Label → Option State
  | .call (.linkSplit n nr) =>
      if n ∈ leavesAfter chain s.calls ∧ s.locked n = false ∧
          nr ≠ 0 ∧ nr ∉ everLinked chain s.calls then
        some (((s.setPrev nr n).begin (.linkSplit n nr) n (.linkSplit nr)).setLocked nr true)
      else none
  | .call (.unlink n) =>
      if n ∈ leavesAfter chain s.calls ∧ s.locked n = false ∧ chain.head? ≠ some n then
        some (s.begin (.unlink n) n .unlink)
      else none
  | .go n => go s n

/-- A doubly linked list in which no call has begun. -/
structure Start (chain : List Addr) (s : State) : Prop where
  linked : ∀ xs n ys, chain = xs ++ n :: ys → s.links n = Leaflink.inOrder xs ys
  locked : ∀ n, s.locked n = false
  pc : ∀ n, s.pc n = .idle
  calls : s.calls = []

def machine (chain : List Addr) : Machine State Label where
  initial := Start chain
  step := step chain

end Incll.Model.BtreeLeaflink
