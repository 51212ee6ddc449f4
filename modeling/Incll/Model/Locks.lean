import Incll.Lib.Machine
import Incll.Model.Node

/-! # The node locks of one layer (`masstree_split.hh`, `masstree_remove.hh`, `masstree_struct.hh`)

Every acquisition of a lock is a step of its own, and so is every test of a lock or of a parent that
is made without one. The entries of the leaves are left out: the leaf that a call reaches, whether
it is split or emptied, and the keys by which it is found in the nodes above come with the label. -/

namespace Incll.Model.Locks
open Incll.Lib

inductive Shape where
  | leaf (parent : Addr)
  | internode (i : Internode)

namespace Shape

def parent : Shape → Addr
  | .leaf parent => parent
  | .internode i => i.parent

def setParent (p : Addr) : Shape → Shape
  | .leaf _ => .leaf p
  | .internode i => .internode { i with parent := p }

def height : Shape → Nat
  | .leaf _ => 0
  | .internode i => i.height

def mapInternode (f : Internode → Internode) : Shape → Shape
  | .leaf parent => .leaf parent
  | .internode i => .internode (f i)

def internode? : Shape → Option Internode
  | .leaf _ => none
  | .internode i => some i

end Shape

/-- The variables of `make_split`; `leaf` is `n_`. -/
structure Split where
  leaf : Addr
  n : Addr
  child : Addr
  key : Nat
  height : Nat
  splitType : Nat
  deriving DecidableEq

/-- The internode that `make_split` puts above `n` and `child`. -/
def Split.newParent (c : Split) (p : Addr) : Internode where
  loggedepoch := 0
  nkeys := 1
  height := c.height + 1
  ikey0 := (((Internode.make 0 (c.height + 1)).setChild 0 c.n).assign 0 c.key c.child).ikey0
  child := (((Internode.make 0 (c.height + 1)).setChild 0 c.n).assign 0 c.key c.child).child
  parent := p

/-- The variables of `remove_leaf`. -/
structure Remove where
  n : Addr
  ikey : Nat
  replacement : Addr
  deriving DecidableEq

/-- The variables of `redirect`, called by `remove_leaf` for the nodes `below` and `p`. -/
structure Redirect where
  below : Addr
  p : Addr
  n : Addr
  held : Bool
  ikey : Nat
  replacement : Nat
  deriving DecidableEq

/-- The callers of `locked_parent`. -/
inductive Call where
  | split (c : Split)
  | remove (c : Remove)
  | redirect (c : Redirect)
  deriving DecidableEq

def Call.n : Call → Addr
  | .split c => c.n
  | .remove c => c.n
  | .redirect c => c.n

/-- The variables of `internode::split_into` in its loop over the children of `nr`: the key between
the two nodes, the keys that stay in `p` and the place where the caller still has to insert. -/
structure Move where
  p : Addr
  nr : Addr
  key : Nat
  nkeys : Nat
  rest : Option Nat
  deriving DecidableEq

/-- Where a thread stands, before the statement that the constructor is named after. -/
inductive Pc where
  | idle
  -- find_locked
  | lockLeaf (a : Addr) | found (a : Addr)
  -- locked_parent
  | readParent (c : Call) | lockParent (c : Call) (p : Addr) | checkParent (c : Call) (p : Addr)
  | atParent (c : Call) (p : Addr)
  -- split_into
  | testChild (c : Split) (m : Move) (cs : List Addr)
  | lockChild (c : Split) (m : Move) (x : Addr) (cs : List Addr)
  | unlockChild (c : Split) (m : Move) (x : Addr) (cs : List Addr)
  | moveChild (c : Split) (m : Move) (x : Addr) (cs : List Addr)
  -- make_split, remove_leaf and finish
  | hung (c : Split) (p : Addr) (more : Option (Addr × Nat))
  | removed (n p : Addr) (ikey : Nat) | finish (a : Addr)
  deriving DecidableEq

/-- `go` is the next step of a call; the others decide what the leaves do not say here. -/
inductive Act where
  | go
  | find (a : Addr)
  | done
  | split (key splitType : Nat)
  | empty (ikey : Nat)

structure Label (nthreads : Nat) where
  thread : Fin nthreads
  act : Act

structure State (nthreads : Nat) where
  heap : Addr → Option Shape
  fresh : Addr
  root : Addr → Bool
  lock : Addr → Option (Fin nthreads)
  pc : Fin nthreads → Pc

variable {n : Nat}

namespace State

def goto (s : State n) (t : Fin n) (pc : Pc) : State n :=
  { s with pc := Function.update s.pc t pc }

def modify (s : State n) (a : Addr) (f : Shape → Shape) : State n :=
  { s with heap := Function.update s.heap a ((s.heap a).map f) }

def setParent (s : State n) (a p : Addr) : State n := s.modify a (.setParent p)

def modifyInternode (s : State n) (a : Addr) (f : Internode → Internode) : State n :=
  s.modify a (.mapInternode f)

def alloc (s : State n) (shape : Shape) : State n :=
  { s with heap := Function.update s.heap s.fresh (some shape), fresh := s.fresh + 1 }

def acquire (s : State n) (t : Fin n) (a : Addr) : State n :=
  { s with lock := Function.update s.lock a (some t) }

def unlock (s : State n) (a : Addr) : State n :=
  { s with lock := Function.update s.lock a none }

def setRoot (s : State n) (a : Addr) (r : Bool) : State n :=
  { s with root := Function.update s.root a r }

def internode (s : State n) (a : Addr) : Option Internode := (s.heap a).bind (·.internode?)

/-- `lock` waits as long as the lock is held. -/
def lockNode (s : State n) (t : Fin n) (a : Addr) (pc : Pc) : Option (State n) :=
  if (s.heap a).isSome ∧ s.lock a = none then some ((s.acquire t a).goto t pc) else none

/-! `make_split`. -/

/-- A new internode above `n` and `child`, below `p` or as the new root. -/
def makeParent (s : State n) (c : Split) (p kp : Nat) : State n :=
  let nn := s.fresh
  let s := (s.alloc (.internode (c.newParent p))).setRoot nn (p = 0)
  let s := s.setParent c.child nn
  let s := if p = 0 then s else s.modifyInternode p (·.setChild kp nn)
  s.setParent c.n nn

/-- The insertion of `child` behind position `kp` of `p`. -/
def insertChild (s : State n) (p kp key : Nat) (child : Addr) : State n :=
  (s.setParent child p).modifyInternode p fun i =>
    { (i.shiftUp (kp + 1) kp (i.nkeys - kp)).assign kp key child with nkeys := i.nkeys + 1 }

/-- The new internode of `split_into`, locked as `assign_version` leaves it; `assign` sets the parent
of a child that goes into it. -/
def addRight (s : State n) (t : Fin n) (right : Internode) (child : Addr) (assigned : Bool) :
    State n :=
  let nr := s.fresh
  let s := (s.alloc (.internode right)).acquire t nr
  if assigned then s.setParent child nr else s

/-- `internode::split_into` up to the loop over the children of the new node. -/
def splitInto (s : State n) (t : Fin n) (c : Split) (p kp : Nat) (i : Internode) : State n :=
  let mid := if c.splitType = 2 then internodeWidth else (internodeWidth + 1) / 2
  let (right, key) := i.splitRight (.make 0 (c.height + 1)) mid kp c.key c.child
  (s.addRight t right c.child (mid < kp)).goto t
    (.testChild c ⟨p, s.fresh, key, if kp < mid then mid - 1 else mid,
      if kp < mid then some kp else none⟩ ((List.range (right.nkeys + 1)).map right.child))

/-- The end of `internode::split_into` and the insertion that its caller makes. -/
def endSplit (s : State n) (c : Split) (m : Move) : State n :=
  let s := s.modifyInternode m.p fun i => { i with nkeys := m.nkeys }
  match m.rest with
  | some kp => s.insertChild m.p kp c.key c.child
  | none => s

/-- The part of an iteration of `make_split` under the lock of the parent. -/
def hang (s : State n) (t : Fin n) (c : Split) (p : Addr) : Option (State n) :=
  if p = 0 then some ((s.makeParent c 0 0).goto t (.hung c 0 none))
  else (s.internode p).map fun i =>
    let kp := i.upper c.key
    if c.height + 1 < i.height then (s.makeParent c p kp).goto t (.hung c p none)
    else if internodeWidth ≤ i.nkeys then s.splitInto t c p kp i
    else (s.insertChild p kp c.key c.child).goto t (.hung c p none)

/-- The locks that an iteration of `make_split` releases; `n_` stays locked. -/
def release (s : State n) (c : Split) : State n :=
  let s := s.setRoot c.n false
  let s := if c.n = c.leaf then s else s.unlock c.n
  if c.child = c.leaf then s else s.unlock c.child

/-! `remove_leaf`. -/

/-- The replacement of child `kp` of `p`. -/
def replaceChild (s : State n) (p kp : Nat) (replacement : Addr) : State n :=
  let s := s.modifyInternode p (·.setChild kp replacement)
  if replacement ≠ 0 then s.setParent replacement p
  else if 0 < kp then
    s.modifyInternode p fun i =>
      { i.shiftDown (kp - 1) kp (i.nkeys - kp) with nkeys := i.nkeys - 1 }
  else s

/-- The part of an iteration of `remove_leaf` under the lock of the parent. -/
def removeChild (s : State n) (t : Fin n) (c : Remove) (p : Addr) : Option (State n) := do
  let i ← s.internode p
  let kp := i.upper c.ikey
  let s := s.replaceChild p kp c.replacement
  let i ← s.internode p
  if kp ≤ 1 ∧ 0 < i.nkeys ∧ i.child 0 = 0 then
    return s.goto t (.readParent (.redirect ⟨c.n, p, p, false, c.ikey, i.ikey0 0⟩))
  else return s.goto t (.removed c.n p c.ikey)

/-- An iteration of `redirect` under the lock of the parent. -/
def redirectAt (s : State n) (t : Fin n) (c : Redirect) (p : Addr) : Option (State n) :=
  (s.internode p).map fun i =>
    let kp := i.upper c.ikey
    let s := if c.held then s.unlock c.n else s
    let s := if 0 < kp then s.modifyInternode p (·.setKey (kp - 1) c.replacement) else s
    if kp = 0 ∨ kp = 1 ∧ i.child 0 = 0 then
      s.goto t (.readParent (.redirect { c with n := p, held := true }))
    else (s.unlock p).goto t (.removed c.below c.p c.replacement)

/-- The end of an iteration of `remove_leaf`. -/
def endRemove (s : State n) (t : Fin n) (c p : Addr) (ikey : Nat) : Option (State n) :=
  (s.internode p).map fun i =>
    let s := s.unlock c
    if (if i.child 0 = 0 then 1 else 0) < i.nkeys ∨ s.root p then (s.unlock p).goto t .idle
    else (s.modifyInternode p (·.setChild i.nkeys 0)).goto t
      (.readParent (.remove ⟨p, ikey, i.child i.nkeys⟩))

end State

def stepCall (s : State n) (t : Fin n) (c : Call) (p : Addr) : Option (State n) :=
  match c with
  | .split c => s.hang t c p
  | .remove c => s.removeChild t c p
  | .redirect c => s.redirectAt t c p

def go (s : State n) (t : Fin n) : Pc → Option (State n)
  | .lockLeaf a => s.lockNode t a (.found a)
  | .readParent c => (s.heap c.n).map fun shape =>
      s.goto t (if shape.parent = 0 then .atParent c 0 else .lockParent c shape.parent)
  | .lockParent c p => s.lockNode t p (.checkParent c p)
  | .checkParent c p => (s.heap c.n).map fun shape =>
      if p = shape.parent then s.goto t (.atParent c p) else (s.unlock p).goto t (.readParent c)
  | .atParent c p => stepCall s t c p
  | .testChild c m [] => some ((s.endSplit c m).goto t (.hung c m.p (some (m.nr, m.key))))
  | .testChild c m (x :: cs) =>
      some (s.goto t (if (s.lock x).isSome then .moveChild c m x cs else .lockChild c m x cs))
  | .lockChild c m x cs => s.lockNode t x (.unlockChild c m x cs)
  | .unlockChild c m x cs => some ((s.unlock x).goto t (.moveChild c m x cs))
  | .moveChild c m x cs => some ((s.setParent x m.nr).goto t (.testChild c m cs))
  | .hung c p more =>
      let leaf := if c.height = 0 ∧ c.splitType ≠ 0 then c.child else c.leaf
      let s := s.release { c with leaf := leaf }
      match more with
      | some (next, key) =>
          some (s.goto t (.readParent (.split ⟨leaf, p, next, key, c.height + 1, c.splitType⟩)))
      | none => some ((if p = 0 then s else s.unlock p).goto t (.finish leaf))
  | .removed c p ikey => s.endRemove t c p ikey
  | .finish a => some ((s.unlock a).goto t .idle)
  | _ => none

def step (s : State n) (l : Label n) : Option (State n) :=
  match s.pc l.thread, l.act with
  | .idle, .find a =>
      match s.heap a with
      | some (.leaf _) => some (s.goto l.thread (.lockLeaf a))
      | _ => none
  -- the leaf has changed, the key is not there, or there is room for it
  | .found a, .done => some (s.goto l.thread (.finish a))
  | .found a, .split key splitType =>
      some (((s.alloc (.leaf 0)).acquire l.thread s.fresh).goto l.thread
        (.readParent (.split ⟨a, a, s.fresh, key, 0, splitType⟩)))
  | .found a, .empty ikey => some (s.goto l.thread (.readParent (.remove ⟨a, ikey, 0⟩)))
  | pc, .go => go s l.thread pc
  | _, _ => none

def heightAt (s : State n) (a : Addr) : Option Nat := (s.heap a).map (·.height)

def Below (s : State n) (k : Nat) (a : Addr) : Prop := ∃ j, heightAt s a = some j ∧ j < k

/-- The links of a node lead to higher parents and lower children. -/
structure Linked (s : State n) (shape : Shape) : Prop where
  parent : shape.parent = 0 ∨ ∃ k, heightAt s shape.parent = some k ∧ shape.height < k
  child : ∀ i, shape = .internode i → ∀ j, i.child j = 0 ∨ Below s i.height (i.child j)

/-- A layer on which no call is under way. -/
structure Initial (s : State n) : Prop where
  lock : s.lock = fun _ => none
  pc : s.pc = fun _ => .idle
  null : s.heap 0 = none ∧ 0 < s.fresh
  below : ∀ a, (s.heap a).isSome → a < s.fresh
  linked : ∀ a shape, s.heap a = some shape → Linked s shape

def machine (n : Nat) : Machine (State n) (Label n) where
  initial := Initial
  step := step

/-- The lock that a thread waits for unless it is free. -/
def wants : Pc → Option Addr
  | .lockLeaf a | .lockParent _ a | .lockChild _ _ a _ => some a
  | _ => none

/-- Thread `t` waits for a lock that thread `u` holds. -/
def Waits (s : State n) (t u : Fin n) : Prop :=
  ∃ a, wants (s.pc t) = some a ∧ s.lock a = some u

end Incll.Model.Locks
