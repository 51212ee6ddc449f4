import Incll.Model.Memory

/-! # Tree operations (`masstree_get.hh`, `masstree_insert.hh`, `masstree_split.hh`,
`masstree_remove.hh`, `btree_leaflink.hh`)

One layer: an operation that would enter or make another layer has no result. -/

namespace Incll.Model

/-- What `find_locked` leaves in the cursor: `state` is 0 for a key that was not found, 1 for one
that was, 2 for one that is being inserted and 3 for a slot with the same ikey and another suffix. -/
structure Tcursor where
  n : Addr
  i : Nat
  p : Nat
  state : Nat

variable {W : Type} [NodeImage W]

namespace M

/-! Searching. -/

def fixRoot : M W Addr := do
  let root := (← get).root
  let n ← node root
  if n.version.root then return root
  let root := if n.kind.parent = 0 then root else n.kind.parent
  modify fun s => { s with root := root }
  return root

def climb : Nat → Addr → M W Addr
  | 0, _ => failure
  | fuel + 1, a => do
      let v ← stable a
      if v.root then return a
      let n ← node a
      climb fuel (if n.kind.parent = 0 then a else n.kind.parent)

def descend (ikey : Nat) : Nat → Addr → M W (Addr × Nodeversion)
  | 0, _ => failure
  | fuel + 1, a => do
      let v ← stable a
      let n ← node a
      match n.kind with
      | .leaf _ => return (a, v)
      | .internode i =>
          let c := i.child (i.upper ikey)
          if c = 0 then failure else descend ikey fuel c

def reachLeaf (root : Addr) (k : Key) : M W (Addr × Nodeversion) := do
  let top ← climb (← fuel) root
  descend k.ikey (← fuel) top

/-- The walk along `next_` in `advance_to_key`. -/
def walk (k : Key) : Nat → Addr → Nodeversion → M W (Addr × Nodeversion)
  | 0, _, _ => failure
  | fuel + 1, a, v => do
      let l ← leaf a
      if v.deleted ∨ l.body.next = 0 then return (a, v)
      let next ← leaf l.body.next
      if k.ikey < next.body.ikeyBound then return (a, v)
      walk k fuel l.body.next (← stable l.body.next)

def advanceToKey (k : Key) (a : Addr) (old : Nodeversion) : M W (Addr × Nodeversion) := do
  let v ← stable a
  let l ← leaf a
  let last := l.body.permutation.get (l.body.size - 1)
  if v.hasSplit old && l.body.compareKey k last == .gt then walk k (← fuel) a v
  else return (a, v)

/-- One round of `find_locked` from the label `forward`; `none` is `goto retry`. -/
def forward (k : Key) : Nat → Addr → Nodeversion → M W (Option Tcursor)
  | 0, _, _ => failure
  | fuel + 1, a, v => do
      if v.deleted then return none
      observe a
      let l ← leaf a
      let (i, slot) := l.body.lower k
      lock a
      if (← version a).hasChanged v then
        unlock a
        let (a, v) ← advanceToKey k a v
        forward k fuel a v
      else
        match slot with
        | none => return some ⟨a, i, 0, 0⟩
        | some p =>
            match l.body.ksufMatches p k with
            | .same => return some ⟨a, i, p, 1⟩
            | .differ => return some ⟨a, i, p, 3⟩
            | .layer => failure

/-- The part of `find_locked` before the label `forward`. -/
def reach (k : Key) : M W (Addr × Nodeversion) := do
  let (a, v) ← reachLeaf (← fixRoot) k
  lazyRecovery a
  return (a, v)

def findLocked (k : Key) : M W Tcursor := do
  let (a, v) ← reach k
  match ← forward k (← fuel) a v with
  | some c => return c
  | none => failure

/-- `find_unlocked` and `get`: no other operation runs in between, so the version has not changed
when it is read again. -/
def findUnlocked (k : Key) : M W (Option Leafvalue) := do
  let (a, v) ← reachLeaf (← get).root k
  lazyRecovery a
  if v.deleted then failure
  observe a
  let l ← leaf a
  match l.body.lower k with
  | (_, none) => return none
  | (_, some p) =>
      match l.body.ksufMatches p k with
      | .same => return some (l.body.lv p)
      | .differ => return none
      | .layer => failure

/-! Inserting. -/

def assign (a : Addr) (p : Nat) (k : Key) : M W Unit := do
  let l ← leaf a
  match l.body.assign p k false with
  | some b => modifyBody a (b.copyEntry p)
  | none => failure

def lockedParent (a : Addr) : M W Addr := do
  let n ← node a
  if n.kind.parent = 0 then return 0
  let _ ← internode n.kind.parent
  lockPersistent n.kind.parent
  return n.kind.parent

def linkSplit (a nr : Addr) : M W Unit := do
  let l ← leaf a
  modifyBody nr (.setLinks l.body.next a)
  if l.body.next ≠ 0 then modifyBody l.body.next (.setPrev nr)
  modifyBody a (.setNext nr)

/-- The loop of `internode::split_into` over the children of the new node `nr`. -/
def moveChildren (nr : Addr) : List Addr → M W Unit
  | [] => return
  | c :: cs => do
      let n ← node c
      let s ← get
      if n.version.locked then
        hazard .lockedChild (!s.isLogged c)
      else
        hazard .pendingChild (n.kind.leaf?.any (·.pending s.failedepoch))
        lockPersistent c
        unlock c
      setParent c nr
      moveChildren nr cs

/-- The part of `internode::split_into` that stores the new node and shrinks the old one. -/
def splitOff (a nr : Addr) (right : Internode) (nkeys : Nat) : M W Unit := do
  modifyInternode nr fun _ => right
  moveChildren nr ((List.range (right.nkeys + 1)).map right.child)
  markSplit a
  modifyInternode a fun i => { i with nkeys := nkeys }

/-- `internode::split_into`: the key between the two nodes, and the place where the caller still
has to insert. -/
def splitInto (a nr : Addr) (p ka : Nat) (value : Addr) (splitType : Nat) :
    M W (Nat × Option Nat) := do
  let i ← internode a
  let r ← internode nr
  let mid := if splitType = 2 then internodeWidth else (internodeWidth + 1) / 2
  let (right, key) := i.splitRight r mid p ka value
  if mid < p then setParent value nr
  splitOff a nr right (if p < mid then mid - 1 else mid)
  return (key, if p < mid then some p else none)

/-- A new internode above `n` and `child`, below `p` or as the new root. -/
def makeParent (n child : Addr) (key height p kp : Nat) : M W Unit := do
  let i := (Internode.make (← globalepoch) (height + 1)).setChild 0 n
  let root := p = 0
  let nn ← alloc ⟨{ Nodeversion.make with root := root },
    .internode { i.assign 0 key child with nkeys := 1, parent := p }⟩
  setParent child nn
  if p ≠ 0 then modifyInternode p (·.setChild kp nn)
  setParent n nn

/-- The insertion of `child` behind position `kp` of `p`. -/
def insertChild (p kp key : Nat) (child : Addr) : M W Unit := do
  setParent child p
  modifyInternode p fun i => { (i.shiftUp (kp + 1) kp (i.nkeys - kp)).assign kp key child with
    nkeys := i.nkeys + 1 }

/-- The part of the loop of `make_split` that shrinks the leaf `a` after `nr` was hung into the
tree: the cursor for the new key. -/
def finishLeafSplit (a nr : Addr) (c : Tcursor) (k : Key) (splitType : Nat) : M W Tcursor := do
  let l ← leaf a
  let r ← leaf nr
  let width := l.body.size
  let perml := l.body.permutation.setSize (width - r.body.size)
  let perml := if width ≠ leafWidth then perml.exchange perml.size (leafWidth - 1) else perml
  markSplit a
  modifyBody a (.setPermutation perml)
  if splitType = 0 then
    assign a perml.back k
    return { c with p := perml.back }
  else
    return { c with n := nr, i := c.i - perml.size, p := c.i - perml.size }

/-- The part of an iteration of `make_split` that hangs `child` next to `n` into the tree. It
returns the parent, and the new internode and its key if the parent was split too. -/
def hang (n child : Addr) (key height splitType : Nat) : M W (Addr × Option (Addr × Nat)) := do
  let p ← lockedParent n
  if p = 0 then
    makeParent n child key height 0 0
    return (0, none)
  let i ← internode p
  let kp := i.upper key
  markInsert p
  if height + 1 < i.height then
    makeParent n child key height p kp
    return (p, none)
  else if internodeWidth ≤ i.nkeys then
    let v ← version p
    let next ← alloc ⟨{ v with root := false }, .internode (.make (← globalepoch) (height + 1))⟩
    let (nextKey, rest) ← splitInto p next kp key child splitType
    match rest with
    | some kp => insertChild p kp key child
    | none => pure ()
    return (p, some (next, nextKey))
  else
    insertChild p kp key child
    return (p, none)

/-- The iterations of `make_split` above the leaves. -/
def splitUp : Nat → Addr → Addr → Nat → Nat → Nat → M W Unit
  | 0, _, _, _, _, _ => failure
  | fuel + 1, n, child, key, height, splitType => do
      let (p, more) ← hang n child key height splitType
      unlock n
      unlock child
      match more with
      | some (next, nextKey) => splitUp fuel p next nextKey (height + 1) splitType
      | none => if p = 0 then return else unlock p

/-- `make_split` for a leaf with a free slot other than slot 0. -/
def exchangeSlot (c : Tcursor) (k : Key) : M W (Option Tcursor) := do
  let l ← leaf c.n
  if l.body.size < leafWidth then
    let perm := l.body.permutation.exchange l.body.size (leafWidth - 1)
    if perm.back ≠ 0 then
      modifyBody c.n (.setPermutation perm)
      assign c.n perm.back k
      return some { c with p := perm.back }
  return none

def makeSplit (c : Tcursor) (k : Key) : M W Tcursor := do
  if let some c ← exchangeSlot c k then return c
  let n ← node c.n
  let l ← leaf c.n
  let ge ← globalepoch
  match l.body.splitInto (.make l.body.ksufUsedCapacity) c.i k with
  | none => failure
  | some (right, key, splitType) =>
      let child ← alloc ⟨n.version, .leaf ⟨.make ge, right⟩⟩
      linkSplit c.n child
      let (p, more) ← hang c.n child key 0 splitType
      let c' ← finishLeafSplit c.n child c k splitType
      unlock (if splitType = 0 then child else c.n)
      match more with
      | some (next, nextKey) => splitUp (← fuel) p next nextKey 1 splitType
      | none => if p = 0 then pure () else unlock p
      return c'

/-- The part of `find_insert` for a new key, after the reset of `modstate_`. -/
def insertAt (c : Tcursor) (k : Key) : M W Tcursor := do
  let l ← leaf c.n
  let p := l.body.permutation.back
  if l.body.size < leafWidth ∧ (p ≠ 0 ∨ l.body.prev = 0 ∨ l.body.ikeyBound = k.ikey) then
    saveCl0Insert c.n
    assign c.n p k
    return { c with p := p }
  else
    recordNode c.n
    makeSplit c k

def findInsert (k : Key) : M W Tcursor := do
  let c ← findLocked k
  if c.state = 1 then
    saveCl12Update c.n c.p
    return c
  if c.state = 3 then failure
  let l ← leaf c.n
  if l.body.modstate ≠ .insert then
    markInsert c.n
    modifyBody c.n (.setModstate .insert)
  insertAt { c with state := 2 } k

def finishInsert (c : Tcursor) : M W Unit := do
  let l ← leaf c.n
  let perm := l.body.permutation.insertFromBack c.i
  setKind c.n (.leaf { l with body := l.body.setPermutation perm }) (.mapBody (l.body.publish c.i))

/-- `find_insert`, the assignment of the value and `finish(1)`. -/
def put (k : Key) (v : Leafvalue) : M W Unit := do
  let c ← findInsert k
  modifyBody c.n (.setValue c.p v)
  if c.state = 2 then finishInsert c
  unlock c.n

/-! Removing. -/

def unlinkFrom (a prev next : Addr) : M W Unit := do
  let l ← leaf prev
  if l.body.next = a then
    if next ≠ 0 then modifyBody next (.setPrev prev)
    modifyBody prev (.setNext next)
  else failure

def unlink (a : Addr) : M W Unit := do
  let l ← leaf a
  if l.body.next ≠ 0 then modifyBody a .markNext
  unlinkFrom a l.body.prev l.body.next

/-- The store of `redirect` in one node; true if the loop goes on. -/
def redirectAt (ikey replacement : Nat) (p : Addr) : M W Bool := do
  let i ← internode p
  let kp := i.upper ikey
  if 0 < kp then modifyInternode p (·.setKey (kp - 1) replacement)
  return kp = 0 ∨ kp = 1 ∧ i.child 0 = 0

def redirect (ikey replacement : Nat) : Nat → Addr → Bool → M W Unit
  | 0, _, _ => failure
  | fuel + 1, n, held => do
      let p ← lockedParent n
      if held then unlock n
      if ← redirectAt ikey replacement p then redirect ikey replacement fuel p true
      else unlock p

/-- The replacement of child `kp` of `p`. -/
def replaceChild (p kp : Nat) (replacement : Addr) : M W Unit := do
  modifyInternode p (·.setChild kp replacement)
  if replacement ≠ 0 then
    hazard .collapse (!(← get).isLogged replacement)
    setParent replacement p
  else if 0 < kp then
    modifyInternode p fun i =>
      { i.shiftDown (kp - 1) kp (i.nkeys - kp) with nkeys := i.nkeys - 1 }

/-- The first part of an iteration of `remove_leaf`: the parent of `n` and the key by which the next
iteration searches. -/
def removeChild (n : Addr) (ikey : Nat) (replacement : Addr) : M W (Addr × Nat) := do
  let p ← lockedParent n
  markInsert p
  let kp := (← internode p).upper ikey
  replaceChild p kp replacement
  let i ← internode p
  if kp ≤ 1 ∧ 0 < i.nkeys ∧ i.child 0 = 0 then
    redirect ikey (i.ikey0 0) (← fuel) p false
    return (p, i.ikey0 0)
  else return (p, ikey)

/-- The loop of `remove_leaf`. -/
def removeUp : Nat → Addr → Nat → Addr → M W Unit
  | 0, _, _, _ => failure
  | fuel + 1, n, ikey, replacement => do
      let (p, ikey) ← removeChild n ikey replacement
      unlock n
      let i ← internode p
      let v ← version p
      if (if i.child 0 = 0 then 1 else 0) < i.nkeys ∨ v.root then
        unlock p
      else
        markDeleted p
        modifyInternode p fun i => i.setChild i.nkeys 0
        removeUp fuel p ikey (i.child i.nkeys)

/-- `remove_leaf`, for the empty prefix; false if the leaf stays. -/
def removeLeaf (a : Addr) : M W Bool := do
  let l ← leaf a
  if l.body.prev = 0 then return false
  markDeleted a
  unlink a
  removeUp (← fuel) a l.body.ikeyBound 0
  return true

def finishRemove (c : Tcursor) : M W Bool := do
  let l ← leaf c.n
  if l.body.modstate = .insert then
    markInsert c.n
    modifyBody c.n (.setModstate .remove)
  let perm := l.body.permutation.remove c.i
  modifyBody c.n (.setPermutation perm)
  if perm.size ≠ 0 then return false else removeLeaf c.n

/-- `find_locked`, `log_persistent` and `finish(-1)`. -/
def remove (k : Key) : M W Unit := do
  let c ← findLocked k
  if c.state = 1 then
    recordNode c.n
    if ← finishRemove c then return
  unlock c.n

end M
end Incll.Model
