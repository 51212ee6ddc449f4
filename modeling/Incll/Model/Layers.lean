import Incll.Model.Node

/-! # The table (`masstree_get.hh`, `masstree_insert.hh`, `masstree_split.hh`, `masstree_remove.hh`)

All layers, one operation after the other. The logging words stay as they are made; `Memory` and
`Tree` are about them. Nodes that are given back are not used again. -/

namespace Incll.Model

namespace Key

/-- `make_comparable`. -/
def comparable (s : List UInt8) : Nat :=
  (List.range ikeySize).foldl (fun x i => 256 * x + (s.getD i 0).toNat) 0

def ofBytes (s : List UInt8) : Key := ⟨comparable s, s.length, s.drop ikeySize⟩

def compareKey (k x : Key) : Ordering := k.compare x.ikey x.len

end Key

namespace Leafvalue

/-- The word as a pointer to a layer. -/
def layer (v : Leafvalue) : Addr := v.x.toNat

def ofLayer (a : Addr) : Leafvalue :=
  ⟨BitVec.ofNat 64 a &&& IncllLv.lvMask, by rw [BitVec.and_assoc, BitVec.and_not_self]; simp⟩

end Leafvalue

namespace LeafBody

def assignInitializeForLayer (b : LeafBody) (p : Nat) (k : Key) : LeafBody :=
  { b with
    ikey0 := Function.update b.ikey0 p k.ikey
    keylenx := Function.update b.keylenx p layerKeylenx }

def isLayer (b : LeafBody) (p : Nat) : Bool := b.keylenx p == layerKeylenx

end LeafBody

namespace Layers

/-- An operation stops when no memory is left. It is stuck where the code fails an assertion, follows
a null pointer or spins. -/
inductive Stop where
  | memory | stuck
  deriving DecidableEq

/-- `gc_layer_rcu_callback`. -/
structure Callback where
  root : Addr
  s : List UInt8

structure Mem where
  kind : Addr → Option Kind
  version : Addr → Nodeversion
  /-- Addresses from here on are free. -/
  fresh : Addr
  root : Addr
  callbacks : List Callback

/-- `tcursor`: `ka_` is shifted over the bytes in `before`, and `p` is `none` for -1. -/
structure Tcursor where
  root : Addr
  n : Addr
  i : Nat
  p : Option Nat
  state : Nat
  before : List UInt8
  rest : List UInt8

def Tcursor.key (c : Tcursor) : Key := Key.ofBytes c.rest

abbrev T := StateT Mem (Except Stop)

variable {α : Type}

def stuck : T α := throw .stuck

def kind (a : Addr) : T Kind := do
  match (← get).kind a with
  | some k => return k
  | none => stuck

def leaf (a : Addr) : T LeafBody := do
  match ← kind a with
  | .leaf l => return l.body
  | .internode _ => stuck

def internode (a : Addr) : T Internode := do
  match ← kind a with
  | .leaf _ => stuck
  | .internode i => return i

def version (a : Addr) : T Nodeversion := do
  let _ ← kind a
  return (← get).version a

def setVersion (a : Addr) (v : Nodeversion) : T Unit :=
  modify fun s => { s with version := Function.update s.version a v }

def setKind (a : Addr) (k : Kind) : T Unit :=
  modify fun s => { s with kind := Function.update s.kind a (some k) }

def modifyBody (a : Addr) (f : LeafBody → LeafBody) : T Unit := do
  let _ ← leaf a
  setKind a ((← kind a).mapBody f)

def modifyInternode (a : Addr) (f : Internode → Internode) : T Unit := do
  let _ ← internode a
  setKind a ((← kind a).mapInternode f)

def setParent (a p : Addr) : T Unit := do setKind a ((← kind a).setParent p)

def parent (a : Addr) : T Addr := do return (← kind a).parent

def maybeParent (a : Addr) : T Addr := do
  let p ← parent a
  return if p = 0 then a else p

/-- A node takes at most eight cache lines. -/
def nodeSize : Nat := 512

/-- `leafvalue` leaves 56 bits for an address. -/
def memoryLimit : Nat := 2 ^ 56

def alloc (v : Nodeversion) (k : Kind) : T Addr := do
  let s ← get
  if s.fresh + nodeSize ≤ memoryLimit then
    set { s with
      kind := Function.update s.kind s.fresh (some k)
      version := Function.update s.version s.fresh v
      fresh := s.fresh + nodeSize }
    return s.fresh
  else throw .memory

/-- Every walk through the nodes is shorter than this. -/
def fuel : T Nat := do return (← get).fresh

def lock (a : Addr) : T Unit := do
  let v ← version a
  if v.locked || v.dirty then stuck else setVersion a { v with locked := true }

def unlock (a : Addr) : T Unit := do setVersion a (← version a).unlock

def markInsert (a : Addr) : T Unit := do setVersion a { ← version a with inserting := true }

def markSplit (a : Addr) : T Unit := do setVersion a { ← version a with splitting := true }

def markDeleted (a : Addr) : T Unit := do
  setVersion a { ← version a with deleted := true, splitting := true }

def stable (a : Addr) : T Nodeversion := do
  let v ← version a
  if v.dirty then stuck else return v

def makeLayerRoot (a : Addr) : T Unit := do
  setParent a 0
  setVersion a { ← version a with root := true }

/-! Searching. -/

/-- `basic_table::fix_root`. -/
def fixRoot : T Addr := do
  let root := (← get).root
  if (← version root).root then return root
  let root ← maybeParent root
  modify fun s => { s with root := root }
  return root

def climb : Nat → Addr → T Addr
  | 0, _ => stuck
  | fuel + 1, a => do
      if (← stable a).root then return a
      climb fuel (← maybeParent a)

def descend (ikey : Nat) : Nat → Addr → T (Addr × Nodeversion)
  | 0, _ => stuck
  | fuel + 1, a => do
      let v ← stable a
      match ← kind a with
      | .leaf _ => return (a, v)
      | .internode i =>
          let c := i.child (i.upper ikey)
          if c = 0 then stuck else descend ikey fuel c

def reachLeaf (root : Addr) (k : Key) : T (Addr × Nodeversion) := do
  let top ← climb (← fuel) root
  descend k.ikey (← fuel) top

/-- `find_unlocked`. No other operation runs in between, so a version that is read again has not
changed, and a second search ends in the same leaf. -/
def findUnlockedFrom : Nat → Addr → List UInt8 → T (Option Leafvalue)
  | 0, _, _ => stuck
  | fuel + 1, root, rest => do
      let k := Key.ofBytes rest
      let (a, v) ← reachLeaf root k
      if v.deleted then stuck
      let b ← leaf a
      match (b.lower k).2 with
      | none => return none
      | some p =>
          match b.ksufMatches p k with
          | .same => return some (b.lv p)
          | .differ => return none
          | .layer => findUnlockedFrom fuel (b.lv p).layer (rest.drop ikeySize)

def findUnlocked (s : List UInt8) : T (Option Leafvalue) := do
  findUnlockedFrom (s.length + 1) (← get).root s

/-- `find_locked` from the label `retry`. -/
def findLockedFrom (top : Addr) : Nat → Addr → List UInt8 → List UInt8 → T Tcursor
  | 0, _, _, _ => stuck
  | fuel + 1, root, before, rest => do
      let k := Key.ofBytes rest
      let (a, v) ← reachLeaf root k
      if v.deleted then stuck
      let b ← leaf a
      let kx := b.lower k
      let state := kx.2.map (b.ksufMatches · k)
      if state = some .layer then
        let p := kx.2.getD 0
        let layer := (b.lv p).layer
        if (← version layer).root then
          findLockedFrom top fuel layer (before ++ rest.take ikeySize) (rest.drop ikeySize)
        else
          lock a
          let layer ← maybeParent layer
          modifyBody a (.setValue p (.ofLayer layer))
          unlock a
          findLockedFrom top fuel layer (before ++ rest.take ikeySize) (rest.drop ikeySize)
      else
        lock a
        if b.modstate = .deletedLayer then findLockedFrom top fuel top [] (before ++ rest)
        else return ⟨top, a, kx.1, kx.2, if state = some .same then 1 else 0, before, rest⟩

def findLocked (root : Addr) (s : List UInt8) : T Tcursor :=
  findLockedFrom root (s.length + 1) root [] s

/-! Inserting. -/

def assign (a : Addr) (p : Nat) (k : Key) : T Unit := do
  match (← leaf a).assign p k false with
  | some b => modifyBody a fun _ => b
  | none => stuck

def lockedParent (a : Addr) : T Addr := do
  let p ← parent a
  if p = 0 then return 0
  let _ ← internode p
  lock p
  return p

def linkSplit (a nr : Addr) : T Unit := do
  let b ← leaf a
  modifyBody nr (.setLinks b.next a)
  if b.next ≠ 0 then modifyBody b.next (.setPrev nr)
  modifyBody a (.setNext nr)

/-- The loop of `internode::split_into` over the children of the new node `nr`. -/
def moveChildren (nr : Addr) : List Addr → T Unit
  | [] => return
  | c :: cs => do
      if !(← version c).locked then
        lock c
        unlock c
      setParent c nr
      moveChildren nr cs

/-- `internode::split_into`: the key between the two nodes, and the place where the caller still has
to insert. -/
def splitInto (a nr : Addr) (p ka : Nat) (value : Addr) (splitType : Nat) :
    T (Nat × Option Nat) := do
  let i ← internode a
  let r ← internode nr
  let mid := if splitType = 2 then internodeWidth else (internodeWidth + 1) / 2
  let (right, key) := i.splitRight r mid p ka value
  if mid < p then setParent value nr
  modifyInternode nr fun _ => right
  moveChildren nr ((List.range (right.nkeys + 1)).map right.child)
  markSplit a
  modifyInternode a fun i => { i with nkeys := if p < mid then mid - 1 else mid }
  return (key, if p < mid then some p else none)

/-- A new internode above `n` and `child`, below `p` or as the new root. -/
def makeParent (n child : Addr) (key height p kp : Nat) : T Unit := do
  let nn ← alloc .make (.internode
    { ((Internode.make 0 (height + 1)).setChild 0 n).assign 0 key child with nkeys := 1 })
  setParent child nn
  if p = 0 then makeLayerRoot nn
  else
    setParent nn p
    modifyInternode p (·.setChild kp nn)
  setParent n nn

/-- The insertion of `child` behind position `kp` of `p`. -/
def insertChild (p kp key : Nat) (child : Addr) : T Unit := do
  setParent child p
  modifyInternode p fun i => { (i.shiftUp (kp + 1) kp (i.nkeys - kp)).assign kp key child with
    nkeys := i.nkeys + 1 }

/-- The part of an iteration of `make_split` that hangs `child` next to `n` into the tree. It returns
the parent, and the new internode and its key if the parent was split too. -/
def hang (n child : Addr) (key height splitType : Nat) : T (Addr × Option (Addr × Nat)) := do
  let p ← lockedParent n
  if p = 0 then
    makeParent n child key height 0 0
    return (0, none)
  let i ← internode p
  let kp := i.upper key
  markInsert p
  if height + 1 < i.height then
    makeParent n child key height p kp
    return (p, none)
  else if internodeWidth ≤ i.nkeys then
    let v ← version p
    let next ← alloc { v with root := false } (.internode (.make 0 (height + 1)))
    let (nextKey, rest) ← splitInto p next kp key child splitType
    match rest with
    | some kp => insertChild p kp key child
    | none => pure ()
    return (p, some (next, nextKey))
  else
    insertChild p kp key child
    return (p, none)

/-- The part of the loop of `make_split` for the leaf `a` after `nr` was hung into the tree. -/
def finishLeafSplit (a nr : Addr) (c : Tcursor) (splitType : Nat) : T Tcursor := do
  let b ← leaf a
  let r ← leaf nr
  let perml := b.permutation.setSize (b.size - r.size)
  let perml := if b.size ≠ leafWidth then perml.exchange perml.size (leafWidth - 1) else perml
  markSplit a
  modifyBody a (.setPermutation perml)
  if splitType = 0 then
    assign a perml.back c.key
    return { c with p := some perml.back }
  else
    return { c with n := nr, i := c.i - perml.size, p := some (c.i - perml.size) }

/-- The iterations of `make_split` above the leaves. -/
def splitUp : Nat → Addr → Addr → Nat → Nat → Nat → T Unit
  | 0, _, _, _, _, _ => stuck
  | fuel + 1, n, child, key, height, splitType => do
      let (p, more) ← hang n child key height splitType
      unlock n
      unlock child
      match more with
      | some (next, nextKey) => splitUp fuel p next nextKey (height + 1) splitType
      | none => if p = 0 then return else unlock p

/-- `make_split` for a leaf with a free slot other than slot 0. -/
def exchangeSlot (c : Tcursor) : T (Option Tcursor) := do
  let b ← leaf c.n
  if b.size < leafWidth then
    let perm := b.permutation.exchange b.size (leafWidth - 1)
    if perm.back ≠ 0 then
      modifyBody c.n (.setPermutation perm)
      assign c.n perm.back c.key
      return some { c with p := some perm.back }
  return none

def makeSplit (c : Tcursor) : T Tcursor := do
  if let some c ← exchangeSlot c then return c
  let v ← version c.n
  let b ← leaf c.n
  match b.splitInto (.make b.ksufUsedCapacity) c.i c.key with
  | none => stuck
  | some (right, key, splitType) =>
      let child ← alloc v (.leaf ⟨.make 0, right⟩)
      linkSplit c.n child
      let (p, more) ← hang c.n child key 0 splitType
      let c' ← finishLeafSplit c.n child c splitType
      unlock (if splitType = 0 then child else c.n)
      match more with
      | some (next, nextKey) => splitUp (← fuel) p next nextKey 1 splitType
      | none => if p = 0 then pure () else unlock p
      return c'

/-- `leaf::make_root`. -/
def makeRoot (b : LeafBody) : T Addr :=
  alloc { Nodeversion.make with root := true } (.leaf ⟨.make 0, b⟩)

/-- What `make_new_layer` keeps of the twig: `oka` and `ka` are the bytes that are left. -/
structure Twig where
  head : Addr
  tail : Addr
  before : List UInt8
  oka : List UInt8
  ka : List UInt8

/-- The nodes that `make_new_layer` makes until the suffixes diverge. -/
def makeTwig (n : Addr) : Nat → Twig → T Twig
  | 0, _ => stuck
  | fuel + 1, t => do
      if (Key.ofBytes t.oka).compareKey (Key.ofBytes t.ka) = .eq then
        let nl ← makeRoot { (LeafBody.make 0).assignInitializeForLayer 0 (Key.ofBytes t.oka) with
          permutation := .makeSorted 1 }
        if t.head ≠ n then modifyBody t.tail (.setValue 0 (.ofLayer nl))
        makeTwig n fuel ⟨if t.head ≠ n then t.head else nl, nl, t.before ++ t.ka.take ikeySize,
          t.oka.drop ikeySize, t.ka.drop ikeySize⟩
      else return t

/-- The space for suffixes in the last node of the twig. -/
def ksufsize (oka ka : Key) : Nat :=
  if ka.hasSuffix || oka.hasSuffix then
    ((ka.len - ikeySize) + (oka.len - ikeySize)) * (leafWidth / 2) + Stringbag.overhead 1 leafWidth
  else 0

/-- The last node: the old entry with value `lv`, and a free slot for the new one. -/
def newLayerBody (oka ka : Key) (lv : Leafvalue) : Option LeafBody := do
  let below := oka.compareKey ka == .lt
  let b ← (LeafBody.make (ksufsize oka ka)).assign 0 (if below then oka else ka) true
  let b ← b.assign 1 (if below then ka else oka) true
  return (b.setValue (if below then 0 else 1) lv).setPermutation
    (if below then .makeSorted 1 else (Kpermuter.makeSorted 2).removeToBack 0)

def makeNewLayer (c : Tcursor) (p : Nat) : T Tcursor := do
  let b ← leaf c.n
  let t ← makeTwig c.n (c.rest.length + 1) ⟨c.n, c.n, c.before ++ c.rest.take ikeySize, b.getKsuf p,
    c.rest.drop ikeySize⟩
  match newLayerBody (Key.ofBytes t.oka) (Key.ofBytes t.ka) (b.lv p) with
  | none => stuck
  | some nb =>
      let nl ← makeRoot nb
      lock nl
      markInsert c.n
      if t.tail ≠ c.n then modifyBody t.tail (.setValue 0 (.ofLayer nl))
      modifyBody c.n (.setValue p (.ofLayer (if t.head ≠ c.n then t.head else nl)))
      modifyBody c.n fun b => { b with keylenx := Function.update b.keylenx p layerKeylenx }
      unlock c.n
      let i := if (Key.ofBytes t.oka).compareKey (Key.ofBytes t.ka) = .lt then 1 else 0
      return { c with n := nl, i := i, p := some i, before := t.before, rest := t.ka }

/-- The part of `find_insert` for a new entry, after the reset of `modstate_`. -/
def insertAt (c : Tcursor) : T Tcursor := do
  let b ← leaf c.n
  let p := b.permutation.back
  if b.size < leafWidth ∧ (p ≠ 0 ∨ b.prev = 0 ∨ b.ikeyBound = c.key.ikey) then
    assign c.n p c.key
    return { c with p := some p }
  else makeSplit c

def findInsert (s : List UInt8) : T Tcursor := do
  let c ← findLocked (← fixRoot) s
  if c.state = 1 then return c
  let c := { c with state := 2 }
  match c.p with
  | some p => makeNewLayer c p
  | none =>
      if (← leaf c.n).modstate ≠ .insert then
        markInsert c.n
        modifyBody c.n (.setModstate .insert)
      insertAt c

def finishInsert (c : Tcursor) : T Unit :=
  modifyBody c.n fun b => b.setPermutation (b.permutation.insertFromBack c.i)

/-- `find_insert`, the assignment of the value and `finish(1)`. -/
def put (s : List UInt8) (v : Leafvalue) : T Unit := do
  let c ← findInsert s
  modifyBody c.n (.setValue (c.p.getD 0) v)
  if c.state = 2 then finishInsert c
  unlock c.n

/-! Removing. -/

def unlinkFrom (a prev next : Addr) : T Unit := do
  if (← leaf prev).next = a then
    if next ≠ 0 then modifyBody next (.setPrev prev)
    modifyBody prev (.setNext next)
  else stuck

def unlink (a : Addr) : T Unit := do
  let b ← leaf a
  if b.next ≠ 0 then modifyBody a .markNext
  unlinkFrom a b.prev b.next

def redirect (ikey replacement : Nat) : Nat → Addr → Bool → T Unit
  | 0, _, _ => stuck
  | fuel + 1, n, held => do
      let p ← lockedParent n
      if held then unlock n
      let i ← internode p
      let kp := i.upper ikey
      if 0 < kp then modifyInternode p (·.setKey (kp - 1) replacement)
      if kp = 0 ∨ kp = 1 ∧ i.child 0 = 0 then redirect ikey replacement fuel p true
      else unlock p

/-- The replacement of child `kp` of `p`. -/
def replaceChild (p kp : Nat) (replacement : Addr) : T Unit := do
  modifyInternode p (·.setChild kp replacement)
  if replacement ≠ 0 then setParent replacement p
  else if 0 < kp then
    modifyInternode p fun i =>
      { i.shiftDown (kp - 1) kp (i.nkeys - kp) with nkeys := i.nkeys - 1 }

/-- The loop of `remove_leaf`. -/
def removeUp : Nat → Addr → Nat → Addr → T Unit
  | 0, _, _, _ => stuck
  | fuel + 1, n, ikey, replacement => do
      let p ← lockedParent n
      markInsert p
      let kp := (← internode p).upper ikey
      if (← internode p).child kp ≠ n then stuck
      replaceChild p kp replacement
      let i ← internode p
      let moved := kp ≤ 1 ∧ 0 < i.nkeys ∧ i.child 0 = 0
      if moved then redirect ikey (i.ikey0 0) (← Layers.fuel) p false
      let ikey := if moved then i.ikey0 0 else ikey
      unlock n
      if (if i.child 0 = 0 then 1 else 0) < i.nkeys ∨ (← version p).root then
        unlock p
      else
        markDeleted p
        modifyInternode p fun i => i.setChild i.nkeys 0
        removeUp fuel p ikey (i.child i.nkeys)

/-- `remove_leaf`; false if the leaf stays. -/
def removeLeaf (a root : Addr) (s : List UInt8) : T Bool := do
  let b ← leaf a
  if b.prev = 0 then
    if b.next = 0 ∧ s ≠ [] then
      modify fun m => { m with callbacks := m.callbacks ++ [⟨root, s⟩] }
    return false
  markDeleted a
  unlink a
  removeUp (← fuel) a b.ikeyBound 0
  return true

def finishRemove (c : Tcursor) : T Bool := do
  if (← leaf c.n).modstate = .insert then
    markInsert c.n
    modifyBody c.n (.setModstate .remove)
  let perm := (← leaf c.n).permutation.remove c.i
  modifyBody c.n (.setPermutation perm)
  if perm.size ≠ 0 then return false
  removeLeaf c.n c.root c.before

/-- `find_locked` and `finish(-1)`. -/
def remove (s : List UInt8) : T Unit := do
  let c ← findLocked (← fixRoot) s
  if c.state = 1 then
    if ← finishRemove c then return
  unlock c.n

/-! `gc_layer`. -/

/-- The loop over the internodes of a layer; true if the layer was an empty leaf. -/
def dropLayer (n p : Addr) : Nat → T Bool
  | 0 => stuck
  | fuel + 1 => do
      let layer := ((← leaf n).lv p).layer
      if !(← version layer).root then
        modifyBody n (.setValue p (.ofLayer (← maybeParent layer)))
        dropLayer n p fuel
      else
        match ← kind layer with
        | .internode i =>
            if 0 < i.nkeys then return false
            lock layer
            let child := i.child 0
            makeLayerRoot child
            modifyBody n (.setValue p (.ofLayer child))
            markSplit layer
            setParent layer child
            unlock layer
            dropLayer n p fuel
        | .leaf l =>
            if 0 < l.body.size then return false
            lock layer
            modifyBody layer (.setModstate .deletedLayer)
            unlock layer
            return true

/-- The cursor with the entry to remove, if there is one. -/
def gcLayer (root : Addr) (s : List UInt8) : T (Tcursor × Bool) := do
  let c ← findLocked root s
  let b ← leaf c.n
  if (← version c.n).deleted then stuck
  if c.key.hasSuffix then return (c, false)
  let i := c.i + if c.p.isSome then 1 else 0
  let p := b.permutation.get i
  let c := { c with i := i, p := some p }
  if i < b.size ∧ b.ikey0 p = c.key.ikey ∧ b.isLayer p then
    return (c, ← dropLayer c.n p (← fuel))
  else return (c, false)

def findRoot : Nat → Addr → T Addr
  | 0, _ => stuck
  | fuel + 1, a => do
      if (← version a).root then return a
      findRoot fuel (← maybeParent a)

def runCallback (cb : Callback) : T Unit := do
  let root ← findRoot (← fuel) cb.root
  if (← version root).deleted then return
  let (c, doRemove) ← gcLayer root cb.s
  if doRemove then
    if ← finishRemove c then return
  unlock c.n

end Layers
end Incll.Model
