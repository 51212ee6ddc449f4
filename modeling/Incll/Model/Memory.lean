import Incll.Model.Node

/-! # The state of a run and the steps that every operation is made of

An operation is a partial function on states: it has no result where the code fails an assertion,
follows a null pointer or spins. -/

namespace Incll.Model

/-- Words in which a node can be stored, as `memcpy` does. -/
class NodeImage (W : Type) extends Word W where
  encode : Node → List W
  decode : List W → Option Node
  decode_encode : ∀ n, decode (encode n) = some n
  encode_length : ∀ n, 8 * (encode n).length = n.allocatedSize

/-- Words that carry a number, or the node they were copied from. -/
inductive Cell where
  | num (n : Nat)
  | part (n : Node) (i : Nat)

instance : NodeImage Cell where
  num := .num
  val
    | .num n => n
    | .part _ _ => 0
  val_num _ _ := rfl
  encode n := (List.range (n.allocatedSize / 8)).map (.part n)
  decode
    | .part n _ :: _ => some n
    | _ => none
  decode_encode n := by
    have words : n.allocatedSize / 8 ≠ 0 := by
      have := n.le_allocatedSize
      omega
    obtain ⟨m, size⟩ := Nat.exists_eq_succ_of_ne_zero words
    simp only [size, List.range_succ_eq_map, List.map_cons]
  encode_length n := by
    have := n.dvd_allocatedSize
    simp only [List.length_map, List.length_range]
    omega

/-- A change of a node, with what was known of the node at that moment. -/
structure Write where
  addr : Addr
  before : Kind
  after : Kind
  saved : Option Kind
  recorded : Bool
  globalepoch : Nat
  failedepoch : Nat

/-- A leaf as an operation found it, and as the committed operations left it. -/
structure Observation where
  addr : Addr
  body : LeafBody
  clean : Option Kind

/-- Branches at which an operation can lose what recovery needs. -/
inductive Hazard where
  /-- `record` goes back to the beginning of the buffer. -/
  | wrap
  /-- `record` writes an entry that `undo` will not read back. -/
  | overrun
  /-- The first save of an epoch finds a valid entry that `undo_incll` would prefer to it. -/
  | staleEntry
  /-- `remove_leaf` hangs a child that was neither logged nor made in this epoch below a new
  parent. -/
  | collapse
  /-- `split_into` moves a locked child that was neither logged nor made in this epoch. -/
  | lockedChild
  /-- `split_into` logs a leaf whose entry of the failed epoch was not yet undone. -/
  | pendingChild
  deriving DecidableEq

/-- The memory and the log; the fields from `clean` on are not part of the program, they say what
happened in the run. -/
structure St (W : Type) where
  heap : Addr → Option Node
  /-- Addresses from here on are free. -/
  fresh : Addr
  root : Addr
  log : PExtNodeLogger W
  globalepoch : Nat
  failedepoch : Nat
  /-- The nodes without the changes of failed epochs. -/
  clean : Addr → Option Kind
  /-- `clean` at the last checkpoint. -/
  committed : Addr → Option Kind
  /-- The nodes at the last checkpoint, as a visit would have left them. -/
  saved : Addr → Option Kind
  /-- The records since the last checkpoint. -/
  recorded : List (Addr × Node)
  writes : List Write
  observed : List Observation
  hazards : List Hazard

namespace St
variable {W : Type}

def isRecorded (s : St W) (a : Addr) : Bool := s.recorded.any fun r => r.1 == a

/-- The node was made since the last checkpoint, or its image is in the log. -/
def isLogged (s : St W) (a : Addr) : Bool := (s.saved a).isNone || s.isRecorded a

def setNode (s : St W) (a : Addr) (n : Node) : St W :=
  { s with heap := Function.update s.heap a (some n) }

/-- Store `k` in the node `n` at `a`; `f` is the same change of the committed content. -/
def write (s : St W) (a : Addr) (n : Node) (k : Kind) (f : Kind → Kind) : St W :=
  { s.setNode a { n with kind := k } with
    clean := Function.update s.clean a ((s.clean a).map f)
    writes := s.writes ++
      [⟨a, n.kind, k, s.saved a, s.isRecorded a, s.globalepoch, s.failedepoch⟩] }

def alloc (s : St W) (n : Node) : St W :=
  { s.setNode s.fresh n with
    clean := Function.update s.clean s.fresh (some n.kind)
    fresh := s.fresh + 1 }

def observe (s : St W) (a : Addr) (b : LeafBody) : St W :=
  { s with observed := s.observed ++ [⟨a, b, s.clean a⟩] }

def note (s : St W) (h : Hazard) (cond : Bool) : St W :=
  { s with hazards := s.hazards ++ if cond then [h] else [] }

def noteRecord [Word W] (s : St W) (e : LogEntry W) : St W :=
  (s.note .wrap (s.log.wraps (PExtNodeLogger.getEntrySize e))).note .overrun
    (!PExtNodeLogger.Benign s.log e)

def append (s : St W) (log : PExtNodeLogger W) (a : Addr) (n : Node) : St W :=
  { s with log := log, recorded := s.recorded ++ [(a, n)] }

end St

abbrev M (W : Type) := StateT (St W) Option

variable {W : Type}

namespace M

def node (a : Addr) : M W Node := do
  match (← get).heap a with
  | some n => return n
  | none => failure

def version (a : Addr) : M W Nodeversion := do return (← node a).version

def leaf (a : Addr) : M W Leaf := do
  match (← node a).kind with
  | .leaf l => return l
  | .internode _ => failure

def internode (a : Addr) : M W Internode := do
  match (← node a).kind with
  | .leaf _ => failure
  | .internode i => return i

def setVersion (a : Addr) (v : Nodeversion) : M W Unit := do
  let n ← node a
  modify (·.setNode a { n with version := v })

def setKind (a : Addr) (k : Kind) (f : Kind → Kind) : M W Unit := do
  let n ← node a
  modify (·.write a n k f)

def modifyBody (a : Addr) (f : LeafBody → LeafBody) : M W Unit := do
  let l ← leaf a
  setKind a (.leaf { l with body := f l.body }) (.mapBody f)

def modifyInternode (a : Addr) (f : Internode → Internode) : M W Unit := do
  let i ← internode a
  setKind a (.internode (f i)) (.mapInternode f)

def setParent (a p : Addr) : M W Unit := do
  let n ← node a
  setKind a (n.kind.setParent p) (.setParent p)

def alloc (n : Node) : M W Addr := do
  let s ← get
  if s.fresh < 2 ^ 64 then
    set (s.alloc n)
    return s.fresh
  else failure

def observe (a : Addr) : M W Unit := do
  let l ← leaf a
  modify (·.observe a l.body)

def hazard (h : Hazard) (cond : Bool) : M W Unit := modify (·.note h cond)

def globalepoch : M W Nat := do return (← get).globalepoch

/-- The number of nodes ever made, which bounds every walk through the tree. -/
def fuel : M W Nat := do return (← get).fresh

/-! Versions. A lock that is held, or a version that is dirty, would make the caller spin. -/

def lock (a : Addr) : M W Unit := do
  let v ← version a
  if v.locked || v.dirty then failure else setVersion a { v with locked := true }

def unlock (a : Addr) : M W Unit := do setVersion a (← version a).unlock

def markInsert (a : Addr) : M W Unit := do
  setVersion a { ← version a with inserting := true }

def markSplit (a : Addr) : M W Unit := do
  setVersion a { ← version a with splitting := true }

def markDeleted (a : Addr) : M W Unit := do
  setVersion a { ← version a with deleted := true, splitting := true }

def stable (a : Addr) : M W Nodeversion := do
  let v ← version a
  if v.dirty then failure else return v

/-! Logging. -/

variable [NodeImage W]

def record (a : Addr) (n : Node) : M W Unit := do
  let s ← get
  let e : LogEntry W := ⟨a, NodeImage.encode n⟩
  match s.log.record e with
  | some log => set ((s.noteRecord e).append log a n)
  | none => failure

/-- Append the image, if there is one, and store the leaf. -/
def logLeaf (a : Addr) (r : Leaf × Option Leaf) : M W Unit := do
  let n ← node a
  match r.2 with
  | some image =>
      record a { n with kind := .leaf image }
      setKind a (.leaf r.1) id
  | none => setKind a (.leaf r.1) id

def recordNode (a : Addr) : M W Unit := do
  let n ← node a
  let ge ← globalepoch
  match n.kind with
  | .leaf l => logLeaf a (l.recordNode ge)
  | .internode i =>
      if i.loggedepoch = ge then return
      record a n
      setKind a (.internode { i with loggedepoch := ge })
        (.mapInternode fun i => { i with loggedepoch := ge })

def saveCl0Insert (a : Addr) : M W Unit := do
  let l ← leaf a
  let ge ← globalepoch
  logLeaf a (l.saveCl0Insert ge)

def saveCl12Update (a : Addr) (p : Nat) : M W Unit := do
  let l ← leaf a
  let ge ← globalepoch
  hazard .staleEntry (l.incll.loggedepoch != ge &&
    (l.incll.cl0Idx != invalidIdx || keyMid ≤ p && l.incll.lvCl1.isClValid))
  logLeaf a (l.saveCl12Update ge p)

def lockPersistent (a : Addr) : M W Unit := do
  lock a
  recordNode a

def lazyRecovery (a : Addr) : M W Unit := do
  let s ← get
  let l ← leaf a
  setKind a (.leaf (l.lazyRecovery s.globalepoch s.failedepoch)) id

end M
end Incll.Model
