import Incll.Model.Tree

/-! # Checkpoints and recovery (`incll_pextlog.hh`, `masstree_struct.hh`, `mttest.cc`) -/

namespace Incll.Model

namespace Node

/-- `fix_all` of a leaf, `fix_lock` of an internode. -/
def fixState (n : Node) : Node :=
  match n.kind with
  | .leaf l =>
      { version := n.version.resetState
        kind := .leaf { l with body := { l.body with modstate := .insert } } }
  | .internode _ => { n with version := n.version.fixLock }

end Node

def Kind.lazyRecovery (globalepoch failedepoch : Nat) : Kind → Kind
  | .leaf l => .leaf (l.lazyRecovery globalepoch failedepoch)
  | .internode i => .internode i

variable {W : Type} [NodeImage W]

/-- The nodes as a visit of each leaf would leave them. -/
def St.recovered (s : St W) (a : Addr) : Option Kind :=
  (s.heap a).map (·.kind.lazyRecovery s.globalepoch s.failedepoch)

/-- The committed content; a node that was made in a failed epoch and never given back counts from
the next checkpoint on. -/
def St.known (s : St W) (a : Addr) : Option Kind := (s.clean a).or (s.recovered a)

/-- The committed content after a restart; a node that was made since the last checkpoint is no part of
the tree any more and counts with what it holds. -/
def St.restored (s : St W) (a : Addr) : Option Kind := (s.committed a).or (s.recovered a)

/-- The body of the loop of `undo`. -/
def undoEntry (heap : Addr → Option Node) (e : LogEntry W) : Option (Addr → Option Node) :=
  (NodeImage.decode e.content).map fun n => Function.update heap e.nodeAddr (some n.fixState)

namespace M

/-- A global flush, the next epoch and `checkpoint`. -/
def advance : M W Unit := do
  modify fun s => { s with globalepoch := s.globalepoch + 1 }
  modify fun s => { s with
    log := s.log.checkpoint s.root
    clean := s.known
    committed := s.known
    saved := s.recovered
    recorded := [] }

def getMaxLeaf : Nat → Addr → M W Addr
  | 0, _ => failure
  | fuel + 1, a => do
      match (← node a).kind with
      | .leaf _ => return a
      | .internode i => getMaxLeaf fuel (i.child i.nkeys)

def getMinLeaf : Nat → Addr → M W Addr
  | 0, _ => failure
  | fuel + 1, a => do
      match (← node a).kind with
      | .leaf _ => return a
      | .internode i => getMinLeaf fuel (if i.child 0 ≠ 0 then i.child 0 else i.child 1)

def getPrevSafe : Nat → Addr → M W Addr
  | 0, _ => failure
  | fuel + 1, a => do
      let n ← node a
      if n.kind.parent = 0 then return 0
      let i ← internode n.kind.parent
      match i.findChildIdx a with
      | none => failure
      | some idx =>
          if 0 < idx ∧ i.child (idx - 1) ≠ 0 then getMaxLeaf (← M.fuel) (i.child (idx - 1))
          else getPrevSafe fuel n.kind.parent

def getNextSafe : Nat → Addr → M W Addr
  | 0, _ => failure
  | fuel + 1, a => do
      let n ← node a
      if n.kind.parent = 0 then return 0
      let i ← internode n.kind.parent
      match i.findChildIdx a with
      | none => failure
      | some idx =>
          if idx < i.nkeys then getMinLeaf (← M.fuel) (i.child (idx + 1))
          else getNextSafe fuel n.kind.parent

/-- The repair of the links of one leaf in `undo_next_prev`. -/
def relink (a : Addr) : M W Unit := do
  let prev ← getPrevSafe (← fuel) a
  let next ← getNextSafe (← fuel) a
  modifyBody a (.setLinks next prev)
  if prev ≠ 0 then modifyBody prev (.setNext a)
  if next ≠ 0 then modifyBody next (.setPrev a)

def load (offset : Nat) : M W W := do
  match (← get).log.load offset with
  | some w => return w
  | none => failure

/-- The loop of `undo_next_prev`. The node is read from the header before the test that sends the
reader back to the beginning of the buffer. -/
def undoNextPrev : Nat → Nat → M W Unit
  | 0, flush => do if flush = (← get).log.curr then return else failure
  | fuel + 1, flush => do
      let log := (← get).log
      if flush = log.curr then return
      let addr ← load (flush + 8)
      match log.endsAt flush with
      | none => failure
      | some back =>
          let start := if back then 0 else flush
          let size ← load start
          match (← node (Word.val addr)).kind with
          | .leaf _ => relink (Word.val addr)
          | .internode _ => pure ()
          undoNextPrev fuel ((start + Word.val size) % 2 ^ 64)

/-- A crash in the current epoch and the eager part of recovery. -/
def restart : M W Unit := do
  let s ← get
  match PExtNodeLogger.undo undoEntry s.log.bufSize s.log s.heap with
  | none => failure
  | some (log, heap) =>
      set { s with root := s.log.root, log := log, heap := heap }
      undoNextPrev s.log.bufSize s.log.lastFlush
      modify fun s => { s with
        failedepoch := s.globalepoch
        globalepoch := s.globalepoch + 1
        recorded := [] }
      modify fun s => { s with
        clean := s.restored
        committed := s.restored
        saved := fun a => (s.saved a).or (s.recovered a) }

end M
end Incll.Model
