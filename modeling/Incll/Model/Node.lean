import Incll.Model.LeafBody

/-! # Nodes (`nodeversion.hh`, `masstree_struct.hh`, `masstree_split.hh`) -/

namespace Incll.Model

/-- `nodeversion32` without the leaf bit; `counter` is bits 3 to 27. -/
structure Nodeversion where
  locked : Bool
  inserting : Bool
  splitting : Bool
  deleted : Bool
  root : Bool
  counter : Nat
  deriving DecidableEq

namespace Nodeversion

def make : Nodeversion := ⟨false, false, false, false, false, 0⟩

def dirty (v : Nodeversion) : Bool := v.inserting || v.splitting

def vsplit (v : Nodeversion) : Nat := v.counter / 2 ^ 6

def unlock (v : Nodeversion) : Nodeversion :=
  if v.splitting then
    { v with locked := false, inserting := false, splitting := false, root := false,
             counter := (v.vsplit + 1) % 2 ^ 19 * 2 ^ 6 }
  else
    { v with locked := false, inserting := false,
             counter := (v.counter + v.inserting.toNat) % 2 ^ 25 }

def hasChanged (v x : Nodeversion) : Bool :=
  { v with locked := false } != { x with locked := false }

def hasSplit (v x : Nodeversion) : Bool :=
  v.vsplit != x.vsplit || v.deleted != x.deleted || v.root != x.root

/-- `clear_version_counter_bits` and `clear_unlock`. -/
def resetState (v : Nodeversion) : Nodeversion := { make with root := v.root }

def fixLock (v : Nodeversion) : Nodeversion := { v with locked := false }

end Nodeversion

def internodeWidth : Nat := 15

structure Internode where
  loggedepoch : Nat
  nkeys : Nat
  height : Nat
  ikey0 : Nat → Nat
  child : Nat → Addr
  parent : Addr

namespace Internode

def make (globalepoch height : Nat) : Internode where
  loggedepoch := globalepoch
  nkeys := 0
  height := height
  ikey0 := fun _ => 0
  child := fun _ => 0
  parent := 0

def upper (i : Internode) (ikey : Nat) : Nat :=
  keyUpperBound (fun m => compare ikey (i.ikey0 m)) i.nkeys

/-- The entry of `assign`; the caller sets the parent of `child`. -/
def assign (i : Internode) (p ikey : Nat) (child : Addr) : Internode :=
  { i with
    child := Function.update i.child (p + 1) child
    ikey0 := Function.update i.ikey0 p ikey }

def shiftFrom (i : Internode) (p : Nat) (x : Internode) (xp n : Nat) : Internode :=
  { i with
    ikey0 := fun j => if p ≤ j ∧ j < p + n then x.ikey0 (j - p + xp) else i.ikey0 j
    child := fun j => if p < j ∧ j ≤ p + n then x.child (j - p + xp) else i.child j }

def shiftUp (i : Internode) (p xp n : Nat) : Internode := i.shiftFrom p i xp n

def shiftDown (i : Internode) (p xp n : Nat) : Internode := i.shiftFrom p i xp n

def setChild (i : Internode) (p : Nat) (c : Addr) : Internode :=
  { i with child := Function.update i.child p c }

def setKey (i : Internode) (p ikey : Nat) : Internode :=
  { i with ikey0 := Function.update i.ikey0 p ikey }

/-- The entries that `internode::split_into` gives to the new node, and the key between the two. -/
def splitRight (i nr : Internode) (mid p ka : Nat) (value : Addr) : Internode × Nat :=
  let nr := { nr with nkeys := internodeWidth + 1 - (mid + 1) }
  if p < mid then
    ((nr.setChild 0 (i.child mid)).shiftFrom 0 i mid (internodeWidth - mid), i.ikey0 (mid - 1))
  else if p = mid then
    ((nr.setChild 0 value).shiftFrom 0 i mid (internodeWidth - mid), ka)
  else
    ((((nr.setChild 0 (i.child (mid + 1))).shiftFrom 0 i (mid + 1) (p - (mid + 1))).assign
      (p - (mid + 1)) ka value).shiftFrom (p + 1 - (mid + 1)) i p (internodeWidth - p), i.ikey0 mid)

def findChildIdx (i : Internode) (c : Addr) : Option Nat :=
  (List.range (i.nkeys + 1)).find? fun j => i.child j == c

end Internode

inductive Kind where
  | leaf (l : Leaf)
  | internode (i : Internode)

structure Node where
  version : Nodeversion
  kind : Kind

namespace Kind

def parent : Kind → Addr
  | .leaf l => l.body.parent
  | .internode i => i.parent

def setParent (p : Addr) : Kind → Kind
  | .leaf l => .leaf { l with body := { l.body with parent := p } }
  | .internode i => .internode { i with parent := p }

def mapBody (f : LeafBody → LeafBody) : Kind → Kind
  | .leaf l => .leaf { l with body := f l.body }
  | .internode i => .internode i

def mapInternode (f : Internode → Internode) : Kind → Kind
  | .leaf l => .leaf l
  | .internode i => .internode (f i)

def leaf? : Kind → Option Leaf
  | .leaf l => some l
  | .internode _ => none

def internode? : Kind → Option Internode
  | .leaf _ => none
  | .internode i => some i

end Kind

def sizeofInternode : Nat := 280

def Node.allocatedSize (n : Node) : Nat :=
  match n.kind with
  | .leaf l => l.body.allocatedSize
  | .internode _ => sizeofInternode

theorem Node.le_allocatedSize (n : Node) : 8 ≤ n.allocatedSize := by
  simp only [Node.allocatedSize]
  split
  · simp only [LeafBody.allocatedSize, sizeofLeaf]
    omega
  · decide

theorem Node.dvd_allocatedSize (n : Node) : 8 ∣ n.allocatedSize := by
  simp only [Node.allocatedSize]
  split
  · simp only [LeafBody.allocatedSize]
    exact Nat.dvd_mul_left_of_dvd (by decide) _
  · decide

end Incll.Model
