import Incll.Model.Leaf

/-! # Entries of a leaf (`masstree_struct.hh`, `masstree_split.hh`) -/

namespace Incll.Model

def ksufKeylenx : Nat := 64
def layerKeylenx : Nat := 128
def sizeofLeaf : Nat := 328

/-- The result of `ksuf_matches`: 0, 1 or negative. -/
inductive Match where
  | differ | same | layer
  deriving DecidableEq

namespace LeafBody

def size (b : LeafBody) : Nat := b.permutation.size

def ikeyBound (b : LeafBody) : Nat := b.ikey0 0

def compareKey (b : LeafBody) (k : Key) (p : Nat) : Ordering := k.compare (b.ikey0 p) (b.keylenx p)

/-- `bound_type::lower`: the position in the permutation and the slot, if the key is there. -/
def lower (b : LeafBody) (k : Key) : Nat × Option Nat :=
  match keyLowerBound (fun m => b.compareKey k (b.permutation.get m)) b.size with
  | (m, true) => (m, some (b.permutation.get m))
  | (l, false) => (l, none)

def hasKsuf (b : LeafBody) (p : Nat) : Bool := b.keylenx p == ksufKeylenx

def getKsuf (b : LeafBody) (p : Nat) : List UInt8 :=
  match b.ksuf with
  | some bag => bag.get p
  | none => b.iksuf.get p

def ksufMatches (b : LeafBody) (p : Nat) (k : Key) : Match :=
  if b.keylenx p < ksufKeylenx then .same
  else if b.keylenx p = layerKeylenx then .layer
  else if b.getKsuf p = k.suffix then .same
  else .differ

def allocatedSize (b : LeafBody) : Nat :=
  let es := if 0 ≤ b.extrasize64 then b.extrasize64 else -b.extrasize64 - 1
  (sizeofLeaf + es.toNat * 64 + 63) / 64 * 64

/-- The leaf that `leaf::make` constructs; the entries are not initialised. -/
def make (ksufsize : Nat) : LeafBody :=
  let sz := (sizeofLeaf + min ksufsize 128 + 63) / 64 * 64
  { modstate := .insert
    keylenx := fun _ => 0
    permutation := .makeEmpty
    ikey0 := fun _ => 0
    next := 0
    nextMark := false
    prev := 0
    parent := 0
    lv := fun _ => .empty
    extrasize64 := (sz / 64 : Nat) - ((sizeofLeaf + 63) / 64 : Nat)
    ksuf := none
    iksuf := .make 1 leafWidth (sz - sizeofLeaf) }

def ksufUsedCapacity (b : LeafBody) : Nat :=
  match b.ksuf with
  | some bag => bag.size
  | none => if 0 < b.extrasize64 then b.iksuf.size else 0

def iceilLog2 (n : Nat) : Nat := if n ≤ 1 then 1 else 2 ^ ((n - 1).log2 + 1)

/-- The slots whose suffixes `assign_ksuf` copies. -/
def ksufSlots (b : LeafBody) (p : Nat) (initializing : Bool) : List Nat :=
  (if initializing then List.range p else b.permutation.live).filter
    fun q => q ≠ p && b.hasKsuf q

def copyKsufs (b : LeafBody) (p : Nat) (s : List UInt8) (initializing : Bool) :
    Option Stringbag := do
  let slots := b.ksufSlots p initializing
  let csz := (slots.map fun q => (b.getKsuf q).length).sum
  let sz := max (iceilLog2 (Stringbag.safeSize 2 leafWidth (csz + s.length)))
    ((b.ksuf.map (·.capacity)).getD 0)
  let bag ← slots.foldlM (fun bag q => Stringbag.assign bag q (b.getKsuf q))
    (Stringbag.make 2 leafWidth sz)
  bag.assign p s

def assignKsuf (b : LeafBody) (p : Nat) (s : List UInt8) (initializing : Bool) :
    Option LeafBody :=
  match b.ksuf.bind (·.assign p s) with
  | some bag => some { b with ksuf := some bag }
  | none =>
      match (if 0 < b.extrasize64 then b.iksuf.assign p s else none) with
      | some bag => some { b with iksuf := bag }
      | none => (b.copyKsufs p s initializing).map fun bag => { b with
          ksuf := some bag
          extrasize64 := if 0 ≤ b.extrasize64 then -b.extrasize64 - 1 else b.extrasize64 }

def setEntry (b : LeafBody) (p ikey keylenx : Nat) (lv : Leafvalue) : LeafBody :=
  { b with
    lv := Function.update b.lv p lv
    ikey0 := Function.update b.ikey0 p ikey
    keylenx := Function.update b.keylenx p keylenx }

/-- `assign` and `assign_initialize` of a key. -/
def assign (b : LeafBody) (p : Nat) (k : Key) (initializing : Bool) : Option LeafBody :=
  if k.hasSuffix then
    (b.setEntry p k.ikey ksufKeylenx .empty).assignKsuf p k.suffix initializing
  else some (b.setEntry p k.ikey k.len .empty)

/-- The fields that `assign` writes, taken from `b`. -/
def copyEntry (b : LeafBody) (p : Nat) (c : LeafBody) : LeafBody :=
  { c with
    lv := Function.update c.lv p (b.lv p)
    ikey0 := Function.update c.ikey0 p (b.ikey0 p)
    keylenx := Function.update c.keylenx p (b.keylenx p)
    extrasize64 := b.extrasize64
    ksuf := b.ksuf
    iksuf := b.iksuf }

def setLinks (next prev : Addr) (b : LeafBody) : LeafBody :=
  { b with next := next, nextMark := false, prev := prev }

def setNext (next : Addr) (b : LeafBody) : LeafBody := { b with next := next, nextMark := false }

def setPrev (prev : Addr) (b : LeafBody) : LeafBody := { b with prev := prev }

def markNext (b : LeafBody) : LeafBody := { b with nextMark := true }

def setModstate (m : Modstate) (b : LeafBody) : LeafBody := { b with modstate := m }

def setPermutation (perm : Kpermuter) (b : LeafBody) : LeafBody := { b with permutation := perm }

def setValue (p : Nat) (v : Leafvalue) (b : LeafBody) : LeafBody :=
  { b with lv := Function.update b.lv p v }

/-- The insertion of the last free slot of `b`, with its entry, into the permutation. -/
def publish (b : LeafBody) (i : Nat) (c : LeafBody) : LeafBody :=
  (b.copyEntry b.permutation.back c).setPermutation (b.permutation.insertFromBack i)

/-- `assign_initialize` of the entry in slot `xp` of `x`. -/
def assignFrom (b : LeafBody) (p : Nat) (x : LeafBody) (xp : Nat) : Option LeafBody :=
  let b' := b.setEntry p (x.ikey0 xp) (x.keylenx xp) (x.lv xp)
  if x.hasKsuf xp then b'.assignKsuf p (x.getKsuf xp) true else some b'

/-! Splitting. -/

def ikeyAfterInsert (b : LeafBody) (i : Nat) (k : Key) (p : Nat) : Nat :=
  if i < p then b.ikey0 (b.permutation.get i)
  else if i = p then k.ikey
  else b.ikey0 (b.permutation.get (i - 1))

/-- The search for a place where the ikey changes. -/
def moveMid (b : LeafBody) (k : Key) (p midIkey : Nat) : Nat → Int → Nat → Option Nat
  | 0, _, _ => none
  | fuel + 1, midl, midr =>
      if midr ≤ b.size ∧ midIkey ≠ b.ikeyAfterInsert midr k p then some midr
      else if 0 ≤ midl ∧ midIkey ≠ b.ikeyAfterInsert midl.toNat k p then some (midl + 1).toNat
      else b.moveMid k p midIkey fuel (midl - 1) (midr + 1)

def splitMid (b : LeafBody) (k : Key) (p : Nat) : Option Nat :=
  let mid :=
    if p = 0 ∧ b.prev = 0 then 1
    else if p = b.size ∧ b.next = 0 then b.size
    else leafWidth / 2 + 1
  let midIkey := b.ikeyAfterInsert mid k p
  if midIkey = b.ikeyAfterInsert (mid - 1) k p then
    b.moveMid k p midIkey (leafWidth + 1) ((mid : Int) - 2) (mid + 1)
  else some mid

/-- The loop that fills the new leaf: `n` entries from position `x` on, `slots` being the slots of
the old leaf that are still to be moved. -/
def fillRight (b : LeafBody) (k : Key) (p mid : Nat) :
    Nat → Nat → List Nat → LeafBody → Option LeafBody
  | 0, _, _, nr => some nr
  | n + 1, x, slots, nr =>
      if x = p then do
        let nr ← nr.assign (x - mid) k true
        b.fillRight k p mid n (x + 1) slots nr
      else do
        let nr ← nr.assignFrom (x - mid) b (slots.headD 0)
        b.fillRight k p mid n (x + 1) slots.tail nr

/-- `leaf::split_into` up to the linking of the new leaf: the new leaf, the first key in it and the
split type. -/
def splitInto (b nr : LeafBody) (p : Nat) (k : Key) : Option (LeafBody × Nat × Nat) := do
  let width := b.size
  let mid ← b.splitMid k p
  let slots := b.permutation.slots.drop (mid - if p < mid then 1 else 0)
  let nr ← b.fillRight k p mid (width + 1 - mid) mid slots nr
  let permr := Kpermuter.makeSorted (width + 1 - mid)
  let nr := { nr with permutation := if mid ≤ p then permr.removeToBack (p - mid) else permr }
  return (nr, nr.ikey0 0, if mid ≤ p then 1 + (if mid = width then 1 else 0) else 0)

end LeafBody
end Incll.Model
