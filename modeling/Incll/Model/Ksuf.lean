import Incll.Model.Layers

/-! # Suffix storage in fields of fixed width (`stringbag.hh`, `masstree_struct.hh`)

`size_`, `capacity_` and the elements of `info_` have as many bytes as the offset type. `none` is a
failed assertion. -/

namespace Incll.Model

namespace Stringbag

def maxSize (offset : Nat) : Nat := 2 ^ (8 * offset)

/-- A number stored in a field of `offset` bytes. -/
def field (offset n : Nat) : Nat := n % maxSize offset

/-- The constructor. -/
def construct (offset width capacity : Nat) : Option Stringbag :=
  if overhead offset width ≤ capacity ∧ capacity ≤ maxSize offset then
    some { make offset width capacity with
      size := field offset (overhead offset width)
      capacity := field offset (capacity - 1) + 1 }
  else none

def store (offset : Nat) (b : Stringbag) (p pos : Nat) (s : List UInt8) : Stringbag :=
  { b.put p pos s with info := Function.update b.info p (field offset pos, field offset s.length) }

/-- The result of `assign` and the bag after it. -/
def assignFields (offset : Nat) (b : Stringbag) (p : Nat) (s : List UInt8) : Bool × Stringbag :=
  if s.length ≤ (b.info p).2 then (true, b.store offset p (b.info p).1 s)
  else if b.size + max s.length sliceSize ≤ b.capacity then
    (true, { b.store offset p b.size s with size := field offset (b.size + s.length) })
  else (false, b)

/-- `assert(ok)` after an assignment. -/
def asserted : Bool × Stringbag → Option Stringbag
  | (true, b) => some b
  | (false, _) => none

end Stringbag

namespace LeafBody

/-- `leaf::make` with the constructor of the internal bag. -/
def construct (ksufsize : Nat) : Option LeafBody :=
  let b := make ksufsize
  if 0 < b.extrasize64 then
    (Stringbag.construct 1 leafWidth b.iksuf.capacity).map fun bag => { b with iksuf := bag }
  else some b

/-- The new external bag of `assign_ksuf`. -/
def copyKsufsFields (b : LeafBody) (p : Nat) (s : List UInt8) (initializing : Bool) :
    Option Stringbag := do
  let slots := b.ksufSlots p initializing
  let csz := (slots.map fun q => (b.getKsuf q).length).sum
  let sz := max (iceilLog2 (Stringbag.safeSize 2 leafWidth (csz + s.length)))
    ((b.ksuf.map (·.capacity)).getD 0)
  let nksuf ← Stringbag.construct 2 leafWidth sz
  let nksuf ← slots.foldlM
    (fun bag q => Stringbag.asserted (bag.assignFields 2 q (b.getKsuf q))) nksuf
  Stringbag.asserted (nksuf.assignFields 2 p s)

def assignKsufFields (b : LeafBody) (p : Nat) (s : List UInt8) (initializing : Bool) :
    Option LeafBody :=
  let outside := b.ksuf.map fun bag => bag.assignFields 2 p s
  let b := { b with ksuf := outside.map (·.2) }
  if outside.any (·.1) then some b
  else
    let inside := if 0 < b.extrasize64 then b.iksuf.assignFields 1 p s else (false, b.iksuf)
    let b := { b with iksuf := inside.2 }
    if inside.1 then some b
    else do
      let nksuf ← b.copyKsufsFields p s initializing
      if b.modstate = .remove then failure
      return { b with
        ksuf := some nksuf
        extrasize64 := if 0 ≤ b.extrasize64 then -b.extrasize64 - 1 else b.extrasize64 }

def assignFields (b : LeafBody) (p : Nat) (k : Key) (initializing : Bool) : Option LeafBody :=
  if k.hasSuffix then
    (b.setEntry p k.ikey ksufKeylenx .empty).assignKsufFields p k.suffix initializing
  else some (b.setEntry p k.ikey k.len .empty)

def assignFromFields (b : LeafBody) (p : Nat) (x : LeafBody) (xp : Nat) : Option LeafBody :=
  let b' := b.setEntry p (x.ikey0 xp) (x.keylenx xp) (x.lv xp)
  if x.hasKsuf xp then b'.assignKsufFields p (x.getKsuf xp) true else some b'

/-- What `find_insert` does to the state of a leaf before it assigns a slot. -/
def insertState (b : LeafBody) : Option LeafBody :=
  match b.modstate with
  | .insert => some b
  | .remove => some (b.setModstate .insert)
  | .deletedLayer => none

end LeafBody

/-- The longest key of the server. -/
def maxKeylen : Nat := 255

/-- A leaf with the suffix last assigned to each slot. `ready` are the slots that have an entry: those
assigned while the leaf is new, later the live ones and the one assigned last. -/
structure SuffixLeaf where
  body : LeafBody
  last : Nat → List UInt8
  ready : List Nat
  setUp : Bool

namespace SuffixLeaf

def recordKey (l : SuffixLeaf) (p : Nat) (k : Key) : Nat → List UInt8 :=
  if k.hasSuffix then Function.update l.last p k.suffix else l.last

/-- The slots of a new leaf are assigned in the order 0, 1, .... -/
def assignInitialize (l : SuffixLeaf) (k : Key) : Option SuffixLeaf :=
  let p := l.ready.length
  (l.body.assignFields p k true).map fun b =>
    { l with body := b, last := l.recordKey p k, ready := l.ready ++ [p] }

def assignInitializeFrom (l x : SuffixLeaf) (xp : Nat) : Option SuffixLeaf :=
  let p := l.ready.length
  (l.body.assignFromFields p x.body xp).map fun b => { l with
    body := b
    last := if x.body.hasKsuf xp then Function.update l.last p (x.last xp) else l.last
    ready := l.ready ++ [p] }

def assignInitializeForLayer (l : SuffixLeaf) (k : Key) : Option SuffixLeaf :=
  let p := l.ready.length
  if k.hasSuffix then
    some { l with body := l.body.assignInitializeForLayer p k, ready := l.ready ++ [p] }
  else none

def setPermutation (l : SuffixLeaf) (perm : Kpermuter) : SuffixLeaf :=
  { l with body := l.body.setPermutation perm, setUp := true }

def assign (l : SuffixLeaf) (p : Nat) (k : Key) : Option SuffixLeaf := do
  let b ← l.body.insertState
  let b ← b.assignFields p k false
  return { l with body := b, last := l.recordKey p k, ready := p :: l.body.permutation.live }

/-- The slot becomes a layer. -/
def makeLayer (l : SuffixLeaf) (p : Nat) : SuffixLeaf :=
  { l with body := { l.body with keylenx := Function.update l.body.keylenx p layerKeylenx } }

/-- A permutation of slots that have an entry. -/
def allows (l : SuffixLeaf) (perm : Kpermuter) : Bool :=
  perm.size ≤ leafWidth && perm.slots.isPerm (List.range leafWidth) && perm.live.all (· ∈ l.ready)

end SuffixLeaf

namespace Ksuf

abbrev State := Nat → Option SuffixLeaf

/-- The calls that write suffixes, permutations and key lengths of leaf `i`. -/
inductive Label where
  | make (i ksufsize : Nat)
  | assignInitialize (i : Nat) (key : List UInt8)
  | assignInitializeFrom (i j xp : Nat)
  | assignInitializeForLayer (i : Nat) (key : List UInt8)
  | setPermutation (i : Nat) (perm : Kpermuter)
  | assign (i p : Nat) (key : List UInt8)
  | setRemove (i : Nat)
  | makeLayer (i p : Nat)

def isNew (s : State) (i : Nat) : Bool := (s i).any fun l => !l.setUp && l.ready.length < leafWidth

/-- The circumstances of the calls. -/
def enabled (s : State) : Label → Bool
  | .make i _ => (s i).isNone
  | .assignInitialize i key => isNew s i && key.length ≤ maxKeylen
  | .assignInitializeFrom i j xp => isNew s i && (s j).any fun x => xp ∈ x.body.permutation.live
  | .assignInitializeForLayer i key => isNew s i && ikeySize < key.length
  | .setPermutation i perm => (s i).any fun l => l.allows perm
  | .assign i p key => (s i).any fun l => l.setUp && p < leafWidth &&
      p ∉ l.body.permutation.live && key.length ≤ maxKeylen
  | .setRemove i => (s i).any fun l => l.setUp
  | .makeLayer i p => (s i).any fun l => p ∈ l.body.permutation.live

def modify (s : State) (i : Nat) (f : SuffixLeaf → Option SuffixLeaf) : Option State := do
  let l ← s i
  let l ← f l
  return Function.update s i (some l)

def perform (s : State) : Label → Option State
  | .make i ksufsize => do
      let b ← LeafBody.construct ksufsize
      return Function.update s i (some ⟨b, fun _ => [], [], false⟩)
  | .assignInitialize i key => modify s i fun l => l.assignInitialize (.ofBytes key)
  | .assignInitializeFrom i j xp => do
      let x ← s j
      modify s i fun l => l.assignInitializeFrom x xp
  | .assignInitializeForLayer i key => modify s i fun l => l.assignInitializeForLayer (.ofBytes key)
  | .setPermutation i perm => modify s i fun l => some (l.setPermutation perm)
  | .assign i p key => modify s i fun l => l.assign p (.ofBytes key)
  | .setRemove i => modify s i fun l => some { l with body := l.body.setModstate .remove }
  | .makeLayer i p => modify s i fun l => some (l.makeLayer p)

def machine : Lib.Machine State Label where
  initial s := s = fun _ => none
  step s l := if enabled s l then perform s l else none

end Ksuf
end Incll.Model
