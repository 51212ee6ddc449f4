import Incll.Model.Layers
import Incll.Model.LogRecord

/-! # Keys over memory (`masstree_key.hh`, `string_slice.hh`)

A `Key` is what a `key` object shows. Here are the object with its pointers and the loads with which
it makes its slices, for a little-endian machine with unaligned access. -/

namespace Incll.Model

abbrev Chars := Nat → UInt8

namespace Chars

def bytes (m : Chars) (s n : Nat) : List UInt8 := (List.range n).map fun i => m (s + i)

/-- `memcpy`. -/
def write (m : Chars) (s : Nat) (l : List UInt8) : Chars :=
  fun i => if s ≤ i ∧ i < s + l.length then l.getD (i - s) 0 else m i

end Chars

namespace StringSlice

def size : Nat := 8

/-- The word in memory at eight bytes. -/
def load (l : List UInt8) : BitVec 64 := BitVec.ofNat 64 (ofLittleEndian l)

def image (x : BitVec 64) : List UInt8 := littleEndian size x.toNat

def make (m : Chars) (s len : Nat) : BitVec 64 :=
  if len = 0 then 0
  else if size ≤ len then load (m.bytes s size)
  else load (m.bytes s (min len size) ++ List.replicate (size - min len size) 0)

/-- It may load bytes in front of the string. -/
def makeSloppy (m : Chars) (s len : Nat) : BitVec 64 :=
  if len = 0 then 0
  else if size ≤ len then load (m.bytes s size)
  else load (m.bytes (s - (size - len)) size) >>> (8 * (size - len))

/-- `host_to_net_order` and `net_to_host_order`. -/
def netOrder (x : BitVec 64) : BitVec 64 := load (image x).reverse

def makeComparable (m : Chars) (s len : Nat) : BitVec 64 := netOrder (make m s len)

def makeComparableSloppy (m : Chars) (s len : Nat) : BitVec 64 := netOrder (makeSloppy m s len)

def unparseComparable (buflen : Nat) (value : BitVec 64) (len : Nat) : List UInt8 :=
  (image (netOrder value)).take (min (min len size) buflen)

end StringSlice

/-- `String_generic::compare`. -/
def strCompare (a b : List UInt8) : Ordering :=
  let len := min a.length b.length
  match compare (a.take len) (b.take len) with
  | .eq => compare a.length b.length
  | c => c

/-- A `key`; `s` and `first` are places in memory. -/
structure KeyPtr where
  ikey0 : BitVec 64
  len : Nat
  s : Nat
  first : Nat
  deriving DecidableEq

namespace KeyPtr
open StringSlice

def make (m : Chars) (s len : Nat) : KeyPtr := ⟨makeComparable m s len, len, s, s⟩

/-- The key of a leaf entry without a suffix. -/
def ofIkey (ikey : BitVec 64) (len : Nat) : KeyPtr := ⟨ikey, min len ikeySize, 0, 0⟩

/-- The key of a leaf entry with the suffix of `len` bytes at `suf`. -/
def ofSuffix (ikey : BitVec 64) (suf len : Nat) : KeyPtr :=
  ⟨ikey, ikeySize + len, suf - ikeySize, suf - ikeySize⟩

variable (k : KeyPtr)

def hasSuffix : Bool := ikeySize < k.len

def suffix (m : Chars) : List UInt8 := m.bytes (k.s + ikeySize) (k.len - ikeySize)

def shift (m : Chars) : KeyPtr :=
  { k with
    s := k.s + ikeySize
    len := k.len - ikeySize
    ikey0 := makeComparableSloppy m (k.s + ikeySize) (k.len - ikeySize) }

def key (m : Chars) : Key := ⟨k.ikey0.toNat, k.len, k.suffix m⟩

def compare (m : Chars) (ikey : BitVec 64) (keylenx : Nat) : Ordering :=
  (k.key m).compare ikey.toNat keylenx

def unparse (m : Chars) (datalen : Nat) : List UInt8 :=
  let cplen := min k.len datalen
  unparseComparable cplen k.ikey0 ikeySize ++
    (if ikeySize < cplen then m.bytes (k.s + ikeySize) (cplen - ikeySize) else [])

def fullString (m : Chars) : List UInt8 := m.bytes k.first (k.s + k.len - k.first)

def assignStoreIkey (m : Chars) (ikey : BitVec 64) : KeyPtr × Chars :=
  ({ k with ikey0 := ikey }, m.write k.s (image (netOrder ikey)))

def assignStoreSuffix (m : Chars) (s : List UInt8) : Chars × Nat :=
  (m.write (k.s + ikeySize) s, ikeySize + s.length)

def assignStoreLength (len : Nat) : KeyPtr := { k with len := len }

def shiftClear : KeyPtr := { k with ikey0 := 0, len := 0, s := k.s + ikeySize }

def shiftClearReverse : KeyPtr :=
  { k with ikey0 := ~~~0, len := ikeySize + 1, s := k.s + ikeySize }

end KeyPtr

/-! What the tree does with them. -/

/-- The length code of the entry for `x` in a layer below which `below` further layers hold it. -/
def KeyPtr.keylenx (x : KeyPtr) (below : Nat) : Nat :=
  if x.hasSuffix then (if below = 0 then ksufKeylenx else layerKeylenx) else x.len

/-- The comparison of the search key `k` with the entry for `x`, layer by layer. -/
def layerCompare (m m' : Chars) (k x : KeyPtr) (below : Nat) : Ordering :=
  match k.compare m x.ikey0 (x.keylenx below), below with
  | .eq, 0 => if k.hasSuffix then strCompare (k.suffix m) (x.suffix m') else .eq
  | .eq, below + 1 => if k.hasSuffix then layerCompare m m' (k.shift m) (x.shift m') below else .eq
  | c, _ => c

/-- The slices of the layers above the entry for `x`, and the key that is left in its layer. -/
def KeyPtr.entryPath (m : Chars) (x : KeyPtr) : Nat → List (BitVec 64) × KeyPtr
  | 0 => ([], x)
  | below + 1 =>
      let (ikeys, entry) := (x.shift m).entryPath m below
      (x.ikey0 :: ikeys, entry)

/-- The steps of a scan down to the layer of an entry. -/
def storeLayers (reverse : Bool) : KeyPtr × Chars → List (BitVec 64) → KeyPtr × Chars
  | (k, m), [] => (k, m)
  | (k, m), ikey :: ikeys =>
      let (k, m) := k.assignStoreIkey m ikey
      storeLayers reverse (if reverse then k.shiftClearReverse else k.shiftClear, m) ikeys

/-- What `find_next` stores of an entry that it emits. -/
def storeEntry (k : KeyPtr) (m : Chars) (ikey : BitVec 64) (keylenx : Nat) (ksuf : List UInt8) :
    KeyPtr × Chars :=
  let (m, keylen) := if keylenx = ksufKeylenx then k.assignStoreSuffix m ksuf else (m, keylenx)
  let (k, m) := k.assignStoreIkey m ikey
  (k.assignStoreLength keylen, m)

end Incll.Model
