import Mathlib.Data.BitVec
import Incll.Model.LeafBody

/-! # Timestamps of queries (`kvrow.hh`, `kvthread.hh`, `circular_int.hh`)

`phantom_epoch_` and `iksuf_` are arrays without elements behind the last field of `leaf`, so
`phantom_epoch_[0]` is the word that begins at `sizeof(leaf)`. With `extrasize64_ > 0` the header of
the internal suffix bag lies there, else nothing. -/

namespace Incll.Model

abbrev Kvtimestamp := BitVec 64

namespace Kvtimestamp

def less (a b : Kvtimestamp) : Bool := (a - b).toInt < 0

def lessEqual (a b : Kvtimestamp) : Bool := (a - b).toInt ≤ 0

end Kvtimestamp

namespace Stringbag

/-- The first eight bytes of a bag with one-byte offsets: `size_`, `capacity_` and the positions and
lengths of the first three strings. -/
def header (b : Stringbag) : List Nat :=
  [b.size, b.capacity - 1, (b.info 0).1, (b.info 0).2, (b.info 1).1, (b.info 1).2, (b.info 2).1,
    (b.info 2).2]

def headerWord (b : Stringbag) : Kvtimestamp :=
  BitVec.ofNat 64 (b.header.foldr (fun byte w => byte + 256 * w) 0)

def byteAt (w : Kvtimestamp) (i : Nat) : Nat := w.toNat / 256 ^ i % 256

def setHeaderWord (w : Kvtimestamp) (b : Stringbag) : Stringbag :=
  { b with
    size := byteAt w 0
    capacity := byteAt w 1 + 1
    info := fun p => if p < 3 then (byteAt w (2 * p + 2), byteAt w (2 * p + 3)) else b.info p }

end Stringbag

/-- A leaf with the word behind its last field that is not part of a suffix bag. -/
structure LeafMemory where
  body : LeafBody
  spare : Kvtimestamp

namespace LeafMemory

def phantomEpoch (m : LeafMemory) : Kvtimestamp :=
  if 0 < m.body.extrasize64 then m.body.iksuf.headerWord else m.spare

def setPhantomEpoch (w : Kvtimestamp) (m : LeafMemory) : LeafMemory :=
  if 0 < m.body.extrasize64 then
    { m with body := { m.body with iksuf := m.body.iksuf.setHeaderWord w } }
  else { m with spare := w }

/-- The internal suffix bag, if there is one in use. -/
def internalKsuf (m : LeafMemory) : Option Stringbag :=
  if 0 < m.body.extrasize64 then some m.body.iksuf else none

end LeafMemory

/-- `update_timestamp` for a row with timestamp `x`. -/
def updateTimestamp (ts x : Kvtimestamp) : Kvtimestamp :=
  if Kvtimestamp.lessEqual ts x then (x ||| 1) + 1 else ts

/-- `ts_` after `observe_phantoms`. -/
def observePhantoms (ts : Kvtimestamp) (m : LeafMemory) : Kvtimestamp :=
  if Kvtimestamp.less ts m.phantomEpoch then m.phantomEpoch else ts

/-- The timestamp that `run_put` and `run_replace` assign; `old` is the timestamp of the row that
was found. -/
def putTimestamp (ts : Kvtimestamp) (m : LeafMemory) : Option Kvtimestamp → Kvtimestamp
  | none => observePhantoms ts m
  | some old => updateTimestamp ts old

/-- `apply_remove` for a row with timestamp `old`: the timestamp assigned, and the leaf. -/
def applyRemove (ts old : Kvtimestamp) (m : LeafMemory) : Kvtimestamp × LeafMemory :=
  let qts := updateTimestamp ts old
  (qts, if Kvtimestamp.lessEqual m.phantomEpoch qts then m.setPhantomEpoch (qts + 2) else m)

end Incll.Model
