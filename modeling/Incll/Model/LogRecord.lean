import Incll.Model.Query

/-! # Log records (`log.cc`, `log.hh`)

The bytes of the log records, as `store` writes them into the buffer and `extract` reads them back.
`logrec_kv` and `logrec_kvdelta` are eight bytes aligned, so the key begins four bytes before
`sizeof`, and the last four bytes of such a record are what the buffer held before. -/

namespace Incll.Model

/-- `MASSTREE_MAXKEYLEN`. -/
def maxKeyLen : Nat := 255

/-- A little-endian word of `width` bytes. -/
def littleEndian (width n : Nat) : List UInt8 :=
  (List.range width).map fun i => UInt8.ofNat (n / 256 ^ i)

def ofLittleEndian (bytes : List UInt8) : Nat := bytes.foldr (fun b n => b.toNat + 256 * n) 0

namespace Logcmd

def none : Nat := 0
def put : Nat := 0x5455506B
def replace : Nat := 0x3155506B
def modify : Nat := 0x444F4D6B
def remove : Nat := 0x4D45526B
def epoch : Nat := 0x4F50456B
def quiesce : Nat := 0x4955516B
def wake : Nat := 0x4B41576B

end Logcmd

/-- The commands that `onego` passes to `loginfo::record`. -/
inductive Command where
  | put | replace | remove
  deriving DecidableEq

def Command.code : Command → Nat
  | .put => Logcmd.put
  | .replace => Logcmd.replace
  | .remove => Logcmd.remove

inductive Record where
  | kv (command : Command) (ts : Kvtimestamp) (key value : List UInt8)
  | kvdelta (ts prevTs : Kvtimestamp) (key value : List UInt8)
  | epoch (e : Nat)
  | wake
  | quiesce
  deriving DecidableEq

namespace Record

def sizeofBase : Nat := 8
def sizeofEpoch : Nat := 16
def sizeofKv : Nat := 24
def sizeofKvdelta : Nat := 32

/-- The return value of `store`. -/
def size : Record → Nat
  | .kv _ _ key value => sizeofKv + key.length + value.length
  | .kvdelta _ _ key value => sizeofKvdelta + key.length + value.length
  | .epoch _ => sizeofEpoch
  | .wake | .quiesce => sizeofBase

/-- The bytes that `store` writes. -/
def bytes : Record → List UInt8
  | .kv command ts key value =>
      littleEndian 4 command.code ++ littleEndian 4 (sizeofKv + key.length + value.length) ++
        littleEndian 8 ts.toNat ++ littleEndian 4 key.length ++ key ++ value
  | .kvdelta ts prevTs key value =>
      littleEndian 4 Logcmd.modify ++
        littleEndian 4 (sizeofKvdelta + key.length + value.length) ++ littleEndian 8 ts.toNat ++
        littleEndian 8 prevTs.toNat ++ littleEndian 4 key.length ++ key ++ value
  | .epoch e => littleEndian 4 Logcmd.epoch ++ littleEndian 4 sizeofEpoch ++ littleEndian 8 e
  | .wake => littleEndian 4 Logcmd.wake ++ littleEndian 4 sizeofBase
  | .quiesce => littleEndian 4 Logcmd.quiesce ++ littleEndian 4 sizeofBase

/-- The key of a data record. -/
def key? : Record → Option (List UInt8)
  | .kv _ _ key _ | .kvdelta _ _ key _ => some key
  | _ => Option.none

/-- The epoch of an epoch record. -/
def epoch? : Record → Option Nat
  | .epoch e => some e
  | _ => Option.none

/-- The epoch of a record if the records before it are of epoch `cur`. -/
def epochAfter (cur : Nat) (r : Record) : Nat := r.epoch?.getD cur

end Record

/-- `buf_` and `pos_`. -/
structure Buffer where
  bytes : List UInt8
  pos : Nat

namespace Buffer

def store (b : Buffer) (r : Record) : Buffer where
  bytes := b.bytes.take b.pos ++ r.bytes ++ b.bytes.drop (b.pos + r.bytes.length)
  pos := b.pos + r.size

/-- What the logger hands to `write`. -/
def written (b : Buffer) : List UInt8 := b.bytes.take b.pos

end Buffer

structure Logrecord where
  command : Nat
  key : List UInt8
  val : List UInt8
  ts : Kvtimestamp
  prevTs : Kvtimestamp
  epoch : BitVec 64
  deriving DecidableEq

namespace Logrecord

def make : Logrecord := ⟨Logcmd.none, [], [], 0, 0, 0⟩

/-- The field of `width` bytes at an offset from the start of a record. -/
def field (buf : List UInt8) (offset width : Nat) : Nat :=
  ofLittleEndian ((buf.drop offset).take width)

def fail (lr : Logrecord) : Logrecord × List UInt8 := ({ lr with command := Logcmd.none }, [])

/-- `extract` behind the checks of the header. -/
def extractBody (lr : Logrecord) (buf : List UInt8) (size : Nat) : Logrecord × List UInt8 :=
  if lr.command = Logcmd.put ∨ lr.command = Logcmd.replace ∨ lr.command = Logcmd.remove then
    let keylen := field buf 16 4
    if size < Record.sizeofKv ∨ maxKeyLen < keylen ∨ size < Record.sizeofKv + keylen then lr.fail
    else
      ({ lr with
          ts := BitVec.ofNat 64 (field buf 8 8)
          key := (buf.drop 20).take keylen
          val := (buf.drop (20 + keylen)).take (size - Record.sizeofKv - keylen) },
        buf.drop size)
  else if lr.command = Logcmd.modify then
    let keylen := field buf 24 4
    if maxKeyLen < keylen ∨ size < Record.sizeofKvdelta + keylen then lr.fail
    else
      ({ lr with
          ts := BitVec.ofNat 64 (field buf 8 8)
          prevTs := BitVec.ofNat 64 (field buf 16 8)
          key := (buf.drop 28).take keylen
          val := (buf.drop (28 + keylen)).take (size - Record.sizeofKvdelta - keylen) },
        buf.drop size)
  else if lr.command = Logcmd.epoch then
    if size < Record.sizeofEpoch then lr.fail
    else ({ lr with epoch := BitVec.ofNat 64 (field buf 8 8) }, buf.drop size)
  else (lr, buf.drop size)

/-- `extract` at the start of `buf`: the record, and the bytes behind it. -/
def extract (lr : Logrecord) (buf : List UInt8) : Logrecord × List UInt8 :=
  let command := field buf 0 4
  let size := field buf 4 4
  if buf.length < Record.sizeofBase ∨ size < Record.sizeofBase ∨ buf.length < size ∨
      command = Logcmd.none then lr.fail
  else { lr with command := command }.extractBody buf size

/-- Successive calls of `extract` on one `logrecord`, up to the end or to the first failure. -/
def extracts : Nat → Logrecord → List UInt8 → List Logrecord
  | 0, _, _ => []
  | fuel + 1, lr, buf =>
      if buf = [] then []
      else
        let x := lr.extract buf
        x.1 :: if x.1.command = Logcmd.none then [] else extracts fuel x.1 x.2

def extractAll (buf : List UInt8) : List Logrecord := extracts buf.length make buf

end Logrecord

end Incll.Model
