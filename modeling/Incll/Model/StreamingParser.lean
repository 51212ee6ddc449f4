import Incll.Model.Msgpack
import Mathlib.Data.BitVec

/-! # `unparser` and `streaming_parser` (`msgpack.hh`, `msgpack.cc`)

A `Json` is a plain tree. Lengths of strings, arrays and objects are below `2 ^ 31`: they are of type
`int` in the source. -/

namespace Incll.Model.Streaming
open Incll.Model.Msgpack (Bytes form readInNetOrder writeInNetOrder signed widen writeString
  writeArrayHeader)

inductive Json where
  | null
  | bool (x : Bool)
  | int (x : Int)
  | unsigned (x : Nat)
  | double (bits : Nat)
  | str (s : Bytes)
  | array (xs : List Json)
  | object (members : List (Bytes × Json))

namespace Json

def isA : Json → Bool
  | .array _ => true
  | _ => false

def isO : Json → Bool
  | .object _ => true
  | _ => false

/-- `to_s` of a string or an integer. -/
def key? : Json → Option Bytes
  | .str s => some s
  | .int x => some (toString x).toUTF8.toList
  | .unsigned x => some (toString x).toUTF8.toList
  | _ => none

def child (i : Nat) : Json → Json
  | .array xs => xs.getD i .null
  | .object ms => (ms.map Prod.snd).getD i .null
  | _ => .null

def modifyChild (i : Nat) (f : Json → Json) : Json → Json
  | .array xs => .array (xs.modify i f)
  | .object ms => .object (ms.modify i fun m => (m.1, f m.2))
  | j => j

/-- The value at a path; the innermost index comes first. -/
def get : List Nat → Json → Json
  | [], j => j
  | i :: path, j => (get path j).child i

def modify (f : Json → Json) : List Nat → Json → Json
  | [] => f
  | i :: path => modify (modifyChild i f) path

def resize (n : Nat) : Json → Json
  | .array xs => .array (xs.take n ++ List.replicate (n - xs.length) .null)
  | _ => .array (List.replicate n .null)

/-- The index of the member `key`, which is made if it is not there. -/
def indexInsert (key : Bytes) : Json → Nat
  | .object ms => ms.findIdx (·.1 == key)
  | _ => 0

def getInsert (key : Bytes) : Json → Json
  | .object ms => if ms.any (·.1 == key) then .object ms else .object (ms ++ [(key, .null)])
  | j => j

end Json

/-! ## `unparser` -/

def byte {w : Nat} (x : BitVec w) : UInt8 := UInt8.ofNat x.toNat

def writeUnsigned4 (x : BitVec 32) : Bytes :=
  if x < 0x80 then [byte x]
  else if x < 256 then [0xCC, byte x]
  else if x < 65536 then 0xCD :: writeInNetOrder 2 (x.setWidth 16).toNat
  else 0xCE :: writeInNetOrder 4 x.toNat

def writeSigned4 (x : BitVec 32) : Bytes :=
  if x + 0x20 < 0xA0 then [byte x]
  else if x + 128 < 256 then [0xD0, byte x]
  else if x + 32768 < 65536 then 0xD1 :: writeInNetOrder 2 (x.setWidth 16).toNat
  else 0xD2 :: writeInNetOrder 4 x.toNat

def writeUnsigned8 (x : BitVec 64) : Bytes :=
  if x < 4294967296 then writeUnsigned4 (x.setWidth 32) else 0xCF :: writeInNetOrder 8 x.toNat

def writeSigned8 (x : BitVec 64) : Bytes :=
  if x + 2147483648 < 4294967296 then writeSigned4 (x.setWidth 32)
  else 0xD3 :: writeInNetOrder 8 x.toNat

def writeMapHeader (size : Nat) : Bytes :=
  if size < 0x10 then [UInt8.ofNat (0x80 + size)]
  else if size < 2 ^ 16 then 0xDE :: writeInNetOrder 2 size
  else 0xDF :: writeInNetOrder 4 size

mutual

def unparse : Json → Bytes
  | .null => [0xC0]
  | .bool x => [if x then 0xC3 else 0xC2]
  | .unsigned x => writeUnsigned8 (BitVec.ofNat 64 x)
  | .int x => writeSigned8 (BitVec.ofInt 64 x)
  | .double bits => 0xCB :: writeInNetOrder 8 bits
  | .str s => writeString s
  | .array xs => writeArrayHeader xs.length ++ unparseElements xs
  | .object ms => writeMapHeader ms.length ++ unparseMembers ms

def unparseElements : List Json → Bytes
  | [] => []
  | x :: xs => unparse x ++ unparseElements xs

def unparseMembers : List (Bytes × Json) → Bytes
  | [] => []
  | (key, value) :: ms => writeString key ++ unparse value ++ unparseMembers ms

end

/-! ## `streaming_parser` -/

/-- What `consume` finds at the beginning of its input: `short` if the bytes that hold a number are not
all there. -/
inductive Scan where
  | bad
  | short
  | scalar (value : Json) (rest : Bytes)
  | map (n : Nat) (rest : Bytes)
  | array (n : Nat) (rest : Bytes)
  | raw (n : Nat) (rest : Bytes)

def Scan.number (width : Nat) (s : Bytes) (f : Nat → Bytes → Scan) : Scan :=
  match readInNetOrder width s with
  | some (x, rest) => f x rest
  | none => .short

def scan (b : UInt8) (s : Bytes) : Scan :=
  match form b with
  | .fixint x => .scalar (.int x) s
  | .null => .scalar .null s
  | .bool x => .scalar (.bool x) s
  | .fixmap n => .map n s
  | .fixarray n => .array n s
  | .fixstr n => .raw n s
  | .uint width => .number width s fun x => .scalar (if width ≤ 2 then .int x else .unsigned x)
  | .int width => .number width s fun x => .scalar (.int (signed width x))
  | .float width => .number width s fun x => .scalar (.double (if width = 4 then widen x else x))
  | .str width => .number width s .raw
  | .array width => .number width s .array
  | .map width => .number width s .map
  | .unused | .ext => .bad

/-- `nbytes`. -/
def nbytes (b : UInt8) : Nat :=
  match form b with
  | .uint width | .int width | .float width | .str width | .array width | .map width => width + 1
  | _ => 0

/-- A pointer to a `Json`: into the result, to `jokey_`, or null. -/
inductive Pointer where
  | json (path : List Nat)
  | jokey
  | null
  deriving DecidableEq

namespace Pointer

/-- An element or a member of what a pointer points to. -/
def child (i : Nat) : Pointer → Pointer
  | .json path => .json (i :: path)
  | jp => jp

/-- `++jp`. -/
def succ : Pointer → Pointer
  | .json (i :: path) => .json ((i + 1) :: path)
  | jp => jp

end Pointer

structure Selem where
  jp : Pointer
  size : Nat

/-- `state_`; `str_` is read in the last two states only. -/
inductive State where
  | stFinal
  | stError
  | stNormal
  | stPartial (str : Bytes)
  | stString (str : Bytes)

/-- The top of the stack comes first. -/
structure StreamingParser where
  state : State
  stack : List Selem
  json : Json
  jokey : Json

namespace StreamingParser

def fresh : StreamingParser := ⟨.stNormal, [], .null, .null⟩

def done (p : StreamingParser) : Bool :=
  match p.state with
  | .stFinal | .stError => true
  | _ => false

def deref (p : StreamingParser) : Pointer → Json
  | .json path => p.json.get path
  | .jokey => p.jokey
  | .null => .null

def modify (p : StreamingParser) (f : Json → Json) : Pointer → StreamingParser
  | .json path => { p with json := p.json.modify f path }
  | .jokey => { p with jokey := f p.jokey }
  | .null => p

def assign (p : StreamingParser) (jx : Pointer) (v : Json) : StreamingParser := p.modify (fun _ => v) jx

def back : List Selem → Pointer
  | [] => .json []
  | top :: _ => top.jp

/-- `stack_.empty() ? &json_ : stack_.back().jp`. -/
def current (p : StreamingParser) : Pointer := back p.stack

/-- Where the top of the stack belongs: `top == stack_.begin() ? &json_ : top[-1].jp`. -/
def container (p : StreamingParser) : Pointer := back p.stack.tail

def setTop (p : StreamingParser) (f : Selem → Selem) : StreamingParser :=
  match p.stack with
  | [] => p
  | top :: stack => { p with stack := f top :: stack }

def push (p : StreamingParser) (e : Selem) : StreamingParser := { p with stack := e :: p.stack }

/-- A key of an object has been read. -/
def addKey (p : StreamingParser) : StreamingParser :=
  match p.jokey.key? with
  | none => { p with state := .stError }
  | some key =>
      let jo := p.container
      let p := p.setTop fun top => { top with jp := jo.child ((p.deref jo).indexInsert key) }
      { p.modify (Json.getInsert key) jo with state := .stNormal }

/-- A value is complete; go on to what comes after it. -/
def finish (p : StreamingParser) : StreamingParser :=
  let p := { p with stack := p.stack.dropWhile (·.size == 0) }
  if p.stack.isEmpty then { p with state := .stFinal }
  else
    let isA := (p.deref p.container).isA
    { p.setTop fun top => ⟨if isA then top.jp.succ else .jokey, top.size - 1⟩ with
      state := .stNormal }

/-- The code after the label `next`; `n` matters only if a container has been made. -/
def next (p : StreamingParser) (jx : Pointer) (n : Nat) : StreamingParser :=
  if jx = .jokey then p.addKey
  else if (p.deref jx).isA ∧ n ≠ 0 then { p.push ⟨jx.child 0, n - 1⟩ with state := .stNormal }
  else if (p.deref jx).isO ∧ n ≠ 0 then { p.push ⟨.jokey, n - 1⟩ with state := .stNormal }
  else p.finish

/-- The loop, with at most `fuel` values; returns the parser and the input that is left. -/
def loop : Nat → StreamingParser → Bytes → StreamingParser × Bytes
  | _, p, [] => ({ p with state := .stNormal }, [])
  | 0, p, s => (p, s)
  | fuel + 1, p, b :: s =>
      let jx := p.current
      let go (p : StreamingParser) (n : Nat) (rest : Bytes) : StreamingParser × Bytes :=
        let p := p.next jx n
        match p.state with
        | .stNormal => loop fuel p rest
        | _ => (p, rest)
      match scan b s with
      | .bad => ({ p with state := .stError }, b :: s)
      | .short => ({ p with state := .stPartial (b :: s) }, [])
      | .scalar v rest => go (p.assign jx v) 0 rest
      | .map n rest => go (p.assign jx (.object [])) n rest
      | .array n rest => go (p.modify (Json.resize n) jx) n rest
      | .raw n rest =>
          if rest.length < n then ({ p.push ⟨.null, n⟩ with state := .stString rest }, [])
          else go (p.assign jx (.str (rest.take n))) 0 (rest.drop n)

def run (p : StreamingParser) (s : Bytes) : StreamingParser × Bytes := loop s.length p s

/-- The loop goes on unless the parser has stopped. -/
def resume (p : StreamingParser) (rest : Bytes) : StreamingParser × Bytes :=
  match p.state with
  | .stNormal => p.run rest
  | _ => (p, rest)

/-- The string of `nneed` bytes has arrived, and belongs where the stack points to. -/
def endString (p : StreamingParser) (str rest : Bytes) : StreamingParser × Bytes :=
  let p := { p with stack := p.stack.tail }
  let jx := p.current
  ((p.assign jx (.str str)).next jx 0).resume rest

def consume (p : StreamingParser) (s : Bytes) : StreamingParser × Bytes :=
  match p.state with
  | .stFinal | .stError => (p, s)
  | .stNormal => p.run s
  | .stPartial str =>
      let nneed := nbytes (str.headD 0)
      let k := min s.length (nneed - str.length)
      let str := str ++ s.take k
      if str.length ≠ nneed then ({ p with state := .stPartial str }, s.drop k)
      else ({ p with state := .stNormal }.run str).1.resume (s.drop k)
  | .stString str =>
      let nneed := ((p.stack.head?).map Selem.size).getD 0
      let k := min s.length (nneed - str.length)
      let str := str ++ s.take k
      if str.length ≠ nneed then ({ p with state := .stString str }, s.drop k)
      else p.endString str (s.drop k)

/-- The loop of `conn::receive` over one chunk. -/
def receive : Nat → StreamingParser → Bytes → StreamingParser × Bytes
  | 0, p, s => (p, s)
  | fuel + 1, p, s =>
      if p.done ∨ s = [] then (p, s) else receive fuel (p.consume s).1 (p.consume s).2

/-- One chunk after another; the number is that of the bytes consumed. -/
def receiveAll (p : StreamingParser) : List Bytes → StreamingParser × Nat
  | [] => (p, 0)
  | chunk :: chunks =>
      let first := receive chunk.length p chunk
      let rest := receiveAll first.1 chunks
      (rest.1, chunk.length - first.2.length + rest.2)

end StreamingParser
end Incll.Model.Streaming
