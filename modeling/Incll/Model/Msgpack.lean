import Mathlib.Algebra.Group.Int.Defs
import Mathlib.Algebra.Group.Nat.Defs
import Mathlib.Logic.Function.Iterate

/-! # Put requests (`msgpack.hh`, `msgpack.cc`, `json.hh`, `log.cc`, `mtd.cc`)

Reading past the end and a failed assertion are `none`. `consume` works here on a message that has
arrived as a whole. -/

namespace Incll.Model.Msgpack

abbrev Bytes := List UInt8

/-- What the first byte of a value says: `n` is a number of bytes, elements or members, and `width` the
number of bytes that hold such a number or the value. Strings and binary data are read alike. -/
inductive Form where
  | fixint (x : Int)
  | null
  | unused
  | bool (x : Bool)
  | fixstr (n : Nat)
  | fixarray (n : Nat)
  | fixmap (n : Nat)
  | uint (width : Nat)
  | int (width : Nat)
  | float (width : Nat)
  | str (width : Nat)
  | array (width : Nat)
  | map (width : Nat)
  | ext
  deriving DecidableEq

def form (b : UInt8) : Form :=
  let x := b.toNat
  if x < 0x80 then .fixint x
  else if x < 0x90 then .fixmap (x - 0x80)
  else if x < 0xA0 then .fixarray (x - 0x90)
  else if x < 0xC0 then .fixstr (x - 0xA0)
  else if 0xE0 ≤ x then .fixint (x - 256)
  else match x with
    | 0xC0 => .null
    | 0xC1 => .unused
    | 0xC2 => .bool false
    | 0xC3 => .bool true
    | 0xC4 => .str 1
    | 0xC5 => .str 2
    | 0xC6 => .str 4
    | 0xCA => .float 4
    | 0xCB => .float 8
    | 0xCC => .uint 1
    | 0xCD => .uint 2
    | 0xCE => .uint 4
    | 0xCF => .uint 8
    | 0xD0 => .int 1
    | 0xD1 => .int 2
    | 0xD2 => .int 4
    | 0xD3 => .int 8
    | 0xD9 => .str 1
    | 0xDA => .str 2
    | 0xDB => .str 4
    | 0xDC => .array 2
    | 0xDD => .array 4
    | 0xDE => .map 2
    | 0xDF => .map 4
    | _ => .ext

def readInNetOrder (width : Nat) (s : Bytes) : Option (Nat × Bytes) :=
  if width ≤ s.length then
    some ((s.take width).foldl (fun n b => n * 256 + b.toNat) 0, s.drop width)
  else none

def writeInNetOrder (width x : Nat) : Bytes :=
  (List.range width).map fun i => UInt8.ofNat (x / 256 ^ (width - 1 - i))

/-- An integer of `width` bytes. -/
def signed (width x : Nat) : Int := if x < 2 ^ (8 * width - 1) then x else x - 2 ^ (8 * width)

/-- The bits of a `float` as a `double`. -/
def widen (x : Nat) : Nat :=
  let e := x / 2 ^ 23 % 2 ^ 8
  let f := x % 2 ^ 23
  x / 2 ^ 31 * 2 ^ 63 +
    if e = 255 then 2047 * 2 ^ 52 + f * 2 ^ 29
    else if e ≠ 0 then (e + 896) * 2 ^ 52 + f * 2 ^ 29
    else if f = 0 then 0
    else (f.log2 + 874) * 2 ^ 52 + (f - 2 ^ f.log2) * 2 ^ (52 - f.log2)

/-- A `Json`; a double has its bits, and the members of an object are left out. -/
inductive Json where
  | null
  | bool (x : Bool)
  | int (x : Int)
  | unsigned (x : Nat)
  | double (bits : Nat)
  | str (s : Bytes)
  | array (xs : List Json)
  | object

namespace Json

/-- `int64_t(d)`. -/
def truncate (bits : Nat) : Int :=
  let e := bits / 2 ^ 52 % 2 ^ 11
  let f := bits % 2 ^ 52 + if e = 0 then 0 else 2 ^ 52
  let magnitude : Nat := if 1075 ≤ e then f * 2 ^ (e - 1075) else f / 2 ^ (1075 - e)
  if bits / 2 ^ 63 = 0 then magnitude else -magnitude

def asI : Json → Option Int
  | .int x => some x
  | .unsigned x => some (signed 8 x)
  | .double bits => some (truncate bits)
  | _ => none

def asU : Json → Option Nat
  | .int x => some (x % 2 ^ 64).toNat
  | .unsigned x => some x
  | .double bits => some (truncate bits % 2 ^ 64).toNat
  | _ => none

end Json

/-! ## `streaming_parser` -/

/-- The lengths of strings, arrays and maps are of type `int`. -/
def readLength (width : Nat) (s : Bytes) : Option (Nat × Bytes) :=
  (readInNetOrder width s).filter (·.1 < 2 ^ 31)

def raw (n : Nat) (s : Bytes) : Option (Json × Bytes) :=
  if n ≤ s.length then some (.str (s.take n), s.drop n) else none

section
variable (value : Bytes → Option (Json × Bytes))

def elements : Nat → Bytes → Option (List Json × Bytes)
  | 0, s => some ([], s)
  | n + 1, s => (value s).bind fun (x, s) => (elements n s).map fun (xs, s) => (x :: xs, s)

/-- The key of a member is a string or an integer. -/
def members : Nat → Bytes → Option Bytes
  | 0, s => some s
  | n + 1, s => (value s).bind fun (key, s) =>
      match key with
      | .str _ | .int _ | .unsigned _ => (value s).bind fun (_, s) => members n s
      | _ => none

end

/-- `consume`, with a bound on the depth of arrays and maps. -/
def consume : Nat → Bytes → Option (Json × Bytes)
  | 0, _ | _, [] => none
  | depth + 1, b :: s =>
      let array := fun (n, s) => (elements (consume depth) n s).map fun (xs, s) => (Json.array xs, s)
      let map := fun (n, s) => (members (consume depth) n s).map fun s => (Json.object, s)
      match form b with
      | .fixint x => some (.int x, s)
      | .null => some (.null, s)
      | .bool x => some (.bool x, s)
      | .fixmap n => map (n, s)
      | .fixarray n => array (n, s)
      | .fixstr n => raw n s
      | .uint width => (readInNetOrder width s).map fun (x, s) =>
          (if width ≤ 2 then .int x else .unsigned x, s)
      | .int width => (readInNetOrder width s).map fun (x, s) => (.int (signed width x), s)
      | .float width => (readInNetOrder width s).map fun (x, s) =>
          (.double (if width = 4 then widen x else x), s)
      | .str width => (readLength width s).bind fun (n, s) => raw n s
      | .array width => (readLength width s).bind array
      | .map width => (readLength width s).bind map
      | .unused | .ext => none

/-! ## `parser` -/

/-- `read_int`, before the conversion to the type of the variable. -/
def readInt : Bytes → Option (Int × Bytes)
  | [] => none
  | b :: s =>
      match form b with
      | .fixint x => some (x, s)
      | .uint width => (readInNetOrder width s).map fun (x, s) => ((x : Int), s)
      | .int width => (readInNetOrder width s).map fun (x, s) => (signed width x, s)
      | _ => none

/-- `operator>>(Str&)`. -/
def readStr : Bytes → Option (Bytes × Bytes)
  | [] => none
  | b :: s =>
      match form b with
      | .fixstr n => if n ≤ s.length then some (s.take n, s.drop n) else none
      | .str width => (readInNetOrder width s).bind fun (n, s) =>
          if n ≤ s.length then some (s.take n, s.drop n) else none
      | _ => none

/-- `skip_primitives` goes on by one value, or stays where it is. -/
def skipPrimitive : Bytes → Bytes
  | [] => []
  | b :: s =>
      match form b with
      | .fixint _ | .null | .unused | .bool _ => s
      | .fixstr n => s.drop n
      | .uint 1 | .int 1 => s.drop 1
      | .uint 2 | .int 2 => s.drop 2
      | .uint 4 | .int 4 | .float 4 => s.drop 4
      | .str width => ((readInNetOrder width s).map fun (n, s) => s.drop n).getD []
      | _ => b :: s

def skipPrimitives (n : Nat) (s : Bytes) : Bytes := skipPrimitive^[n] s

def skipArraySize : Bytes → Bytes
  | [] => []
  | b :: s =>
      match form b with
      | .fixarray _ => s
      | .array width => s.drop width
      | _ => b :: s

/-! ## `unparser` -/

def writeUnsigned (x : Nat) : Bytes :=
  if x < 0x80 then [UInt8.ofNat x]
  else if x < 2 ^ 8 then 0xCC :: writeInNetOrder 1 x
  else if x < 2 ^ 16 then 0xCD :: writeInNetOrder 2 x
  else if x < 2 ^ 32 then 0xCE :: writeInNetOrder 4 x
  else 0xCF :: writeInNetOrder 8 x

def writeSigned (x : Int) : Bytes :=
  let bits (width : Nat) : Nat := (x % 2 ^ (8 * width)).toNat
  if -0x20 ≤ x ∧ x < 0x80 then [UInt8.ofNat (bits 1)]
  else if -2 ^ 7 ≤ x ∧ x < 2 ^ 7 then 0xD0 :: writeInNetOrder 1 (bits 1)
  else if -2 ^ 15 ≤ x ∧ x < 2 ^ 15 then 0xD1 :: writeInNetOrder 2 (bits 2)
  else if -2 ^ 31 ≤ x ∧ x < 2 ^ 31 then 0xD2 :: writeInNetOrder 4 (bits 4)
  else 0xD3 :: writeInNetOrder 8 (bits 8)

def writeString (s : Bytes) : Bytes :=
  (if s.length < 0x20 then [UInt8.ofNat (0xA0 + s.length)]
  else if s.length < 2 ^ 8 then 0xD9 :: writeInNetOrder 1 s.length
  else if s.length < 2 ^ 16 then 0xDA :: writeInNetOrder 2 s.length
  else 0xDB :: writeInNetOrder 4 s.length) ++ s

def writeArrayHeader (size : Nat) : Bytes :=
  if size < 0x10 then [UInt8.ofNat (0x90 + size)]
  else if size < 2 ^ 16 then 0xDC :: writeInNetOrder 2 size
  else 0xDD :: writeInNetOrder 4 size

/-- `operator<<`; a column or a value is no array and no object. -/
def unparse : Json → Option Bytes
  | .null => some [0xC0]
  | .bool x => some [if x then 0xC3 else 0xC2]
  | .unsigned x => some (writeUnsigned x)
  | .int x => some (writeSigned x)
  | .double bits => some (0xCB :: writeInNetOrder 8 bits)
  | .str s => some (writeString s)
  | .array _ | .object => none

/-! ## Puts -/

def cmdPut : Int := 6

structure Put where
  key : Bytes
  changes : List Json

/-- The request is one for which `onego` calls `run_put`. -/
def put? : Json → Option Put
  | .array (_ :: command :: .str key :: changes) =>
      if command.asI = some cmdPut ∧ changes ≠ [] ∧ changes.length % 2 = 0 then some ⟨key, changes⟩
      else none
  | _ => none

/-- The columns and values that the row takes from the request: a column is `unsigned`. -/
def applied : List Json → Option (List (Nat × Bytes))
  | [] => some []
  | column :: .str value :: rest =>
      column.asU.bind fun index => (applied rest).map ((index % 2 ^ 32, value) :: ·)
  | _ => none

/-- How `onego` logs a put: with the bytes of the request, or without them. -/
inductive Way where
  | request | json
  deriving DecidableEq

/-- The value that `onego` passes to `loginfo::record`. -/
def loggedValue (requestStr : Bytes) (put : Put) : Way → Option Bytes
  | .request => some (skipPrimitives 3 (skipArraySize requestStr))
  | .json => (put.changes.mapM unparse).map fun values =>
      writeArrayHeader put.changes.length ++ values.flatten

/-- The loop of `parse_changeset`, for at most `n` changes. -/
def changeset : Nat → Bytes → Option (List (Nat × Bytes))
  | _, [] => some []
  | 0, _ => none
  | n + 1, s => (readInt s).bind fun (index, s) => (readStr s).bind fun (value, s) =>
      (changeset n s).map (((index % 2 ^ 32).toNat, value) :: ·)

def parseChangeset (s : Bytes) : Option (List (Nat × Bytes)) := changeset s.length s

end Incll.Model.Msgpack
