import Incll.Model.StreamingParser

/-! # The reads of `streaming_parser::consume`

`consume` again, with positions for `first` and `last`: the bytes from `first` to `last` are a list, and
so is the saved string. A read outside of the list that `first` belongs to is a fault. A length of
`2 ^ 31` or more becomes a negative `n`; what follows from there is not modelled. -/

namespace Incll.Model.Streaming.Reads
open Incll.Model.Msgpack (Bytes form signed widen)

inductive Fault where
  | outside | spins | negative
  deriving DecidableEq

section
variable (buf : Bytes)

/-- `String(first, first + n)`. -/
def copy (first n : Nat) : Except Fault Bytes :=
  if first + n ≤ buf.length then .ok ((buf.drop first).take n) else .error .outside

def byteAt (first : Nat) : Except Fault UInt8 := do
  let s ← copy buf first 1
  pure (s.headD 0)

def readInNetOrder (first width : Nat) : Except Fault Nat := do
  let s ← copy buf first width
  pure (s.foldl (fun n b => n * 256 + b.toNat) 0)

/-- What comes at `first`, and where it leaves `first`. -/
inductive Decoded where
  | bad
  | short
  | scalar (value : Json) (first : Nat)
  | map (n first : Nat)
  | array (n first : Nat)
  | raw (n first : Nat)

/-- The number that follows the type, unless the bytes are not all there. -/
def number (first width : Nat) (f : Nat → Nat → Except Fault Decoded) : Except Fault Decoded :=
  if buf.length - first < width + 1 then pure .short
  else do
    let x ← readInNetOrder buf (first + 1) width
    f x (first + (width + 1))

/-- `n`. -/
def length (f : Nat → Nat → Decoded) (x first : Nat) : Except Fault Decoded :=
  if x < 2 ^ 31 then pure (f x first) else .error .negative

def decodeForm (first : Nat) : Msgpack.Form → Except Fault Decoded
  | .fixint x => pure (.scalar (.int x) (first + 1))
  | .null => pure (.scalar .null (first + 1))
  | .bool x => pure (.scalar (.bool x) (first + 1))
  | .fixmap n => pure (.map n (first + 1))
  | .fixarray n => pure (.array n (first + 1))
  | .fixstr n => pure (.raw n (first + 1))
  | .uint width => number buf first width fun x first =>
      pure (.scalar (if width ≤ 2 then .int x else .unsigned x) first)
  | .int width => number buf first width fun x first => pure (.scalar (.int (signed width x)) first)
  | .float width => number buf first width fun x first =>
      pure (.scalar (.double (if width = 4 then widen x else x)) first)
  | .str width => number buf first width (length .raw)
  | .array width => number buf first width (length .array)
  | .map width => number buf first width (length .map)
  | .unused | .ext => pure .bad

def decode (first : Nat) : Except Fault Decoded := do
  let b ← byteAt buf first
  decodeForm buf first (form b)

def loop : Nat → StreamingParser → Nat → Except Fault (StreamingParser × Nat)
  | 0, _, _ => .error .spins
  | fuel + 1, p, first =>
      if first = buf.length then pure ({ p with state := .stNormal }, first)
      else do
        let jx := p.current
        let go (p : StreamingParser) (n first : Nat) : Except Fault (StreamingParser × Nat) :=
          let p := p.next jx n
          match p.state with
          | .stNormal => loop fuel p first
          | _ => pure (p, first)
        match ← decode buf first with
        | .bad => pure ({ p with state := .stError }, first)
        | .short =>
            let str ← copy buf first (buf.length - first)
            pure ({ p with state := .stPartial str }, buf.length)
        | .scalar v first => go (p.assign jx v) 0 first
        | .map n first => go (p.assign jx (.object [])) n first
        | .array n first => go (p.modify (Json.resize n) jx) n first
        | .raw n first =>
            if buf.length - first < n then do
              let str ← copy buf first (buf.length - first)
              pure ({ p.push ⟨.null, n⟩ with state := .stString str }, buf.length)
            else do
              let str ← copy buf first n
              go (p.assign jx (.str str)) 0 (first + n)

/-- The loop with room for every turn. -/
def run (p : StreamingParser) (first : Nat) : Except Fault (StreamingParser × Nat) :=
  loop buf (buf.length + 1) p first

/-- The loop goes on unless the parser has stopped. -/
def resume (p : StreamingParser) (first : Nat) : Except Fault (StreamingParser × Nat) :=
  match p.state with
  | .stNormal => run buf p first
  | _ => pure (p, first)

/-- The saved string with what it still needs, as far as that is there. -/
def append (str : Bytes) (nneed : Nat) : Except Fault (Bytes × Nat) :=
  if nneed < str.length then .error .outside
  else do
    let next := if buf.length < nneed - str.length then buf.length else nneed - str.length
    let more ← copy buf 0 next
    pure (str ++ more, next)

def consume (p : StreamingParser) : Except Fault (StreamingParser × Nat) :=
  match p.state with
  | .stFinal | .stError => pure (p, 0)
  | .stNormal => run buf p 0
  | .stPartial str => do
      let b ← byteAt str 0
      let (str, next) ← append buf str (nbytes b)
      if str.length ≠ nbytes b then pure ({ p with state := .stPartial str }, next)
      else do
        let (p, _) ← run str { p with state := .stNormal } 0
        resume buf p next
  | .stString str =>
      match p.stack with
      | [] => .error .outside
      | top :: stack => do
          let (str, next) ← append buf str top.size
          if str.length ≠ top.size then pure ({ p with state := .stString str }, next)
          else
            let p := { p with stack := stack }
            resume buf ((p.assign p.current (.str str)).next p.current 0) next

end

/-- The states of a parser that has not met a negative `n`. -/
inductive Reachable : StreamingParser → Prop where
  | fresh : Reachable .fresh
  | consume {p p' : StreamingParser} {k : Nat} (buf : Bytes) :
      Reachable p → consume buf p = .ok (p', k) → Reachable p'
  | reset {p : StreamingParser} : Reachable p → Reachable { p with state := .stNormal, stack := [] }
  /-- `result() = Json()`. -/
  | clear {p : StreamingParser} : Reachable p → Reachable { p with json := .null }

end Incll.Model.Streaming.Reads
