import Mathlib.Data.Nat.Basic

/-! # Keys and bound searches (`masstree_key.hh`, `ksearch.hh`) -/

namespace Incll.Model

def ikeySize : Nat := 8

/-- A key of `len` bytes: the first eight as a big-endian number, the others as a suffix. -/
structure Key where
  ikey : Nat
  len : Nat
  suffix : List UInt8
  deriving DecidableEq

namespace Key

def hasSuffix (k : Key) : Bool := ikeySize < k.len

def compare (k : Key) (ikey keylenx : Nat) : Ordering :=
  match Ord.compare k.ikey ikey with
  | .eq =>
      if k.hasSuffix then (if keylenx ≤ ikeySize then .gt else .eq)
      else Ord.compare k.len keylenx
  | c => c

/-- An 8-byte key. -/
def ofNat (ikey : Nat) : Key := ⟨ikey, ikeySize, []⟩

end Key

/-- The binary search between `l` and `r`; `cmp m` compares the key with the entry at `m`. -/
def keyBound (cmp : Nat → Ordering) : Nat → Nat → Nat → Nat × Bool
  | 0, l, _ => (l, false)
  | fuel + 1, l, r =>
      if l < r then
        let m := (l + r) / 2
        match cmp m with
        | .lt => keyBound cmp fuel l m
        | .eq => (m, true)
        | .gt => keyBound cmp fuel (m + 1) r
      else (l, false)

def keyUpperBound (cmp : Nat → Ordering) (size : Nat) : Nat :=
  match keyBound cmp size 0 size with
  | (m, true) => m + 1
  | (l, false) => l

def keyLowerBound (cmp : Nat → Ordering) (size : Nat) : Nat × Bool := keyBound cmp size 0 size

end Incll.Model
