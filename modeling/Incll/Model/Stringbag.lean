import Mathlib.Logic.Function.Basic

/-! # Key suffixes (`stringbag.hh`) -/

namespace Incll.Model

structure Stringbag where
  size : Nat
  capacity : Nat
  info : Nat → Nat × Nat
  bytes : Nat → UInt8

namespace Stringbag

def sliceSize : Nat := 8

/-- `offset` is the size of the offset type: 1 inside a leaf and 2 outside. -/
def overhead (offset width : Nat) : Nat := 2 * offset + width * (2 * offset)

def safeSize (offset width len : Nat) : Nat := overhead offset width + len + sliceSize - 1

def make (offset width capacity : Nat) : Stringbag where
  size := overhead offset width
  capacity := capacity
  info := fun _ => (0, 0)
  bytes := fun _ => 0

def get (b : Stringbag) (p : Nat) : List UInt8 :=
  (List.range (b.info p).2).map fun i => b.bytes ((b.info p).1 + i)

def put (b : Stringbag) (p pos : Nat) (s : List UInt8) : Stringbag :=
  { b with
    info := Function.update b.info p (pos, s.length)
    bytes := fun i => if pos ≤ i ∧ i < pos + s.length then s.getD (i - pos) 0 else b.bytes i }

def assign (b : Stringbag) (p : Nat) (s : List UInt8) : Option Stringbag :=
  if s.length ≤ (b.info p).2 then some (b.put p (b.info p).1 s)
  else if b.size + max s.length sliceSize ≤ b.capacity then
    some { b.put p b.size s with size := b.size + s.length }
  else none

end Stringbag
end Incll.Model
