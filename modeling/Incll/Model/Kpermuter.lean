import Mathlib.Data.List.Basic

/-! # `kpermuter<14>` as a list of slots and the number of live ones

Slot `i` of the list is nibble `i + 1` of the word. The operations below are the list operations
that the comments of `kpermuter.hh` state. -/

namespace Incll.Model

def leafWidth : Nat := 14

structure Kpermuter where
  size : Nat
  slots : List Nat
  deriving DecidableEq

namespace Kpermuter

/-- Free slots are handed out from the back, in the order 0, 1, ..., 13. -/
def makeEmpty : Kpermuter := ⟨0, (List.range leafWidth).reverse⟩

def makeSorted (n : Nat) : Kpermuter :=
  ⟨n, List.range n ++ ((List.range leafWidth).drop n).reverse⟩

instance : Inhabited Kpermuter := ⟨makeEmpty⟩

def get (p : Kpermuter) (i : Nat) : Nat := p.slots.getD i 0

def back (p : Kpermuter) : Nat := p.get (leafWidth - 1)

def setSize (p : Kpermuter) (n : Nat) : Kpermuter := { p with size := n }

def insertFromBack (p : Kpermuter) (i : Nat) : Kpermuter :=
  ⟨p.size + 1, p.slots.dropLast.insertIdx i p.back⟩

def remove (p : Kpermuter) (i : Nat) : Kpermuter :=
  ⟨p.size - 1, (p.slots.eraseIdx i).insertIdx (p.size - 1) (p.get i)⟩

def removeToBack (p : Kpermuter) (i : Nat) : Kpermuter :=
  ⟨p.size - 1, p.slots.eraseIdx i ++ [p.get i]⟩

def exchange (p : Kpermuter) (i j : Nat) : Kpermuter :=
  { p with slots := (p.slots.set i (p.get j)).set j (p.get i) }

/-- The slots that hold an entry, in key order. -/
def live (p : Kpermuter) : List Nat := p.slots.take p.size

end Kpermuter
end Incll.Model
