import Incll.Model.Node

/-! # Key searches over a permutation (`ksearch.hh`) -/

namespace Incll.Model

/-- `p` is `none` for -1. -/
structure KeyIndexedPosition where
  i : Nat
  p : Option Nat
  deriving DecidableEq

/-- What a search uses of `kpermuter` and `identity_kpermuter`. -/
structure KeyPermuter where
  size : Nat
  get : Nat → Nat

def Kpermuter.keyPermuter (p : Kpermuter) : KeyPermuter := ⟨p.size, p.get⟩

def identityKpermuter (size : Nat) : KeyPermuter := ⟨size, id⟩

section
variable (perm : KeyPermuter) (comparator : Nat → Ordering)

def upperLoop (l r : Nat) : Nat :=
  if l < r then
    let m := (l + r) / 2
    match comparator (perm.get m) with
    | .lt => upperLoop l m
    | .eq => m + 1
    | .gt => upperLoop (m + 1) r
  else l
termination_by r - l

def keyUpperBoundBy : Nat := upperLoop perm comparator 0 perm.size

def lowerLoop (l r : Nat) : KeyIndexedPosition :=
  if l < r then
    let m := (l + r) / 2
    match comparator (perm.get m) with
    | .lt => lowerLoop l m
    | .eq => ⟨m, some (perm.get m)⟩
    | .gt => lowerLoop (m + 1) r
  else ⟨l, none⟩
termination_by r - l

def keyLowerBoundBy : KeyIndexedPosition := lowerLoop perm comparator 0 perm.size

def findUpperLoop (l r : Nat) : Nat :=
  if l < r then
    match comparator (perm.get l) with
    | .lt => l
    | _ => findUpperLoop (l + 1) r
  else l
termination_by r - l

def keyFindUpperBoundBy : Nat := findUpperLoop perm comparator 0 perm.size

def findLowerLoop (l r : Nat) : KeyIndexedPosition :=
  if l < r then
    match comparator (perm.get l) with
    | .lt => ⟨l, none⟩
    | .eq => ⟨l, some (perm.get l)⟩
    | .gt => findLowerLoop (l + 1) r
  else ⟨l, none⟩
termination_by r - l

def keyFindLowerBoundBy : KeyIndexedPosition := findLowerLoop perm comparator 0 perm.size

end

/-- `key_bound_binary` and `key_bound_linear`. -/
inductive KeyBound where
  | binary | linear
  deriving DecidableEq

namespace Kind

def keyPermuter : Kind → KeyPermuter
  | leaf l => l.body.permutation.keyPermuter
  | internode i => identityKpermuter i.nkeys

def compareKey (k : Key) : Kind → Nat → Ordering
  | leaf l, p => l.body.compareKey k p
  | internode i, p => compare k.ikey (i.ikey0 p)

end Kind

namespace KeyBound

def upper (k : Key) (n : Kind) : KeyBound → Nat
  | binary => keyUpperBoundBy n.keyPermuter (n.compareKey k)
  | linear => keyFindUpperBoundBy n.keyPermuter (n.compareKey k)

def lower (k : Key) (n : Kind) : KeyBound → KeyIndexedPosition
  | binary => keyLowerBoundBy n.keyPermuter (n.compareKey k)
  | linear => keyFindLowerBoundBy n.keyPermuter (n.compareKey k)

end KeyBound
end Incll.Model
