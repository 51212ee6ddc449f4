import Incll.Model.Node

/-! # The word of `nodeversion32` (`nodeversion.hh`) -/

namespace Incll.Model

structure Nodeversion32 where
  v : BitVec 32
  deriving DecidableEq

namespace Nodeversion32

def lockBit : BitVec 32 := 1#32 <<< 0
def insertingBit : BitVec 32 := 1#32 <<< 1
def splittingBit : BitVec 32 := 1#32 <<< 2
def dirtyMask : BitVec 32 := insertingBit ||| splittingBit
def vinsertLowbit : BitVec 32 := 1#32 <<< 3
def vsplitLowbit : BitVec 32 := 1#32 <<< 9
def unused1Bit : BitVec 32 := 1#32 <<< 28
def deletedBit : BitVec 32 := 1#32 <<< 29
def rootBit : BitVec 32 := 1#32 <<< 30
def isleafBit : BitVec 32 := 1#32 <<< 31
def splitUnlockMask : BitVec 32 := ~~~(rootBit ||| unused1Bit ||| (vsplitLowbit - 1#32))
def unlockMask : BitVec 32 := ~~~(unused1Bit ||| (vinsertLowbit - 1#32))

section
variable (x : Nodeversion32)

def isleaf : Bool := x.v &&& isleafBit != 0#32
def locked : Bool := x.v &&& lockBit != 0#32
def inserting : Bool := x.v &&& insertingBit != 0#32
def splitting : Bool := x.v &&& splittingBit != 0#32
def deleted : Bool := x.v &&& deletedBit != 0#32
def isRoot : Bool := x.v &&& rootBit != 0#32
def dirty : Bool := x.v &&& dirtyMask != 0#32

def hasChanged (y : Nodeversion32) : Bool := decide (lockBit < y.v ^^^ x.v)

def hasSplit (y : Nodeversion32) : Bool := decide (vsplitLowbit ≤ y.v ^^^ x.v)

/-- `none` where the code would spin or fail an assertion. -/
def lock : Option Nodeversion32 :=
  if x.locked then none else if x.dirty then none else some ⟨x.v ||| lockBit⟩

def unlock : Option Nodeversion32 :=
  if x.locked then
    some (if x.splitting then ⟨(x.v + vsplitLowbit) &&& splitUnlockMask⟩
      else ⟨(x.v + ((x.v &&& insertingBit) <<< 2)) &&& unlockMask⟩)
  else none

def markInsert : Option Nodeversion32 :=
  if x.locked then some ⟨x.v ||| insertingBit⟩ else none

def markSplit : Option Nodeversion32 :=
  if x.locked then some ⟨x.v ||| splittingBit⟩ else none

def markDeleted : Nodeversion32 := ⟨x.v ||| (deletedBit ||| splittingBit)⟩

def markRoot : Nodeversion32 := ⟨x.v ||| rootBit⟩

def markNonroot : Nodeversion32 := ⟨x.v &&& ~~~rootBit⟩

end

inductive Mark where
  | insert | split | deleted | root | nonroot
  deriving DecidableEq

def Mark.apply (x : Nodeversion32) : Mark → Option Nodeversion32
  | insert => x.markInsert
  | split => x.markSplit
  | deleted => some x.markDeleted
  | root => some x.markRoot
  | nonroot => some x.markNonroot

def marks (x : Nodeversion32) (ms : List Mark) : Option Nodeversion32 := ms.foldlM Mark.apply x

/-- A critical section. -/
def critical (x : Nodeversion32) (ms : List Mark) : Option Nodeversion32 := do
  let x ← x.lock
  let x ← x.marks ms
  x.unlock

def run (x : Nodeversion32) (done : List (List Mark)) : Option Nodeversion32 :=
  done.foldlM critical x

/-- The sections `done`, and then the marks of a section that is still open. -/
def runOpen (x : Nodeversion32) (done : List (List Mark)) (last : List Mark) : Option Nodeversion32 := do
  let x ← x.run done
  let x ← x.lock
  x.marks last

end Nodeversion32
end Incll.Model
