import Incll.Model.IncllLv
import Incll.Model.Key
import Incll.Model.Kpermuter
import Incll.Model.PExtNodeLogger
import Incll.Model.Stringbag

/-! # The fields of a leaf and its in-cache-line log (`masstree_struct.hh`)

`record_node` and the two `save_cl` functions return the leaf and, if they append to the external
log, the image that they append. -/

namespace Incll.Model

inductive Modstate where
  | insert | remove | deletedLayer
  deriving DecidableEq

/-- The fields of `leaf` that the tree operations write. -/
structure LeafBody where
  modstate : Modstate
  keylenx : Nat → Nat
  permutation : Kpermuter
  ikey0 : Nat → Nat
  next : Addr
  nextMark : Bool
  prev : Addr
  parent : Addr
  lv : Nat → Leafvalue
  extrasize64 : Int
  ksuf : Option Stringbag
  iksuf : Stringbag

/-- The logging words of `node_base` and `leaf`. -/
structure Incll where
  notLogged : Bool
  cl0Idx : Nat
  loggedepoch : Nat
  permCl0 : Kpermuter
  lvCl1 : IncllLv
  lvCl2 : IncllLv
  deriving DecidableEq

structure Leaf where
  incll : Incll
  body : LeafBody

namespace Incll

def make (globalepoch : Nat) : Incll where
  notLogged := false
  cl0Idx := invalidIdx
  loggedepoch := globalepoch
  permCl0 := default
  lvCl1 := .make globalepoch
  lvCl2 := .make globalepoch

def invalidateCls (c : Incll) : Incll :=
  { c with cl0Idx := invalidIdx, lvCl1 := c.lvCl1.invalidateCl, lvCl2 := c.lvCl2.invalidateCl }

def updateEpochs (c : Incll) (e : Nat) : Incll :=
  { c with
    loggedepoch := e
    lvCl1 := c.lvCl1.setLoggedepoch e
    lvCl2 := c.lvCl2.setLoggedepoch e }

def recoverFinal (c : Incll) (globalepoch : Nat) : Incll :=
  c.invalidateCls.updateEpochs (globalepoch - 1)

end Incll

namespace Leaf

def recordNode (globalepoch : Nat) (l : Leaf) : Leaf × Option Leaf :=
  if l.incll.loggedepoch ≠ globalepoch ∨ l.incll.notLogged = true then
    let image := { l with incll := { l.incll with notLogged := false } }
    ({ image with incll := { image.incll with loggedepoch := globalepoch }.invalidateCls },
      some image)
  else (l, none)

/-- The branch of `save_cl0_insert` and `save_cl1_2_update` for a leaf that already has its
in-cache-line entry in this epoch. -/
def logAfterIncll (l : Leaf) : Leaf × Option Leaf :=
  if l.incll.notLogged = true then
    let image := { l with incll := { l.incll with notLogged := false } }
    ({ image with incll := image.incll.invalidateCls }, some image)
  else (l, none)

def saveCl0Insert (globalepoch : Nat) (l : Leaf) : Leaf × Option Leaf :=
  if l.incll.loggedepoch ≠ globalepoch then
    let c := { l.incll with permCl0 := l.body.permutation, cl0Idx := 0 }
    ({ l with incll := { c.updateEpochs globalepoch with notLogged := true } }, none)
  else l.logAfterIncll

def saveCl12Update (globalepoch : Nat) (p : Nat) (l : Leaf) : Leaf × Option Leaf :=
  if l.incll.loggedepoch ≠ globalepoch then
    let c := if p < keyMid then
        { l.incll with lvCl1 := l.incll.lvCl1.setLvIdxGe (l.body.lv p) p globalepoch }
      else
        { l.incll with lvCl2 := l.incll.lvCl2.setLvIdxGe (l.body.lv p) (p - keyMid) globalepoch }
    ({ l with incll := { c.updateEpochs globalepoch with notLogged := true } }, none)
  else l.logAfterIncll

def recoverCl0 (l : Leaf) : Leaf :=
  { l with body := { l.body with permutation := l.incll.permCl0 } }

def setLv (l : Leaf) (p : Nat) (v : Leafvalue) : Leaf :=
  { l with body := { l.body with lv := Function.update l.body.lv p v } }

def recoverCl1 (l : Leaf) : Leaf := l.setLv l.incll.lvCl1.getClIdx l.incll.lvCl1.getLv

def recoverCl2 (l : Leaf) : Leaf := l.setLv (l.incll.lvCl2.getClIdx + keyMid) l.incll.lvCl2.getLv

def recoverFinal (globalepoch : Nat) (l : Leaf) : Leaf :=
  { l with incll := l.incll.recoverFinal globalepoch }

/-- The tests of `undo_incll`: the leaf holds a valid entry of epoch `fe`. -/
def holdsEntry (fe : Nat) (l : Leaf) : Bool :=
  l.incll.loggedepoch == fe && l.incll.cl0Idx != invalidIdx ||
  l.incll.lvCl1.getLoggedepoch == fe && l.incll.lvCl1.isClValid ||
  l.incll.lvCl2.getLoggedepoch == fe && l.incll.lvCl2.isClValid

/-- An entry of the failed epoch that is still to be undone. -/
def pending (fe : Nat) (l : Leaf) : Bool := l.incll.loggedepoch ≤ fe && l.holdsEntry fe

def undoIncll (globalepoch fe : Nat) (l : Leaf) : Leaf :=
  if l.incll.loggedepoch = fe ∧ l.incll.cl0Idx ≠ invalidIdx then
    l.recoverCl0.recoverFinal globalepoch
  else if l.incll.lvCl1.getLoggedepoch = fe ∧ l.incll.lvCl1.isClValid = true then
    l.recoverCl1.recoverFinal globalepoch
  else if l.incll.lvCl2.getLoggedepoch = fe ∧ l.incll.lvCl2.isClValid = true then
    l.recoverCl2.recoverFinal globalepoch
  else l

def lazyRecovery (globalepoch fe : Nat) (l : Leaf) : Leaf :=
  if l.incll.loggedepoch ≤ fe then l.undoIncll globalepoch fe else l

end Leaf
end Incll.Model
