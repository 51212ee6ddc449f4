import Incll.Proof.Leaf.Entries

/-! # What a visit makes of a leaf after a crash -/

namespace Incll.Proof
open Incll.Model

/-! A leaf that was visited. -/

theorem lazyRecovery_of_not_pending {ge fe : Nat} {l : Leaf} (h : l.pending fe = false) :
    l.lazyRecovery ge fe = l := by
  simp only [Leaf.pending, Leaf.holdsEntry, Bool.and_eq_false_iff, decide_eq_false_iff_not] at h
  simp only [Leaf.lazyRecovery]
  split
  · next low =>
      rcases h with high | none
      · exact absurd low high
      · simp only [Bool.or_eq_false_iff, Bool.and_eq_false_iff, beq_eq_false_iff_ne, ne_eq,
          bne_eq_false_iff_eq] at none
        obtain ⟨⟨no0, no1⟩, no2⟩ := none
        simp only [Leaf.undoIncll]
        rw [if_neg, if_neg, if_neg]
        · rintro ⟨epoch, valid⟩
          rcases no2 with h | h
          · exact h epoch
          · simp [h] at valid
        · rintro ⟨epoch, valid⟩
          rcases no1 with h | h
          · exact h epoch
          · simp [h] at valid
        · rintro ⟨epoch, valid⟩
          rcases no0 with h | h
          · exact h epoch
          · exact valid h
  · rfl

theorem not_pending_of_epoch {fe : Nat} {l : Leaf} (h : fe < l.incll.loggedepoch) :
    l.pending fe = false := by
  simp [Leaf.pending, h]

theorem lazyRecovery_epoch {ge fe : Nat} {l : Leaf} (h : l.pending fe = true) :
    (l.lazyRecovery ge fe).incll = l.incll.recoverFinal ge := by
  simp only [Leaf.pending, Bool.and_eq_true, decide_eq_true_eq] at h
  simp only [Leaf.lazyRecovery, h.1, if_true, Leaf.undoIncll]
  split
  · rfl
  · split
    · rfl
    · split
      · rfl
      · have none := h.2
        simp only [Leaf.holdsEntry, Bool.or_eq_true, Bool.and_eq_true, beq_iff_eq, bne_iff_ne]
          at none
        tauto

theorem not_pending_lazyRecovery (ge fe : Nat) (l : Leaf) :
    (l.lazyRecovery ge fe).pending fe = false := by
  cases h : l.pending fe with
  | false => rw [lazyRecovery_of_not_pending h, h]
  | true =>
      simp [Leaf.pending, Leaf.holdsEntry, lazyRecovery_epoch h, Incll.recoverFinal,
        Incll.updateEpochs, Incll.invalidateCls]

theorem lazyRecovery_idem (ge fe : Nat) (l : Leaf) :
    (l.lazyRecovery ge fe).lazyRecovery ge fe = l.lazyRecovery ge fe :=
  lazyRecovery_of_not_pending (not_pending_lazyRecovery ge fe l)

/-! The content that the entries of epoch `e` give back. -/

def undone (e : Nat) (c : Incll) (b : LeafBody) : LeafBody :=
  if c.loggedepoch = e ∧ c.cl0Idx ≠ invalidIdx then b.setPermutation c.permCl0
  else if c.lvCl1.getLoggedepoch = e ∧ c.lvCl1.isClValid = true then
    b.setValue c.lvCl1.getClIdx c.lvCl1.getLv
  else if c.lvCl2.getLoggedepoch = e ∧ c.lvCl2.isClValid = true then
    b.setValue (c.lvCl2.getClIdx + keyMid) c.lvCl2.getLv
  else b

theorem undoIncll_body (ge fe : Nat) (l : Leaf) :
    (l.undoIncll ge fe).body = undone fe l.incll l.body := by
  simp only [Leaf.undoIncll, undone]
  split
  · rfl
  · split
    · rfl
    · split <;> rfl

theorem lazyRecovery_body (ge fe : Nat) (l : Leaf) :
    (l.lazyRecovery ge fe).body =
      if l.incll.loggedepoch ≤ fe then undone fe l.incll l.body else l.body := by
  simp only [Leaf.lazyRecovery]
  split
  · exact undoIncll_body ..
  · rfl

theorem undone_agrees {b b' : LeafBody} (e : Nat) (c : Incll)
    (perm : b.permutation = b'.permutation) (ikey0 : b.ikey0 = b'.ikey0)
    (keylenx : b.keylenx = b'.keylenx) (lv : b.lv = b'.lv) :
    Agrees (undone e c b) (undone e c b') := by
  simp only [undone]
  split
  · exact .of_same rfl ikey0 keylenx lv
  · split
    · exact .of_same perm ikey0 keylenx (by simp [LeafBody.setValue, lv])
    · split
      · exact .of_same perm ikey0 keylenx (by simp [LeafBody.setValue, lv])
      · exact .of_same perm ikey0 keylenx lv

/-- A field other than the permutation and the values is not undone. -/
theorem undone_frame {α : Type} (f : LeafBody → α) (perm : ∀ b p, f (b.setPermutation p) = f b)
    (lv : ∀ b p v, f (b.setValue p v) = f b) (e : Nat) (c : Incll) (b : LeafBody) :
    f (undone e c b) = f b := by
  simp only [undone]
  split
  · exact perm ..
  · split
    · exact lv ..
    · split
      · exact lv ..
      · rfl

theorem lazyRecovery_frame {α : Type} (f : LeafBody → α) (perm : ∀ b p, f (b.setPermutation p) = f b)
    (lv : ∀ b p v, f (b.setValue p v) = f b) (ge fe : Nat) (l : Leaf) :
    f (l.lazyRecovery ge fe).body = f l.body := by
  rw [lazyRecovery_body]
  split
  · exact undone_frame f perm lv ..
  · rfl

theorem undone_permutation (e : Nat) (c : Incll) (b : LeafBody) :
    (undone e c b).permutation = b.permutation ∨
      (undone e c b).permutation = c.permCl0 ∧ c.cl0Idx ≠ invalidIdx := by
  simp only [undone]
  split
  · next h => exact .inr ⟨rfl, h.2⟩
  · split
    · exact .inl rfl
    · split <;> exact .inl rfl

theorem lazyRecovery_permutation (ge fe : Nat) (l : Leaf) :
    (l.lazyRecovery ge fe).body.permutation = l.body.permutation ∨
      (l.lazyRecovery ge fe).body.permutation = l.incll.permCl0 ∧ l.incll.cl0Idx ≠ invalidIdx := by
  rw [lazyRecovery_body]
  split
  · exact undone_permutation ..
  · exact .inl rfl

/-- The valid value entries carry the epoch of the leaf. -/
structure Tagged (c : Incll) : Prop where
  cl1 : c.lvCl1.isClValid = true → c.lvCl1.getLoggedepoch = c.loggedepoch % 128
  cl2 : c.lvCl2.isClValid = true → c.lvCl2.getLoggedepoch = c.loggedepoch % 128

theorem tagged_updateEpochs (c : Incll) (e : Nat) : Tagged (c.updateEpochs e) := by
  constructor <;> simp [Incll.updateEpochs]

theorem tagged_of_invalid {c : Incll} (h1 : c.lvCl1.isClValid = false)
    (h2 : c.lvCl2.isClValid = false) : Tagged c := by
  constructor
  · simp [h1]
  · simp [h2]

theorem undone_old {c : Incll} {e : Nat} (tagged : Tagged c) (old : c.loggedepoch < e)
    (small : e < 128) (b : LeafBody) : undone e c b = b := by
  have tag : c.loggedepoch % 128 ≠ e := by omega
  simp only [undone]
  rw [if_neg, if_neg, if_neg]
  · rintro ⟨epoch, valid⟩
    exact tag (tagged.cl2 valid ▸ epoch)
  · rintro ⟨epoch, valid⟩
    exact tag (tagged.cl1 valid ▸ epoch)
  · rintro ⟨epoch, -⟩
    omega

theorem undone_cl0 {c : Incll} {e : Nat} (epoch : c.loggedepoch = e) (valid : c.cl0Idx ≠ invalidIdx)
    (b : LeafBody) : undone e c b = b.setPermutation c.permCl0 :=
  if_pos ⟨epoch, valid⟩

/-! The in-cache-line word for values of slot `p`. -/

def lvWord (c : Incll) (p : Nat) : IncllLv := if p < keyMid then c.lvCl1 else c.lvCl2

def lvSlot (w : IncllLv) (p : Nat) : Nat :=
  if p < keyMid then w.getClIdx else w.getClIdx + keyMid

/-- The in-cache-line log holds the value `v` for slot `p`. -/
structure HoldsValue (c : Incll) (p : Nat) (v : Leafvalue) : Prop where
  valid : (lvWord c p).isClValid = true
  slot : lvSlot (lvWord c p) p = p
  value : (lvWord c p).getLv = v

/-- `undo_incll` would choose another entry than the one for slot `p`. -/
def Shadowed (c : Incll) (p : Nat) : Prop :=
  c.cl0Idx ≠ invalidIdx ∨ keyMid ≤ p ∧ c.lvCl1.isClValid = true

theorem undone_value {c : Incll} {e p : Nat} {v : Leafvalue} (tagged : Tagged c)
    (epoch : c.loggedepoch = e) (small : e < 128) (holds : HoldsValue c p v)
    (clear : ¬ Shadowed c p) (b : LeafBody) : undone e c b = b.setValue p v := by
  rw [Shadowed, not_or] at clear
  obtain ⟨idle, clear⟩ := clear
  obtain ⟨valid, slot, value⟩ := holds
  have tag : c.loggedepoch % 128 = e := by omega
  simp only [undone]
  rw [if_neg fun h => idle h.2]
  by_cases low : p < keyMid
  · simp only [lvWord, lvSlot, if_pos low] at valid slot value
    rw [if_pos ⟨(tagged.cl1 valid).trans tag, valid⟩, slot, value]
  · simp only [lvWord, lvSlot, if_neg low] at valid slot value
    rw [if_neg fun h => clear ⟨Nat.le_of_not_lt low, h.2⟩,
      if_pos ⟨(tagged.cl2 valid).trans tag, valid⟩, slot, value]

/-! The logging calls. -/

/-- The first insertion of an epoch into the leaf, between `save_cl0_insert` and the store of the
permutation. -/
structure InsertReady (ge : Nat) (l : Leaf) : Prop where
  epoch : l.incll.loggedepoch = ge
  notLogged : l.incll.notLogged = true
  valid : l.incll.cl0Idx ≠ invalidIdx
  copy : l.incll.permCl0 = l.body.permutation
  room : l.body.size < leafWidth

/-- The first update of an epoch, between `save_cl1_2_update` and the store of the value. -/
structure UpdateReady (ge : Nat) (l : Leaf) (p : Nat) : Prop where
  epoch : l.incll.loggedepoch = ge
  notLogged : l.incll.notLogged = true
  tagged : Tagged l.incll
  holds : HoldsValue l.incll p (l.body.lv p)
  slot : p ∈ l.body.permutation.live

/-- The image that logging appends, and the leaf after it. -/
def loggedImage (l : Leaf) : Leaf := { l with incll := { l.incll with notLogged := false } }

def afterLog (ge : Nat) (l : Leaf) : Leaf :=
  { l with incll := Incll.invalidateCls { l.incll with notLogged := false, loggedepoch := ge } }

section save
variable {l : Leaf} {ge : Nat} (first : l.incll.loggedepoch ≠ ge)
include first

theorem saveCl0Insert_first :
    (l.saveCl0Insert ge).1 = { l with incll := { Incll.updateEpochs
      { l.incll with permCl0 := l.body.permutation, cl0Idx := 0 } ge with notLogged := true } } ∧
    (l.saveCl0Insert ge).2 = none := by
  simp [Leaf.saveCl0Insert, first]

theorem undone_saveCl0Insert :
    undone ge (l.saveCl0Insert ge).1.incll (l.saveCl0Insert ge).1.body = l.body := by
  have epoch : (l.saveCl0Insert ge).1.incll.loggedepoch = ge := by
    rw [(saveCl0Insert_first first).1]
    rfl
  have active : (l.saveCl0Insert ge).1.incll.cl0Idx ≠ invalidIdx := by
    rw [(saveCl0Insert_first first).1]
    simp [Incll.updateEpochs, invalidIdx]
  rw [undone_cl0 epoch active, (saveCl0Insert_first first).1]
  rfl

theorem insertReady_saveCl0Insert (room : l.body.size < leafWidth) :
    InsertReady ge (l.saveCl0Insert ge).1 := by
  rw [(saveCl0Insert_first first).1]
  exact ⟨rfl, rfl, by simp [Incll.updateEpochs, invalidIdx], rfl, room⟩

theorem saveCl12Update_first (p : Nat) :
    (l.saveCl12Update ge p).1.body = l.body ∧ (l.saveCl12Update ge p).2 = none ∧
    (l.saveCl12Update ge p).1.incll.loggedepoch = ge ∧
    (l.saveCl12Update ge p).1.incll.notLogged = true ∧
    (l.saveCl12Update ge p).1.incll.cl0Idx = l.incll.cl0Idx ∧
    (l.saveCl12Update ge p).1.incll.permCl0 = l.incll.permCl0 ∧
    (keyMid ≤ p → (l.saveCl12Update ge p).1.incll.lvCl1.isClValid = l.incll.lvCl1.isClValid) := by
  rw [Leaf.saveCl12Update, if_pos first]
  dsimp only
  split
  · next low => exact ⟨rfl, rfl, rfl, rfl, rfl, rfl, fun high => absurd low (by omega)⟩
  · exact ⟨rfl, rfl, rfl, rfl, rfl, rfl, fun _ => by simp [Incll.updateEpochs]⟩

theorem updateReady_saveCl12Update {p : Nat} (bound : p < leafWidth)
    (slot : p ∈ l.body.permutation.live) : UpdateReady ge (l.saveCl12Update ge p).1 p := by
  simp only [leafWidth] at bound
  have fields := saveCl12Update_first first p
  refine ⟨fields.2.2.1, fields.2.2.2.1, ?_, ?_, fields.1 ▸ slot⟩
  · simp only [Leaf.saveCl12Update, ne_eq, first, not_false_eq_true, if_true]
    exact ⟨(tagged_updateEpochs ..).cl1, (tagged_updateEpochs ..).cl2⟩
  · rw [fields.1]
    simp only [Leaf.saveCl12Update, ne_eq, first, not_false_eq_true, if_true]
    by_cases low : p < keyMid
    · have small : p < 7 := low
      constructor <;> simp [lvWord, lvSlot, low, Incll.updateEpochs, small,
        show p < 8 by omega]
    · have small : p - keyMid < 7 := by simp only [keyMid] at *; omega
      have whole := Nat.sub_add_cancel (Nat.le_of_not_lt low)
      constructor <;> simp [lvWord, lvSlot, low, Incll.updateEpochs, small,
        show p - keyMid < 8 by omega, whole]

end save

theorem logAfterIncll_eq {l : Leaf} {ge : Nat} (epoch : l.incll.loggedepoch = ge) :
    l.logAfterIncll =
      if l.incll.notLogged = true then (afterLog ge l, some (loggedImage l)) else (l, none) := by
  subst epoch
  rfl

theorem recordNode_eq (ge : Nat) (l : Leaf) :
    l.recordNode ge =
      if l.incll.loggedepoch ≠ ge ∨ l.incll.notLogged = true then
        (afterLog ge l, some (loggedImage l))
      else (l, none) := rfl

end Incll.Proof
