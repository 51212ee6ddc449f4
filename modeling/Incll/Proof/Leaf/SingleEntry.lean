import Incll.Lib.Machine
import Incll.Model.Leaf

/-! # At most one in-cache-line entry is active -/

namespace Incll.Proof.SingleEntry
open Incll.Lib Incll.Model

/-- A leaf over the epochs; `start e` is its content at the beginning of epoch `e`. -/
structure State where
  leaf : Leaf
  globalepoch : Nat
  start : Nat → LeafBody

/-- A logging call followed by the writes of its caller. -/
inductive Label where
  | advance
  | saveCl0Insert (write : LeafBody)
  | saveCl12Update (p : Nat) (write : LeafBody)
  | recordNode (write : LeafBody)
  | recoverFinal

def State.logged (s : State) (l : Leaf) (write : LeafBody) : State :=
  { s with leaf := { l with body := write } }

def step (s : State) : Label → Option State
  | .advance => some { s with
      globalepoch := s.globalepoch + 1
      start := Function.update s.start (s.globalepoch + 1) s.leaf.body }
  | .saveCl0Insert write => some (s.logged (s.leaf.saveCl0Insert s.globalepoch).1 write)
  | .saveCl12Update p write =>
      if p < leafWidth then some (s.logged (s.leaf.saveCl12Update s.globalepoch p).1 write)
      else none
  | .recordNode write => some (s.logged (s.leaf.recordNode s.globalepoch).1 write)
  | .recoverFinal => some { s with leaf := s.leaf.recoverFinal s.globalepoch }

def init (e : Nat) (b : LeafBody) : State := ⟨⟨.make e, b⟩, e, fun _ => b⟩

def machine : Machine State Label where
  initial s := ∃ e b, 0 < e ∧ s = init e b
  step := step

/-! The three entries, each with the epoch it is tagged with. -/

def cl0Active (c : Incll) : Bool := c.cl0Idx != invalidIdx

def lvActive (w : IncllLv) (e : Nat) : Bool := w.isClValid && w.getLoggedepoch == e % 128

def activeEntries (c : Incll) : Nat :=
  (cl0Active c).toNat + (lvActive c.lvCl1 c.loggedepoch).toNat +
    (lvActive c.lvCl2 c.loggedepoch).toNat

/-- What the active entry holds is the content `b`. -/
structure Holds (c : Incll) (b : LeafBody) : Prop where
  cl0 : cl0Active c = true → c.permCl0 = b.permutation
  cl1 : lvActive c.lvCl1 c.loggedepoch = true → c.lvCl1.getLv = b.lv c.lvCl1.getClIdx
  cl2 : lvActive c.lvCl2 c.loggedepoch = true → c.lvCl2.getLv = b.lv (c.lvCl2.getClIdx + keyMid)

/-- The first save of an epoch finds no valid entry of another kind, and `recover_final` is not
called on a leaf that was logged in the current epoch. -/
def Fresh (s : State) : Label → Bool
  | .saveCl0Insert _ => s.leaf.incll.loggedepoch == s.globalepoch ||
      !s.leaf.incll.lvCl1.isClValid && !s.leaf.incll.lvCl2.isClValid
  | .saveCl12Update p _ => s.leaf.incll.loggedepoch == s.globalepoch ||
      !cl0Active s.leaf.incll &&
        !(if p < keyMid then s.leaf.incll.lvCl2 else s.leaf.incll.lvCl1).isClValid
  | .recoverFinal => s.leaf.incll.loggedepoch != s.globalepoch
  | _ => true

/-- `Holds`, and the entries that are valid are all of one kind. -/
structure Inv (s : State) : Prop where
  epoch : s.leaf.incll.loggedepoch ≤ s.globalepoch
  positive : 0 < s.globalepoch
  untouched : s.leaf.incll.loggedepoch ≠ s.globalepoch → s.start s.globalepoch = s.leaf.body
  one : activeEntries s.leaf.incll ≤ 1
  holds : Holds s.leaf.incll (s.start s.leaf.incll.loggedepoch)

def Quiet (c : Incll) : Prop :=
  cl0Active c = false ∧ c.lvCl1.isClValid = false ∧ c.lvCl2.isClValid = false

theorem quiet_one {c : Incll} (h : Quiet c) : activeEntries c ≤ 1 := by
  obtain ⟨h0, h1, h2⟩ := h
  simp [activeEntries, lvActive, h0, h1, h2]

theorem quiet_holds {c : Incll} (h : Quiet c) (b : LeafBody) : Holds c b := by
  obtain ⟨h0, h1, h2⟩ := h
  constructor <;> simp [lvActive, h0, h1, h2]

theorem quiet_invalidateCls (c : Incll) : Quiet c.invalidateCls := by
  simp [Quiet, Incll.invalidateCls, cl0Active]

theorem quiet_updateEpochs {c : Incll} {e : Nat} (h : Quiet c) : Quiet (c.updateEpochs e) := by
  simpa [Quiet, Incll.updateEpochs, cl0Active] using h

theorem quiet_make (e : Nat) : Quiet (.make e) := by
  simp [Quiet, Incll.make, IncllLv.make, cl0Active]

/-! The first save of an epoch leaves one active entry, and it holds the content `b`. -/

theorem saveCl0_first {l : Leaf} {e : Nat} (first : l.incll.loggedepoch ≠ e)
    (h1 : l.incll.lvCl1.isClValid = false) (h2 : l.incll.lvCl2.isClValid = false) :
    activeEntries (l.saveCl0Insert e).1.incll ≤ 1 ∧
      Holds (l.saveCl0Insert e).1.incll l.body := by
  simp only [Leaf.saveCl0Insert, ne_eq, first, not_false_eq_true, if_true, Incll.updateEpochs]
  constructor
  · have := Bool.toNat_le (cl0Active l.incll)
    simp [activeEntries, lvActive, h1, h2, cl0Active, invalidIdx]
  · constructor <;> simp [lvActive, h1, h2]

theorem saveCl12_first {l : Leaf} {e p : Nat} (first : l.incll.loggedepoch ≠ e)
    (bound : p < leafWidth) (h0 : cl0Active l.incll = false)
    (other : (if p < keyMid then l.incll.lvCl2 else l.incll.lvCl1).isClValid = false) :
    activeEntries (l.saveCl12Update e p).1.incll ≤ 1 ∧
      Holds (l.saveCl12Update e p).1.incll l.body := by
  simp only [Leaf.saveCl12Update, ne_eq, first, not_false_eq_true, if_true, Incll.updateEpochs]
  simp only [leafWidth] at bound
  have idle : l.incll.cl0Idx = invalidIdx := by simpa [cl0Active] using h0
  by_cases low : p < keyMid
  · rw [if_pos low] at other
    have small : p < 8 := by simp only [keyMid] at low; omega
    simp only [low, if_true]
    constructor
    · simpa [activeEntries, lvActive, cl0Active, idle, other] using Bool.toNat_le _
    · constructor <;> simp [lvActive, cl0Active, idle, other, small]
  · rw [if_neg low] at other
    have small : p - keyMid < 8 := by simp only [keyMid] at *; omega
    simp only [low, if_false]
    constructor
    · simpa [activeEntries, lvActive, cl0Active, idle, other] using Bool.toNat_le _
    · have whole := Nat.sub_add_cancel (Nat.le_of_not_lt low)
      constructor <;> simp [lvActive, cl0Active, idle, other, small, whole]

/-! A later logging call of the epoch keeps the entry or invalidates all three. -/

theorem logAfterIncll_entries (l : Leaf) :
    l.logAfterIncll.1.incll = l.incll ∨
      Quiet l.logAfterIncll.1.incll ∧ l.logAfterIncll.1.incll.loggedepoch = l.incll.loggedepoch := by
  simp only [Leaf.logAfterIncll]
  split
  · exact .inr ⟨quiet_invalidateCls _, rfl⟩
  · exact .inl rfl

theorem recordNode_entries (l : Leaf) (e : Nat) :
    (l.recordNode e).1.incll.loggedepoch = e ∧
      ((l.recordNode e).1.incll = l.incll ∨ Quiet (l.recordNode e).1.incll) := by
  simp only [Leaf.recordNode]
  split
  · exact ⟨rfl, .inr (quiet_invalidateCls _)⟩
  · next same =>
      simp only [ne_eq, not_or, not_not] at same
      exact ⟨same.1, .inl rfl⟩

theorem inv_logged {s : State} {l : Leaf} {write : LeafBody} (inv : Inv s)
    (tagged : l.incll.loggedepoch = s.globalepoch) (one : activeEntries l.incll ≤ 1)
    (holds : Holds l.incll (s.start s.globalepoch)) : Inv (s.logged l write) := by
  constructor
  · exact tagged.le
  · exact inv.positive
  · intro h
    exact absurd tagged h
  · exact one
  · rw [← tagged] at holds
    exact holds

theorem inv_quiet {s : State} {l : Leaf} {write : LeafBody} (inv : Inv s)
    (tagged : l.incll.loggedepoch = s.globalepoch) (quiet : Quiet l.incll) :
    Inv (s.logged l write) :=
  inv_logged inv tagged (quiet_one quiet) (quiet_holds quiet _)

theorem inv_same {s : State} {l : Leaf} {write : LeafBody} (inv : Inv s)
    (tagged : s.leaf.incll.loggedepoch = s.globalepoch) (same : l.incll = s.leaf.incll) :
    Inv (s.logged l write) := by
  apply inv_logged inv
  · rw [same, tagged]
  · rw [same]
    exact inv.one
  · rw [same, ← tagged]
    exact inv.holds

theorem inv_logAfterIncll {s : State} {write : LeafBody} (inv : Inv s)
    (tagged : s.leaf.incll.loggedepoch = s.globalepoch) :
    Inv (s.logged s.leaf.logAfterIncll.1 write) := by
  rcases logAfterIncll_entries s.leaf with same | ⟨quiet, le⟩
  · exact inv_same inv tagged same
  · exact inv_quiet inv (le.trans tagged) quiet

theorem inv_first {s : State} {l : Leaf} {write : LeafBody} (inv : Inv s)
    (first : s.leaf.incll.loggedepoch ≠ s.globalepoch)
    (tagged : l.incll.loggedepoch = s.globalepoch)
    (entry : activeEntries l.incll ≤ 1 ∧ Holds l.incll s.leaf.body) : Inv (s.logged l write) := by
  apply inv_logged inv tagged entry.1
  rw [inv.untouched first]
  exact entry.2

theorem inv_step {s s' : State} {l : Label} (inv : Inv s) (fresh : Fresh s l = true)
    (h : step s l = some s') : Inv s' := by
  cases l with
  | advance =>
      cases h
      have old : s.leaf.incll.loggedepoch ≠ s.globalepoch + 1 := by have := inv.epoch; omega
      constructor
      · have := inv.epoch
        simp only
        omega
      · exact Nat.succ_pos _
      · intro _
        exact Function.update_self ..
      · exact inv.one
      · simp only [Function.update_of_ne old]
        exact inv.holds
  | saveCl0Insert write =>
      cases h
      by_cases first : s.leaf.incll.loggedepoch = s.globalepoch
      · simp only [Leaf.saveCl0Insert, ne_eq, first, not_true_eq_false, if_false]
        exact inv_logAfterIncll inv first
      · simp [Fresh, first] at fresh
        apply inv_first inv first _ (saveCl0_first first fresh.1 fresh.2)
        simp [Leaf.saveCl0Insert, first, Incll.updateEpochs]
  | saveCl12Update p write =>
      simp only [step, Option.ite_none_right_eq_some, Option.some.injEq] at h
      obtain ⟨bound, rfl⟩ := h
      by_cases first : s.leaf.incll.loggedepoch = s.globalepoch
      · simp only [Leaf.saveCl12Update, ne_eq, first, not_true_eq_false, if_false]
        exact inv_logAfterIncll inv first
      · simp [Fresh, first] at fresh
        apply inv_first inv first _ (saveCl12_first first bound fresh.1 fresh.2)
        simp [Leaf.saveCl12Update, first, Incll.updateEpochs]
  | recordNode write =>
      cases h
      obtain ⟨tagged, same | quiet⟩ := recordNode_entries s.leaf s.globalepoch
      · rw [same] at tagged
        exact inv_same inv tagged same
      · exact inv_quiet inv tagged quiet
  | recoverFinal =>
      cases h
      have quiet : Quiet (s.leaf.incll.recoverFinal s.globalepoch) :=
        quiet_updateEpochs (quiet_invalidateCls _)
      simp only [Fresh, bne_iff_ne, ne_eq] at fresh
      constructor
      · exact Nat.sub_le ..
      · exact inv.positive
      · intro _
        exact inv.untouched fresh
      · exact quiet_one quiet
      · exact quiet_holds quiet _

theorem inv_of_reachable {s : State} (reachable : machine.Reachable (Fresh · · = true) s) :
    Inv s := by
  refine reachable.invariant ?_ ?_
  · rintro _ ⟨e, b, pos, rfl⟩
    exact ⟨le_rfl, pos, fun _ => rfl, quiet_one (quiet_make e), quiet_holds (quiet_make e) b⟩
  · intro s l s' inv fresh h
    exact inv_step inv fresh h

theorem single_active_entry {s : State} (reachable : machine.Reachable (Fresh · · = true) s) :
    activeEntries s.leaf.incll ≤ 1 ∧
      Holds s.leaf.incll (s.start s.leaf.incll.loggedepoch) :=
  have inv := inv_of_reachable reachable
  ⟨inv.one, inv.holds⟩

def blankBody : LeafBody where
  modstate := .insert
  keylenx := fun _ => 0
  permutation := .makeEmpty
  ikey0 := fun _ => 0
  next := 0
  nextMark := false
  prev := 0
  parent := 0
  lv := fun _ => .empty
  extrasize64 := 0
  ksuf := none
  iksuf := .make 1 leafWidth 56

theorem reachable_init {allowed : State → Label → Prop} {e : Nat} (pos : 0 < e) (b : LeafBody) :
    machine.Reachable allowed (init e b) := .initial ⟨e, b, pos, rfl⟩

/-- An update of slot 9 in epoch 2, a second one in epoch 3. -/
theorem single_active_entry_update : ∃ s : State, machine.Reachable (Fresh · · = true) s ∧
    lvActive s.leaf.incll.lvCl2 s.leaf.incll.loggedepoch = true ∧
    s.leaf.incll.lvCl2.getLv = (s.start 3).lv 9 := by
  have start : machine.Reachable (Fresh · · = true) (init 1 blankBody) :=
    reachable_init (by decide) _
  obtain ⟨s, reachable, h⟩ := start.exists_run
    [.advance, .saveCl12Update 9 blankBody, .advance, .saveCl12Update 9 blankBody]
    (fun s => lvActive s.leaf.incll.lvCl2 s.leaf.incll.loggedepoch &&
      s.leaf.incll.loggedepoch == 3 && s.leaf.incll.lvCl2.getClIdx == 2) (by decide)
  simp only [Bool.and_eq_true, beq_iff_eq] at h
  have held := (single_active_entry reachable).2.cl2 h.1.1
  rw [h.1.2, h.2] at held
  exact ⟨s, reachable, h.1.1, held⟩

/-- An insert in epoch 2 leaves its copy of the permutation valid; the update of epoch 3 tags it
with epoch 3 beside its own entry. -/
theorem two_active_entries :
    ¬ ∀ s : State, machine.Reachable Machine.anyStep s →
      activeEntries s.leaf.incll ≤ 1 ∧
        Holds s.leaf.incll (s.start s.leaf.incll.loggedepoch) := by
  intro claim
  have start : machine.Reachable Machine.anyStep (init 1 blankBody) :=
    reachable_init (by decide) _
  obtain ⟨s, reachable, h⟩ := start.exists_run
    [.advance, .saveCl0Insert blankBody, .advance, .saveCl12Update 0 blankBody]
    (fun s => activeEntries s.leaf.incll == 2) (by decide)
  simp only [beq_iff_eq] at h
  have one := (claim s reachable).1
  omega

end Incll.Proof.SingleEntry
