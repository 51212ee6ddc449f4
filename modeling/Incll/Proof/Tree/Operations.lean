import Incll.Lib.Machine
import Incll.Proof.Tree.Cover

/-! # Runs of tree operations and checkpoints -/

namespace Incll.Proof.Tree
open Incll.Lib Incll.Model

variable {W : Type} [NodeImage W]

/-- `hold` and `release` are another thread that takes the lock of a leaf and gives it back. -/
inductive Label where
  | put (k : Key) (v : Leafvalue)
  | remove (k : Key)
  | get (k : Key)
  | hold (k : Key)
  | release (a : Addr)
  | advance

def exec : Label → M W Unit
  | .put k v => M.put k v
  | .remove k => M.remove k
  | .get k => do let _ ← M.findUnlocked k
  | .hold k => do let _ ← M.findLocked k
  | .release a => M.unlock a
  | .advance => M.advance

def step (s : St W) (l : Label) : Option (St W) := (exec l s).map (·.2)

/-- The next state stays below epoch 128 and the step takes none of the branches `bad`. -/
def Avoids (bad : List Hazard) (s : St W) (l : Label) : Bool :=
  (step s l).all fun s' => s'.globalepoch < 128 && bad.all (!s'.hazards.contains ·)

/-- The state of a single operation. -/
theorem exec_steps {s s' : St W} {l : Label} (sound : Sound s) (other : l ≠ .advance)
    (h : step s l = some s') : Steps s s' := by
  obtain ⟨⟨_, t⟩, run, rfl⟩ := Option.map_eq_some_iff.mp h
  have of_runs {Q : Unit → St W → Prop} (runs : Runs (exec l) s Q) : Steps s t :=
    (runs sound _ t run).1
  cases l with
  | put k v => exact of_runs (runs_put k v)
  | remove k => exact of_runs (runs_remove k)
  | get k =>
      refine of_runs (Q := fun _ _ => True) ((runs_findUnlocked k).bind fun _ _ _ _ _ => ?_)
      exact runs_pure trivial
  | hold k =>
      refine of_runs (Q := fun _ _ => True) ((runs_findLocked k).bind fun _ _ _ _ _ => ?_)
      exact runs_pure trivial
  | release a => exact of_runs runs_unlock
  | advance => exact absurd rfl other

/-- The state of `M.advance`. -/
def advanced (s : St W) : St W :=
  let s' := { s with globalepoch := s.globalepoch + 1 }
  { s' with
    log := s.log.checkpoint s.root
    clean := s'.known
    committed := s'.known
    saved := s'.recovered
    recorded := [] }

theorem step_advance {s s' : St W} (h : step s .advance = some s') : s' = advanced s := by
  cases h
  rfl

/-- The state right after a checkpoint. -/
structure Checkpointed (s : St W) : Prop where
  epochs : s.failedepoch < s.globalepoch
  leaf : ∀ a l, kindAt s a = some (.leaf l) → l.incll.loggedepoch < s.globalepoch ∧
    Tagged l.incll ∧ BodyValid l.body ∧ (l.incll.cl0Idx ≠ invalidIdx → PermValid l.incll.permCl0)
  internode : ∀ a i, kindAt s a = some (.internode i) → i.loggedepoch < s.globalepoch
  below : ∀ a, (kindAt s a).isSome → a < s.fresh
  null : kindAt s 0 = none
  positive : 0 < s.fresh
  saved : s.saved = s.recovered
  recorded : s.recorded = []

omit [NodeImage W] in
theorem recovered_eq (s : St W) (a : Addr) :
    s.recovered a = (kindAt s a).map (·.lazyRecovery s.globalepoch s.failedepoch) := by
  simp [St.recovered, kindAt, Option.map_map, Function.comp_def]

omit [NodeImage W] in
theorem Checkpointed.isRecorded {s : St W} (h : Checkpointed s) (a : Addr) :
    s.isRecorded a = false := by
  simp [St.isRecorded, h.recorded]

omit [NodeImage W] in
theorem Checkpointed.sound {s : St W} (h : Checkpointed s) : Sound s := by
  refine ⟨h.epochs, ?_, ?_, h.below, h.null, h.positive⟩
  · intro a k here
    rw [h.isRecorded]
    cases k with
    | leaf l =>
        obtain ⟨old, tagged, valid, copy⟩ := h.leaf a l here
        exact ⟨old.le, tagged, valid, copy, fun now => absurd now old.ne, nofun⟩
    | internode i =>
        have old := h.internode a i here
        exact ⟨old.le, fun now => absurd now old.ne, nofun⟩
  · intro a old
    rw [h.saved, recovered_eq, Option.isSome_map] at old
    exact h.below a old

omit [NodeImage W] in
theorem checkpointed_advanced {s : St W} (sound : Sound s) : Checkpointed (advanced s) := by
  have epochs := sound.epochs
  refine ⟨Nat.lt_succ_of_lt epochs, ?_, ?_, sound.below, sound.null, sound.positive, rfl, rfl⟩
  · intro a l here
    have leaf := sound.leaf here
    exact ⟨Nat.lt_succ_of_le leaf.epoch, leaf.tagged, leaf.valid, leaf.copy⟩
  · intro a i here
    exact Nat.lt_succ_of_le (sound.internode here).epoch

/-- Runs that begin right after a checkpoint or a restart. -/
def operations (W : Type) [NodeImage W] : Machine (St W) Label where
  initial s := Checkpointed s ∧ s.globalepoch < 128 ∧ s.writes = [] ∧ s.hazards = []
  step := step

theorem avoids_iff {bad : List Hazard} {s s' : St W} {l : Label} (avoids : Avoids bad s l = true)
    (h : step s l = some s') : s'.globalepoch < 128 ∧ Avoided s' bad := by
  simp only [Avoids, h, Option.all_some, Bool.and_eq_true, decide_eq_true_eq, List.all_eq_true,
    Bool.not_eq_true', List.contains_eq_mem, decide_eq_false_iff_not] at avoids
  exact avoids

end Incll.Proof.Tree
