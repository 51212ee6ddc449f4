import Mathlib.Data.List.Basic

namespace Incll.Lib

/-- A labelled transition system. A label names the party that moves and what it does, so a step is
a partial function; `none` means that the label is not enabled. -/
structure Machine (State Label : Type) where
  initial : State → Prop
  step : State → Label → Option State

namespace Machine
variable {State Label : Type} (m : Machine State Label)

/-- The states reached from an initial state by steps that all satisfy `allowed`. -/
inductive Reachable (allowed : State → Label → Prop) : State → Prop
  | initial {s : State} : m.initial s → Reachable allowed s
  | next {s s' : State} {l : Label} :
      Reachable allowed s → allowed s l → m.step s l = some s' → Reachable allowed s'

/-- Any step is allowed. -/
abbrev anyStep : State → Label → Prop := fun _ _ => True

/-- Run a list of labels, stopping at the first one that is not allowed or not enabled. -/
def run (allowed : State → Label → Prop) [∀ s l, Decidable (allowed s l)] (s : State) :
    List Label → Option State
  | [] => some s
  | l :: ls => if allowed s l then (m.step s l).bind fun s' => run allowed s' ls else none

variable {m} {allowed : State → Label → Prop}

@[elab_as_elim]
theorem Reachable.invariant {P : State → Prop} {s : State} (reachable : m.Reachable allowed s)
    (start : ∀ s, m.initial s → P s)
    (preserved : ∀ s l s', P s → allowed s l → m.step s l = some s' → P s') : P s := by
  induction reachable with
  | initial h => exact start _ h
  | next _ ok h ih => exact preserved _ _ _ ih ok h

theorem Reachable.run [∀ s l, Decidable (allowed s l)] {s s' : State}
    (reachable : m.Reachable allowed s) (labels : List Label)
    (h : m.run allowed s labels = some s') : m.Reachable allowed s' := by
  induction labels generalizing s with
  | nil => cases h; exact reachable
  | cons l ls ih =>
      simp only [Machine.run, Option.ite_none_right_eq_some] at h
      obtain ⟨t, step, rest⟩ := Option.bind_eq_some_iff.mp h.2
      exact ih (.next reachable h.1 step) rest

/-- A run that ends in a state with `p` shows that such a state is reachable. -/
theorem Reachable.exists_run [∀ s l, Decidable (allowed s l)] {s : State}
    (reachable : m.Reachable allowed s) (labels : List Label) (p : State → Bool)
    (h : (m.run allowed s labels).any p = true) : ∃ s', m.Reachable allowed s' ∧ p s' = true := by
  cases hr : m.run allowed s labels with
  | none => simp [hr] at h
  | some s' => exact ⟨s', reachable.run labels hr, by simpa [hr] using h⟩

end Machine
end Incll.Lib
