import Mathlib.Control.Basic

/-! # Weakest preconditions of state transformers with errors

`fine` says which errors a run may end in. -/

namespace Incll.Lib

variable {σ ε α β : Type} {fine : ε → Prop}

/-- `m` runs from `s` to a result and a state with `Q`, or it ends in a fine error. -/
@[irreducible] def Wp (fine : ε → Prop) (m : StateT σ (Except ε) α) (s : σ) (Q : α → σ → Prop) : Prop :=
  match m s with
  | .ok (a, s') => Q a s'
  | .error e => fine e

theorem Wp.of_ok {m : StateT σ (Except ε) α} {s s' : σ} {a : α} {Q : α → σ → Prop}
    (h : m s = .ok (a, s')) (post : Q a s') : Wp fine m s Q := by
  rw [Wp, h]
  exact post

theorem Wp.mono {m : StateT σ (Except ε) α} {s : σ} {Q R : α → σ → Prop} (h : Wp fine m s Q)
    (weaker : ∀ a s', Q a s' → R a s') : Wp fine m s R := by
  rw [Wp] at h ⊢
  split at h
  · exact weaker _ _ h
  · exact h

theorem Wp.bind {m : StateT σ (Except ε) α} {f : α → StateT σ (Except ε) β} {s : σ}
    {Q : β → σ → Prop} (h : Wp fine m s fun a s' => Wp fine (f a) s' Q) : Wp fine (m >>= f) s Q := by
  rw [Wp] at h ⊢
  change match (m s).bind fun x => f x.1 x.2 with
    | .ok (a, s') => Q a s'
    | .error e => fine e
  cases run : m s with
  | ok x =>
      rw [run] at h
      simp only [Wp] at h
      exact h
  | error e =>
      rw [run] at h
      exact h

/-- The part of a block after its first call. -/
theorem Wp.of_bind {m : StateT σ (Except ε) α} {f : α → StateT σ (Except ε) β} {s : σ} {Q : β → σ → Prop}
    (h : Wp fine (m >>= f) s Q) : Wp fine m s fun a s' => Wp fine (f a) s' Q := by
  rw [Wp] at h ⊢
  change match (m s).bind fun x => f x.1 x.2 with
    | .ok (a, s') => Q a s'
    | .error e => fine e at h
  cases run : m s with
  | ok x =>
      rw [run] at h
      simp only [Wp]
      exact h
  | error e =>
      rw [run] at h
      exact h

/-- The rule for a call in the middle of a block. -/
theorem Wp.call {m : StateT σ (Except ε) α} {f : α → StateT σ (Except ε) β} {s : σ}
    {P : α → σ → Prop} {Q : β → σ → Prop} (spec : Wp fine m s P)
    (rest : ∀ a s', P a s' → Wp fine (f a) s' Q) : Wp fine (m >>= f) s Q :=
  Wp.bind (spec.mono rest)

theorem Wp.pure {a : α} {s : σ} {Q : α → σ → Prop} (h : Q a s) :
    Wp fine (pure a : StateT σ (Except ε) α) s Q := by
  rw [Wp]
  exact h

/-- A step whose result is known. -/
theorem bind_ok {m : StateT σ (Except ε) α} {f : α → StateT σ (Except ε) β} {s s' : σ} {a : α}
    (h : m s = .ok (a, s')) : (m >>= f) s = f a s' := by
  change (m s).bind (fun x => f x.1 x.2) = f a s'
  rw [h]
  rfl

theorem Wp.step {m : StateT σ (Except ε) α} {f : α → StateT σ (Except ε) β} {s s' : σ} {a : α}
    {Q : β → σ → Prop} (h : m s = .ok (a, s')) (rest : Wp fine (f a) s' Q) :
    Wp fine (m >>= f) s Q := by
  rw [Wp, bind_ok h]
  rwa [Wp] at rest

/-- Two ways to the same outcome. -/
theorem Wp.of_eq {m m' : StateT σ (Except ε) α} {s s' : σ} {Q : α → σ → Prop} (same : m s = m' s')
    (h : Wp fine m' s' Q) : Wp fine m s Q := by
  rw [Wp] at h ⊢
  rwa [same]

end Incll.Lib
