import Incll.Lib.Wp

/-! # Local operations

An operation is local if it does the same in every state that is related to the one it runs in, such as one with
more in it. What holds after the small run then holds after the large one. -/

namespace Incll.Lib

variable {σ ε α β : Type} {fine : ε → Prop} {R : σ → σ → Prop}

/-- Runs from related states go on in the same way. Nothing is said about errors that are not fine. -/
structure Local (fine : ε → Prop) (R : σ → σ → Prop) (m : StateT σ (Except ε) α) : Prop where
  ok : ∀ {s t s' a}, R s t → m s = .ok (a, s') → ∃ t', m t = .ok (a, t') ∧ R s' t'
  error : ∀ {s t e}, R s t → m s = .error e → fine e → m t = .error e

namespace Local

theorem pure (a : α) : Local fine R (Pure.pure a : StateT σ (Except ε) α) := by
  constructor
  · intro s t s' b related run
    have same : (a, s) = (b, s') := Except.ok.inj run
    cases same
    exact ⟨t, rfl, related⟩
  · intro s t e related run
    cases (run : Except.ok (a, s) = Except.error e)

theorem throw {e : ε} (bad : ¬ fine e) : Local fine R (MonadExcept.throw e : StateT σ (Except ε) α) := by
  constructor
  · intro s t s' a related run
    cases (run : (Except.error e : Except ε (α × σ)) = Except.ok (a, s'))
  · intro s t e' related run ok
    have same : e = e' := Except.error.inj (run : (Except.error e : Except ε (α × σ)) = Except.error e')
    exact absurd (same ▸ ok) bad

theorem bind_error {m : StateT σ (Except ε) α} {f : α → StateT σ (Except ε) β} {s : σ} {e : ε}
    (run : m s = .error e) : (m >>= f) s = .error e := by
  change (m s).bind (fun x => f x.1 x.2) = .error e
  rw [run]
  rfl

theorem bind {m : StateT σ (Except ε) α} {f : α → StateT σ (Except ε) β} (first : Local fine R m)
    (rest : ∀ a, Local fine R (f a)) : Local fine R (m >>= f) := by
  constructor
  · intro s t s' b related run
    cases h : m s with
    | error e =>
        rw [bind_error h] at run
        cases run
    | ok x =>
        rw [bind_ok h] at run
        obtain ⟨t₁, run', related'⟩ := first.ok related h
        rw [bind_ok run']
        exact (rest x.1).ok related' run
  · intro s t e related run fine
    cases h : m s with
    | error e' =>
        rw [bind_error h] at run
        obtain rfl := Except.error.inj run
        exact bind_error (first.error related h fine)
    | ok x =>
        rw [bind_ok h] at run
        obtain ⟨t₁, run', related'⟩ := first.ok related h
        rw [bind_ok run']
        exact (rest x.1).error related' run fine

theorem ite {c : Prop} [Decidable c] {m m' : StateT σ (Except ε) α} (yes : Local fine R m) (no : Local fine R m') :
    Local fine R (if c then m else m') := by
  split
  · exact yes
  · exact no

/-- The rule of the frame. -/
theorem wp {m : StateT σ (Except ε) α} {s t : σ} {Q : α → σ → Prop} (here : Local fine R m) (related : R s t)
    (spec : Wp fine m s Q) : Wp fine m t fun a t' => ∃ s', Q a s' ∧ R s' t' := by
  rw [Wp] at spec
  cases run : m s with
  | ok x =>
      rw [run] at spec
      obtain ⟨t', run', related'⟩ := here.ok related run
      exact Wp.of_ok run' ⟨x.2, spec, related'⟩
  | error e =>
      rw [run] at spec
      rw [Wp, here.error related run spec]
      exact spec

end Local
end Incll.Lib
