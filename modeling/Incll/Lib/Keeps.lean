import Incll.Lib.Local

/-! # Invariants of operations -/

namespace Incll.Lib

variable {σ ε α β : Type} {fine : ε → Prop} {I : σ → Prop}

/-- Each run that ends without an error keeps `I`. -/
def Keeps (I : σ → Prop) (m : StateT σ (Except ε) α) : Prop := ∀ s a s', I s → m s = .ok (a, s') → I s'

namespace Keeps

theorem pure (a : α) : Keeps I (Pure.pure a : StateT σ (Except ε) α) := by
  intro s b s' inv run
  have same : (a, s) = (b, s') := Except.ok.inj run
  cases same
  exact inv

theorem throw (e : ε) : Keeps I (MonadExcept.throw e : StateT σ (Except ε) α) := by
  intro s a s' inv run
  cases (run : (Except.error e : Except ε (α × σ)) = Except.ok (a, s'))

theorem bind {m : StateT σ (Except ε) α} {f : α → StateT σ (Except ε) β} (first : Keeps I m)
    (rest : ∀ a, Keeps I (f a)) : Keeps I (m >>= f) := by
  intro s b s' inv run
  cases h : m s with
  | error e =>
      rw [Local.bind_error h] at run
      cases run
  | ok x =>
      rw [bind_ok h] at run
      exact rest x.1 x.2 b s' (first s x.1 x.2 inv h) run

theorem ite {c : Prop} [Decidable c] {m m' : StateT σ (Except ε) α} (yes : Keeps I m) (no : Keeps I m') :
    Keeps I (if c then m else m') := by
  split
  · exact yes
  · exact no

/-- The invariant holds in addition to what else is known of a run. -/
theorem wp {m : StateT σ (Except ε) α} {s : σ} {Q : α → σ → Prop} (keeps : Keeps I m) (inv : I s)
    (spec : Wp fine m s Q) : Wp fine m s fun a s' => Q a s' ∧ I s' := by
  rw [Wp] at spec
  cases run : m s with
  | ok x =>
      rw [run] at spec
      exact Wp.of_ok run ⟨spec, keeps s x.1 x.2 inv run⟩
  | error e =>
      rw [run] at spec
      rw [Wp, run]
      exact spec

end Keeps
end Incll.Lib
