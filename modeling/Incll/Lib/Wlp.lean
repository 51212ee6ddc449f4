import Mathlib.Control.Basic
import Mathlib.Logic.Relation

/-! # Weakest liberal preconditions of partial state transformers -/

namespace Incll.Lib

variable {σ α β : Type}

/-- If `m` has a result from `s`, then the result and the new state satisfy `Q`. -/
def Wlp (m : StateT σ Option α) (s : σ) (Q : α → σ → Prop) : Prop :=
  ∀ a s', m s = some (a, s') → Q a s'

theorem Wlp.mono {m : StateT σ Option α} {s : σ} {Q R : α → σ → Prop} (h : Wlp m s Q)
    (weaker : ∀ a s', Q a s' → R a s') : Wlp m s R :=
  fun a s' run => weaker a s' (h a s' run)

theorem wlp_bind {m : StateT σ Option α} {f : α → StateT σ Option β} {s : σ}
    {Q : β → σ → Prop} (h : Wlp m s fun a s' => Wlp (f a) s' Q) : Wlp (m >>= f) s Q := by
  intro b s'' run
  obtain ⟨⟨a, s'⟩, first, rest⟩ := Option.bind_eq_some_iff.mp run
  exact h a s' first b s'' rest

/-- The rule of consequence for a call in the middle of a block. -/
theorem Wlp.call {m : StateT σ Option α} {f : α → StateT σ Option β} {s : σ} {P : α → σ → Prop}
    {Q : β → σ → Prop} (spec : Wlp m s P) (rest : ∀ a s', P a s' → Wlp (f a) s' Q) :
    Wlp (m >>= f) s Q :=
  wlp_bind (spec.mono rest)

theorem wlp_pure {a : α} {s : σ} {Q : α → σ → Prop} (h : Q a s) :
    Wlp (pure a : StateT σ Option α) s Q := by
  intro b s' run
  cases run
  exact h

theorem wlp_failure {s : σ} {Q : α → σ → Prop} : Wlp (failure : StateT σ Option α) s Q := by
  intro b s' run
  cases run

theorem wlp_get {s : σ} {Q : σ → σ → Prop} (h : Q s s) : Wlp (get : StateT σ Option σ) s Q := by
  intro b s' run
  cases run
  exact h

theorem wlp_set {s t : σ} {Q : PUnit → σ → Prop} (h : Q ⟨⟩ t) :
    Wlp (set t : StateT σ Option PUnit) s Q := by
  intro b s' run
  cases run
  exact h

theorem wlp_modify {f : σ → σ} {s : σ} {Q : PUnit → σ → Prop} (h : Q ⟨⟩ (f s)) :
    Wlp (modify f : StateT σ Option PUnit) s Q := by
  intro b s' run
  cases run
  exact h

/-- A call in the middle of a block whose result is known. -/
theorem run_bind {m : StateT σ Option α} {f : α → StateT σ Option β} {s t : σ} {a : α}
    (run : m s = some (a, t)) : (m >>= f) s = f a t := by
  change (m s).bind (fun x => f x.1 x.2) = f a t
  rw [run]
  rfl

end Incll.Lib
