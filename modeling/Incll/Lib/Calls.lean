import Incll.Lib.Wp

/-! # Sequences of calls

An object is known by what its calls answer and by what they do to its contents. -/

namespace Incll.Lib

variable {σ ε C A B : Type}

/-- An abstract object with the contents `A`. -/
structure Object (C A B : Type) where
  answer : C → A → B
  effect : C → A → A

namespace Object

/-- The answers to a sequence of calls. -/
def answers (o : Object C A B) : List C → A → List B
  | [], _ => []
  | c :: cs, x => o.answer c x :: o.answers cs (o.effect c x)

def effects (o : Object C A B) : List C → A → A
  | [], x => x
  | c :: cs, x => o.effects cs (o.effect c x)

end Object

/-- One call after the other. -/
def calls (call : C → StateT σ (Except ε) B) : List C → StateT σ (Except ε) (List B)
  | [] => return []
  | c :: cs => do
      let b ← call c
      let bs ← calls call cs
      return b :: bs

/-- If each call refines the object, so do sequences of calls. -/
theorem Wp.calls {fine : ε → Prop} {call : C → StateT σ (Except ε) B} {o : Object C A B} {holds : A → σ → Prop}
    (each : ∀ c x s, holds x s → Wp fine (call c) s fun b s' => b = o.answer c x ∧ holds (o.effect c x) s')
    (cs : List C) {x : A} {s : σ} (start : holds x s) :
    Wp fine (Lib.calls call cs) s fun bs s' => bs = o.answers cs x ∧ holds (o.effects cs x) s' := by
  induction cs generalizing x s with
  | nil => exact Wp.pure ⟨rfl, start⟩
  | cons c cs ih =>
      rw [Lib.calls]
      refine Wp.call (each c x s start) fun b s' post => ?_
      obtain ⟨rfl, next⟩ := post
      refine Wp.call (ih next) fun bs s'' post => Wp.pure ?_
      obtain ⟨rfl, last⟩ := post
      exact ⟨rfl, last⟩

end Incll.Lib
