import Mathlib.Data.Finset.Card

/-! # Walks

A walk takes the next element until there is none. -/

namespace Incll.Lib

variable {α : Type} {next : α → Option α} {P : α → Prop} {n k : Nat} {a z z' : α}

/-- `n` steps lead from an element to `z`, which is the last one. All elements on the way have `P`. -/
inductive Walk (next : α → Option α) (P : α → Prop) (z : α) : Nat → α → Prop
  | stop : P z → next z = none → Walk next P z 0 z
  | step {a b : α} {n : Nat} : P a → next a = some b → Walk next P z n b → Walk next P z (n + 1) a

namespace Walk

theorem unique (first : Walk next P z n a) (second : Walk next P z' k a) : n = k ∧ z = z' := by
  induction first generalizing k with
  | stop here last =>
      cases second with
      | stop => exact ⟨rfl, rfl⟩
      | step _ next _ =>
          rw [last] at next
          cases next
  | step here next rest ih =>
      cases second with
      | stop _ last =>
          rw [next] at last
          cases last
      | step _ next' rest' =>
          obtain rfl := Option.some.inj (next.symm.trans next')
          obtain ⟨rfl, same⟩ := ih rest'
          exact ⟨rfl, same⟩

theorem cases (walk : Walk next P z n a) :
    a = z ∧ next a = none ∨ ∃ b k, n = k + 1 ∧ next a = some b ∧ Walk next P z k b := by
  cases walk with
  | stop _ last => exact .inl ⟨rfl, last⟩
  | step _ next rest => exact .inr ⟨_, _, rfl, next, rest⟩

/-- Two ways of going on that are the same. -/
theorem congr {next' : α → Option α} {Q : α → Prop} (walk : Walk next P z n a) (same : ∀ x, next' x = next x)
    (on : ∀ x, P x → Q x) : Walk next' Q z n a := by
  induction walk with
  | stop here last => exact .stop (on _ here) (by rw [same, last])
  | step here next _ ih => exact .step (on _ here) (by rw [same, next]) ih

/-- The elements of a walk are different. -/
theorem exists_finset [DecidableEq α] (walk : Walk next P z n a) :
    ∃ s : Finset α, s.card = n + 1 ∧ ∀ x ∈ s, P x ∧ ∃ k ≤ n, Walk next P z k x := by
  induction walk with
  | stop here last =>
      refine ⟨{z}, Finset.card_singleton z, fun x member => ?_⟩
      rw [Finset.mem_singleton.mp member]
      exact ⟨here, 0, le_rfl, .stop here last⟩
  | @step a b n here next rest ih =>
      obtain ⟨s, card, all⟩ := ih
      have walk : Walk _ P z (n + 1) a := .step here next rest
      have new : a ∉ s := by
        intro member
        obtain ⟨-, k, small, walk'⟩ := all a member
        have := (walk.unique walk').1
        omega
      refine ⟨insert a s, by rw [Finset.card_insert_of_notMem new, card], fun x member => ?_⟩
      cases Finset.mem_insert.mp member with
      | inl same =>
          rw [same]
          exact ⟨here, n + 1, le_rfl, walk⟩
      | inr member =>
          obtain ⟨on, k, small, walk'⟩ := all x member
          exact ⟨on, k, by omega, walk'⟩

/-- A walk inside a finite set is shorter than the set. -/
theorem lt_card [DecidableEq α] (walk : Walk next P z n a) (s : Finset α) (inside : ∀ x, P x → x ∈ s) : n < s.card := by
  obtain ⟨t, card, all⟩ := walk.exists_finset
  have le := Finset.card_le_card (s := t) (t := s) fun x member => inside x (all x member).1
  omega

end Walk
end Incll.Lib
