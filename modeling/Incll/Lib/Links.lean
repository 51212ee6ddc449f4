import Mathlib.Logic.Function.Basic
import Mathlib.Data.List.Basic

/-! # Linked lists -/

namespace Incll.Lib

variable {α : Type} {next : α → Option α} {a b c : Option α} {x y : α} {xs ys : List α}

/-- The links from `a` on lead through `xs` to `b`. -/
def Links (next : α → Option α) (a : Option α) : List α → Option α → Prop
  | [], b => a = b
  | x :: xs, b => a = some x ∧ Links next (next x) xs b

namespace Links

theorem append_iff : Links next a (xs ++ ys) c ↔ ∃ b, Links next a xs b ∧ Links next b ys c := by
  induction xs generalizing a with
  | nil => exact ⟨fun h => ⟨a, rfl, h⟩, fun ⟨_, same, h⟩ => same ▸ h⟩
  | cons x xs ih =>
      constructor
      · rintro ⟨start, rest⟩
        obtain ⟨b, first, second⟩ := ih.mp rest
        exact ⟨b, ⟨start, first⟩, second⟩
      · rintro ⟨b, ⟨start, first⟩, second⟩
        exact ⟨start, ih.mpr ⟨b, first, second⟩⟩

theorem append (first : Links next a xs b) (second : Links next b ys c) : Links next a (xs ++ ys) c :=
  append_iff.mpr ⟨b, first, second⟩

/-- What follows the last element. -/
theorem concat_iff : Links next a (xs ++ [x]) b ↔ Links next a xs (some x) ∧ next x = b := by
  rw [append_iff]
  exact ⟨fun ⟨_, first, same, last⟩ => ⟨same ▸ first, last⟩, fun ⟨first, last⟩ => ⟨_, first, rfl, last⟩⟩

theorem congr {next' : α → Option α} (agree : ∀ x ∈ xs, next' x = next x) (h : Links next a xs b) :
    Links next' a xs b := by
  induction xs generalizing a with
  | nil => exact h
  | cons x xs ih =>
      obtain ⟨start, rest⟩ := h
      refine ⟨start, ?_⟩
      rw [agree x (by simp)]
      exact ih (fun y member => agree y (by simp [member])) rest

variable [DecidableEq α]

theorem update (other : y ∉ xs) (h : Links next a xs b) :
    Links (Function.update next y c) a xs b :=
  congr (fun _ member => Function.update_of_ne (ne_of_mem_of_not_mem member other) ..) h

/-- The last element gets another successor. -/
theorem relink (other : x ∉ xs) (h : Links next a (xs ++ [x]) b) :
    Links (Function.update next x c) a (xs ++ [x]) c := by
  obtain ⟨first, -⟩ := concat_iff.mp h
  exact concat_iff.mpr ⟨update other first, Function.update_self ..⟩

end Links
end Incll.Lib
