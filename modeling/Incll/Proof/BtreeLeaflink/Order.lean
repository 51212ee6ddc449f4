import Mathlib.Data.List.Basic
import Mathlib.Data.List.Nodup
import Incll.Model.BtreeLeaflink

/-! # The leaves in order

`everLinked` keeps the unlinked leaves where they were, so that a new leaf comes before those that
were unlinked behind its left half. -/

namespace Incll.Proof.BtreeLeaflink
open Incll.Model Incll.Model.BtreeLeaflink

/-- The place of a leaf. -/
def pos (order : List Addr) (a : Addr) : Nat := order.idxOf a

variable {order : List Addr} {a b n nr : Addr}

theorem pos_inj (left : a ∈ order) (same : pos order a = pos order b) : a = b :=
  (List.idxOf_inj left).mp same

theorem apply_linkSplit {xs ys : List Addr} (left : n ∉ xs) (right : n ∉ ys) :
    (Call.linkSplit n nr).apply (xs ++ n :: ys) = xs ++ n :: nr :: ys := by
  have others (zs : List Addr) (notIn : n ∉ zs) :
      (zs.flatMap fun a => if a = n then [a, nr] else [a]) = zs := by
    induction zs with
    | nil => rfl
    | cons z zs ih =>
        obtain ⟨differ, rest⟩ := List.ne_and_not_mem_of_not_mem_cons notIn
        rw [List.flatMap_cons, if_neg (Ne.symm differ), ih rest, List.singleton_append]
  simp [Call.apply, others xs left, others ys right]

/-- The leaves around `n`. -/
theorem split_at (distinct : order.Nodup) (member : n ∈ order) :
    ∃ xs ys, order = xs ++ n :: ys ∧ n ∉ xs ∧ n ∉ ys := by
  obtain ⟨xs, ys, rfl⟩ := List.append_of_mem member
  have split := List.nodup_middle.mp distinct
  rw [List.nodup_cons, List.mem_append, not_or] at split
  exact ⟨xs, ys, rfl, split.1.1, split.1.2⟩

section LinkSplit
variable (distinct : order.Nodup) (member : n ∈ order) (new : nr ∉ order)
include distinct member

theorem mem_linkSplit : a ∈ (Call.linkSplit n nr).apply order ↔ a ∈ order ∨ a = nr := by
  obtain ⟨xs, ys, rfl, left, right⟩ := split_at distinct member
  rw [apply_linkSplit left right]
  simp only [List.mem_append, List.mem_cons]
  tauto

theorem head_linkSplit : ((Call.linkSplit n nr).apply order).head? = order.head? := by
  obtain ⟨xs, ys, rfl, left, right⟩ := split_at distinct member
  rw [apply_linkSplit left right]
  cases xs <;> rfl

include new

theorem nodup_linkSplit : ((Call.linkSplit n nr).apply order).Nodup := by
  obtain ⟨xs, ys, rfl, left, right⟩ := split_at distinct member
  rw [apply_linkSplit left right]
  grind

theorem pos_new : pos ((Call.linkSplit n nr).apply order) nr = pos order n + 1 := by
  obtain ⟨xs, ys, rfl, left, right⟩ := split_at distinct member
  rw [apply_linkSplit left right, pos, pos]
  grind

theorem pos_old (old : a ∈ order) : pos ((Call.linkSplit n nr).apply order) a =
    if pos order a ≤ pos order n then pos order a else pos order a + 1 := by
  obtain ⟨xs, ys, rfl, left, right⟩ := split_at distinct member
  rw [apply_linkSplit left right, pos, pos, pos]
  grind

end LinkSplit

end Incll.Proof.BtreeLeaflink
