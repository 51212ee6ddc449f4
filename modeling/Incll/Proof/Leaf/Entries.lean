import Incll.Model.LeafBody
import Incll.Proof.Leaf.Permuter

/-! # The entries of a leaf that a reader sees -/

namespace Incll.Proof
open Incll.Model

namespace PermValid
variable {p : Kpermuter} (h : PermValid p)
include h

theorem get_dropLast {i : Nat} (hi : i + 1 < leafWidth) : p.slots.dropLast[i]? = some (p.get i) := by
  rw [List.getElem?_dropLast, h.length, if_pos (by omega), h.get_eq (by omega)]

theorem live_insertFromBack {i q : Nat} (place : i ≤ p.size) (room : p.size < leafWidth)
    (member : q ∈ (p.insertFromBack i).live) : q = p.back ∨ q ∈ p.live := by
  have full := h.length
  have whole := h.insertFromBack place room
  obtain ⟨j, bound, rfl⟩ := whole.mem_live.mp member
  have bound' : j < p.size + 1 := bound
  have here := whole.get_eq (show j < leafWidth by omega)
  simp only [Kpermuter.insertFromBack] at here ⊢
  rcases Nat.lt_trichotomy j i with low | same | high
  · rw [List.getElem?_insertIdx_of_lt low, h.get_dropLast (by omega)] at here
    right
    rw [← Option.some.inj here]
    exact h.get_live (by omega)
  · left
    rw [same, List.getElem?_insertIdx_self, if_pos (by rw [List.length_dropLast]; omega)] at here
    rw [same]
    exact (Option.some.inj here).symm
  · rw [List.getElem?_insertIdx_of_gt high, h.get_dropLast (by omega)] at here
    right
    rw [← Option.some.inj here]
    exact h.get_live (by omega)

theorem live_remove {i q : Nat} (place : i < p.size) (member : q ∈ (p.remove i).live) :
    q ∈ p.live := by
  have full := h.length
  have size := h.size
  have whole := h.remove place
  obtain ⟨j, bound, rfl⟩ := whole.mem_live.mp member
  have bound' : j < p.size - 1 := bound
  have here := whole.get_eq (show j < leafWidth by omega)
  simp only [Kpermuter.remove] at here ⊢
  rw [List.getElem?_insertIdx_of_lt bound', List.getElem?_eraseIdx] at here
  split at here
  · rw [h.get_eq (by omega)] at here
    rw [← Option.some.inj here]
    exact h.get_live (by omega)
  · rw [h.get_eq (by omega)] at here
    rw [← Option.some.inj here]
    exact h.get_live (by omega)

end PermValid

theorem live_setSize {p : Kpermuter} {n q : Nat} (small : n ≤ p.size)
    (member : q ∈ (p.setSize n).live) : q ∈ p.live := by
  simp only [Kpermuter.live, Kpermuter.setSize] at *
  exact (List.take_sublist_take_left small).subset member

theorem live_exchange {p : Kpermuter} {i j : Nat} (hi : p.size ≤ i) (hj : p.size ≤ j) :
    (p.exchange i j).live = p.live := by
  simp only [Kpermuter.live, Kpermuter.exchange]
  rw [List.take_set_of_le hj, List.take_set_of_le hi]

/-- The two leaves hold the same entries, in the same slots and in the same order. -/
structure Agrees (b c : LeafBody) : Prop where
  permutation : b.permutation = c.permutation
  ikey0 : ∀ p ∈ b.permutation.live, b.ikey0 p = c.ikey0 p
  keylenx : ∀ p ∈ b.permutation.live, b.keylenx p = c.keylenx p
  lv : ∀ p ∈ b.permutation.live, b.lv p = c.lv p

namespace Agrees
variable {b c d : LeafBody}

theorem refl (b : LeafBody) : Agrees b b := ⟨rfl, fun _ _ => rfl, fun _ _ => rfl, fun _ _ => rfl⟩

theorem symm (h : Agrees b c) : Agrees c b := by
  refine ⟨h.permutation.symm, ?_, ?_, ?_⟩
  · intro p live
    exact (h.ikey0 p (h.permutation ▸ live)).symm
  · intro p live
    exact (h.keylenx p (h.permutation ▸ live)).symm
  · intro p live
    exact (h.lv p (h.permutation ▸ live)).symm

theorem trans (h : Agrees b c) (h' : Agrees c d) : Agrees b d := by
  refine ⟨h.permutation.trans h'.permutation, ?_, ?_, ?_⟩
  · intro p live
    exact (h.ikey0 p live).trans (h'.ikey0 p (h.permutation ▸ live))
  · intro p live
    exact (h.keylenx p live).trans (h'.keylenx p (h.permutation ▸ live))
  · intro p live
    exact (h.lv p live).trans (h'.lv p (h.permutation ▸ live))

/-- The fields of the entries are the same, and the permutation. -/
theorem of_same (perm : b.permutation = c.permutation) (ikey0 : b.ikey0 = c.ikey0)
    (keylenx : b.keylenx = c.keylenx) (lv : b.lv = c.lv) : Agrees b c :=
  ⟨perm, fun _ _ => by rw [ikey0], fun _ _ => by rw [keylenx], fun _ _ => by rw [lv]⟩

theorem setPermutation (h : Agrees b c) {perm : Kpermuter}
    (sub : ∀ p ∈ perm.live, p ∈ b.permutation.live) :
    Agrees (b.setPermutation perm) (c.setPermutation perm) :=
  ⟨rfl, fun p live => h.ikey0 p (sub p live), fun p live => h.keylenx p (sub p live),
    fun p live => h.lv p (sub p live)⟩

theorem setValue (h : Agrees b c) (p : Nat) (v : Leafvalue) :
    Agrees (b.setValue p v) (c.setValue p v) := by
  refine ⟨h.permutation, h.ikey0, h.keylenx, ?_⟩
  intro q live
  by_cases same : q = p
  · simp [LeafBody.setValue, same]
  · simpa [LeafBody.setValue, same] using h.lv q live

theorem copyEntry (h : Agrees b c) (x : LeafBody) (p : Nat) :
    Agrees (x.copyEntry p b) (x.copyEntry p c) := by
  refine ⟨h.permutation, ?_, ?_, ?_⟩ <;> intro q live <;> by_cases same : q = p
  · simp [LeafBody.copyEntry, same]
  · simpa [LeafBody.copyEntry, same] using h.ikey0 q live
  · simp [LeafBody.copyEntry, same]
  · simpa [LeafBody.copyEntry, same] using h.keylenx q live
  · simp [LeafBody.copyEntry, same]
  · simpa [LeafBody.copyEntry, same] using h.lv q live

theorem publish (h : Agrees b c) (valid : PermValid b.permutation) {i : Nat}
    (place : i ≤ b.size) (room : b.size < leafWidth) : Agrees (b.publish i b) (b.publish i c) := by
  have split (q : Nat) (live : q ∈ (b.publish i b).permutation.live) :=
    valid.live_insertFromBack place room live
  refine ⟨rfl, ?_, ?_, ?_⟩ <;> intro q live <;>
    simp only [LeafBody.publish, LeafBody.setPermutation, LeafBody.copyEntry,
      Function.update_eq_self] <;> by_cases same : q = b.permutation.back
  · rw [same, Function.update_self]
  · rw [Function.update_of_ne same]
    exact h.ikey0 q ((split q live).resolve_left same)
  · rw [same, Function.update_self]
  · rw [Function.update_of_ne same]
    exact h.keylenx q ((split q live).resolve_left same)
  · rw [same, Function.update_self]
  · rw [Function.update_of_ne same]
    exact h.lv q ((split q live).resolve_left same)

/-! Changes of a slot without an entry. -/

theorem copyEntry_dead {p : Nat} (dead : p ∉ b.permutation.live) (x : LeafBody) :
    Agrees (x.copyEntry p b) b := by
  have other {q : Nat} (live : q ∈ b.permutation.live) : q ≠ p := fun same => dead (same ▸ live)
  refine ⟨rfl, ?_, ?_, ?_⟩ <;> intro q live <;> exact Function.update_of_ne (other live) ..

theorem setValue_dead {p : Nat} (dead : p ∉ b.permutation.live) (v : Leafvalue) :
    Agrees (b.setValue p v) b := by
  refine ⟨rfl, fun _ _ => rfl, fun _ _ => rfl, ?_⟩
  intro q live
  have other : q ≠ p := fun same => dead (same ▸ live)
  exact Function.update_of_ne other ..

end Agrees

theorem copyEntry_self (b : LeafBody) (p : Nat) : b.copyEntry p b = b := by
  simp [LeafBody.copyEntry]

theorem publish_self (b : LeafBody) (i : Nat) :
    b.publish i b = b.setPermutation (b.permutation.insertFromBack i) := by
  rw [LeafBody.publish, copyEntry_self]

theorem setValue_setValue (b : LeafBody) (p : Nat) (v w : Leafvalue) :
    (b.setValue p v).setValue p w = b.setValue p w := by
  simp [LeafBody.setValue]

theorem setValue_self (b : LeafBody) (p : Nat) : b.setValue p (b.lv p) = b := by
  simp [LeafBody.setValue]

/-! The bound searches. -/

theorem keyBound_le (cmp : Nat → Ordering) (fuel l r : Nat) (ordered : l ≤ r) :
    (keyBound cmp fuel l r).1 ≤ r ∧
      ((keyBound cmp fuel l r).2 = true → (keyBound cmp fuel l r).1 < r) := by
  induction fuel generalizing l r with
  | zero => exact ⟨ordered, by simp [keyBound]⟩
  | succ fuel ih =>
      simp only [keyBound]
      split
      · cases h : cmp ((l + r) / 2) with
        | lt =>
            have low := ih l ((l + r) / 2) (by omega)
            simp only
            refine ⟨by omega, fun found => ?_⟩
            have := low.2 found
            omega
        | eq =>
            simp only
            omega
        | gt =>
            simp only
            exact ih ((l + r) / 2 + 1) r (by omega)
      · exact ⟨ordered, by simp⟩

theorem lower_le (b : LeafBody) (k : Key) : (b.lower k).1 ≤ b.size := by
  have bound := keyBound_le (fun m => b.compareKey k (b.permutation.get m)) b.size 0 b.size
    (Nat.zero_le _)
  simp only [LeafBody.lower, keyLowerBound]
  split
  · next h =>
      rw [h] at bound
      exact bound.1
  · next h =>
      rw [h] at bound
      exact bound.1

theorem lower_found {b : LeafBody} {k : Key} {p : Nat} (found : (b.lower k).2 = some p) :
    (b.lower k).1 < b.size ∧ p = b.permutation.get (b.lower k).1 := by
  have bound := keyBound_le (fun m => b.compareKey k (b.permutation.get m)) b.size 0 b.size
    (Nat.zero_le _)
  simp only [LeafBody.lower, keyLowerBound] at *
  split at found
  · next h =>
      rw [h] at bound
      exact ⟨bound.2 rfl, (Option.some.inj found).symm⟩
  · cases found

end Incll.Proof
