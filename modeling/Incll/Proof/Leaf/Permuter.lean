import Incll.Model.Kpermuter
import Mathlib.Data.List.Perm.Basic
import Mathlib.Data.List.Nodup
import Mathlib.Tactic.Common

/-! # The slots of a leaf are a permutation -/

namespace Incll.Proof
open Incll.Model

/-- The permutation of `kpermuter<14>` holds each slot once. -/
structure PermValid (p : Kpermuter) : Prop where
  size : p.size ≤ leafWidth
  slots : p.slots.Perm (List.range leafWidth)

theorem getElem_eq {p : Kpermuter} {i : Nat} (bound : i < p.slots.length) :
    p.slots[i] = p.get i := by
  simp [Kpermuter.get, bound]

namespace PermValid
variable {p : Kpermuter} (h : PermValid p)
include h

theorem length : p.slots.length = leafWidth := by
  rw [h.slots.length_eq, List.length_range]

theorem nodup : p.slots.Nodup := h.slots.nodup_iff.mpr List.nodup_range

theorem get_eq {i : Nat} (hi : i < leafWidth) : p.slots[i]? = some (p.get i) := by
  have bound : i < p.slots.length := h.length ▸ hi
  rw [List.getElem?_eq_getElem bound, getElem_eq]

theorem get_lt {i : Nat} (hi : i < leafWidth) : p.get i < leafWidth := by
  have member := List.mem_of_getElem? (h.get_eq hi)
  simpa using h.slots.mem_iff.mp member

theorem get_inj {i j : Nat} (hi : i < leafWidth) (hj : j < leafWidth) (same : p.get i = p.get j) :
    i = j := by
  have left : i < p.slots.length := h.length ▸ hi
  have right : j < p.slots.length := h.length ▸ hj
  have equal : p.slots[i] = p.slots[j] := by rw [getElem_eq, getElem_eq, same]
  exact h.nodup.getElem_inj_iff.mp equal

theorem length_live : p.live.length = p.size := by
  rw [Kpermuter.live, List.length_take, h.length]
  exact Nat.min_eq_left h.size

theorem mem_live {q : Nat} : q ∈ p.live ↔ ∃ i, i < p.size ∧ p.get i = q := by
  have size := h.size
  rw [Kpermuter.live, List.mem_take_iff_getElem]
  constructor
  · rintro ⟨i, bound, here⟩
    refine ⟨i, by omega, ?_⟩
    rw [← here, getElem_eq]
  · rintro ⟨i, bound, rfl⟩
    have full := h.length
    exact ⟨i, by omega, getElem_eq (by omega)⟩

theorem live_lt {q : Nat} (member : q ∈ p.live) : q < leafWidth := by
  obtain ⟨i, bound, rfl⟩ := h.mem_live.mp member
  exact h.get_lt (Nat.lt_of_lt_of_le bound h.size)

theorem get_live {i : Nat} (hi : i < p.size) : p.get i ∈ p.live := h.mem_live.mpr ⟨i, hi, rfl⟩

theorem get_not_live {i : Nat} (low : p.size ≤ i) (hi : i < leafWidth) : p.get i ∉ p.live := by
  intro member
  obtain ⟨j, bound, same⟩ := h.mem_live.mp member
  have := h.get_inj (by omega) hi same
  omega

theorem back_lt : p.back < leafWidth := h.get_lt (by decide)

theorem back_not_live (room : p.size < leafWidth) : p.back ∉ p.live :=
  h.get_not_live (by simp only [leafWidth] at *; omega) (by decide)

theorem setSize {n : Nat} (hn : n ≤ leafWidth) : PermValid (p.setSize n) := ⟨hn, h.slots⟩

theorem slots_eq_back : p.slots = p.slots.dropLast ++ [p.back] := by
  have nonempty : p.slots ≠ [] := by
    intro empty
    have := h.length
    simp [empty, leafWidth] at this
  have last : p.back = p.slots.getLast nonempty := by
    rw [List.getLast_eq_getElem, getElem_eq, h.length, Kpermuter.back]
  rw [last, List.dropLast_append_getLast]

theorem insertFromBack {i : Nat} (place : i ≤ p.size) (room : p.size < leafWidth) :
    PermValid (p.insertFromBack i) := by
  refine ⟨room, ?_⟩
  have full := h.length
  have inserted : (p.slots.dropLast.insertIdx i p.back).Perm (p.back :: p.slots.dropLast) :=
    List.perm_insertIdx _ _ (by rw [List.length_dropLast]; omega)
  apply inserted.trans
  apply List.Perm.trans _ h.slots
  conv_rhs => rw [h.slots_eq_back]
  exact (List.perm_append_singleton ..).symm

theorem erase_perm {i : Nat} (hi : i < leafWidth) : (p.get i :: p.slots.eraseIdx i).Perm p.slots := by
  have bound : i < p.slots.length := h.length ▸ hi
  rw [← getElem_eq bound]
  exact List.getElem_cons_eraseIdx_perm bound

theorem remove {i : Nat} (place : i < p.size) : PermValid (p.remove i) := by
  have size := h.size
  refine ⟨Nat.le_trans (Nat.sub_le ..) size, ?_⟩
  have full := h.length
  have inserted : ((p.slots.eraseIdx i).insertIdx (p.size - 1) (p.get i)).Perm
      (p.get i :: p.slots.eraseIdx i) := by
    apply List.perm_insertIdx
    rw [List.length_eraseIdx_of_lt (by omega)]
    omega
  exact (inserted.trans (h.erase_perm (by omega))).trans h.slots

theorem removeToBack {i : Nat} (place : i < leafWidth) : PermValid (p.removeToBack i) := by
  refine ⟨Nat.le_trans (Nat.sub_le ..) h.size, ?_⟩
  exact ((List.perm_append_singleton ..).trans (h.erase_perm place)).trans h.slots

theorem exchange {i j : Nat} (hi : i < leafWidth) (hj : j < leafWidth) :
    PermValid (p.exchange i j) := by
  refine ⟨h.size, ?_⟩
  have full := h.length
  have bound : i < p.slots.length := by omega
  have bound' : j < p.slots.length := by omega
  have swapped := List.set_set_perm bound bound'
  rw [getElem_eq, getElem_eq] at swapped
  exact swapped.trans h.slots

end PermValid

theorem range_append_drop {n width : Nat} (hn : n ≤ width) :
    List.range n ++ (List.range width).drop n = List.range width := by
  conv_rhs => rw [← List.take_append_drop n (List.range width), List.take_range, Nat.min_eq_left hn]

theorem permValid_makeSorted {n : Nat} (hn : n ≤ leafWidth) : PermValid (.makeSorted n) :=
  ⟨hn, ((List.reverse_perm _).append_left _).trans (.of_eq (range_append_drop hn))⟩

theorem permValid_makeEmpty : PermValid .makeEmpty := ⟨Nat.zero_le _, List.reverse_perm _⟩

end Incll.Proof
