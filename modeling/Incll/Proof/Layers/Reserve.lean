import Incll.Proof.Layers.LeafSplit

/-! # The slot for a new key

`make_split` finds a free slot for the key, in one of the leaves, and writes the key into it. -/

namespace Incll.Proof.Layers
open Incll.Model

variable {b b' : LeafBody} {k : Key} {i : Nat}

/-- The next free slot holds the key, and `i` is its place among the entries. -/
structure Reserved (b : LeafBody) (k : Key) (i : Nat) (p : Option Nat) : Prop where
  ok : EntriesOk b
  room : b.size < leafWidth
  slot : p = some b.permutation.back
  key : entryAt b b.permutation.back = Key.entry k .empty
  place : Place b (Key.rank k) i none

theorem EntriesOk.ksufs {p : Nat} (ok : EntriesOk b) : KsufsOk b p false :=
  fun q _ live => getKsuf_ne_nil (ok.each _ (mem_entries.mpr ⟨q, live, rfl⟩))

theorem entries_assigned {p : Nat} {e : Entry} (assigned : AssignedTo b b' p false e)
    (dead : p ∉ b.permutation.live) : entries b' = entries b := by
  rw [entries, assigned.permutation, entries]
  refine List.map_congr_left fun q live => assigned.others q ?_ live
  rintro rfl
  exact dead live

theorem EntriesOk.of_entries (ok : EntriesOk b) (valid : LeafValid b')
    (part : (entries b').Sublist (entries b)) : EntriesOk b' :=
  ⟨valid, ok.sorted.sublist part, fun e member => ok.each e (part.subset member)⟩

/-- The key is written to the next free slot. -/
theorem reserve (ok : EntriesOk b) (room : b.size < leafWidth) (place : Place b (Key.rank k) i none)
    (key : KeyOk k) : ∃ b', b.assign b.permutation.back k false = some b' ∧
      AssignedTo b b' b.permutation.back false (Key.entry k .empty) ∧ entries b' = entries b ∧
      Reserved b' k i (some b.permutation.back) := by
  have dead := ok.valid.body.permutation.back_not_live room
  obtain ⟨b', assign, assigned⟩ := assign_total ok.valid key ok.ksufs fun _ => dead
  have same := entries_assigned assigned dead
  have size : b'.size = b.size := congrArg Kpermuter.size assigned.permutation
  have perm := assigned.permutation
  refine ⟨b', assign, assigned, same, ok.of_entries assigned.valid (by rw [same]), ?_, ?_, ?_, ?_⟩
  · rwa [size]
  · rw [perm]
  · rw [perm]
    exact assigned.here
  · refine ⟨size ▸ place.small, ?_, nofun, ?_⟩
    · rw [same]
      exact place.before
    · rw [same]
      exact place.missing

/-! A leaf with a free slot other than slot 0. -/

theorem get_exchange (perm : Kpermuter) {i j x : Nat} (full : perm.slots.length = leafWidth)
    (hi : i < leafWidth) (hj : j < leafWidth) :
    (perm.exchange i j).get x = perm.get (if x = j then i else if x = i then j else x) := by
  simp only [Kpermuter.get, Kpermuter.exchange, List.getD_eq_getElem?_getD, List.getElem?_set,
    List.length_set]
  grind

theorem back_exchange (perm : Kpermuter) (full : perm.slots.length = leafWidth) (hi : i < leafWidth) :
    (perm.exchange i (leafWidth - 1)).back = perm.get i := by
  rw [Kpermuter.back, get_exchange perm full hi (by decide), if_pos rfl]

/-- The leaf in which the key is put in front of the free slots. -/
theorem exchanged (ok : EntriesOk b) (room : b.size < leafWidth) (place : Place b (Key.rank k) i none) :
    EntriesOk (b.setPermutation (b.permutation.exchange b.size (leafWidth - 1))) ∧
      entries (b.setPermutation (b.permutation.exchange b.size (leafWidth - 1))) = entries b ∧
      Place (b.setPermutation (b.permutation.exchange b.size (leafWidth - 1))) (Key.rank k) i none := by
  have perm := ok.valid.body.permutation
  have live : (b.permutation.exchange b.size (leafWidth - 1)).live = b.permutation.live :=
    live_exchange le_rfl (by unfold LeafBody.size at room; omega)
  have same : entries (b.setPermutation (b.permutation.exchange b.size (leafWidth - 1))) = entries b := by
    rw [entries_setPermutation, live]
    rfl
  refine ⟨ok.of_entries (ok.valid.setPermutation (perm.exchange room (by decide))) (by rw [same]), same, ?_⟩
  refine ⟨place.small, ?_, nofun, ?_⟩
  · rw [same]
    exact place.before
  · rw [same]
    exact place.missing

/-! The leaf that is split. -/

/-- The permutation of the left leaf. -/
def leftPermutation (b : LeafBody) (n : Nat) : Kpermuter :=
  let perml := b.permutation.setSize n
  if b.size ≠ leafWidth then perml.exchange perml.size (leafWidth - 1) else perml

theorem size_leftPermutation (n : Nat) : (leftPermutation b n).size = n := by
  simp only [leftPermutation]
  split <;> rfl

variable {right : LeafBody} {key splitType m : Nat}

theorem permValid_left (valid : PermValid b.permutation) (bound : m ≤ b.size) :
    PermValid (leftPermutation b m) := by
  have size : b.size ≤ leafWidth := valid.size
  have small := valid.setSize (n := m) (by omega)
  simp only [leftPermutation]
  split
  · exact small.exchange (show m < leafWidth by omega) (by decide)
  · exact small

theorem live_left (valid : PermValid b.permutation) (bound : m ≤ b.size) :
    (leftPermutation b m).live = b.permutation.live.take m := by
  have size : b.size ≤ leafWidth := valid.size
  have cut : (b.permutation.setSize m).live = b.permutation.live.take m := by
    change b.permutation.slots.take m = (b.permutation.slots.take b.size).take m
    rw [List.take_take, Nat.min_eq_left bound]
  simp only [leftPermutation]
  split
  · next room =>
      rw [← cut]
      exact live_exchange le_rfl (show m ≤ leafWidth - 1 by omega)
  · exact cut

theorem entries_left (valid : PermValid b.permutation) (bound : m ≤ b.size) :
    entries (b.setPermutation (leftPermutation b m)) = (entries b).take m := by
  rw [entries_setPermutation, live_left valid bound, entries, List.map_take]

/-- What `make_split` leaves in the left leaf. -/
theorem left_ok (ok : EntriesOk b) (bound : m ≤ b.size) :
    EntriesOk (b.setPermutation (leftPermutation b m)) := by
  refine ok.of_entries (ok.valid.setPermutation (permValid_left ok.valid.body.permutation bound)) ?_
  rw [entries_left ok.valid.body.permutation bound]
  exact List.take_sublist ..

theorem place_left (ok : EntriesOk b) (place : Place b (Key.rank k) i none) (bound : m ≤ b.size)
    (left : i ≤ m) : Place (b.setPermutation (leftPermutation b m)) (Key.rank k) i none := by
  have entries_eq := entries_left ok.valid.body.permutation bound
  refine ⟨?_, ?_, nofun, fun _ e member => ?_⟩
  · change i ≤ (leftPermutation b m).size
    rwa [size_leftPermutation]
  · rw [entries_eq, List.take_take, Nat.min_eq_left left]
    exact place.before
  · rw [entries_eq, List.drop_take] at member
    exact place.missing rfl e (List.mem_of_mem_take member)

theorem place_right (place : Place b (Key.rank k) i none) (split : SplitOk b right k i key splitType m)
    (far : m ≤ i) : Place right (Key.rank k) (i - m) none := by
  refine ⟨?_, ?_, nofun, fun _ e member => ?_⟩
  · rw [split.size]
    exact Nat.sub_le_sub_right place.small m
  · rw [split.entries, List.take_drop, Nat.add_sub_cancel' far]
    exact fun e member => place.before e (List.mem_of_mem_drop member)
  · rw [split.entries, List.drop_drop, Nat.add_sub_cancel' far] at member
    exact place.missing rfl e member

/-- The slot of the first entry is not taken for another key. -/
theorem left_back_ne (ok : EntriesOk b) (bound : m < b.size) (full : leafWidth ≤ b.size + 1)
    (last : b.size ≠ leafWidth → b.permutation.back = 0)
    (least : ∀ e ∈ entries b, b.ikeyBound ≤ e.ikey) : (leftPermutation b m).back ≠ 0 := by
  have perm := ok.valid.body.permutation
  have size : b.size ≤ leafWidth := perm.size
  intro zero
  by_cases whole : b.size = leafWidth
  · -- eleven entries would have the ikey of slot 0
    rw [leftPermutation, if_neg (not_not.mpr whole)] at zero
    have here := getElem_entries perm (show leafWidth - 1 < b.size by rw [whole]; decide)
    change b.permutation.get (leafWidth - 1) = 0 at zero
    rw [zero] at here
    have low := getElem_entries perm (show 0 < b.size by rw [whole]; decide)
    obtain ⟨bound₀, eq₀⟩ := List.getElem?_eq_some_iff.mp low
    obtain ⟨bound₁, eq₁⟩ := List.getElem?_eq_some_iff.mp here
    have first := least _ (List.mem_of_getElem? low)
    have ranks (d : Nat) (small : d < b.size) : ∃ e, (entries b)[d]? = some e ∧
        ((entries b)[0]).rank + d ≤ e.rank := by
      induction d with
      | zero => exact ⟨_, List.getElem?_eq_getElem bound₀, le_rfl⟩
      | succ d ih =>
          obtain ⟨e, at', le⟩ := ih (by omega)
          obtain ⟨small', rfl⟩ := List.getElem?_eq_some_iff.mp at'
          have next : d + 1 < (entries b).length := by rw [length_entries perm]; exact small
          refine ⟨_, List.getElem?_eq_getElem next, ?_⟩
          have := List.pairwise_iff_getElem.mp ok.sorted d (d + 1) small' next (Nat.lt_succ_self d)
          omega
    obtain ⟨e, at', le⟩ := ranks (leafWidth - 1) (by rw [whole]; decide)
    rw [here] at at'
    obtain rfl := Option.some.inj at'
    rw [eq₀] at le
    simp only [Entry.rank, rank, entryAt, LeafBody.ikeyBound, leafWidth] at le first
    omega
  · rw [leftPermutation, if_pos whole] at zero
    have length : (b.permutation.setSize m).slots.length = leafWidth := perm.length
    rw [show (b.permutation.setSize m).size = m from rfl, back_exchange _ length (by omega)] at zero
    have back := last whole
    have same : b.permutation.get m = b.permutation.get (leafWidth - 1) := zero.trans back.symm
    have := perm.get_inj (by omega) (by decide) same
    simp only [leafWidth] at this size full whole
    omega

end Incll.Proof.Layers
