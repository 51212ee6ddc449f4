import Incll.Model.Ksuf
import Incll.Proof.Layers.LeafEntries
import Mathlib.Algebra.Group.Action.Defs
import Mathlib.Algebra.Order.BigOperators.Group.List
import Mathlib.Algebra.Order.Ring.Nat

/-! # The numbers of a suffix bag fit in its fields -/

namespace Incll.Proof.Ksuf
open Incll.Model Incll.Proof.Layers

/-- All that a bag stores, and all that is written to it, is within its capacity, and the capacity is
within the offset type. -/
structure InFields (offset : Nat) (b : Stringbag) : Prop where
  header : Stringbag.overhead offset leafWidth ≤ b.size
  size : b.size ≤ b.capacity
  capacity : b.capacity < Stringbag.maxSize offset
  entry : ∀ p, (b.info p).1 + (b.info p).2 ≤ b.size
  used : ∀ p, (b.info p).2 ≠ 0 → Stringbag.overhead offset leafWidth ≤ (b.info p).1

theorem field_eq {offset n : Nat} (small : n < Stringbag.maxSize offset) :
    Stringbag.field offset n = n := Nat.mod_eq_of_lt small

theorem construct_eq {offset capacity : Nat} (positive : 0 < offset)
    (large : Stringbag.overhead offset leafWidth ≤ capacity)
    (small : capacity < Stringbag.maxSize offset) :
    Stringbag.construct offset leafWidth capacity = some (.make offset leafWidth capacity) ∧
      InFields offset (.make offset leafWidth capacity) := by
  have header : 0 < Stringbag.overhead offset leafWidth := by
    simp only [Stringbag.overhead]
    omega
  refine ⟨?_, le_rfl, large, small, fun _ => Nat.zero_le _, fun _ used => absurd rfl used⟩
  rw [Stringbag.construct, if_pos ⟨large, small.le⟩, field_eq (by omega), field_eq (by omega),
    Nat.sub_add_cancel (by omega)]
  rfl

section
variable {offset p : Nat} {b b' : Stringbag} {s : List UInt8}

theorem store_eq (fits : InFields offset b) {pos : Nat}
    (inside : pos + s.length ≤ b.capacity) : b.store offset p pos s = b.put p pos s := by
  have small := fits.capacity
  rw [Stringbag.store, field_eq (by omega), field_eq (by omega)]
  rfl

theorem assignFields_some (fits : InFields offset b) (h : b.assign p s = some b') :
    b.assignFields offset p s = (true, b') ∧ InFields offset b' ∧ b'.capacity = b.capacity := by
  have size := fits.size
  have entry := fits.entry p
  simp only [Stringbag.assign] at h
  split at h
  · next short =>
      cases h
      refine ⟨?_, ⟨fits.header, fits.size, fits.capacity, fun q => ?_, fun q used => ?_⟩, rfl⟩
      · rw [Stringbag.assignFields, if_pos short, store_eq fits (by omega)]
      · by_cases same : q = p
        · subst same
          simp only [Stringbag.put, Function.update_self]
          omega
        · simpa only [Stringbag.put, Function.update_of_ne same] using fits.entry q
      · by_cases same : q = p
        · subst same
          simp only [Stringbag.put, Function.update_self] at used ⊢
          exact fits.used q (by omega)
        · simp only [Stringbag.put, Function.update_of_ne same] at used ⊢
          exact fits.used q used
  · next long =>
      split at h
      · next room =>
          cases h
          have small := fits.capacity
          have end_le : b.size + s.length ≤ b.capacity := by omega
          refine ⟨?_, ⟨fits.header.trans (Nat.le_add_right ..), end_le, fits.capacity, fun q => ?_,
            fun q used => ?_⟩, rfl⟩
          · rw [Stringbag.assignFields, if_neg long, if_pos room, store_eq fits end_le,
              field_eq (by omega)]
          · by_cases same : q = p
            · subst same
              simp [Stringbag.put]
            · simp only [Stringbag.put, Function.update_of_ne same]
              exact (fits.entry q).trans (Nat.le_add_right ..)
          · by_cases same : q = p
            · subst same
              simpa only [Stringbag.put, Function.update_self] using fits.header
            · simp only [Stringbag.put, Function.update_of_ne same] at used ⊢
              exact fits.used q used
      · cases h

theorem assignFields_none (h : b.assign p s = none) : b.assignFields offset p s = (false, b) := by
  simp only [Stringbag.assign] at h
  split at h
  · cases h
  · next long =>
      split at h
      · cases h
      · next full => rw [Stringbag.assignFields, if_neg long, if_neg full]

/-- A write stays between the header and the end of the bag. -/
theorem assignFields_bytes (fits : InFields offset b) {i : Nat}
    (apart : i < Stringbag.overhead offset leafWidth ∨ b.capacity ≤ i) :
    (b.assignFields offset p s).2.bytes i = b.bytes i := by
  have size := fits.size
  have header := fits.header
  have entry := fits.entry p
  simp only [Stringbag.assignFields]
  split
  · next short =>
      by_cases empty : (b.info p).2 = 0
      · have none : s.length = 0 := by omega
        exact if_neg (by omega)
      · have start := fits.used p empty
        exact if_neg (by omega)
  · split
    · exact if_neg (by omega)
    · rfl

end

theorem fold_fields {offset : Nat} {f : Nat → List UInt8} {slots : List Nat} {b b' : Stringbag}
    (fits : InFields offset b)
    (h : slots.foldlM (fun bag q => Stringbag.assign bag q (f q)) b = some b') :
    slots.foldlM (fun bag q => Stringbag.asserted (bag.assignFields offset q (f q))) b = some b' ∧
      InFields offset b' ∧ b'.capacity = b.capacity := by
  induction slots generalizing b with
  | nil =>
      cases h
      exact ⟨rfl, fits, rfl⟩
  | cons q slots ih =>
      rw [List.foldlM_cons] at h
      obtain ⟨b₁, first, rest⟩ := Option.bind_eq_some_iff.mp h
      obtain ⟨same, fits₁, capacity₁⟩ := assignFields_some fits first
      obtain ⟨fold, fits', capacity⟩ := ih fits₁ rest
      refine ⟨?_, fits', capacity.trans capacity₁⟩
      rw [List.foldlM_cons, same]
      exact fold

theorem iceilLog2_le {n : Nat} (small : n ≤ 4096) : LeafBody.iceilLog2 n ≤ 4096 := by
  rw [LeafBody.iceilLog2]
  split
  · omega
  · have log : (n - 1).log2 < 12 := (Nat.log2_lt (by omega)).mpr (by omega)
    exact Nat.pow_le_pow_right (by omega) (show (n - 1).log2 + 1 ≤ 12 by omega)

/-- The longest suffix. -/
def maxSuffix : Nat := maxKeylen - ikeySize

/-- The bags of a leaf. The external one has a power of two that holds fifteen suffixes. -/
structure BagsOk (b : LeafBody) : Prop where
  inside : 0 < b.extrasize64 → InFields 1 b.iksuf
  outside : ∀ bag, b.ksuf = some bag → InFields 2 bag ∧ bag.capacity ≤ 4096

theorem bagsOk_construct (ksufsize : Nat) :
    LeafBody.construct ksufsize = some (.make ksufsize) ∧ BagsOk (.make ksufsize) := by
  by_cases bag : 0 < (LeafBody.make ksufsize).extrasize64
  · obtain ⟨made, fits⟩ := @construct_eq 1 (LeafBody.make ksufsize).iksuf.capacity (by decide)
      (by simp only [LeafBody.make, Stringbag.make, Stringbag.overhead, sizeofLeaf, leafWidth] at *; omega)
      (by simp only [LeafBody.make, Stringbag.make, Stringbag.maxSize, sizeofLeaf] at *; omega)
    refine ⟨?_, fun _ => fits, by simp [LeafBody.make]⟩
    rw [LeafBody.construct, if_pos bag, made]
    rfl
  · refine ⟨?_, fun h => absurd h bag, by simp [LeafBody.make]⟩
    rw [LeafBody.construct, if_neg bag]

section
variable {b b' : LeafBody} {p : Nat} {s : List UInt8} {initializing : Bool}

theorem length_ksufSlots (valid : PermValid b.permutation) (small : p < leafWidth) :
    (b.ksufSlots p initializing).length ≤ leafWidth := by
  have inside : b.ksufSlots p initializing ⊆ List.range leafWidth := fun q member => by
    have kept := (mem_ksufSlots.mp member).1
    cases initializing with
    | false => exact List.mem_range.mpr (valid.live_lt kept)
    | true => exact List.mem_range.mpr (lt_trans kept small)
  simpa using ((ksufSlots_nodup valid p initializing).subperm inside).length_le

theorem sum_ksufSlots (valid : PermValid b.permutation) (small : p < leafWidth)
    (short : ∀ q ∈ b.ksufSlots p initializing, (b.getKsuf q).length ≤ maxSuffix) :
    ((b.ksufSlots p initializing).map fun q => (b.getKsuf q).length).sum ≤
      leafWidth * maxSuffix := by
  have sum := List.sum_le_card_nsmul ((b.ksufSlots p initializing).map fun q => (b.getKsuf q).length)
    maxSuffix (by simpa using short)
  rw [List.length_map, smul_eq_mul] at sum
  exact sum.trans (Nat.mul_le_mul_right _ (length_ksufSlots valid small))

theorem copyKsufsFields_eq {bag : Stringbag} (ok : BagsOk b)
    (sum : ((b.ksufSlots p initializing).map fun q => (b.getKsuf q).length).sum ≤
      leafWidth * maxSuffix) (short : s.length ≤ maxSuffix)
    (h : b.copyKsufs p s initializing = some bag) :
    b.copyKsufsFields p s initializing = some bag ∧ InFields 2 bag ∧ bag.capacity ≤ 4096 := by
  simp only [LeafBody.copyKsufs] at h
  obtain ⟨bag₁, fold, assign⟩ := Option.bind_eq_some_iff.mp h
  set sz := max (LeafBody.iceilLog2 (Stringbag.safeSize 2 leafWidth
    (((b.ksufSlots p initializing).map fun q => (b.getKsuf q).length).sum + s.length)))
    ((b.ksuf.map (·.capacity)).getD 0) with size
  have room : Stringbag.safeSize 2 leafWidth
      (((b.ksufSlots p initializing).map fun q => (b.getKsuf q).length).sum + s.length) ≤ 4096 := by
    simp only [Stringbag.safeSize, Stringbag.overhead, Stringbag.sliceSize, maxSuffix, maxKeylen,
      ikeySize, leafWidth] at *
    omega
  have old : (b.ksuf.map (·.capacity)).getD 0 ≤ 4096 := by
    cases here : b.ksuf with
    | none => exact Nat.zero_le _
    | some bag => exact (ok.outside bag here).2
  have small : sz ≤ 4096 := max_le (iceilLog2_le room) old
  have large : Stringbag.overhead 2 leafWidth ≤ sz := by
    refine le_trans ?_ ((le_iceilLog2 _).trans (le_max_left _ _))
    simp only [Stringbag.safeSize, Stringbag.sliceSize]
    omega
  obtain ⟨made, fits⟩ := construct_eq (by decide) large
    (small.trans_lt (show 4096 < Stringbag.maxSize 2 by decide))
  obtain ⟨fold', fits₁, capacity₁⟩ := fold_fields fits fold
  obtain ⟨assign', fits', capacity⟩ := assignFields_some fits₁ assign
  refine ⟨?_, fits', (capacity.trans capacity₁).le.trans small⟩
  simp only [LeafBody.copyKsufsFields, ← size, made, bind, Option.bind_some]
  rw [fold', Option.bind_some, assign']
  rfl

theorem assignKsufFields_eq (ok : BagsOk b) (state : b.modstate ≠ .remove)
    (sum : ((b.ksufSlots p initializing).map fun q => (b.getKsuf q).length).sum ≤
      leafWidth * maxSuffix) (short : s.length ≤ maxSuffix)
    (h : b.assignKsuf p s initializing = some b') :
    b.assignKsufFields p s initializing = some b' ∧ BagsOk b' := by
  simp only [LeafBody.assignKsuf] at h
  have outside (failed : b.ksuf.bind (·.assign p s) = none) :
      (b.ksuf.map fun bag => bag.assignFields 2 p s) = b.ksuf.map fun bag => (false, bag) := by
    cases here : b.ksuf with
    | none => rfl
    | some bag =>
        have same : bag.assignFields 2 p s = (false, bag) :=
          assignFields_none (by simpa [here] using failed)
        simp [same]
  split at h
  · next bag' assigned =>
      cases h
      obtain ⟨bag, here, assign⟩ := Option.bind_eq_some_iff.mp assigned
      obtain ⟨fits, small⟩ := ok.outside bag here
      obtain ⟨same, fits', capacity⟩ := assignFields_some fits assign
      refine ⟨?_, ok.inside, ?_⟩
      · simp [LeafBody.assignKsufFields, here, same]
      · rintro _ ⟨⟩
        exact ⟨fits', capacity.le.trans small⟩
  · next failed =>
      have unchanged := outside failed
      split at h
      · next bag' assigned =>
          cases h
          split at assigned
          · next internal =>
              obtain ⟨same, fits', -⟩ := assignFields_some (ok.inside internal) assigned
              refine ⟨?_, fun _ => fits', ok.outside⟩
              cases here : b.ksuf <;>
                simp_all [LeafBody.assignKsufFields]
          · cases assigned
      · next full =>
          obtain ⟨bag, copy, rfl⟩ := Option.map_eq_some_iff.mp h
          obtain ⟨copy', fits, small⟩ := copyKsufsFields_eq ok sum short copy
          have inside : (if 0 < b.extrasize64 then b.iksuf.assignFields 1 p s
              else (false, b.iksuf)) = (false, b.iksuf) := by
            split
            · next internal => exact assignFields_none (by simpa [internal] using full)
            · rfl
          refine ⟨?_, fun spare => ?_, ?_⟩
          · have kept : (b.ksuf.map fun bag => (false, bag)).map (·.2) = b.ksuf := by
              cases b.ksuf <;> rfl
            have none : (b.ksuf.map fun bag => (false, bag)).any (·.1) = false := by
              cases b.ksuf <;> rfl
            simp only [LeafBody.assignKsufFields, unchanged, kept, none, inside, copy', if_neg state]
            rfl
          · simp only at spare
            split at spare <;> omega
          · rintro _ ⟨⟩
            exact ⟨fits, small⟩

end

end Incll.Proof.Ksuf
