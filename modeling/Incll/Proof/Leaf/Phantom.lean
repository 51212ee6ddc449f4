import Incll.Model.Query

/-! # Timestamps and the internal suffix bag -/

namespace Incll.Proof
open Incll.Model

/-- The suffix bags and the entries of the leaf are the same. -/
structure SameContent (m m' : LeafMemory) : Prop where
  internal : m'.internalKsuf = m.internalKsuf
  external : m'.body.ksuf = m.body.ksuf
  entries : m'.body = { m.body with iksuf := m'.body.iksuf }

/-- Removals leave the leaf alone, and no timestamp depends on what its suffix bags hold. -/
structure Undisturbed (m : LeafMemory) : Prop where
  remove : ∀ ts old, SameContent m (applyRemove ts old m).2
  removeTimestamp : ∀ ts old iksuf ksuf, (applyRemove ts old
    { m with body := { m.body with iksuf := iksuf, ksuf := ksuf } }).1 = (applyRemove ts old m).1
  putTimestamp : ∀ ts found iksuf ksuf, putTimestamp ts
    { m with body := { m.body with iksuf := iksuf, ksuf := ksuf } } found = putTimestamp ts m found

/-- The word read as `phantom_epoch_[0]` belongs to the memory of the leaf. -/
theorem phantomEpoch_allocated (b : LeafBody) : sizeofLeaf + 8 ≤ b.allocatedSize := by
  simp only [LeafBody.allocatedSize, sizeofLeaf]
  omega

theorem headerWord_setHeaderWord (b : Stringbag) (w : Kvtimestamp) :
    (b.setHeaderWord w).headerWord = w := by
  apply BitVec.eq_of_toNat_eq
  have bound := w.isLt
  simp only [Stringbag.headerWord, Stringbag.header, Stringbag.setHeaderWord, Stringbag.byteAt,
    List.foldr, BitVec.toNat_ofNat]
  simp
  omega

theorem lessEqual_refl (a : Kvtimestamp) : Kvtimestamp.lessEqual a a = true := by
  simp [Kvtimestamp.lessEqual]

/-- A row that is older than the clock of the thread. -/
theorem updateTimestamp_newer (ts : Kvtimestamp) : updateTimestamp ts (ts - 1) = ts := by
  have difference : ts - (ts - 1) = 1 := by bv_omega
  simp only [updateTimestamp, Kvtimestamp.lessEqual, difference]
  rfl

section
variable {m : LeafMemory}

theorem sameContent_of_spare (small : m.body.extrasize64 ≤ 0) (w : Kvtimestamp) :
    SameContent m (m.setPhantomEpoch w) := by
  rw [LeafMemory.setPhantomEpoch, if_neg (Int.not_lt.mpr small)]
  exact ⟨rfl, rfl, rfl⟩

theorem undisturbed_of_spare (small : m.body.extrasize64 ≤ 0) : Undisturbed m := by
  refine ⟨fun ts old => ?_, fun _ _ _ _ => rfl, fun ts found iksuf ksuf => ?_⟩
  · simp only [applyRemove]
    split
    · exact sameContent_of_spare small _
    · exact ⟨rfl, rfl, rfl⟩
  · cases found with
    | some old => rfl
    | none => simp only [putTimestamp, observePhantoms, LeafMemory.phantomEpoch,
        if_neg (Int.not_lt.mpr small)]

/-- A removal at the time that the header spells out changes the header. -/
theorem header_changed (large : 0 < m.body.extrasize64) :
    ¬ SameContent m (applyRemove m.phantomEpoch (m.phantomEpoch - 1) m).2 := by
  intro same
  have internal := same.internal
  simp only [applyRemove, updateTimestamp_newer, lessEqual_refl, if_true] at internal
  have word := congrArg (Option.map Stringbag.headerWord) internal
  simp only [LeafMemory.setPhantomEpoch, LeafMemory.internalKsuf, if_pos large, Option.map_some,
    headerWord_setHeaderWord, Option.some.injEq, LeafMemory.phantomEpoch] at word
  simp at word

end

theorem undisturbed_iff (m : LeafMemory) : Undisturbed m ↔ m.body.extrasize64 ≤ 0 := by
  constructor
  · intro undisturbed
    by_contra large
    exact header_changed (Int.not_le.mp large) (undisturbed.remove _ _)
  · exact undisturbed_of_spare

/-- A leaf with two keys whose suffixes are stored inside of it. -/
def suffixedLeaf : Option LeafBody := do
  let b ← (LeafBody.make 120).assign 0 ⟨1, 9, [97]⟩ true
  let b ← b.assign 1 ⟨1, 10, [98, 99]⟩ true
  return { b with permutation := .makeSorted 2 }

/-- The removal of one key at time 2^56 empties the suffix of the other one. -/
theorem suffix_disturbed : ¬ ∀ m : LeafMemory, Undisturbed m := by
  intro claim
  have lost : suffixedLeaf.any (fun b =>
      (applyRemove (.twoPow 64 56) 0 ⟨b, 0⟩).2.internalKsuf.map (·.get 1) !=
        (LeafMemory.mk b 0).internalKsuf.map (·.get 1)) = true := by decide
  cases leaf : suffixedLeaf with
  | none => simp [leaf] at lost
  | some b =>
      have internal := ((claim ⟨b, 0⟩).remove (.twoPow 64 56) 0).internal
      rw [leaf, Option.any_some, internal, bne_self_eq_false] at lost
      cases lost

end Incll.Proof
