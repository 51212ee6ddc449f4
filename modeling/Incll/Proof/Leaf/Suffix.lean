import Incll.Model.LeafBody
import Incll.Proof.Leaf.Permuter

/-! # Suffixes of other slots survive an assignment -/

namespace Incll.Proof
open Incll.Model

/-- The suffixes in the bag do not overlap. -/
structure BagValid (b : Stringbag) : Prop where
  inside : ∀ p, (b.info p).2 ≠ 0 → (b.info p).1 + (b.info p).2 ≤ b.size
  apart : ∀ p q, p ≠ q → (b.info p).2 ≠ 0 → (b.info q).2 ≠ 0 →
    (b.info p).1 + (b.info p).2 ≤ (b.info q).1 ∨ (b.info q).1 + (b.info q).2 ≤ (b.info p).1

theorem bagValid_make (offset width capacity : Nat) : BagValid (.make offset width capacity) :=
  ⟨fun _ h => absurd rfl h, fun _ _ _ h => absurd rfl h⟩

theorem get_put_self (b : Stringbag) (p pos : Nat) (s : List UInt8) : (b.put p pos s).get p = s := by
  apply List.ext_getElem
  · simp [Stringbag.get, Stringbag.put]
  · intro i hi bound
    simp [Stringbag.get, Stringbag.put, bound]

theorem get_put_other {b : Stringbag} {p q pos : Nat} {s : List UInt8} (other : q ≠ p)
    (apart : (b.info q).2 ≠ 0 → s.length ≠ 0 →
      (b.info q).1 + (b.info q).2 ≤ pos ∨ pos + s.length ≤ (b.info q).1) :
    (b.put p pos s).get q = b.get q := by
  simp only [Stringbag.get, Stringbag.put, Function.update_of_ne other]
  apply List.map_congr_left
  intro i member
  rw [List.mem_range] at member
  rw [if_neg]
  intro inside
  have := apart (by omega) (by omega)
  omega

theorem bag_assign {b b' : Stringbag} {p : Nat} {s : List UInt8} (valid : BagValid b)
    (h : b.assign p s = some b') :
    BagValid b' ∧ b'.get p = s ∧ ∀ q, q ≠ p → b'.get q = b.get q := by
  simp only [Stringbag.assign] at h
  split at h
  · next short =>
      cases h
      refine ⟨⟨?_, ?_⟩, get_put_self .., ?_⟩
      · intro q used
        by_cases same : q = p
        · subst same
          simp only [Stringbag.put, Function.update_self] at *
          have := valid.inside q (by omega)
          omega
        · simp only [Stringbag.put, Function.update_of_ne same] at *
          exact valid.inside q used
      · intro q r distinct usedq usedr
        by_cases hq : q = p
        · subst hq
          simp only [Stringbag.put, Function.update_self, Function.update_of_ne distinct.symm] at *
          have := valid.apart q r distinct (by omega) usedr
          omega
        · by_cases hr : r = p
          · subst hr
            simp only [Stringbag.put, Function.update_self, Function.update_of_ne distinct] at *
            have := valid.apart q r distinct usedq (by omega)
            omega
          · simp only [Stringbag.put, Function.update_of_ne hq, Function.update_of_ne hr] at *
            exact valid.apart q r distinct usedq usedr
      · intro q other
        apply get_put_other other
        intro used long
        have := valid.apart q p other used (by omega)
        omega
  · split at h
    · next long room =>
        cases h
        refine ⟨⟨?_, ?_⟩, get_put_self .., ?_⟩
        · intro q used
          by_cases same : q = p
          · subst same
            simp [Stringbag.put]
          · simp only [Stringbag.put, Function.update_of_ne same] at *
            exact (valid.inside q used).trans (Nat.le_add_right ..)
        · intro q r distinct usedq usedr
          by_cases hq : q = p
          · subst hq
            simp only [Stringbag.put, Function.update_self, Function.update_of_ne distinct.symm] at *
            exact .inr (valid.inside r usedr)
          · by_cases hr : r = p
            · subst hr
              simp only [Stringbag.put, Function.update_self, Function.update_of_ne distinct] at *
              exact .inl (valid.inside q usedq)
            · simp only [Stringbag.put, Function.update_of_ne hq, Function.update_of_ne hr] at *
              exact valid.apart q r distinct usedq usedr
        · intro q other
          have same := @get_put_other b p q b.size s other fun used _ => .inl (valid.inside q used)
          exact same
    · cases h

/-- Filling a bag slot by slot. -/
theorem bag_assignAll {f : Nat → List UInt8} {slots : List Nat} {b b' : Stringbag}
    (valid : BagValid b) (h : slots.foldlM (fun bag q => Stringbag.assign bag q (f q)) b = some b') :
    BagValid b' ∧ (∀ q ∈ slots, b'.get q = f q) ∧ ∀ q, q ∉ slots → b'.get q = b.get q := by
  induction slots generalizing b with
  | nil =>
      cases h
      exact ⟨valid, by simp, fun _ _ => rfl⟩
  | cons p slots ih =>
      rw [List.foldlM_cons] at h
      obtain ⟨b₁, assign, rest⟩ := Option.bind_eq_some_iff.mp h
      obtain ⟨valid₁, here, frame₁⟩ := bag_assign valid assign
      obtain ⟨valid', filled, frame⟩ := ih valid₁ rest
      refine ⟨valid', ?_, ?_⟩
      · intro q member
        by_cases later : q ∈ slots
        · exact filled q later
        · have same : q = p := (List.mem_cons.mp member).resolve_right later
          rw [frame q later, same, here]
      · intro q out
        rw [List.mem_cons, not_or] at out
        rw [frame q out.2, frame₁ q out.1]

/-- The permutation and the suffix storage of a leaf. -/
structure BodyValid (b : LeafBody) : Prop where
  permutation : PermValid b.permutation
  iksuf : BagValid b.iksuf
  ksuf : ∀ bag, b.ksuf = some bag → BagValid bag

/-- The suffixes that `c` holds can be read from `b`. -/
def KeepsKsuf (b c : LeafBody) : Prop :=
  ∀ p ∈ c.permutation.live, c.hasKsuf p = true → b.getKsuf p = c.getKsuf p

theorem assignKsuf_spec {b b' : LeafBody} {p : Nat} {s : List UInt8} {initializing : Bool}
    (valid : BodyValid b) (h : b.assignKsuf p s initializing = some b') :
    BodyValid b' ∧ (∃ x k i, b' = { b with extrasize64 := x, ksuf := k, iksuf := i }) ∧
      (initializing = false → ∀ q ∈ b.permutation.live, q ≠ p → b.hasKsuf q = true →
        b'.getKsuf q = b.getKsuf q) := by
  simp only [LeafBody.assignKsuf] at h
  split at h
  · next bag outside =>
      cases h
      obtain ⟨old, here, assign⟩ := Option.bind_eq_some_iff.mp outside
      obtain ⟨valid', -, frame⟩ := bag_assign (valid.ksuf old here) assign
      refine ⟨⟨valid.permutation, valid.iksuf, ?_⟩, ⟨_, _, _, rfl⟩, ?_⟩
      · rintro _ ⟨⟩
        exact valid'
      · intro _ q _ other _
        simp only [LeafBody.getKsuf, here]
        exact frame q other
  · split at h
    · next inside =>
        cases h
        split at inside
        · obtain ⟨valid', -, frame⟩ := bag_assign valid.iksuf inside
          refine ⟨⟨valid.permutation, valid', valid.ksuf⟩, ⟨_, _, _, rfl⟩, ?_⟩
          intro _ q _ other _
          simp only [LeafBody.getKsuf]
          cases b.ksuf with
          | none => exact frame q other
          | some bag => rfl
        · cases inside
    · obtain ⟨bag, copy, rfl⟩ := Option.map_eq_some_iff.mp h
      simp only [LeafBody.copyKsufs, bind] at copy
      obtain ⟨bag₁, fill, assign⟩ := Option.bind_eq_some_iff.mp copy
      obtain ⟨valid₁, filled, -⟩ := bag_assignAll (bagValid_make ..) fill
      obtain ⟨valid', -, frame⟩ := bag_assign valid₁ assign
      refine ⟨⟨valid.permutation, valid.iksuf, ?_⟩, ⟨_, _, _, rfl⟩, ?_⟩
      · rintro _ ⟨⟩
        exact valid'
      · intro live q member other suffix
        refine (frame q other).trans (filled q ?_)
        simp [LeafBody.ksufSlots, live, member, other, suffix]

/-- What `assign` writes outside slot `p`. -/
structure Assigned (b b' : LeafBody) (p : Nat) : Prop where
  valid : BodyValid b'
  same : ∃ x k i ikey keylenx lv,
    b' = { b.setEntry p ikey keylenx lv with extrasize64 := x, ksuf := k, iksuf := i }

theorem Assigned.permutation {b b' : LeafBody} {p : Nat} (h : Assigned b b' p) :
    b'.permutation = b.permutation := by
  obtain ⟨x, k, i, ikey, keylenx, lv, rfl⟩ := h.same
  rfl

theorem bodyValid_setEntry {b : LeafBody} (valid : BodyValid b) (p ikey keylenx : Nat)
    (lv : Leafvalue) : BodyValid (b.setEntry p ikey keylenx lv) :=
  ⟨valid.permutation, valid.iksuf, valid.ksuf⟩

theorem assign_spec {b b' : LeafBody} {p : Nat} {k : Key} {initializing : Bool}
    (valid : BodyValid b) (h : b.assign p k initializing = some b') :
    Assigned b b' p ∧ (initializing = false → ∀ q ∈ b.permutation.live, q ≠ p →
      b.hasKsuf q = true → b'.getKsuf q = b.getKsuf q) := by
  simp only [LeafBody.assign] at h
  split at h
  · obtain ⟨valid', ⟨x, k, i, rfl⟩, frame⟩ := assignKsuf_spec (bodyValid_setEntry valid ..) h
    refine ⟨⟨valid', ⟨_, _, _, _, _, _, rfl⟩⟩, ?_⟩
    intro live q member other suffix
    refine frame live q member other ?_
    simpa [LeafBody.hasKsuf, LeafBody.setEntry, other] using suffix
  · cases h
    exact ⟨⟨bodyValid_setEntry valid .., ⟨_, _, _, _, _, _, rfl⟩⟩, fun _ _ _ _ _ => rfl⟩

theorem assignFrom_spec {b b' x : LeafBody} {p xp : Nat} (valid : BodyValid b)
    (h : b.assignFrom p x xp = some b') : Assigned b b' p := by
  simp only [LeafBody.assignFrom] at h
  split at h
  · obtain ⟨valid', ⟨x, k, i, rfl⟩, -⟩ := assignKsuf_spec (bodyValid_setEntry valid ..) h
    exact ⟨valid', ⟨_, _, _, _, _, _, rfl⟩⟩
  · cases h
    exact ⟨bodyValid_setEntry valid .., ⟨_, _, _, _, _, _, rfl⟩⟩

theorem copyEntry_valid {b b' : LeafBody} {p : Nat} (valid : BodyValid b) (valid' : BodyValid b') :
    BodyValid (b'.copyEntry p b) :=
  ⟨valid.permutation, valid'.iksuf, valid'.ksuf⟩

theorem bodyValid_make (ksufsize : Nat) : BodyValid (.make ksufsize) :=
  ⟨permValid_makeEmpty, bagValid_make .., fun _ h => nomatch h⟩

end Incll.Proof
