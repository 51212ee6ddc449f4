import Incll.Proof.Leaf.Suffix

/-! # The two leaves of a split -/

namespace Incll.Proof
open Incll.Model

theorem moveMid_bounds {b : LeafBody} {k : Key} {p midIkey fuel midr mid : Nat} {midl : Int}
    (low : midl < b.size) (high : 1 ≤ midr)
    (h : b.moveMid k p midIkey fuel midl midr = some mid) : 1 ≤ mid ∧ mid ≤ b.size := by
  induction fuel generalizing midl midr with
  | zero => cases h
  | succ fuel ih =>
      simp only [LeafBody.moveMid] at h
      split at h
      · next right =>
          cases h
          exact ⟨high, right.1⟩
      · split at h
        · next left =>
            cases h
            omega
        · exact ih (by omega) (by omega) h

/-- A leaf is split when it is full, or when its last free slot is slot 0. -/
theorem splitMid_bounds {b : LeafBody} {k : Key} {p mid : Nat} (full : leafWidth ≤ b.size + 1)
    (h : b.splitMid k p = some mid) : 1 ≤ mid ∧ mid ≤ b.size := by
  simp only [leafWidth] at full
  have start : 1 ≤ (if p = 0 ∧ b.prev = 0 then 1
      else if p = b.size ∧ b.next = 0 then b.size else leafWidth / 2 + 1) ∧
      (if p = 0 ∧ b.prev = 0 then 1
      else if p = b.size ∧ b.next = 0 then b.size else leafWidth / 2 + 1) ≤ b.size := by
    simp only [leafWidth]
    split
    · omega
    · split <;> omega
  simp only [LeafBody.splitMid] at h
  generalize (if p = 0 ∧ b.prev = 0 then 1
    else if p = b.size ∧ b.next = 0 then b.size else leafWidth / 2 + 1) = m at h start
  split at h
  · exact moveMid_bounds (by omega) (by omega) h
  · cases h
    exact start

theorem fillRight_valid {b nr nr' : LeafBody} {k : Key} {p mid n x : Nat} {slots : List Nat}
    (valid : BodyValid nr) (h : b.fillRight k p mid n x slots nr = some nr') : BodyValid nr' := by
  induction n generalizing nr x slots with
  | zero =>
      cases h
      exact valid
  | succ n ih =>
      simp only [LeafBody.fillRight, bind] at h
      split at h
      · obtain ⟨nr₁, assign, rest⟩ := Option.bind_eq_some_iff.mp h
        exact ih (assign_spec valid assign).1.valid rest
      · obtain ⟨nr₁, assign, rest⟩ := Option.bind_eq_some_iff.mp h
        exact ih (assignFrom_spec valid assign).valid rest

/-- The sizes of the two leaves, and the place of the new key in the one that gets it. -/
theorem splitInto_spec {b nr right : LeafBody} {k : Key} {p key splitType : Nat}
    (valid : BodyValid nr) (full : leafWidth ≤ b.size + 1) (small : b.size ≤ leafWidth)
    (place : p ≤ b.size) (h : b.splitInto nr p k = some (right, key, splitType)) :
    BodyValid right ∧ ∃ mid, 1 ≤ mid ∧ mid ≤ b.size ∧
      (splitType = 0 ∧ p < mid ∧ right.size = b.size + 1 - mid ∨
        splitType ≠ 0 ∧ mid ≤ p ∧ right.size = b.size - mid) := by
  simp only [LeafBody.splitInto, bind] at h
  obtain ⟨mid, found, h⟩ := Option.bind_eq_some_iff.mp h
  obtain ⟨nr', fill, h⟩ := Option.bind_eq_some_iff.mp h
  obtain ⟨low, high⟩ := splitMid_bounds full found
  have valid' := fillRight_valid valid fill
  have sorted : PermValid (.makeSorted (b.size + 1 - mid)) := permValid_makeSorted (by omega)
  cases h
  constructor
  · refine ⟨?_, valid'.iksuf, valid'.ksuf⟩
    simp only
    split
    · exact sorted.removeToBack (by omega)
    · exact sorted
  · refine ⟨mid, low, high, ?_⟩
    by_cases right : mid ≤ p
    · refine .inr ⟨by simp [right], right, ?_⟩
      simp only [LeafBody.size, if_pos right, Kpermuter.removeToBack, Kpermuter.makeSorted]
      omega
    · exact .inl ⟨by simp [right], by omega, by simp [LeafBody.size, right, Kpermuter.makeSorted]⟩

end Incll.Proof
