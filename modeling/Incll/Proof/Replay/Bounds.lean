import Incll.Proof.Replay.Cut

/-! # The bounds that `recover` computes -/

namespace Incll.Proof.Replay
open Incll.Model Incll.Model.Logger Incll.Proof.Loginfo

/-! `info` of the records of a log. -/

section
variable {rs ks : List Record} {x : InfoType}

theorem note_last (x : InfoType) (r : Record) :
    (noteRecord x r).lastEpoch = r.epochAfter x.lastEpoch := by
  cases r <;> rfl

theorem info_last (x : InfoType) (rs : List Record) :
    (rs.foldl noteRecord x).lastEpoch = lastEpoch x.lastEpoch rs := by
  induction rs generalizing x with
  | nil => rfl
  | cons r rs ih =>
      rw [List.foldl_cons, ih, note_last]
      rfl

theorem info_quiescent (x : InfoType) (rs : List Record) (r : Record) :
    ((rs ++ [r]).foldl noteRecord x).quiescent = decide (r = .quiesce) := by
  rw [List.foldl_append]
  cases r <;> rfl

theorem info_first_kept (rs : List Record) (some : x.firstEpoch ≠ 0) :
    (rs.foldl noteRecord x).firstEpoch = x.firstEpoch := by
  induction rs generalizing x with
  | nil => rfl
  | cons r rs ih =>
      have same : (noteRecord x r).firstEpoch = x.firstEpoch := by
        cases r <;> first | rfl | exact if_neg some
      rw [List.foldl_cons, ih (by rw [same]; exact some), same]

/-- The wake epoch is at least that of every wake record. -/
theorem info_wake (low : x.wakeEpoch ≤ x.lastEpoch)
    (sorted : (x.lastEpoch :: rs.filterMap Record.epoch?).Pairwise (· ≤ ·)) :
    x.wakeEpoch ≤ (rs.foldl noteRecord x).wakeEpoch ∧
      ∀ w, (w, .wake) ∈ tagged x.lastEpoch rs → w ≤ (rs.foldl noteRecord x).wakeEpoch := by
  induction rs generalizing x with
  | nil => exact ⟨le_rfl, by intros; contradiction⟩
  | cons r rs ih =>
      obtain ⟨above, rest⟩ := List.pairwise_cons.mp sorted
      have here : x.wakeEpoch ≤ (noteRecord x r).wakeEpoch ∧
          (noteRecord x r).wakeEpoch ≤ (noteRecord x r).lastEpoch ∧
          ((noteRecord x r).lastEpoch :: rs.filterMap Record.epoch?).Pairwise (· ≤ ·) ∧
          (r = .wake → (noteRecord x r).wakeEpoch = x.lastEpoch) := by
        cases r with
        | kv => exact ⟨le_rfl, low, sorted, by intros; contradiction⟩
        | kvdelta => exact ⟨le_rfl, low, sorted, by intros; contradiction⟩
        | epoch e =>
            have up : x.lastEpoch ≤ e := above e (by simp [Record.epoch?])
            have keep : (noteRecord x (.epoch e)).wakeEpoch = x.wakeEpoch := if_neg fun lower => by
              have down : e < x.wakeEpoch := lower.2
              omega
            exact ⟨keep.ge, keep.trans_le (low.trans up), rest, by intros; contradiction⟩
        | wake => exact ⟨low, le_rfl, sorted, fun _ => rfl⟩
        | quiesce => exact ⟨le_rfl, low, sorted, by intros; contradiction⟩
      obtain ⟨grows, low', sorted', wakes⟩ := here
      obtain ⟨more, all⟩ := ih low' sorted'
      rw [List.foldl_cons]
      refine ⟨grows.trans more, fun w member => ?_⟩
      rcases List.mem_cons.mp member with same | member
      · cases same
        rw [← wakes rfl] at *
        exact more
      · rw [note_last] at all
        exact all w member

theorem wakeOf_cons {q e : Nat} {r : Record} (other : r ≠ .wake) :
    wakeOf q e (r :: rs) = wakeOf q (r.epochAfter e) rs := by
  cases r <;> first | rfl | exact absurd rfl other

/-- The wake epoch that a quiescent log has missed is that of a wake record. -/
theorem wakeOf_mem {q e : Nat} (some : wakeOf q e rs ≠ 0) :
    (wakeOf q e rs, .wake) ∈ tagged e rs ∧ q ≤ wakeOf q e rs := by
  induction rs generalizing e with
  | nil => exact absurd rfl some
  | cons r rs ih =>
      by_cases wake : r = .wake
      · subst wake
        rw [wakeOf] at some ⊢
        split
        · next found => exact ⟨List.mem_cons_self, found.2⟩
        · next other =>
            rw [if_neg other] at some
            obtain ⟨member, late⟩ := ih some
            exact ⟨List.mem_cons_of_mem _ member, late⟩
      · rw [wakeOf_cons wake] at some ⊢
        obtain ⟨member, late⟩ := ih some
        exact ⟨List.mem_cons_of_mem _ member, late⟩

/-- It is the first one. -/
theorem wakeOf_le {q e w : Nat} (sorted : (e :: rs.filterMap Record.epoch?).Pairwise (· ≤ ·))
    (member : (w, .wake) ∈ tagged e rs) (pos : 0 < w) (late : q ≤ w) :
    wakeOf q e rs ≠ 0 ∧ wakeOf q e rs ≤ w := by
  induction rs generalizing e with
  | nil => cases member
  | cons r rs ih =>
      obtain ⟨above, rest⟩ := List.pairwise_cons.mp sorted
      by_cases wake : r = .wake
      · subst wake
        have low := (tagged_sorted sorted).2 _ member
        rw [wakeOf]
        split
        · next found => exact ⟨found.1, low⟩
        · next early =>
            rcases List.mem_cons.mp member with same | member
            · cases same
              exact absurd ⟨pos.ne', late⟩ early
            · exact ih sorted member
      · rw [wakeOf_cons wake]
        rcases List.mem_cons.mp member with same | member
        · cases same
          exact absurd rfl wake
        · refine ih ?_ member
          rw [Record.epochAfter]
          cases epoch : r.epoch? with
          | none =>
              rw [List.filterMap_cons_none epoch] at sorted
              exact sorted
          | some e' =>
              rw [List.filterMap_cons_some epoch] at rest
              exact rest

end

/-! The folds of `recover`. -/

theorem largest_ge (start : Nat) (xs : List Nat) :
    start ≤ Recover.largest start xs ∧ ∀ x ∈ xs, x ≤ Recover.largest start xs := by
  induction xs generalizing start with
  | nil => exact ⟨le_rfl, nofun⟩
  | cons x xs ih =>
      obtain ⟨first, rest⟩ := ih (if x ≠ 0 ∧ (start = 0 ∨ start < x) then x else start)
      have step : start ≤ (if x ≠ 0 ∧ (start = 0 ∨ start < x) then x else start) ∧
          x ≤ if x ≠ 0 ∧ (start = 0 ∨ start < x) then x else start := by
        split <;> omega
      refine ⟨step.1.trans first, fun y member => ?_⟩
      rcases List.mem_cons.mp member with rfl | member
      · exact step.2.trans first
      · exact rest y member

theorem largest_le {start bound : Nat} {xs : List Nat} (low : start ≤ bound)
    (all : ∀ x ∈ xs, x ≤ bound) : Recover.largest start xs ≤ bound := by
  induction xs generalizing start with
  | nil => exact low
  | cons x xs ih =>
      refine ih ?_ fun y member => all y (by simp [member])
      have here := all x (by simp)
      show (if x ≠ 0 ∧ (start = 0 ∨ start < x) then x else start) ≤ bound
      split <;> omega

theorem lower_le (m : Nat) (x : InfoType) : Recover.lower m x ≤ m ∧
    (x.quiescent = false → x.lastEpoch ≠ 0 → Recover.lower m x ≤ x.lastEpoch) ∧
    (x.minPostQuiescentWakeEpoch ≠ 0 → Recover.lower m x ≤ x.minPostQuiescentWakeEpoch) := by
  simp only [Recover.lower]
  refine ⟨?_, ?_, ?_⟩
  · split_ifs <;> omega
  · intro active some
    split_ifs <;> simp_all <;> omega
  · intro some
    split_ifs <;> simp_all

theorem lowers_le (m : Nat) (xs : List InfoType) : xs.foldl Recover.lower m ≤ m ∧
    ∀ x ∈ xs, (x.quiescent = false → x.lastEpoch ≠ 0 → xs.foldl Recover.lower m ≤ x.lastEpoch) ∧
      (x.minPostQuiescentWakeEpoch ≠ 0 →
        xs.foldl Recover.lower m ≤ x.minPostQuiescentWakeEpoch) := by
  induction xs generalizing m with
  | nil => exact ⟨le_rfl, nofun⟩
  | cons x xs ih =>
      obtain ⟨here, active, wake⟩ := lower_le m x
      obtain ⟨first, rest⟩ := ih (Recover.lower m x)
      rw [List.foldl_cons]
      refine ⟨first.trans here, fun y member => ?_⟩
      rcases List.mem_cons.mp member with rfl | member
      · exact ⟨fun running some => first.trans (active running some),
          fun some => first.trans (wake some)⟩
      · exact rest y member

theorem le_lowers {bound m : Nat} {xs : List InfoType} (start : bound ≤ m)
    (all : ∀ x ∈ xs, (x.quiescent = false → x.lastEpoch ≠ 0 → bound ≤ x.lastEpoch) ∧
      (x.minPostQuiescentWakeEpoch ≠ 0 → bound ≤ x.minPostQuiescentWakeEpoch)) :
    bound ≤ xs.foldl Recover.lower m := by
  induction xs generalizing m with
  | nil => exact start
  | cons x xs ih =>
      obtain ⟨active, wake⟩ := all x (by simp)
      refine ih ?_ fun y member => all y (by simp [member])
      simp only [Recover.lower]
      split_ifs <;> simp_all

/-- The smallest last epoch of a quiescent log, if 0 is none of them. -/
theorem minQuiescent_bound {xs : List InfoType} (m : Nat)
    (some : ∀ x ∈ xs, x.quiescent → x.lastEpoch ≠ 0) :
    let least := fun m (x : InfoType) =>
      if x.quiescent ∧ (m = 0 ∨ x.lastEpoch < m) then x.lastEpoch else m
    (m ≠ 0 → xs.foldl least m ≠ 0 ∧ xs.foldl least m ≤ m) ∧
      ∀ x ∈ xs, x.quiescent → xs.foldl least m ≠ 0 ∧ xs.foldl least m ≤ x.lastEpoch := by
  intro least
  induction xs generalizing m with
  | nil => exact ⟨fun ne => ⟨ne, le_rfl⟩, nofun⟩
  | cons x xs ih =>
      obtain ⟨kept, later⟩ := ih (least m x) fun y member => some y (by simp [member])
      have here := some x (by simp)
      have step : (m ≠ 0 → least m x ≠ 0 ∧ least m x ≤ m) ∧
          (x.quiescent → least m x ≠ 0 ∧ least m x ≤ x.lastEpoch) := by
        simp only [least]
        split_ifs with lower
        · exact ⟨fun ne => ⟨here lower.1, by omega⟩, fun _ => ⟨here lower.1, le_rfl⟩⟩
        · refine ⟨fun ne => ⟨ne, le_rfl⟩, fun idle => ?_⟩
          have high : ¬ (m = 0 ∨ x.lastEpoch < m) := fun low => lower ⟨idle, low⟩
          omega
      rw [List.foldl_cons]
      refine ⟨fun ne => ?_, fun y member idle => ?_⟩
      · obtain ⟨nonzero, le⟩ := kept (step.1 ne).1
        exact ⟨nonzero, le.trans (step.1 ne).2⟩
      · rcases List.mem_cons.mp member with rfl | member
        · obtain ⟨nonzero, le⟩ := kept (step.2 idle).1
          exact ⟨nonzero, le.trans (step.2 idle).2⟩
        · exact later y member idle

/-- The infos of a log before and after: the log has been cut, or it is as quiescent as before. -/
def Follows (x y : InfoType) : Prop :=
  (y.quiescent = x.quiescent ∧ y.lastEpoch = x.lastEpoch) ∨
    (y.quiescent = false ∧ x.lastEpoch ≠ 0)

/-- A quiescent log that is seen again was seen before, also where 0 stands for none. -/
theorem minQuiescent_le {xs ys : List InfoType} {m m' : Nat} (follows : List.Forall₂ Follows xs ys)
    (start : m' = 0 ∨ (m ≠ 0 ∧ m ≤ m')) :
    let least := fun m (x : InfoType) =>
      if x.quiescent ∧ (m = 0 ∨ x.lastEpoch < m) then x.lastEpoch else m
    ys.foldl least m' = 0 ∨ (xs.foldl least m ≠ 0 ∧ xs.foldl least m ≤ ys.foldl least m') := by
  intro least
  induction follows generalizing m m' with
  | nil => exact start
  | @cons x y xs ys here rest ih =>
      refine ih ?_
      simp only [least]
      rcases here with ⟨quiescent, last⟩ | ⟨active, some⟩
      · rw [quiescent, last]
        by_cases idle : x.quiescent
        · simp only [idle, true_and]
          split_ifs <;> omega
        · simpa [idle] using start
      · rw [active]
        simp only [Bool.false_eq_true, false_and, if_false]
        split_ifs <;> omega

end Incll.Proof.Replay
