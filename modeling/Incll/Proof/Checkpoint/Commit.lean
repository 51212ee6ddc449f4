import Incll.Model.Checkpoint
import Incll.Proof.Replay.Bounds
import Mathlib.Data.Fin.VecNotation

/-! # The commit rule of checkpoints

A log that was never flushed counts as 0, and 0 also stands for a minimum that is not known yet. The
loop forgets all logs before the last such log, and that log too. -/

namespace Incll.Proof.Checkpoint
open Incll.Model Incll.Model.Checkpointer

variable {ge M : Nat} {logs : List Model.Loginfo}

/-- Each log is quiescent or flushed beyond the checkpoint. -/
def Flushed (M : Nat) (logs : List Model.Loginfo) : Prop :=
  ∀ l ∈ logs, l.quiescent = true ∨ M < l.flushedEpoch

/-- Each active log was flushed before, or a log that is behind `M` comes after the last one that
counts as never flushed. -/
def Counted (ge M : Nat) (logs : List Model.Loginfo) : Prop :=
  (∀ l ∈ logs, l.quiescent = false → l.flushedEpoch ≠ 0) ∨
    ∃ before l behind, logs = before ++ l :: behind ∧ flushed ge l ≤ M ∧
      ∀ x ∈ l :: behind, flushed ge x ≠ 0

theorem leastFlushed_cons (mfe : Nat) (l : Model.Loginfo) (logs : List Model.Loginfo) :
    leastFlushed ge mfe (l :: logs) =
      leastFlushed ge (if mfe = 0 ∨ flushed ge l < mfe then flushed ge l else mfe) logs := rfl

/-- Without zeroes the loop finds the minimum. -/
theorem leastFlushed_le (mfe : Nat) (known : ∀ l ∈ logs, flushed ge l ≠ 0) :
    (mfe ≠ 0 → leastFlushed ge mfe logs ≤ mfe) ∧ ∀ l ∈ logs, leastFlushed ge mfe logs ≤ flushed ge l := by
  induction logs generalizing mfe with
  | nil => exact ⟨fun _ => le_rfl, nofun⟩
  | cons l logs ih =>
      have here := known l (by simp)
      obtain ⟨start, rest⟩ := ih (if mfe = 0 ∨ flushed ge l < mfe then flushed ge l else mfe)
        fun x member => known x (by simp [member])
      have next : leastFlushed ge mfe (l :: logs) ≤
          if mfe = 0 ∨ flushed ge l < mfe then flushed ge l else mfe := by
        rw [leastFlushed_cons]
        refine start ?_
        split <;> omega
      refine ⟨fun some => next.trans ?_, fun x member => ?_⟩
      · split <;> omega
      · rcases List.mem_cons.mp member with rfl | member
        · refine next.trans ?_
          split <;> omega
        · exact rest x member

variable (ge logs) in
theorem leastFlushed_cases (mfe : Nat) :
    leastFlushed ge mfe logs = mfe ∨ ∃ l ∈ logs, leastFlushed ge mfe logs = flushed ge l := by
  induction logs generalizing mfe with
  | nil => exact .inl rfl
  | cons l logs ih =>
      rw [leastFlushed_cons]
      rcases ih (if mfe = 0 ∨ flushed ge l < mfe then flushed ge l else mfe) with same | ⟨x, member, same⟩
      · rw [same]
        split
        · exact .inr ⟨l, by simp, rfl⟩
        · exact .inl rfl
      · exact .inr ⟨x, by simp [member], same⟩

/-- A log that counts as never flushed hides all before it. -/
theorem leastFlushed_zero (mfe : Nat) {before behind : List Model.Loginfo} {l : Model.Loginfo}
    (zero : flushed ge l = 0) :
    leastFlushed ge mfe (before ++ l :: behind) = leastFlushed ge 0 behind := by
  rw [leastFlushed, List.foldl_append, List.foldl_cons, zero]
  have reset (m : Nat) : (if m = 0 ∨ 0 < m then 0 else m) = 0 := by
    split <;> omega
  rw [reset]
  rfl

theorem exists_last_zero (some : ∃ l ∈ logs, flushed ge l = 0) : ∃ before l behind,
    logs = before ++ l :: behind ∧ flushed ge l = 0 ∧ ∀ x ∈ behind, flushed ge x ≠ 0 := by
  induction logs with
  | nil => simp at some
  | cons x logs ih =>
      by_cases later : ∃ l ∈ logs, flushed ge l = 0
      · obtain ⟨before, l, behind, rfl, rest⟩ := ih later
        exact ⟨x :: before, l, behind, rfl, rest⟩
      · obtain ⟨l, member, zero⟩ := some
        rcases List.mem_cons.mp member with rfl | member
        · exact ⟨[], l, logs, rfl, zero, fun y inner same => later ⟨y, inner, same⟩⟩
        · exact absurd ⟨l, member, zero⟩ later

theorem commits_eq : commits ge M logs = true ↔
    leastFlushed ge 0 logs = 0 ∨ M < leastFlushed ge 0 logs := by
  unfold commits maxFlushedEpoch
  rw [Bool.or_eq_true, beq_iff_eq, decide_eq_true_iff]

theorem commits_iff (known : ∀ l ∈ logs, flushed ge l ≠ 0) :
    commits ge M logs = true ↔ ∀ l ∈ logs, M < flushed ge l := by
  have least := (leastFlushed_le 0 known).2
  rw [commits_eq]
  constructor
  · rintro (zero | later) l member
    · rcases leastFlushed_cases ge logs 0 with - | ⟨x, inner, same⟩
      · cases logs with
        | nil => cases member
        | cons y logs =>
            rcases leastFlushed_cases ge logs (flushed ge y) with same | ⟨x, inner, same⟩
            · exact absurd (same.symm.trans zero) (known y (by simp))
            · exact absurd (same.symm.trans zero) (known x (by simp [inner]))
      · exact absurd (same.symm.trans zero) (known x inner)
    · exact later.trans_le (least l member)
  · intro all
    rcases leastFlushed_cases ge logs 0 with same | ⟨x, inner, same⟩
    · exact .inl same
    · exact .inr (same ▸ all x inner)

theorem flushed_iff (logs : List Model.Loginfo) (valid : 0 < ge) :
    (commits ge M logs = true → Flushed M logs) ↔ Counted ge M logs := by
  have active {l : Model.Loginfo} (zero : flushed ge l = 0) :
      l.quiescent = false ∧ l.flushedEpoch = 0 := by
    simp only [flushed] at zero
    split at zero
    · omega
    · exact ⟨Bool.eq_false_of_not_eq_true ‹_›, zero⟩
  by_cases some : ∃ l ∈ logs, flushed ge l = 0
  · obtain ⟨before, z, behind, rfl, zero, known⟩ := exists_last_zero some
    have unflushed : ¬ Flushed M (before ++ z :: behind) := fun all => by
      rcases all z (by simp) with quiet | later
      · rw [(active zero).1] at quiet
        cases quiet
      · rw [(active zero).2] at later
        exact absurd later (Nat.not_lt_zero _)
    have forgotten : commits ge M (before ++ z :: behind) = true ↔ commits ge M behind = true := by
      rw [commits_eq, commits_eq, leastFlushed_zero 0 zero]
    rw [forgotten, commits_iff known]
    constructor
    · intro rule
      have late : ∃ l ∈ behind, ¬ M < flushed ge l := by
        by_contra none
        refine unflushed (rule fun l member => ?_)
        by_contra late
        exact none ⟨l, member, late⟩
      obtain ⟨l, member, late⟩ := late
      obtain ⟨first, rest, rfl⟩ := List.append_of_mem member
      refine .inr ⟨before ++ z :: first, l, rest, by simp, Nat.le_of_not_lt late, fun x inner => ?_⟩
      exact known x (List.mem_append_right _ inner)
    · rintro (each | ⟨first, l, rest, same, late, last⟩) all
      · exact absurd (active zero).2 (each z (by simp) (active zero).1)
      · have member : l ∈ behind := by
          rcases List.append_eq_append_iff.mp same with ⟨mid, rfl, cut⟩ | ⟨mid, rfl, cut⟩
          · cases mid with
            | nil =>
                obtain ⟨rfl, rfl⟩ := List.cons.inj cut
                exact absurd zero (last z (by simp))
            | cons y mid =>
                obtain ⟨-, rfl⟩ := List.cons.inj cut
                simp
          · cases mid with
            | nil =>
                obtain ⟨rfl, rfl⟩ := List.cons.inj cut
                exact absurd zero (last _ (by simp))
            | cons y mid =>
                obtain ⟨rfl, rfl⟩ := List.cons.inj cut
                exact absurd zero (last z (by simp))
        exact absurd (all l member) (Nat.not_lt.mpr late)
  · have known : ∀ l ∈ logs, flushed ge l ≠ 0 := fun l member zero => some ⟨l, member, zero⟩
    rw [commits_iff known]
    refine iff_of_true (fun all l member => ?_) (.inl fun l member loud zero => ?_)
    · have later := all l member
      simp only [flushed] at later
      split at later
      · exact .inl ‹_›
      · exact .inr later
    · exact known l member (by simp [flushed, loud, zero])

/-! Recovery. -/

/-- What a crash after the commit leaves: a quiescent log ends with its notification, and another one
goes at least up to its flushed epoch. No quiescent log has missed a wake record up to `M`. -/
structure Reflects {n : Nat} (logs : Fin n → Model.Loginfo) (M : Nat) (f : Recover.Found n) : Prop where
  checkpoint : f.ckpMaxEpoch = M
  quiet : ∀ i, (logs i).quiescent = true → (Recover.info f i).quiescent = true
  active : ∀ i, (logs i).quiescent = false → (logs i).flushedEpoch ≤ (Recover.info f i).lastEpoch
  woken : ∀ i, (Recover.analyzed f i).minPostQuiescentWakeEpoch ≠ 0 →
    M < (Recover.analyzed f i).minPostQuiescentWakeEpoch

theorem replay_beyond {n : Nat} {logs : Fin n → Model.Loginfo} {f : Recover.Found n} (valid : 0 < M)
    (all : Flushed M (List.ofFn logs)) (reflects : Reflects logs M f) :
    M < Recover.replayMaxEpoch f := by
  have kept (i : Fin n) : (Recover.analyzed f i).quiescent = (Recover.info f i).quiescent ∧
      (Recover.analyzed f i).lastEpoch = (Recover.info f i).lastEpoch := by
    simp only [Recover.analyzed]
    split <;> exact ⟨rfl, rfl⟩
  refine Replay.le_lowers ?_ fun x member => ?_
  · have start := (Replay.largest_ge (if f.ckpMaxEpoch ≠ 0 then f.ckpMaxEpoch + 1 else 0)
      ((Recover.infos f).map (·.lastEpoch))).1
    rw [reflects.checkpoint, if_pos valid.ne'] at start
    rw [Recover.maxEpoch, reflects.checkpoint, if_pos valid.ne']
    exact start
  · obtain ⟨i, rfl⟩ := List.mem_ofFn.mp member
    refine ⟨fun loud _ => ?_, reflects.woken i⟩
    have loud' : (logs i).quiescent = false := by
      rw [(kept i).1] at loud
      by_contra quiet
      rw [reflects.quiet i (Bool.eq_true_of_not_eq_false quiet)] at loud
      cases loud
    rw [(kept i).2]
    rcases all (logs i) (List.mem_ofFn.mpr ⟨i, rfl⟩) with quiet | later
    · rw [loud'] at quiet
      cases quiet
    · exact later.trans_le (reflects.active i loud')

/-- A committed checkpoint is covered by the logs, and after a crash `recover` finds it so. -/
def CommitRule {n : Nat} (ge M : Nat) (logs : Fin n → Model.Loginfo) : Prop :=
  commits ge M (List.ofFn logs) = true → Flushed M (List.ofFn logs) ∧
    ∀ f : Recover.Found n, Reflects logs M f → M < Recover.replayMaxEpoch f

def flushedAt (e : Nat) : Model.Loginfo := { Loginfo.make with flushedEpoch := e }

end Incll.Proof.Checkpoint
