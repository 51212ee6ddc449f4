import Incll.Model.GlobalFlush

/-! # At most one thread in `flush`

`set_global_epoch` tests `influshWarning` while it holds `global_epoch_lock`, but the flag is stored
only by `flush`, after the lock is released. -/

namespace Incll.Proof.Flush
open Incll.Lib Incll.Model.GlobalFlush

variable {n : Nat}

/-- A thread tests `is_in_flush` only when no other thread has passed that test and not yet stored
`influshWarning`. -/
def TestsAlone (s : State n) (l : Label n) : Prop :=
  s.pc l.thread = .testInFlush → ∀ u, u ≠ l.thread → willFlush (s.pc u) = false

instance (s : State n) (l : Label n) : Decidable (TestsAlone s l) := by
  unfold TestsAlone; infer_instance

def engaged (pc : Pc) : Bool := inFlush pc || willFlush pc

/-- The flag is up while a thread is in `flush`, and only one thread is in it or on its way. -/
structure Exclusive (s : State n) : Prop where
  warned : ∀ t, inFlush (s.pc t) = true → s.influshWarning = true
  one : ∀ t u, engaged (s.pc t) = true → engaged (s.pc u) = true → t = u

/-- What a step of thread `t` can do to its own place and to the flag. -/
theorem step_engages {s s' : State n} {t : Fin n} {call : Call}
    (h : stepThread s t call (s.pc t) = some s') :
    ∃ pc, s'.pc = Function.update s.pc t pc ∧
      (engaged pc = true → engaged (s.pc t) = true ∨
        s.pc t = .testInFlush ∧ s.influshWarning = false) ∧
      (inFlush pc = true → inFlush (s.pc t) = true ∨ s'.influshWarning = true) ∧
      (s'.influshWarning = s.influshWarning ∨ s'.influshWarning = true ∨
        inFlush (s.pc t) = true ∧ inFlush pc = false) := by
  cases hpc : s.pc t <;> rw [hpc] at h <;> simp only [stepThread] at h
  case idle =>
    cases h
    cases call <;> exact ⟨_, rfl, by simp [begin, engaged, inFlush, willFlush]⟩
  case testInFlush =>
    cases h
    refine ⟨_, rfl, ?_⟩
    cases flag : s.influshWarning <;> simp [engaged, inFlush, willFlush, flag]
  all_goals repeat' (split at h)
  all_goals cases h
  all_goals exact ⟨_, rfl, by simp_all [engaged, inFlush, willFlush]⟩

theorem exclusive_step {s s' : State n} {t : Fin n} {call : Call} (inv : Exclusive s)
    (alone : TestsAlone s ⟨t, call⟩) (h : stepThread s t call (s.pc t) = some s') :
    Exclusive s' := by
  obtain ⟨pc, hpc, engages, warns, flag⟩ := step_engages h
  -- If the step engages `t` anew, the test has just read the flag down and found no one under way.
  have fresh : engaged pc = true → engaged (s.pc t) = true ∨
      ∀ u, u ≠ t → engaged (s.pc u) = false := by
    intro hp
    rcases engages hp with old | ⟨test, down⟩
    · exact .inl old
    · right
      intro u hu
      have notIn : inFlush (s.pc u) = false := by
        by_contra hin
        have up := inv.warned u (by simpa using hin)
        simp [down] at up
      simp [engaged, notIn, alone test u hu]
  constructor
  · intro u hu
    rw [hpc, Function.update_apply] at hu
    split_ifs at hu with hut
    · rcases warns hu with old | up
      · rcases flag with same | up | ⟨-, out⟩
        · rw [same]; exact inv.warned t old
        · exact up
        · simp [out] at hu
      · exact up
    · rcases flag with same | up | ⟨old, -⟩
      · rw [same]; exact inv.warned u hu
      · exact up
      · exact absurd (inv.one u t (by simp [engaged, hu]) (by simp [engaged, old])) hut
  · intro u v hu hv
    rw [hpc, Function.update_apply] at hu hv
    split_ifs at hu hv with hut hvt hvt
    · exact hut.trans hvt.symm
    · rcases fresh hu with ht | none
      · exact hut.trans (inv.one t v ht hv)
      · simp [none v hvt] at hv
    · rcases fresh hv with ht | none
      · exact (inv.one u t hu ht).trans hvt.symm
      · simp [none u hut] at hu
    · exact inv.one u v hu hv

theorem exclusive_init (n e : Nat) : Exclusive (init n e) :=
  ⟨by simp [init, inFlush], by simp [init, engaged, inFlush, willFlush]⟩

theorem exclusive_of_reachable {s : State n} (reachable : (machine n).Reachable TestsAlone s) :
    Exclusive s :=
  reachable.invariant (by rintro _ ⟨e, rfl⟩; exact exclusive_init n e)
    fun _ _ _ inv alone h => exclusive_step inv alone h

/-- If every test of `is_in_flush` is made while no other thread is about to store
`influshWarning`, then no two threads are inside `flush` together. -/
theorem flush_exclusive {s : State n} (reachable : (machine n).Reachable TestsAlone s)
    (t u : Fin n) (ht : inFlush (s.pc t) = true) (hu : inFlush (s.pc u) = true) : t = u :=
  (exclusive_of_reachable reachable).one t u (by simp [engaged, ht]) (by simp [engaged, hu])

/-- Thread 0 is in `flush` when thread 1 tests the flag; thread 1 goes back to work. -/
theorem flush_exclusive_two_threads :
    ∃ s : State 2, (machine 2).Reachable TestsAlone s ∧ s.pc 0 = .storeWaiting ∧ s.pc 1 = .idle ∧
      ∀ t, inFlush (s.pc t) = true → t = 0 := by
  have start : (machine 2).Reachable TestsAlone (init 2 1) := reachable_init 1
  obtain ⟨s, reachable, h⟩ := start.exists_run
    (burst 0 (.setGlobalEpoch 2) 8 ++ burst 1 (.setGlobalEpoch 3) 6)
    (fun s => s.pc 0 == .storeWaiting && s.pc 1 == .idle) (by decide)
  simp only [Bool.and_eq_true, beq_iff_eq] at h
  refine ⟨s, reachable, h.1, h.2, fun t ht => ?_⟩
  exact flush_exclusive reachable t 0 ht (by rw [h.1]; rfl)

/-- Two threads raise the epoch one after the other; both find the flag down and both flush. -/
theorem flush_not_exclusive :
    ¬ ∀ (n : Nat) (s : State n), (machine n).Reachable Machine.anyStep s →
      ∀ t u, inFlush (s.pc t) = true → inFlush (s.pc u) = true → t = u := by
  intro claim
  have start : (machine 2).Reachable Machine.anyStep (init 2 1) := reachable_init 1
  obtain ⟨s, reachable, h⟩ := start.exists_run
    (burst 0 (.setGlobalEpoch 2) 6 ++ burst 1 (.setGlobalEpoch 3) 7 ++ burst 0 .ackFlush 1)
    (fun s => inFlush (s.pc 0) && inFlush (s.pc 1)) (by decide)
  simp only [Bool.and_eq_true] at h
  exact absurd (claim 2 s reachable 0 1 h.1 h.2) (by decide)

end Incll.Proof.Flush
