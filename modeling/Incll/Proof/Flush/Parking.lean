import Mathlib.Algebra.BigOperators.Fin
import Mathlib.Algebra.Order.BigOperators.Group.Finset
import Mathlib.Tactic.Linarith
import Incll.Model.GlobalFlush

/-! # Every other thread is parked during the flush

Semaphore tokens are anonymous, so no invariant can say which thread a token belongs to. What is
conserved is their number: each thread between its `sem_post(ack_sem)` and the return of its
`sem_wait(flush_ack_sem)` accounts for one token, which is in `ack_sem`, held by a flusher, or in
`flush_ack_sem`. -/

namespace Incll.Proof.Flush
open Incll.Lib Incll.Model.GlobalFlush

variable {n : Nat}

/-- The thread has posted its acknowledgement and waits for the release. -/
def parked : Pc → Nat
  | .waitRelease => 1
  | _ => 0

/-- Acknowledgements taken by a flusher and not yet turned into releases. -/
def held (n : Nat) : Pc → Nat
  | .waitAck i => i
  | .globalFlush | .clearWaiting => n - 1
  | .postRelease i => n - 1 - i
  | _ => 0

/-- The loop counters of `flush` stay within the number of other threads. -/
def Bounded (n : Nat) : Pc → Prop
  | .waitAck i | .postRelease i => i ≤ n - 1
  | _ => True

structure Balanced (s : State n) : Prop where
  bounded : ∀ t, Bounded n (s.pc t)
  tokens : ∑ t, parked (s.pc t) = s.ackSem + s.flushAckSem + ∑ t, held n (s.pc t)

theorem sum_update (f : Pc → Nat) (pcs : Fin n → Pc) (t : Fin n) (pc : Pc) :
    ∑ u, f (Function.update pcs t pc u) + f (pcs t) = ∑ u, f (pcs u) + f pc := by
  rw [← Finset.add_sum_erase _ _ (Finset.mem_univ t),
    ← Finset.add_sum_erase Finset.univ (fun u => f (pcs u)) (Finset.mem_univ t),
    Function.update_self]
  have rest : ∀ u ∈ Finset.univ.erase t, f (Function.update pcs t pc u) = f (pcs u) := by
    intro u hu
    rw [Function.update_of_ne (Finset.ne_of_mem_erase hu)]
  rw [Finset.sum_congr rfl rest]
  omega

/-- What a step of thread `t` does to the tokens. -/
theorem step_tokens {s s' : State n} {t : Fin n} {call : Call} (bounded : Bounded n (s.pc t))
    (h : stepThread s t call (s.pc t) = some s') :
    ∃ pc, s'.pc = Function.update s.pc t pc ∧ Bounded n pc ∧
      parked pc + s.ackSem + s.flushAckSem + held n (s.pc t) =
        parked (s.pc t) + s'.ackSem + s'.flushAckSem + held n pc := by
  cases hpc : s.pc t <;> rw [hpc] at h bounded <;> simp only [stepThread] at h
  case idle =>
    cases h
    cases call <;> exact ⟨_, rfl, by simp [begin, Bounded, parked, held]⟩
  all_goals repeat' (split at h)
  all_goals cases h
  all_goals refine ⟨_, rfl, ?_⟩
  all_goals simp only [Bounded, parked, held, goto_ackSem, goto_flushAckSem] at *
  all_goals constructor
  all_goals first | trivial | omega

theorem balanced_step {s s' : State n} {t : Fin n} {call : Call} (inv : Balanced s)
    (h : stepThread s t call (s.pc t) = some s') : Balanced s' := by
  obtain ⟨pc, hpc, bounded, moved⟩ := step_tokens (inv.bounded t) h
  constructor
  · intro u
    rw [hpc, Function.update_apply]
    split_ifs
    · exact bounded
    · exact inv.bounded u
  · have hp := sum_update parked s.pc t pc
    have hh := sum_update (held n) s.pc t pc
    have := inv.tokens
    rw [hpc]
    omega

theorem balanced_of_reachable {allowed : State n → Label n → Prop} {s : State n}
    (reachable : (machine n).Reachable allowed s) : Balanced s :=
  reachable.invariant
    (by rintro _ ⟨e, rfl⟩; exact ⟨by simp [init, Bounded], by simp [init, parked, held]⟩)
    fun _ _ _ inv _ h => balanced_step inv h

theorem parked_le_one (pc : Pc) : parked pc ≤ 1 := by cases pc <;> simp [parked]

theorem parked_eq_one {pc : Pc} (h : parked pc = 1) : pc = .waitRelease := by
  cases pc <;> simp [parked] at h ⊢

/-- While a flusher holds the acknowledgements of all other threads, they are all parked. -/
theorem others_parked {s : State n} (balanced : Balanced s) {t : Fin n}
    (holds : held n (s.pc t) = n - 1) (flusher : parked (s.pc t) = 0) (u : Fin n) (other : u ≠ t) :
    s.pc u = .waitRelease := by
  have tokens := balanced.tokens
  -- The flusher alone holds `n - 1` tokens, so at least `n - 1` threads are parked.
  have heldLe : n - 1 ≤ ∑ v, held n (s.pc v) := by
    have := Finset.single_le_sum (f := fun v => held n (s.pc v)) (fun _ _ => Nat.zero_le _)
      (Finset.mem_univ t)
    simpa [holds] using this
  by_contra notParked
  have zero : parked (s.pc u) = 0 := by
    have := parked_le_one (s.pc u)
    have : parked (s.pc u) ≠ 1 := fun h => notParked (parked_eq_one h)
    omega
  -- Neither the flusher nor `u` is parked, which leaves at most `n - 2`.
  have split₁ := Finset.add_sum_erase Finset.univ (fun v => parked (s.pc v)) (Finset.mem_univ t)
  have split₂ := Finset.add_sum_erase (Finset.univ.erase t) (fun v => parked (s.pc v))
    (Finset.mem_erase.mpr ⟨other, Finset.mem_univ u⟩)
  have few : ∑ v ∈ (Finset.univ.erase t).erase u, parked (s.pc v) ≤ n - 2 := by
    calc ∑ v ∈ (Finset.univ.erase t).erase u, parked (s.pc v)
        ≤ ((Finset.univ.erase t).erase u).card • 1 :=
          Finset.sum_le_card_nsmul _ _ _ fun v _ => parked_le_one _
      _ = n - 2 := by
          simp [Finset.card_erase_of_mem, Finset.mem_erase, other, Nat.sub_sub]
  have two : 2 ≤ n := by
    have := t.isLt
    have := u.isLt
    have : u.val ≠ t.val := fun h => other (Fin.ext h)
    omega
  beta_reduce at split₁ split₂
  omega

/-- Whenever a thread executes `global_flush()`, each other thread is between its
`sem_post(ack_sem)` and the return of its `sem_wait(flush_ack_sem)`. -/
theorem workers_parked {s : State n} (reachable : (machine n).Reachable Machine.anyStep s)
    {t : Fin n} (flushing : s.pc t = .globalFlush) (u : Fin n) (other : u ≠ t) :
    s.pc u = .waitRelease := by
  have balanced := balanced_of_reachable reachable
  exact others_parked balanced (by rw [flushing]; rfl) (by rw [flushing]; rfl) u other

/-- Three threads: thread 0 flushes while threads 1 and 2 are parked. -/
theorem workers_parked_three :
    ∃ s : State 3, (machine 3).Reachable Machine.anyStep s ∧ s.pc 0 = .globalFlush ∧
      s.pc 1 = .waitRelease ∧ s.pc 2 = .waitRelease := by
  have start : (machine 3).Reachable Machine.anyStep (init 3 1) := reachable_init 1
  obtain ⟨s, reachable, h⟩ := start.exists_run
    (burst 0 (.setGlobalEpoch 2) 9 ++ burst 1 .ackFlush 5 ++ burst 2 .ackFlush 5 ++
      burst 0 .ackFlush 3)
    (fun s => s.pc 0 == .globalFlush) (by decide)
  have flushing : s.pc 0 = .globalFlush := by simpa using h
  exact ⟨s, reachable, flushing, workers_parked reachable flushing 1 (by decide),
    workers_parked reachable flushing 2 (by decide)⟩

end Incll.Proof.Flush
