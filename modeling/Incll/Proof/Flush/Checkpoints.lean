import Incll.Model.ThreadLog
import Incll.Proof.Flush.Parking

/-! # A worker checkpoints its log after the flush it acknowledged

The tokens of `flush_ack_sem` carry no round. A worker that acknowledged round `k` may take a token
that a slower worker left over from round `k - 1`. -/

namespace Incll.Proof.Flush
open Incll.Lib Incll.Model.GlobalFlush

variable {n : Nat}

/-- A thread enters `flush` only while no other thread is in it: one round after the other. -/
def Consecutive (s : LogState n) : LogLabel n → Prop
  | .flush l => s.flush.pc l.thread = .storeWarning →
      ∀ u, u ≠ l.thread → inFlush (s.flush.pc u) = false
  | .record _ => True

/-- A worker acknowledges only when no token of an earlier round is left. -/
def Drained (s : LogState n) : LogLabel n → Prop
  | .flush l => s.flush.pc l.thread = .postAck → s.flush.flushAckSem = 0
  | .record _ => True

instance (s : LogState n) (l : LogLabel n) : Decidable (Consecutive s l) := by
  cases l <;> unfold Consecutive <;> infer_instance

instance (s : LogState n) (l : LogLabel n) : Decidable (Drained s l) := by
  cases l <;> unfold Drained <;> infer_instance

/-- The flusher waits for acknowledgements or is about to flush. -/
def collecting : Pc → Bool
  | .waitAck _ | .globalFlush => true
  | _ => false

/-- `waitingFlush` is set. -/
def announcing : Pc → Bool
  | .waitAck _ | .globalFlush | .clearWaiting => true
  | _ => false

def acknowledged : Pc → Bool
  | .waitRelease | .ackCheckpoint => true
  | _ => false

structure InRounds (s : LogState n) : Prop where
  balanced : Balanced s.flush
  one : ∀ t u, inFlush (s.flush.pc t) = true → inFlush (s.flush.pc u) = true → t = u
  underway : ∀ t, collecting (s.flush.pc t) = true → s.begun = s.completed + 1
  closed : (∀ t, collecting (s.flush.pc t) = false) → s.begun = s.completed
  announced : s.flush.waitingFlush = true → ∃ t, announcing (s.flush.pc t) = true
  posting : ∀ t, s.flush.pc t = .postAck → ∃ u, collecting (s.flush.pc u) = true
  waiting : ∀ t, s.flush.pc t = .waitRelease → s.acked t ≤ s.begun ∧
    (s.acked t ≤ s.completed ∨ s.flush.flushAckSem = 0)
  released : ∀ t, s.flush.pc t = .ackCheckpoint → s.acked t ≤ s.completed
  before : ∀ t, acknowledged (s.flush.pc t) = true → ∀ r ∈ (s.log t).since, r < s.acked t
  stamps : ∀ t, ∀ r ∈ (s.log t).since, r ≤ s.completed

/-- A step of thread `t` that takes it to `pc`. -/
structure Moved (s s' : LogState n) (t : Fin n) (pc : Pc) : Prop where
  place : s'.flush.pc = Function.update s.flush.pc t pc
  enters : inFlush pc = true → inFlush (s.flush.pc t) = true ∨ s.flush.pc t = .storeWarning
  counts : collecting pc = collecting (s.flush.pc t) ∧ s'.begun = s.begun ∧
      s'.completed = s.completed ∨
    s.flush.pc t = .storeWaiting ∧ collecting pc = true ∧ s'.begun = s.begun + 1 ∧
      s'.completed = s.completed ∨
    s.flush.pc t = .globalFlush ∧ collecting pc = false ∧ s'.begun = s.begun ∧
      s'.completed = s.completed + 1
  waitingFlush : s'.flush.waitingFlush = true →
    announcing pc = true ∨ s.flush.waitingFlush = true ∧ announcing (s.flush.pc t) = false
  postAck : pc = .postAck → s.flush.pc t = .loadWaiting ∧ s.flush.waitingFlush = true
  acked : s'.acked = s.acked ∧ pc ≠ .waitRelease ∨
    s.flush.pc t = .postAck ∧ s'.acked = Function.update s.acked t s.begun ∧
      s'.flush.flushAckSem = s.flush.flushAckSem
  tokens : s'.flush.flushAckSem ≤ s.flush.flushAckSem ∨ ∃ i, s.flush.pc t = .postRelease i
  released : pc = .ackCheckpoint → s.flush.pc t = .waitRelease ∧ 0 < s.flush.flushAckSem
  log : ∀ u, (s'.log u).since = (s.log u).since ∨ (s'.log u).since = []

theorem since_checkpoint (log : ThreadLog Nat) : log.checkpoint.since = [] := by
  simp [ThreadLog.checkpoint, ThreadLog.since]

theorem log_checkpoint (s : LogState n) (t u : Fin n) :
    ((s.checkpoint t).log u).since = (s.log u).since ∨ ((s.checkpoint t).log u).since = [] := by
  simp only [LogState.checkpoint]
  by_cases same : u = t
  · subst same
    rw [Function.update_self]
    exact .inr (since_checkpoint _)
  · rw [Function.update_of_ne same]
    exact .inl rfl

theorem moved_of_step {s s' : LogState n} {t : Fin n} {call : Call}
    (h : logStep s (.flush ⟨t, call⟩) = some s') : ∃ pc, Moved s s' t pc := by
  simp only [logStep, Option.map_eq_some_iff] at h
  obtain ⟨f, h, rfl⟩ := h
  cases at_t : s.flush.pc t <;> rw [at_t] at h <;> simp only [stepThread] at h
  case idle =>
    cases h
    refine ⟨begin call, rfl, ?_, ?_, ?_, ?_, ?_, ?_, ?_, fun _ => .inl rfl⟩
    all_goals cases call <;> simp [begin, inFlush, collecting, announcing, at_t, LogState.follow]
  all_goals repeat' (split at h)
  all_goals cases h
  case ackCheckpoint =>
    refine ⟨_, rfl, ?_, ?_, ?_, ?_, ?_, ?_, ?_, log_checkpoint { s with flush := _ } t⟩
    all_goals simp [inFlush, collecting, announcing, at_t, LogState.follow, LogState.checkpoint]
  case flushCheckpoint =>
    refine ⟨_, rfl, ?_, ?_, ?_, ?_, ?_, ?_, ?_, log_checkpoint { s with flush := _ } t⟩
    all_goals simp [inFlush, collecting, announcing, at_t, LogState.follow, LogState.checkpoint]
  all_goals refine ⟨_, rfl, ?_, ?_, ?_, ?_, ?_, ?_, ?_, fun _ => .inl rfl⟩
  all_goals simp_all [inFlush, collecting, announcing, LogState.follow]

/-- The flusher of the round that is being acknowledged, seen by a thread that is not parked. -/
theorem collecting_of_announcing {s : State n} (balanced : Balanced s) {t u : Fin n}
    (announces : announcing (s.pc u) = true) (other : t ≠ u) (awake : s.pc t ≠ .waitRelease) :
    collecting (s.pc u) = true := by
  cases at_u : s.pc u <;> rw [at_u] at announces <;> simp only [announcing] at announces
  case waitAck i => rfl
  case globalFlush => rfl
  case clearWaiting =>
    exact absurd (others_parked balanced (by rw [at_u]; rfl) (by rw [at_u]; rfl) t other) awake
  all_goals cases announces

theorem inFlush_of_collecting {pc : Pc} (h : collecting pc = true) : inFlush pc = true := by
  cases pc <;> first | rfl | cases h

theorem Moved.elsewhere {s s' : LogState n} {t u : Fin n} {pc : Pc} (moved : Moved s s' t pc)
    (other : u ≠ t) : s'.flush.pc u = s.flush.pc u := by
  rw [moved.place, Function.update_of_ne other]

theorem Moved.here {s s' : LogState n} {t : Fin n} {pc : Pc} (moved : Moved s s' t pc) :
    s'.flush.pc t = pc := by
  rw [moved.place, Function.update_self]

theorem Moved.grows {s s' : LogState n} {t : Fin n} {pc : Pc} (moved : Moved s s' t pc) :
    s.completed ≤ s'.completed ∧ s.begun ≤ s'.begun := by
  rcases moved.counts with ⟨-, begun, completed⟩ | ⟨-, -, begun, completed⟩ | ⟨-, -, begun, completed⟩
  all_goals omega

theorem Moved.since {s s' : LogState n} {t u : Fin n} {pc : Pc} (moved : Moved s s' t pc) {r : Nat}
    (member : r ∈ (s'.log u).since) : r ∈ (s.log u).since := by
  rcases moved.log u with same | none
  · rwa [same] at member
  · simp [none] at member

/-- No round is under way while a thread is in `flush` outside of its collecting part. -/
theorem InRounds.idle {s : LogState n} (inv : InRounds s) {t : Fin n}
    (inside : inFlush (s.flush.pc t) = true) (past : collecting (s.flush.pc t) = false) :
    s.begun = s.completed := by
  apply inv.closed
  intro u
  by_contra collects
  rw [Bool.not_eq_false] at collects
  cases inv.one t u inside (inFlush_of_collecting collects)
  rw [past] at collects
  cases collects

section step
variable {s s' : LogState n} {t : Fin n} {call : Call} {pc : Pc} (inv : InRounds s)
  (moved : Moved s s' t pc)
include inv moved

theorem one_step (consecutive : Consecutive s (.flush ⟨t, call⟩)) (u v : Fin n)
    (hu : inFlush (s'.flush.pc u) = true) (hv : inFlush (s'.flush.pc v) = true) : u = v := by
  have others {w : Fin n} (other : w ≠ t) (here : inFlush pc = true)
      (there : inFlush (s'.flush.pc w) = true) : False := by
    rw [moved.elsewhere other] at there
    rcases moved.enters here with inside | entering
    · exact other (inv.one w t there inside)
    · have free := consecutive entering w other
      rw [free] at there
      cases there
  by_cases ut : u = t
  · by_cases vt : v = t
    · exact ut.trans vt.symm
    · rw [ut, moved.here] at hu
      exact (others vt hu hv).elim
  · by_cases vt : v = t
    · rw [vt, moved.here] at hv
      exact (others ut hv hu).elim
    · rw [moved.elsewhere ut] at hu
      rw [moved.elsewhere vt] at hv
      exact inv.one u v hu hv

theorem underway_step (u : Fin n) (collects : collecting (s'.flush.pc u) = true) :
    s'.begun = s'.completed + 1 := by
  rcases moved.counts with ⟨same, begun, completed⟩ | ⟨at_t, -, begun, completed⟩ |
    ⟨at_t, past, begun, completed⟩
  · rw [begun, completed]
    by_cases ut : u = t
    · rw [ut, moved.here, same] at collects
      exact inv.underway t collects
    · rw [moved.elsewhere ut] at collects
      exact inv.underway u collects
  · rw [begun, completed, inv.idle (t := t) (by rw [at_t]; rfl) (by rw [at_t]; rfl)]
  · by_cases ut : u = t
    · rw [ut, moved.here, past] at collects
      cases collects
    · rw [moved.elsewhere ut] at collects
      exact absurd (inv.one u t (inFlush_of_collecting collects) (by rw [at_t]; rfl)) ut

theorem closed_step (none : ∀ u, collecting (s'.flush.pc u) = false) :
    s'.begun = s'.completed := by
  have here := none t
  rw [moved.here] at here
  rcases moved.counts with ⟨same, begun, completed⟩ | ⟨-, collects, -, -⟩ |
    ⟨at_t, -, begun, completed⟩
  · rw [begun, completed]
    apply inv.closed
    intro u
    by_cases ut : u = t
    · rw [ut, ← same, here]
    · rw [← moved.elsewhere ut]
      exact none u
  · rw [collects] at here
    cases here
  · rw [begun, completed]
    exact inv.underway t (by rw [at_t]; rfl)

theorem announced_step (waiting : s'.flush.waitingFlush = true) :
    ∃ u, announcing (s'.flush.pc u) = true := by
  rcases moved.waitingFlush waiting with announces | ⟨before, silent⟩
  · exact ⟨t, by rw [moved.here]; exact announces⟩
  · obtain ⟨u, announces⟩ := inv.announced before
    have other : u ≠ t := by
      rintro rfl
      rw [silent] at announces
      cases announces
    exact ⟨u, by rw [moved.elsewhere other]; exact announces⟩

theorem posting_step (v : Fin n) (posts : s'.flush.pc v = .postAck) :
    ∃ u, collecting (s'.flush.pc u) = true := by
  by_cases vt : v = t
  · rw [vt, moved.here] at posts
    obtain ⟨at_t, waiting⟩ := moved.postAck posts
    obtain ⟨u, announces⟩ := inv.announced waiting
    have other : t ≠ u := by
      rintro rfl
      rw [at_t] at announces
      cases announces
    refine ⟨u, ?_⟩
    rw [moved.elsewhere other.symm]
    exact collecting_of_announcing inv.balanced announces other (by rw [at_t]; simp)
  · rw [moved.elsewhere vt] at posts
    obtain ⟨u, collects⟩ := inv.posting v posts
    by_cases ut : u = t
    · refine ⟨t, ?_⟩
      rw [moved.here]
      rw [ut] at collects
      rcases moved.counts with ⟨same, -, -⟩ | ⟨-, still, -, -⟩ | ⟨at_t, -, -, -⟩
      · rw [same, collects]
      · exact still
      · have parked := others_parked inv.balanced (by rw [at_t]; rfl) (by rw [at_t]; rfl) v vt
        rw [posts] at parked
        cases parked
    · exact ⟨u, by rw [moved.elsewhere ut]; exact collects⟩

theorem waiting_step (drained : Drained s (.flush ⟨t, call⟩)) (v : Fin n)
    (waits : s'.flush.pc v = .waitRelease) : s'.acked v ≤ s'.begun ∧
      (s'.acked v ≤ s'.completed ∨ s'.flush.flushAckSem = 0) := by
  have grows := moved.grows
  by_cases vt : v = t
  · subst vt
    rw [moved.here] at waits
    rcases moved.acked with ⟨-, other⟩ | ⟨at_t, acked, tokens⟩
    · exact absurd waits other
    · rw [acked, Function.update_self, tokens]
      exact ⟨grows.2, .inr (drained at_t)⟩
  · rw [moved.elsewhere vt] at waits
    have same : s'.acked v = s.acked v := by
      rcases moved.acked with ⟨acked, -⟩ | ⟨-, acked, -⟩
      · rw [acked]
      · rw [acked, Function.update_of_ne vt]
    obtain ⟨upto, past⟩ := inv.waiting v waits
    rw [same]
    refine ⟨upto.trans grows.2, ?_⟩
    rcases past with past | empty
    · exact .inl (past.trans grows.1)
    · rcases moved.tokens with fewer | ⟨i, at_t⟩
      · exact .inr (Nat.eq_zero_of_le_zero (empty ▸ fewer))
      · have idle := inv.idle (t := t) (by rw [at_t]; rfl) (by rw [at_t]; rfl)
        exact .inl ((idle ▸ upto).trans grows.1)

theorem released_step (v : Fin n) (done : s'.flush.pc v = .ackCheckpoint) :
    s'.acked v ≤ s'.completed := by
  have grows := moved.grows
  by_cases vt : v = t
  · subst vt
    rw [moved.here] at done
    obtain ⟨at_t, token⟩ := moved.released done
    rcases moved.acked with ⟨acked, -⟩ | ⟨at_t', -, -⟩
    · rw [acked]
      have past := (inv.waiting v at_t).2.resolve_right (Nat.pos_iff_ne_zero.mp token)
      exact past.trans grows.1
    · rw [at_t] at at_t'
      cases at_t'
  · rw [moved.elsewhere vt] at done
    have past := (inv.released v done).trans grows.1
    rcases moved.acked with ⟨acked, -⟩ | ⟨-, acked, -⟩
    · rwa [acked]
    · rwa [acked, Function.update_of_ne vt]

theorem before_step (v : Fin n) (acks : acknowledged (s'.flush.pc v) = true) (r : Nat)
    (member : r ∈ (s'.log v).since) : r < s'.acked v := by
  have old := moved.since member
  by_cases vt : v = t
  · subst vt
    rw [moved.here] at acks
    rcases moved.acked with ⟨acked, notWait⟩ | ⟨at_t, acked, -⟩
    · rw [acked]
      have done : pc = .ackCheckpoint := by
        cases pc <;> first | rfl | exact absurd rfl notWait | cases acks
      have at_t := (moved.released done).1
      exact inv.before v (by rw [at_t]; rfl) r old
    · rw [acked, Function.update_self]
      obtain ⟨u, collects⟩ := inv.posting v at_t
      have := inv.underway u collects
      have := inv.stamps v r old
      omega
  · rw [moved.elsewhere vt] at acks
    have less := inv.before v acks r old
    rcases moved.acked with ⟨acked, -⟩ | ⟨-, acked, -⟩
    · rwa [acked]
    · rwa [acked, Function.update_of_ne vt]

end step

theorem inRounds_step {s s' : LogState n} {t : Fin n} {call : Call} (inv : InRounds s)
    (consecutive : Consecutive s (.flush ⟨t, call⟩)) (drained : Drained s (.flush ⟨t, call⟩))
    (h : logStep s (.flush ⟨t, call⟩) = some s') : InRounds s' := by
  obtain ⟨pc, moved⟩ := moved_of_step h
  have balanced : Balanced s'.flush := by
    simp only [logStep, Option.map_eq_some_iff] at h
    obtain ⟨f, h, rfl⟩ := h
    rw [follow_flush]
    exact balanced_step inv.balanced h
  exact {
    balanced
    one := one_step inv moved consecutive
    underway := underway_step inv moved
    closed := closed_step inv moved
    announced := announced_step inv moved
    posting := posting_step inv moved
    waiting := waiting_step inv moved drained
    released := released_step inv moved
    before := before_step inv moved
    stamps := fun v r member => (inv.stamps v r (moved.since member)).trans moved.grows.1 }

theorem since_record {log : ThreadLog Nat} {stamp r : Nat} (member : r ∈ (log.record stamp).since) :
    r ∈ log.since ∨ r = stamp := by
  simp only [ThreadLog.since, ThreadLog.record, List.drop_append, List.mem_append] at member
  rcases member with old | new
  · exact .inl old
  · exact .inr (List.mem_singleton.mp (List.mem_of_mem_drop new))

theorem inRounds_record {s s' : LogState n} {t : Fin n} (inv : InRounds s)
    (h : logStep s (.record t) = some s') : InRounds s' := by
  simp only [logStep, Option.ite_none_right_eq_some, Option.some.injEq] at h
  obtain ⟨idle, rfl⟩ := h
  have since {u : Fin n} {r : Nat}
      (member : r ∈ (Function.update s.log t ((s.log t).record s.completed) u).since) :
      r ∈ (s.log u).since ∨ u = t ∧ r = s.completed := by
    by_cases ut : u = t
    · subst ut
      rw [Function.update_self] at member
      exact (since_record member).imp_right fun eq => ⟨rfl, eq⟩
    · rw [Function.update_of_ne ut] at member
      exact .inl member
  refine ⟨inv.balanced, inv.one, inv.underway, inv.closed, inv.announced, inv.posting, inv.waiting,
    inv.released, ?_, ?_⟩
  · intro u acks r member
    rcases since member with old | ⟨rfl, -⟩
    · exact inv.before u acks r old
    · have at_u : acknowledged (s.flush.pc u) = true := acks
      rw [idle] at at_u
      cases at_u
  · intro u r member
    rcases since member with old | ⟨-, rfl⟩
    · exact inv.stamps u r old
    · exact le_rfl

theorem inRounds_init (n e : Nat) : InRounds (logInit n e) := by
  refine ⟨⟨?_, ?_⟩, ?_, ?_, ?_, ?_, ?_, ?_, ?_, ?_, ?_⟩
  all_goals simp [logInit, init, Bounded, parked, held, inFlush, collecting, acknowledged,
    ThreadLog.since]

theorem inRounds_of_reachable {s : LogState n}
    (reachable : (logMachine n).Reachable (fun s l => Consecutive s l ∧ Drained s l) s) :
    InRounds s := by
  refine reachable.invariant ?_ ?_
  · rintro _ ⟨e, rfl⟩
    exact inRounds_init n e
  · rintro s l s' inv ⟨consecutive, drained⟩ h
    cases l with
    | flush l => exact inRounds_step inv consecutive drained h
    | record t => exact inRounds_record inv h

/-- The round that thread `t` acknowledged is over, and its log holds nothing that was recorded
after the last global flush. -/
def SafeCheckpoint (s : LogState n) (t : Fin n) : Prop :=
  s.acked t ≤ s.completed ∧ ∀ r ∈ (s.log t).since, r < s.completed

theorem checkpoint_after_flush {s : LogState n}
    (reachable : (logMachine n).Reachable (fun s l => Consecutive s l ∧ Drained s l) s)
    (t : Fin n) (about : s.flush.pc t = .ackCheckpoint) : SafeCheckpoint s t := by
  have inv := inRounds_of_reachable reachable
  have done := inv.released t about
  refine ⟨done, fun r member => ?_⟩
  exact Nat.lt_of_lt_of_le (inv.before t (by rw [about]; rfl) r member) done

def logBurst (t : Fin n) (call : Call) (k : Nat) : List (LogLabel n) := (burst t call k).map .flush

/-- Thread 0 flushes with the acknowledgements of threads 1 and 2, up to the end of `flush`. -/
def firstRound : List (LogLabel 3) :=
  logBurst 0 (.setGlobalEpoch 2) 9 ++ logBurst 1 .ackFlush 5 ++ logBurst 2 .ackFlush 5 ++
    logBurst 0 .ackFlush 10

theorem checkpoint_after_flush_three : ∃ s : LogState 3,
    (logMachine 3).Reachable (fun s l => Consecutive s l ∧ Drained s l) s ∧
      s.flush.pc 1 = .ackCheckpoint ∧ (s.log 1).since = [0] ∧ SafeCheckpoint s 1 := by
  have start : (logMachine 3).Reachable (fun s l => Consecutive s l ∧ Drained s l) (logInit 3 1) :=
    .initial ⟨1, rfl⟩
  obtain ⟨s, reachable, h⟩ := start.exists_run
    (.record 1 :: firstRound ++ logBurst 1 .ackFlush 1)
    (fun s => s.flush.pc 1 == .ackCheckpoint && (s.log 1).since == [0]) (by decide)
  simp only [Bool.and_eq_true, beq_iff_eq] at h
  exact ⟨s, reachable, h.1, h.2, checkpoint_after_flush reachable 1 h.1⟩

/-- Thread 2 is slow to take its token of the first round; thread 1 acknowledges the second round
and takes it. -/
theorem checkpoint_before_flush :
    ¬ ∀ (n : Nat) (s : LogState n), (logMachine n).Reachable Consecutive s →
      ∀ t, s.flush.pc t = .ackCheckpoint → SafeCheckpoint s t := by
  intro claim
  have start : (logMachine 3).Reachable Consecutive (logInit 3 1) := .initial ⟨1, rfl⟩
  obtain ⟨s, reachable, h⟩ := start.exists_run
    (firstRound ++ logBurst 1 .ackFlush 2 ++ [.record 1] ++ logBurst 0 (.setGlobalEpoch 3) 9 ++
      logBurst 1 .ackFlush 6)
    (fun s => s.flush.pc 1 == .ackCheckpoint && s.acked 1 == 2 && s.completed == 1) (by decide)
  simp only [Bool.and_eq_true, beq_iff_eq] at h
  have safe := (claim 3 s reachable 1 h.1.1).1
  omega

end Incll.Proof.Flush
