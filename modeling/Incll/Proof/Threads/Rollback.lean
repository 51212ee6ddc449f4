import Incll.Proof.Threads.Phases

/-! # A leaf is rolled back at most once -/

namespace Incll.Proof.Threads
open Incll.Lib Incll.Model Incll.Model.Threads

variable {n : Nat} {s s' : State n} {t : Fin n} {a b : Addr}

/-- The leaf that is locked by the step. -/
def leafLocked (s : State n) (l : Label n) : Option Addr :=
  match l.act, s.pc l.thread with
  | .lock a, .idle => if (leafAt s a).isSome then some a else none
  | _, _ => none

/-- A thread locks a leaf only after it has finished `lazy_recovery` on it. -/
def AfterRecovery (s : State n) (l : Label n) : Prop :=
  ∀ a ∈ leafLocked s l, s.visited l.thread = some a

instance (s : State n) (l : Label n) : Decidable (AfterRecovery s l) :=
  inferInstanceAs (Decidable (∀ a ∈ leafLocked s l, _))

/-- The leaf is past its rollback. -/
def Past (s : State n) (a : Addr) : Prop := pendingAt s a = true → ∃ u, s.pc u = .updateEpochs a

/-- The entries and their epochs are the same. -/
def SameEntries (l l' : Leaf) : Prop :=
  l'.incll = { l.incll with notLogged := l'.incll.notLogged }

theorem SameEntries.holds {l l' : Leaf} (same : SameEntries l l') (fe : Nat) (e : Entry) :
    holds fe l' e = holds fe l e := by
  rw [SameEntries] at same
  cases e <;> simp only [Threads.holds] <;> rw [same]

theorem SameEntries.pending {l l' : Leaf} (same : SameEntries l l') (fe : Nat) :
    l'.pending fe = l.pending fe := by
  rw [SameEntries] at same
  simp only [Leaf.pending, Leaf.holdsEntry]
  rw [same]

/-- What a step of thread `t` to `pc` does to the entries of the leaves. -/
structure Effect (s s' : State n) (t : Fin n) (pc : Pc) : Prop where
  place : s'.pc = Function.update s.pc t pc
  failedepoch : s'.failedepoch = s.failedepoch
  entries : ∀ b l', leafAt s' b = some l' →
    (∃ l, leafAt s b = some l ∧ SameEntries l l') ∨ pendingAt s' b = false ∨ pc = .updateEpochs b
  window : ∀ b, s.pc t = .updateEpochs b → pendingAt s' b = false

theorem Effect.of_heap {pc : Pc} (place : s'.pc = Function.update s.pc t pc)
    (epoch : s'.failedepoch = s.failedepoch) (heap : s'.heap = s.heap)
    (outside : ∀ b, s.pc t ≠ .updateEpochs b) : Effect s s' t pc := by
  refine ⟨place, epoch, fun b l' leaf => .inl ⟨l', ?_, rfl⟩, fun b at_t => absurd at_t (outside b)⟩
  rw [← leaf, leafAt, leafAt, heap]

/-- A step that writes `k` at `a`. -/
theorem Effect.of_update {pc : Pc} {k : Kind} (place : s'.pc = Function.update s.pc t pc)
    (epoch : s'.failedepoch = s.failedepoch) (heap : s'.heap = Function.update s.heap a (some k))
    (here : ∀ l', k = .leaf l' → (∃ l, leafAt s a = some l ∧ SameEntries l l') ∨
      l'.pending s.failedepoch = false ∨ pc = .updateEpochs a)
    (window : ∀ b, s.pc t = .updateEpochs b → b = a ∧
      ∀ l', k = .leaf l' → l'.pending s.failedepoch = false) : Effect s s' t pc := by
  have visited (l' : Leaf) (leaf : k = .leaf l') (past : l'.pending s.failedepoch = false) :
      pendingAt s' a = false := by
    rw [pendingAt_of_leaf (by rw [heap, Function.update_self, leaf]), epoch, past]
  refine ⟨place, epoch, fun b l' leaf => ?_, fun b at_t => ?_⟩
  · by_cases same : b = a
    · subst same
      have at_b := heap_of_leafAt leaf
      rw [heap, Function.update_self] at at_b
      have kind := Option.some.inj at_b
      exact (here l' kind).imp_right (·.imp_left (visited l' kind))
    · refine .inl ⟨l', ?_, rfl⟩
      rw [← leaf, leafAt, leafAt, heap, Function.update_of_ne same]
  · obtain ⟨rfl, past⟩ := window b at_t
    cases k with
    | leaf l' => exact visited l' rfl (past l' rfl)
    | internode i => exact pendingAt_of_internode (by rw [heap, Function.update_self])

theorem effect_stepRecovery (h : stepRecovery s t (s.pc t) = some s') : ∃ pc, Effect s s' t pc := by
  cases at_t : s.pc t <;> rw [at_t] at h <;> simp only [stepRecovery] at h
  case guard a =>
    obtain ⟨l, -, rfl⟩ := Option.map_eq_some_iff.mp h
    split <;> exact ⟨_, .of_heap rfl rfl rfl (by simp [at_t])⟩
  case test e a =>
    obtain ⟨l, -, rfl⟩ := Option.map_eq_some_iff.mp h
    split
    · exact ⟨_, .of_heap rfl rfl rfl (by simp [at_t])⟩
    · cases e <;> exact ⟨_, .of_heap rfl rfl rfl (by simp [at_t])⟩
  case lockBucket e a =>
    simp only [Option.ite_none_right_eq_some, Option.some.injEq] at h
    obtain ⟨-, rfl⟩ := h
    exact ⟨_, .of_heap rfl rfl rfl (by simp [at_t])⟩
  case recover e a =>
    obtain ⟨l, leaf, rfl⟩ := Option.map_eq_some_iff.mp h
    refine ⟨_, .of_update rfl rfl rfl ?_ (by simp [at_t])⟩
    rintro l' ⟨⟩
    refine .inl ⟨l, leaf, ?_⟩
    cases e <;> rfl
  case recoverFinal a =>
    obtain ⟨l, leaf, rfl⟩ := Option.map_eq_some_iff.mp h
    refine ⟨_, .of_update rfl rfl rfl ?_ (by simp [at_t])⟩
    rintro l' ⟨⟩
    exact .inr (.inl (not_pending_recoverFinal ..))
  case unlockBucket a =>
    cases h
    exact ⟨_, .of_heap rfl rfl rfl (by simp [at_t])⟩
  all_goals cases h

theorem effect_stepLog (epochs : s.failedepoch < s.globalepoch)
    (h : stepLog s t (s.pc t) = some s') : ∃ pc, Effect s s' t pc := by
  cases at_t : s.pc t <;> rw [at_t] at h <;> simp only [stepLog] at h
  case logTest c a =>
    obtain ⟨k, -, rfl⟩ := Option.map_eq_some_iff.mp h
    cases k <;> exact ⟨_, .of_heap rfl rfl rfl (by simp [at_t])⟩
  case save c a =>
    obtain ⟨l, -, rfl⟩ := Option.map_eq_some_iff.mp h
    exact ⟨_, .of_update rfl rfl rfl (fun _ _ => .inr (.inr rfl)) (by simp [at_t])⟩
  case updateEpochs a =>
    obtain ⟨l, -, rfl⟩ := Option.map_eq_some_iff.mp h
    have past := not_pending_tagged epochs l (c := l.incll.updateEpochs s.globalepoch) rfl
    refine ⟨_, .of_update rfl rfl rfl ?_ ?_⟩
    · rintro l' ⟨⟩
      exact .inr (.inl past)
    · intro b at_b
      rw [at_t] at at_b
      cases at_b
      refine ⟨rfl, ?_⟩
      rintro l' ⟨⟩
      exact past
  case setNotLogged a =>
    obtain ⟨l, leaf, rfl⟩ := Option.map_eq_some_iff.mp h
    refine ⟨_, .of_update rfl rfl rfl ?_ (by simp [at_t])⟩
    rintro l' ⟨⟩
    exact .inl ⟨l, leaf, rfl⟩
  case record c a =>
    obtain ⟨k, here, rfl⟩ := Option.map_eq_some_iff.mp h
    cases k with
    | leaf l =>
        refine ⟨_, .of_update rfl rfl rfl ?_ (by simp [at_t])⟩
        rintro l' ⟨⟩
        exact .inl ⟨l, by simp [leafAt, here, Kind.leaf?], rfl⟩
    | internode i => exact ⟨_, .of_heap rfl rfl rfl (by simp [at_t])⟩
  case tag a =>
    obtain ⟨k, here, rfl⟩ := Option.map_eq_some_iff.mp h
    cases k with
    | leaf l =>
        refine ⟨_, .of_update rfl rfl rfl ?_ (by simp [at_t])⟩
        rintro l' ⟨⟩
        exact .inr (.inl (not_pending_tagged epochs l rfl))
    | internode i => exact ⟨_, .of_update rfl rfl rfl (by simp) (by simp [at_t])⟩
  case invalidate a =>
    obtain ⟨l, -, rfl⟩ := Option.map_eq_some_iff.mp h
    refine ⟨_, .of_update rfl rfl rfl ?_ (by simp [at_t])⟩
    rintro l' ⟨⟩
    exact .inr (.inl (not_pending_invalidate ..))
  all_goals cases h

theorem sameEntries_store {k : Kind} {l' : Leaf} {c : Change} (here : s.heap a = some k)
    (stored : c.apply k = .leaf l') : ∃ l, leafAt s a = some l ∧ SameEntries l l' := by
  cases k with
  | leaf l =>
      refine ⟨l, by simp [leafAt, here, Kind.leaf?], ?_⟩
      cases c <;> cases stored <;> rfl
  | internode i => cases c <;> cases stored

theorem effect_start {act : Act} (epochs : s.failedepoch < s.globalepoch) (idle : s.pc t = .idle)
    (h : start s t act = some s') : ∃ pc, Effect s s' t pc := by
  have outside (b : Addr) : s.pc t ≠ .updateEpochs b := by simp [idle]
  have stays : s.pc = Function.update s.pc t .idle := by rw [← idle, Function.update_eq_self]
  cases act <;> simp only [start] at h
  case go => cases h
  case lazyRecovery a =>
    obtain ⟨l, -, rfl⟩ := Option.map_eq_some_iff.mp h
    exact ⟨_, .of_heap rfl rfl rfl outside⟩
  case lock a =>
    simp only [Option.ite_none_right_eq_some, Option.some.injEq] at h
    obtain ⟨-, rfl⟩ := h
    exact ⟨_, .of_heap stays rfl rfl outside⟩
  case log c a =>
    simp only [Option.ite_none_right_eq_some, Option.some.injEq] at h
    obtain ⟨-, rfl⟩ := h
    exact ⟨_, .of_heap rfl rfl rfl outside⟩
  case store c a =>
    simp only [Option.ite_none_right_eq_some] at h
    obtain ⟨-, h⟩ := h
    obtain ⟨k, here, rfl⟩ := Option.map_eq_some_iff.mp h
    exact ⟨_, .of_update stays rfl rfl (fun l' leaf => .inl (sameEntries_store here leaf))
      (by simp [idle])⟩
  case unlock a =>
    simp only [Option.ite_none_right_eq_some, Option.some.injEq] at h
    obtain ⟨-, rfl⟩ := h
    exact ⟨_, .of_heap stays rfl rfl outside⟩
  case makeLeaf b =>
    cases h
    refine ⟨_, .of_update stays rfl rfl ?_ (by simp [idle])⟩
    rintro l' ⟨⟩
    exact .inr (.inl (not_pending_of_epoch epochs))
  case makeInternode i =>
    cases h
    exact ⟨_, .of_update stays rfl rfl (by simp) (by simp [idle])⟩
  case raise =>
    cases h
    exact ⟨_, .of_heap stays rfl rfl outside⟩

theorem step_effect {l : Label n} (epochs : s.failedepoch < s.globalepoch)
    (h : step s l = some s') : ∃ pc, Effect s s' l.thread pc := by
  rcases step_cases h with ⟨idle, h⟩ | ⟨-, h | h⟩
  · exact effect_start epochs idle h
  · exact effect_stepRecovery h
  · exact effect_stepLog epochs h

theorem pendingAt_eq_true : pendingAt s a = true ↔
    ∃ l, leafAt s a = some l ∧ l.pending s.failedepoch = true := by
  cases leaf : leafAt s a <;> simp [pendingAt, leaf]

theorem Past.of_pendingAt (visited : pendingAt s a = false) : Past s a := by
  intro pending
  rw [visited] at pending
  cases pending

/-- A leaf stays as it was tested, or it is past its rollback. -/
theorem Effect.leaf {pc : Pc} (effect : Effect s s' t pc) {l' : Leaf}
    (leaf : leafAt s' a = some l') :
    (∃ l, leafAt s a = some l ∧ SameEntries l l') ∨ Past s' a := by
  rcases effect.entries a l' leaf with same | visited | rfl
  · exact .inl same
  · exact .inr (.of_pendingAt visited)
  · exact .inr fun _ => ⟨t, by rw [effect.place, Function.update_self]⟩

theorem Past.next {pc : Pc} (past : Past s a) (effect : Effect s s' t pc) : Past s' a := by
  intro pending
  obtain ⟨l', leaf, waits⟩ := pendingAt_eq_true.mp pending
  rcases effect.leaf leaf with ⟨l, old, same⟩ | past'
  · rw [same.pending, effect.failedepoch] at waits
    obtain ⟨u, at_u⟩ := past (pendingAt_eq_true.mpr ⟨l, old, waits⟩)
    by_cases mine : u = t
    · subst mine
      rw [effect.window a at_u] at pending
      cases pending
    · exact ⟨u, by rw [effect.place, Function.update_of_ne mine, at_u]⟩
  · exact past' pending

/-! A thread that has finished `lazy_recovery` leaves the leaf past its rollback. -/

/-- The entries that `undo_incll` tests before this one. -/
def earlier : Entry → List Entry
  | .cl0 => []
  | .cl1 => [.cl0]
  | .cl2 => [.cl0, .cl1]

def Tested (s : State n) (e : Entry) (a : Addr) : Prop :=
  Past s a ∨ ∀ l, leafAt s a = some l → ∀ e' ∈ earlier e, holds s.failedepoch l e' = false

structure Visits (s : State n) : Prop where
  visited : ∀ t a, s.visited t = some a → Past s a
  locked : ∀ a u, s.lock a = some u → Past s a
  tested : ∀ t e a, s.pc t = .test e a → Tested s e a
  recovered : ∀ t a, s.pc t = .unlockBucket a → Past s a

theorem Tested.next {pc : Pc} {e : Entry} (tested : Tested s e a) (effect : Effect s s' t pc) :
    Tested s' e a := by
  rcases tested with past | none
  · exact .inl (past.next effect)
  · by_cases past : Past s' a
    · exact .inl past
    · refine .inr fun l' leaf e' before => ?_
      rcases effect.leaf leaf with ⟨l, old, same⟩ | past'
      · rw [same.holds, effect.failedepoch]
        exact none l old e' before
      · exact absurd past' past

theorem Tested.also {l : Leaf} {e e' : Entry} (tested : Tested s e a) (leaf : leafAt s a = some l)
    (fails : holds s.failedepoch l e = false) (after : earlier e' = earlier e ++ [e]) :
    Tested s e' a := by
  refine tested.imp_right fun none l' leaf' e'' before => ?_
  rw [leaf] at leaf'
  cases leaf'
  rw [after, List.mem_append, List.mem_singleton] at before
  rcases before with old | rfl
  · exact none l leaf e'' old
  · exact fails

theorem Tested.past {l : Leaf} (tested : Tested s .cl2 a) (leaf : leafAt s a = some l)
    (last : holds s.failedepoch l .cl2 = false) : Past s a := by
  rcases tested with past | none
  · exact past
  · have first := none l leaf .cl0 (by decide)
    have second := none l leaf .cl1 (by decide)
    refine .of_pendingAt ?_
    simp only [holds] at first second last
    simp [pendingAt, leaf, Leaf.pending, Leaf.holdsEntry, first, second, last]

/-- A step keeps `Visits` if what it adds is past its rollback. -/
theorem Visits.next {pc : Pc} (visits : Visits s) (effect : Effect s s' t pc)
    (visited : ∀ u b, s'.visited u = some b → s.visited u = some b ∨ Past s b)
    (locked : ∀ b u, s'.lock b = some u → s.lock b = some u ∨ Past s' b)
    (tested : ∀ e b, pc = .test e b → Tested s' e b)
    (recovered : ∀ b, pc = .unlockBucket b → Past s' b) : Visits s' := by
  refine ⟨fun u b here => ?_, fun b u here => ?_, fun u e b here => ?_, fun u b here => ?_⟩
  · rcases visited u b here with old | past
    · exact (visits.visited u b old).next effect
    · exact past.next effect
  · rcases locked b u here with old | past
    · exact (visits.locked b u old).next effect
    · exact past
  · rw [effect.place] at here
    by_cases same : u = t
    · rw [same, Function.update_self] at here
      exact tested e b here
    · rw [Function.update_of_ne same] at here
      exact (visits.tested u e b here).next effect
  · rw [effect.place] at here
    by_cases same : u = t
    · rw [same, Function.update_self] at here
      exact recovered b here
    · rw [Function.update_of_ne same] at here
      exact (visits.recovered u b here).next effect

theorem Effect.pc_eq {pc : Pc} (effect : Effect s s' t pc) : s'.pc t = pc := by
  rw [effect.place, Function.update_self]

theorem Visits.aside {pc : Pc} (visits : Visits s) (effect : Effect s s' t pc)
    (visited : s'.visited = s.visited) (lock : s'.lock = s.lock) (test : ∀ e b, pc ≠ .test e b)
    (unlock : ∀ b, pc ≠ .unlockBucket b) : Visits s' :=
  visits.next effect (fun _ _ here => .inl (visited ▸ here)) (fun _ _ here => .inl (lock ▸ here))
    (fun e b here => absurd here (test e b)) (fun b here => absurd here (unlock b))

theorem visited_visit {u : Fin n} (past : Past s a)
    (here : Function.update s.visited t (some a) u = some b) :
    s.visited u = some b ∨ Past s b := by
  by_cases same : u = t
  · rw [same, Function.update_self] at here
    cases here
    exact .inr past
  · rw [Function.update_of_ne same] at here
    exact .inl here

theorem visits_stepRecovery {pc : Pc} (visits : Visits s) (effect : Effect s s' t pc)
    (h : stepRecovery s t (s.pc t) = some s') : Visits s' := by
  have pc_eq := effect.pc_eq
  have below {l : Leaf} {a : Addr} (leaf : leafAt s a = some l)
      (late : ¬ l.incll.loggedepoch ≤ s.failedepoch) : Past s a := by
    refine .of_pendingAt ?_
    simp [pendingAt, leaf, not_pending_of_epoch (Nat.lt_of_not_le late)]
  cases at_t : s.pc t <;> rw [at_t] at h <;> simp only [stepRecovery] at h
  case guard a =>
    obtain ⟨l, leaf, moved⟩ := Option.map_eq_some_iff.mp h
    split at moved <;> subst moved <;>
      simp only [State.visit, State.goto, Function.update_self] at pc_eq <;> subst pc_eq
    · refine visits.next effect (fun _ _ => .inl) (fun _ _ => .inl) ?_ (by simp)
      rintro e b ⟨⟩
      exact .inr (by simp [earlier])
    · next late =>
      exact visits.next effect (fun _ _ => visited_visit (below leaf late)) (fun _ _ => .inl) (by simp)
        (by simp)
  case test e a =>
    obtain ⟨l, leaf, moved⟩ := Option.map_eq_some_iff.mp h
    have tested := visits.tested t e a at_t
    split at moved
    · subst moved
      simp only [State.goto, Function.update_self] at pc_eq
      subst pc_eq
      exact visits.aside effect rfl rfl (by simp) (by simp)
    · next fails =>
      have fails := eq_false_of_ne_true fails
      cases e <;> subst moved <;>
        simp only [State.visit, State.goto, Function.update_self] at pc_eq <;> subst pc_eq
      case cl0 =>
        refine visits.next effect (fun _ _ => .inl) (fun _ _ => .inl) ?_ (by simp)
        rintro e b ⟨⟩
        exact (tested.also leaf fails rfl).next effect
      case cl1 =>
        refine visits.next effect (fun _ _ => .inl) (fun _ _ => .inl) ?_ (by simp)
        rintro e b ⟨⟩
        exact (tested.also leaf fails rfl).next effect
      case cl2 =>
        exact visits.next effect (fun _ _ => visited_visit (tested.past leaf fails))
          (fun _ _ => .inl) (by simp) (by simp)
  case lockBucket e a =>
    simp only [Option.ite_none_right_eq_some, Option.some.injEq] at h
    obtain ⟨-, rfl⟩ := h
    simp only [State.goto, Function.update_self] at pc_eq
    subst pc_eq
    exact visits.aside effect rfl rfl (by simp) (by simp)
  case recover e a =>
    obtain ⟨l, leaf, rfl⟩ := Option.map_eq_some_iff.mp h
    simp only [State.goto, Function.update_self] at pc_eq
    subst pc_eq
    exact visits.aside effect rfl rfl (by simp) (by simp)
  case recoverFinal a =>
    obtain ⟨l, leaf, rfl⟩ := Option.map_eq_some_iff.mp h
    simp only [State.goto, Function.update_self] at pc_eq
    subst pc_eq
    refine visits.next effect (fun _ _ => .inl) (fun _ _ => .inl) (by simp) ?_
    rintro b ⟨⟩
    refine .of_pendingAt ?_
    simp [pendingAt, leafAt, State.goto, State.setLeaf, Kind.leaf?, not_pending_recoverFinal]
  case unlockBucket a =>
    cases h
    simp only [State.visit, State.goto, Function.update_self] at pc_eq
    subst pc_eq
    exact visits.next effect (fun _ _ => visited_visit (visits.recovered t a at_t))
      (fun _ _ => .inl) (by simp) (by simp)
  all_goals cases h

theorem visits_stepLog {pc : Pc} (visits : Visits s) (effect : Effect s s' t pc)
    (h : stepLog s t (s.pc t) = some s') : Visits s' := by
  have pc_eq := effect.pc_eq
  cases at_t : s.pc t <;> rw [at_t] at h <;> simp only [stepLog] at h
  case logTest c a =>
    obtain ⟨k, here, rfl⟩ := Option.map_eq_some_iff.mp h
    cases k with
    | leaf l =>
        simp only [State.goto, Function.update_self] at pc_eq
        rcases logBranch_cases s.globalepoch l c a with idle | save | record
        · rw [idle] at pc_eq
          subst pc_eq
          exact visits.aside effect rfl rfl (by simp) (by simp)
        · rw [save] at pc_eq
          subst pc_eq
          exact visits.aside effect rfl rfl (by simp) (by simp)
        · rw [record] at pc_eq
          subst pc_eq
          exact visits.aside effect rfl rfl (by simp) (by simp)
    | internode i =>
        simp only [State.goto, Function.update_self] at pc_eq
        split at pc_eq <;> subst pc_eq <;> exact visits.aside effect rfl rfl (by simp) (by simp)
  case record c a =>
    obtain ⟨k, here, rfl⟩ := Option.map_eq_some_iff.mp h
    cases k with
    | leaf l =>
        simp only [State.goto, Function.update_self] at pc_eq
        split at pc_eq <;> subst pc_eq <;> exact visits.aside effect rfl rfl (by simp) (by simp)
    | internode i =>
        simp only [State.goto, Function.update_self] at pc_eq
        subst pc_eq
        exact visits.aside effect rfl rfl (by simp) (by simp)
  case tag a =>
    obtain ⟨k, here, rfl⟩ := Option.map_eq_some_iff.mp h
    cases k <;> simp only [State.goto, Function.update_self] at pc_eq <;> subst pc_eq <;>
      exact visits.aside effect rfl rfl (by simp) (by simp)
  case save | updateEpochs | setNotLogged | invalidate =>
    obtain ⟨l, leaf, rfl⟩ := Option.map_eq_some_iff.mp h
    simp only [State.goto, Function.update_self] at pc_eq
    subst pc_eq
    exact visits.aside effect rfl rfl (by simp) (by simp)
  all_goals cases h

theorem locked_lock {u : Fin n} (past : Past s' a)
    (here : Function.update s.lock a (some t) b = some u) : s.lock b = some u ∨ Past s' b := by
  by_cases same : b = a
  · exact .inr (same ▸ past)
  · rw [Function.update_of_ne same] at here
    exact .inl here

theorem visits_start {act : Act} {pc : Pc} (visits : Visits s) (effect : Effect s s' t pc)
    (epochs : s.failedepoch < s.globalepoch) (idle : s.pc t = .idle)
    (after : AfterRecovery s ⟨t, act⟩) (h : start s t act = some s') : Visits s' := by
  have pc_eq := effect.pc_eq
  cases act <;> simp only [start] at h
  case go => cases h
  case lazyRecovery a =>
    obtain ⟨l, -, rfl⟩ := Option.map_eq_some_iff.mp h
    simp only [State.goto, Function.update_self] at pc_eq
    subst pc_eq
    exact visits.aside effect rfl rfl (by simp) (by simp)
  case lock a =>
    simp only [Option.ite_none_right_eq_some, Option.some.injEq] at h
    obtain ⟨-, rfl⟩ := h
    have past : Past s a := by
      cases leaf : leafAt s a with
      | none => exact .of_pendingAt (by simp [pendingAt, leaf])
      | some l => exact visits.visited t a (after a (by simp [leafLocked, idle, leaf]))
    rw [idle] at pc_eq
    subst pc_eq
    exact visits.next effect (fun _ _ => .inl) (fun _ _ => locked_lock (past.next effect)) (by simp)
      (by simp)
  case log c a =>
    simp only [Option.ite_none_right_eq_some, Option.some.injEq] at h
    obtain ⟨-, rfl⟩ := h
    simp only [State.goto, Function.update_self] at pc_eq
    subst pc_eq
    exact visits.aside effect rfl rfl (by simp) (by simp)
  case store c a =>
    simp only [Option.ite_none_right_eq_some] at h
    obtain ⟨-, h⟩ := h
    obtain ⟨k, here, rfl⟩ := Option.map_eq_some_iff.mp h
    simp only [State.setKind, idle] at pc_eq
    subst pc_eq
    exact visits.aside effect rfl rfl (by simp) (by simp)
  case unlock a =>
    simp only [Option.ite_none_right_eq_some, Option.some.injEq] at h
    obtain ⟨-, rfl⟩ := h
    rw [idle] at pc_eq
    subst pc_eq
    refine visits.next effect (fun _ _ => .inl) (fun b u here => .inl ?_) (by simp) (by simp)
    dsimp only at here
    by_cases same : b = a
    · rw [same, Function.update_self] at here
      cases here
    · rwa [Function.update_of_ne same] at here
  case makeLeaf b =>
    cases h
    simp only [State.setLeaf, idle] at pc_eq
    subst pc_eq
    refine visits.next effect (fun _ _ => .inl) (fun _ _ => locked_lock (.of_pendingAt ?_)) (by simp)
      (by simp)
    rw [pendingAt_of_leaf (Function.update_self ..)]
    exact not_pending_of_epoch epochs
  case makeInternode i =>
    cases h
    simp only [State.setKind, idle] at pc_eq
    subst pc_eq
    refine visits.next effect (fun _ _ => .inl) (fun _ _ => locked_lock (.of_pendingAt ?_)) (by simp)
      (by simp)
    exact pendingAt_of_internode (Function.update_self ..)
  case raise =>
    cases h
    rw [idle] at pc_eq
    subst pc_eq
    exact visits.aside effect rfl rfl (by simp) (by simp)

theorem visits_step {l : Label n} (visits : Visits s) (epochs : s.failedepoch < s.globalepoch)
    (after : AfterRecovery s l) (h : step s l = some s') : Visits s' := by
  obtain ⟨t, act⟩ := l
  obtain ⟨pc, effect⟩ := step_effect epochs h
  rcases step_cases h with ⟨idle, h⟩ | ⟨-, h | h⟩
  · exact visits_start visits effect epochs idle after h
  · exact visits_stepRecovery visits effect h
  · exact visits_stepLog visits effect h

theorem visits_initial (h : Initial s) : Visits s := by
  refine ⟨?_, ?_, ?_, ?_⟩
  · simp [h.visited]
  · simp [h.lock]
  · simp [h.pc]
  · simp [h.pc]

theorem logStarted_cases {l : Label n} (h : logStarted s l = some a) :
    s.pc l.thread = .idle ∧ ∃ c, l.act = .log c a := by
  simp only [logStarted] at h
  split at h
  · next c a' act idle =>
    cases h
    exact ⟨idle, c, act⟩
  · cases h

/-- Whoever holds the lock of a leaf and has no call under way finds it past its rollback. -/
theorem logsVisited_of_step {l : Label n} (inv : Inv s) (visits : Visits s)
    (h : step s l = some s') : LogsVisited s l := by
  intro a started
  obtain ⟨idle, c, act⟩ := logStarted_cases started
  have mine : s.lock a = some l.thread := by
    rcases step_cases h with ⟨-, h⟩ | ⟨go, -⟩
    · simp only [act, start, Option.ite_none_right_eq_some] at h
      exact h.1.1
    · rw [act] at go
      cases go
  refine eq_false_of_ne_true fun pending => ?_
  obtain ⟨u, at_u⟩ := visits.locked a l.thread mine pending
  have owner := inv.lock u a (by rw [at_u]; rfl)
  rw [mine] at owner
  cases owner
  rw [idle] at at_u
  cases at_u

theorem inv_of_reachable
    (reachable : (machine n).Reachable (fun s l => AfterRecovery s l ∧ StillPending s l) s) :
    Inv s ∧ Visits s := by
  refine reachable.invariant ?_ ?_
  · exact fun s h => ⟨inv_initial h, visits_initial h⟩
  · rintro s l s' ⟨inv, visits⟩ ⟨after, pending⟩ h
    exact ⟨inv_step inv pending (logsVisited_of_step inv visits h) h,
      visits_step visits inv.epochs after h⟩

/-- A leaf whose insertion of epoch 2 is to be undone in epoch 3. -/
def failedLeaf : Leaf where
  incll := { Incll.make 2 with cl0Idx := 0 }
  body := { LeafBody.make 2 with permutation := .makeSorted 1 }

def failed (n : Nat) : State n where
  heap := Function.update (fun _ => none) 1 (some (.leaf failedLeaf))
  fresh := 2
  globalepoch := 3
  failedepoch := 2
  lock := fun _ => none
  bucket := fun _ => none
  log := fun _ => ⟨[], 0⟩
  pc := fun _ => .idle
  visited := fun _ => none
  rollbacks := fun _ => 0
  finished := fun _ => 0
  overwritten := fun _ => false

theorem initial_failed (n : Nat) : Initial (failed n) := by
  refine ⟨Nat.lt_succ_self 2, fun a some => ?_, rfl, rfl, fun _ => rfl, rfl, rfl, rfl, rfl, rfl⟩
  by_cases same : a = 1
  · rw [same]
    exact Nat.lt_succ_self 1
  · simp [failed, same] at some

def go (t : Fin n) (k : Nat) : List (Label n) := .replicate k ⟨t, .go⟩

/-- `lazy_recovery` up to the bucket lock, and from there to its end. -/
def arrive (t : Fin n) : List (Label n) := ⟨t, .lazyRecovery 1⟩ :: go t 2

def recover (t : Fin n) : List (Label n) := go t 4

def insert (t : Fin n) : List (Label n) :=
  [⟨t, .lock 1⟩, ⟨t, .log .saveCl0Insert 1⟩] ++ go t 4 ++
    [⟨t, .store (.leaf fun b => { b with permutation := .makeSorted 1 }) 1⟩, ⟨t, .unlock 1⟩]

end Incll.Proof.Threads
