import Incll.Model.Leaflink

/-! # The links that an epoch can change

A leaf that is neither recorded nor next to a recorded leaf keeps the links of the checkpoint. -/

namespace Incll.Proof.Leaflink
open Incll.Lib Incll.Model Incll.Model.Leaflink

/-- `p` comes right before `n` in the chain. -/
def Before (chain : List Addr) (p n : Addr) : Prop := ∃ xs ys, chain = xs ++ p :: n :: ys

/-- Recovery stores `next_` of `n`. -/
def NextCovered (chain log : List Addr) (n : Addr) : Prop :=
  n ∈ log ∨ ∃ m, Before chain n m ∧ m ∈ log

/-- Recovery stores `prev_` of `n`. -/
def PrevCovered (chain log : List Addr) (n : Addr) : Prop :=
  n ∈ log ∨ ∃ p, Before chain p n ∧ p ∈ log

section
variable {chain log log' : List Addr} {n p m : Addr}

theorem Before.left (h : Before chain p n) : p ∈ chain := by
  obtain ⟨xs, ys, rfl⟩ := h
  simp

theorem NextCovered.mono (h : NextCovered chain log n) (grows : ∀ n ∈ log, n ∈ log') :
    NextCovered chain log' n := by
  obtain recorded | ⟨m, before, recorded⟩ := h
  · exact .inl (grows n recorded)
  · exact .inr ⟨m, before, grows m recorded⟩

theorem PrevCovered.mono (h : PrevCovered chain log n) (grows : ∀ n ∈ log, n ∈ log') :
    PrevCovered chain log' n := by
  obtain recorded | ⟨p, before, recorded⟩ := h
  · exact .inl (grows n recorded)
  · exact .inr ⟨p, before, grows p recorded⟩

end

/-- A leaf whose split or removal has begun. -/
structure Worked {nthreads : Nat} (chain : List Addr) (s : State nthreads) (n : Addr) : Prop where
  leaf : n ∈ s.leaves
  recorded : n ∈ chain → n ∈ s.log

/-- The leaf before `next` is recorded, if `next` is a leaf of the checkpoint. -/
def Shown {nthreads : Nat} (chain : List Addr) (s : State nthreads) (next : Addr) : Prop :=
  next ∈ chain → ∃ p, Before chain p next ∧ p ∈ s.log

def PcGood {nthreads : Nat} (chain : List Addr) (s : State nthreads) : Pc → Prop
  | .idle | .finish _ _ => True
  | .found n => n ∈ s.leaves
  | .recorded n | .lockNextUnlink n => Worked chain s n
  | .storeNrPrev n nr | .lockNext n nr | .storeNext n nr => Worked chain s n ∧ nr ∈ s.made
  | .storeNrNext n nr next | .storeNextPrev n nr next =>
      Worked chain s n ∧ nr ∈ s.made ∧ Shown chain s next
  | .readPrev n next | .swapPrevNext n next _ => Worked chain s n ∧ Shown chain s next
  | .unlinkNextPrev n next prev | .unlinkPrevNext n next prev =>
      Worked chain s n ∧ Shown chain s next ∧ (prev ∈ chain → NextCovered chain s.log prev)

structure Touched {nthreads : Nat} (globalepoch : Nat) (chain : List Addr) (s : State nthreads) :
    Prop where
  leaves : ∀ n ∈ chain, n ∈ s.leaves
  recorded : ∀ n ∈ s.log, n ∈ chain
  known : ∀ n ∈ s.leaves, n ∈ chain ∨ n ∈ s.made
  null : 0 ∉ chain ∧ 0 ∉ s.made
  -- a new leaf is never recorded
  made : ∀ n ∈ s.made, n ∉ chain ∧ s.loggedepoch n = globalepoch ∧ s.notLogged n = false
  logged : ∀ n ∈ chain, s.loggedepoch n = globalepoch → s.notLogged n = false → n ∈ s.log
  points : ∀ n ∈ s.leaves, (s.cache n).next.ptr ∈ chain →
    ∃ p, Before chain p (s.cache n).next.ptr ∧ (n = p ∨ p ∈ s.log)
  next : ∀ xs n ys, chain = xs ++ n :: ys → NextCovered chain s.log n ∨
    (s.cache n).next = (inOrder xs ys).next ∧ (s.memory n).next = (inOrder xs ys).next
  prev : ∀ xs n ys, chain = xs ++ n :: ys → PrevCovered chain s.log n ∨
    (s.cache n).prev = (inOrder xs ys).prev ∧ (s.memory n).prev = (inOrder xs ys).prev
  pc : ∀ t, PcGood chain s (s.pc t)

variable {nthreads globalepoch : Nat} {chain : List Addr} {s s' : State nthreads}

/-- What a later state still knows. -/
structure Later (s s' : State nthreads) : Prop where
  leaves : ∀ n ∈ s.leaves, n ∈ s'.leaves
  made : ∀ n ∈ s.made, n ∈ s'.made
  log : ∀ n ∈ s.log, n ∈ s'.log

theorem Worked.later {n : Addr} (h : Worked chain s n) (later : Later s s') : Worked chain s' n :=
  ⟨later.leaves n h.leaf, fun member => later.log n (h.recorded member)⟩

theorem Shown.later {next : Addr} (h : Shown chain s next) (later : Later s s') :
    Shown chain s' next := by
  intro member
  obtain ⟨p, before, recorded⟩ := h member
  exact ⟨p, before, later.log p recorded⟩

theorem PcGood.later {pc : Pc} (h : PcGood chain s pc) (later : Later s s') : PcGood chain s' pc := by
  cases pc with
  | idle | finish => trivial
  | found n => exact later.leaves n h
  | recorded | lockNextUnlink => exact Worked.later h later
  | storeNrPrev n nr | lockNext n nr | storeNext n nr =>
      exact ⟨h.1.later later, later.made nr h.2⟩
  | storeNrNext n nr | storeNextPrev n nr =>
      exact ⟨h.1.later later, later.made nr h.2.1, h.2.2.later later⟩
  | readPrev | swapPrevNext => exact ⟨h.1.later later, h.2.later later⟩
  | unlinkNextPrev | unlinkPrevNext =>
      exact ⟨h.1.later later, h.2.1.later later, fun member => (h.2.2 member).mono later.log⟩

theorem touched_goto (h : Touched globalepoch chain s) {t : Fin nthreads} {pc : Pc}
    (good : PcGood chain s pc) : Touched globalepoch chain (s.goto t pc) := by
  refine { h with pc := fun u => ?_ }
  by_cases here : u = t
  · subst here
    simp only [State.goto, Function.update_self]
    exact good.later ⟨fun _ => id, fun _ => id, fun _ => id⟩
  · simp only [State.goto, Function.update_of_ne here]
    exact (h.pc u).later ⟨fun _ => id, fun _ => id, fun _ => id⟩

theorem touched_lock (h : Touched globalepoch chain s) (n : Addr) :
    Touched globalepoch chain (s.lock n) :=
  { h with pc := fun t => (h.pc t).later ⟨fun _ => id, fun _ => id, fun _ => id⟩ }

theorem touched_unlock (h : Touched globalepoch chain s) (n : Addr) :
    Touched globalepoch chain (s.unlock n) :=
  { h with pc := fun t => (h.pc t).later ⟨fun _ => id, fun _ => id, fun _ => id⟩ }

theorem touched_markDeleted (h : Touched globalepoch chain s) (n : Addr) :
    Touched globalepoch chain (s.markDeleted n) :=
  { h with pc := fun t => (h.pc t).later ⟨fun _ => id, fun _ => id, fun _ => id⟩ }

theorem touched_setNext (h : Touched globalepoch chain s) {n : Addr} {v : Next}
    (covered : n ∈ chain → NextCovered chain s.log n)
    (points : n ∈ s.leaves → v.ptr ∈ chain → ∃ p, Before chain p v.ptr ∧ (n = p ∨ p ∈ s.log)) :
    Touched globalepoch chain (s.setNext n v) := by
  refine { h with points := fun m leaf => ?_, next := fun xs m ys split => ?_,
                  prev := fun xs m ys split => ?_,
                  pc := fun t => (h.pc t).later ⟨fun _ => id, fun _ => id, fun _ => id⟩ }
  · by_cases here : m = n
    · subst here
      simpa [State.setNext] using points leaf
    · simpa [State.setNext, here] using h.points m leaf
  · by_cases here : m = n
    · subst here
      exact .inl (covered (by simp [split]))
    · simpa [State.setNext, here] using h.next xs m ys split
  · by_cases here : m = n
    · subst here
      simpa [State.setNext] using h.prev xs m ys split
    · simpa [State.setNext, here] using h.prev xs m ys split

theorem touched_setPrev (h : Touched globalepoch chain s) {n prev : Addr}
    (covered : n ∈ chain → PrevCovered chain s.log n) :
    Touched globalepoch chain (s.setPrev n prev) := by
  have kept (m : Addr) : ((s.setPrev n prev).cache m).next = (s.cache m).next := by
    by_cases here : m = n
    · subst here
      simp [State.setPrev]
    · simp [State.setPrev, here]
  refine { h with points := fun m leaf => ?_, next := fun xs m ys split => ?_,
                  prev := fun xs m ys split => ?_,
                  pc := fun t => (h.pc t).later ⟨fun _ => id, fun _ => id, fun _ => id⟩ }
  · rw [kept]
    exact h.points m leaf
  · rw [kept]
    exact h.next xs m ys split
  · by_cases here : m = n
    · subst here
      exact .inl (covered (by simp [split]))
    · simpa [State.setPrev, here] using h.prev xs m ys split

/-- One more leaf of the checkpoint in the log. -/
theorem touched_append (h : Touched globalepoch chain s) {n : Addr} (member : n ∈ chain)
    {loggedepoch : Addr → Nat} {notLogged : Addr → Bool}
    (epochs : ∀ m ≠ n, loggedepoch m = s.loggedepoch m ∧ notLogged m = s.notLogged m) :
    Touched globalepoch chain { s with
      notLogged := notLogged, log := s.log ++ [n], loggedepoch := loggedepoch } := by
  have grows : ∀ m ∈ s.log, m ∈ s.log ++ [n] := fun m recorded => by simp [recorded]
  refine { h with recorded := ?_, made := ?_, logged := ?_, points := ?_, next := ?_, prev := ?_,
                  pc := fun t => (h.pc t).later ⟨fun _ => id, fun _ => id, grows⟩ }
  · intro m recorded
    rw [List.mem_append, List.mem_singleton] at recorded
    obtain recorded | rfl := recorded
    · exact h.recorded m recorded
    · exact member
  · intro m new
    obtain ⟨old, epoch, flag⟩ := h.made m new
    have other : m ≠ n := fun same => old (same ▸ member)
    exact ⟨old, by simp [(epochs m other).1, epoch], by simp [(epochs m other).2, flag]⟩
  · intro m old epoch flag
    by_cases here : m = n
    · simp [here]
    · refine grows m (h.logged m old ?_ ?_)
      · simpa [(epochs m here).1] using epoch
      · simpa [(epochs m here).2] using flag
  · intro m leaf old
    obtain ⟨p, before, same | recorded⟩ := h.points m leaf old
    · exact ⟨p, before, .inl same⟩
    · exact ⟨p, before, .inr (grows p recorded)⟩
  · intro xs m ys split
    exact (h.next xs m ys split).imp_left fun covered => covered.mono grows
  · intro xs m ys split
    exact (h.prev xs m ys split).imp_left fun covered => covered.mono grows

theorem touched_recordNode (h : Touched globalepoch chain s) {n : Addr} (leaf : n ∈ s.leaves) :
    Touched globalepoch chain (s.recordNode globalepoch n) ∧
      Worked chain (s.recordNode globalepoch n) n := by
  rw [State.recordNode]
  split
  · rename_i first
    have member : n ∈ chain := by
      refine (h.known n leaf).resolve_right fun new => ?_
      obtain ⟨-, epoch, flag⟩ := h.made n new
      simp [epoch, flag] at first
    refine ⟨touched_append h member fun m other => ?_, leaf, fun _ => by simp⟩
    simp [Function.update_of_ne other]
  · rename_i again
    simp only [not_or, not_not, Bool.not_eq_true] at again
    exact ⟨h, leaf, fun member => h.logged n member again.1 again.2⟩

theorem leaves_saveCl (s : State nthreads) (n : Addr) :
    (s.saveCl globalepoch n).leaves = s.leaves := by
  rw [State.saveCl]
  split
  · rfl
  · split <;> rfl

theorem touched_saveCl (h : Touched globalepoch chain s) {n : Addr} (leaf : n ∈ s.leaves) :
    Touched globalepoch chain (s.saveCl globalepoch n) := by
  have old (stale : s.loggedepoch n ≠ globalepoch ∨ s.notLogged n = true) : n ∈ chain := by
    refine (h.known n leaf).resolve_right fun new => ?_
    obtain ⟨-, epoch, flag⟩ := h.made n new
    simp [epoch, flag] at stale
  rw [State.saveCl]
  split
  · rename_i first
    refine { h with made := ?_, logged := ?_,
                    pc := fun t => (h.pc t).later ⟨fun _ => id, fun _ => id, fun _ => id⟩ }
    · intro m new
      obtain ⟨notOld, epoch, flag⟩ := h.made m new
      have other : m ≠ n := fun same => notOld (same ▸ old (.inl first))
      simp [Function.update_of_ne other, notOld, epoch, flag]
    · intro m member
      by_cases here : m = n
      · simp [here]
      · simpa [Function.update_of_ne here] using h.logged m member
  · split
    · rename_i second
      refine touched_append h (old (.inr second)) fun m other => ?_
      simp [Function.update_of_ne other]
    · exact h

theorem touched_make (h : Touched globalepoch chain s) {nr : Addr} (fresh : nr ∉ s.leaves)
    (nonnull : nr ≠ 0) : Touched globalepoch chain (s.make globalepoch nr) := by
  have new : nr ∉ chain := fun member => fresh (h.leaves nr member)
  refine { h with known := ?_, null := ?_, made := ?_, logged := ?_,
                  pc := fun t => (h.pc t).later
                    ⟨fun _ => id, fun _ => List.mem_cons_of_mem _, fun _ => id⟩ }
  · exact fun n leaf => (h.known n leaf).imp_right (List.mem_cons_of_mem _)
  · exact ⟨h.null.1, by simp [State.make, h.null.2, nonnull.symm]⟩
  · intro n member
    by_cases here : n = nr
    · simp [State.make, here, new]
    · simpa [State.make, here] using h.made n ((List.mem_cons.mp member).resolve_left here)
  · intro n member
    have other : n ≠ nr := fun same => new (same ▸ member)
    simpa [State.make, State.lock, other] using h.logged n member

/-- `nr` becomes a leaf of the list, with `next` as its next leaf. -/
theorem touched_add (h : Touched globalepoch chain s) {nr next : Addr} (new : nr ∈ s.made)
    (shown : Shown chain s next) :
    Touched globalepoch chain ((s.setNext nr ⟨next, false⟩).add nr) := by
  have linked : Touched globalepoch chain (s.setNext nr ⟨next, false⟩) := by
    refine touched_setNext h (fun member => absurd member (h.made nr new).1) fun _ member => ?_
    obtain ⟨p, before, recorded⟩ := shown member
    exact ⟨p, before, .inr recorded⟩
  refine { linked with leaves := ?_, known := ?_, points := ?_,
                       pc := fun t => (linked.pc t).later
                         ⟨fun _ => List.mem_cons_of_mem _, fun _ => id, fun _ => id⟩ }
  · exact fun n member => List.mem_cons_of_mem _ (linked.leaves n member)
  · intro n leaf
    obtain rfl | leaf := List.mem_cons.mp leaf
    · exact .inr new
    · exact linked.known n leaf
  · intro n leaf
    obtain rfl | leaf := List.mem_cons.mp leaf
    · intro member
      simp only [State.add, State.setNext, Function.update_self] at member ⊢
      obtain ⟨p, before, recorded⟩ := shown member
      exact ⟨p, before, .inr recorded⟩
    · exact linked.points n leaf

/-- The pointer that `lock_next` returns. -/
theorem touched_lockNext (h : Touched globalepoch chain s) {n next : Addr} (worked : Worked chain s n)
    (locks : s.lockNext n = some (next, s')) :
    Touched globalepoch chain s' ∧ Later s s' ∧ Shown chain s next := by
  have shown : Shown chain s (s.cache n).next.ptr := by
    intro member
    obtain ⟨p, before, rfl | recorded⟩ := h.points n worked.leaf member
    · exact ⟨n, before, worked.recorded before.left⟩
    · exact ⟨p, before, recorded⟩
  simp only [State.lockNext] at locks
  split at locks
  · cases locks
    exact ⟨h, ⟨fun _ => id, fun _ => id, fun _ => id⟩, fun member => absurd member h.null.1⟩
  · split at locks
    · cases locks
    · cases locks
      refine ⟨touched_setNext h (fun member => .inl (worked.recorded member)) ?_,
        ⟨fun _ => id, fun _ => id, fun _ => id⟩, shown⟩
      exact h.points n

/-- The leaf before `n`, after the exchange in `unlink`. -/
theorem covered_of_next (h : Touched globalepoch chain s) {n prev : Addr} (worked : Worked chain s n)
    (points : (s.cache prev).next = ⟨n, false⟩) (member : prev ∈ chain) :
    NextCovered chain s.log prev := by
  obtain ⟨xs, ys, split⟩ := List.append_of_mem member
  obtain covered | ⟨next, -⟩ := h.next xs prev ys split
  · exact covered
  rw [points, inOrder, Next.mk.injEq] at next
  cases ys with
  | nil =>
      rw [List.headD_nil] at next
      have leaf := h.known n worked.leaf
      rw [next.1] at leaf
      exact absurd leaf (not_or.mpr h.null)
  | cons m ys =>
      rw [List.headD_cons] at next
      obtain ⟨rfl, -⟩ := next
      refine .inr ⟨n, ⟨xs, ys, split⟩, worked.recorded ?_⟩
      simp [split]

theorem touched_act (h : Touched globalepoch chain s) {t : Fin nthreads} {pc : Pc} {a : Act}
    (good : PcGood chain s pc) (step : act globalepoch s t pc a = some s') :
    Touched globalepoch chain s' := by
  unfold act at step
  split at step
  · -- find
    split at step
    · cases step
      rename_i leaf
      exact touched_goto (touched_lock h _) leaf.1
    · cases step
  · -- save
    cases step
    refine touched_goto (touched_saveCl h good) ?_
    simpa only [PcGood, leaves_saveCl] using good
  · -- record
    cases step
    obtain ⟨touched, worked⟩ := touched_recordNode h good
    exact touched_goto touched worked
  · cases step
    exact touched_goto (touched_unlock h _) trivial
  · cases step
    exact touched_goto (touched_unlock h _) trivial
  · -- split
    split at step
    · cases step
      rename_i fresh
      refine touched_goto (touched_make h fresh.2.1 fresh.1) ⟨?_, List.mem_cons_self⟩
      exact Worked.later good ⟨fun _ => id, fun _ => List.mem_cons_of_mem _, fun _ => id⟩
    · cases step
  · cases step
    refine touched_goto (touched_setPrev h fun member => absurd member (h.made _ good.2).1) ?_
    exact ⟨good.1.later ⟨fun _ => id, fun _ => id, fun _ => id⟩, good.2⟩
  · obtain ⟨⟨next, u⟩, locks, step⟩ := Option.bind_eq_some_iff.mp step
    cases step
    obtain ⟨touched, later, shown⟩ := touched_lockNext h good.1 locks
    exact touched_goto touched ⟨good.1.later later, later.made _ good.2, shown.later later⟩
  · cases step
    have later (nr : Addr) (v : Next) : Later s ((s.setNext nr v).add nr) :=
      ⟨fun _ => List.mem_cons_of_mem _, fun _ => id, fun _ => id⟩
    refine touched_goto (touched_add h good.2.1 good.2.2) ?_
    split
    · exact ⟨good.1.later (later _ _), good.2.1⟩
    · exact ⟨good.1.later (later _ _), good.2.1, good.2.2.later (later _ _)⟩
  · cases step
    refine touched_goto (touched_setPrev h fun member => .inr (good.2.2 member)) ?_
    exact ⟨good.1.later ⟨fun _ => id, fun _ => id, fun _ => id⟩, good.2.1⟩
  · cases step
    refine touched_goto (touched_setNext h (fun member => .inl (good.1.recorded member)) ?_) trivial
    exact fun _ member => absurd member (h.made _ good.2).1
  · -- remove
    split at step
    · cases step
    · cases step
      exact touched_goto (touched_markDeleted h _)
        (Worked.later good ⟨fun _ => id, fun _ => id, fun _ => id⟩)
  · obtain ⟨⟨next, u⟩, locks, step⟩ := Option.bind_eq_some_iff.mp step
    cases step
    obtain ⟨touched, later, shown⟩ := touched_lockNext h good locks
    exact touched_goto touched ⟨Worked.later good later, shown.later later⟩
  · cases step
    exact touched_goto h good
  · split at step
    · cases step
      rename_i n next prev points
      have same : Later s (s.setNext prev ⟨n, true⟩) := ⟨fun _ => id, fun _ => id, fun _ => id⟩
      have covered := covered_of_next h good.1 points
      refine touched_goto (touched_setNext h covered fun leaf => ?_) ?_
      · simpa only [points] using h.points prev leaf
      · split
        · exact ⟨good.1.later same, good.2.later same, covered⟩
        · exact ⟨good.1.later same, good.2.later same, covered⟩
    · cases step
      exact touched_goto h good
  · cases step
    refine touched_goto (touched_setPrev h fun member => .inr (good.2.1 member)) ?_
    exact ⟨good.1.later ⟨fun _ => id, fun _ => id, fun _ => id⟩,
      good.2.1.later ⟨fun _ => id, fun _ => id, fun _ => id⟩, good.2.2⟩
  · cases step
    refine touched_goto (touched_setNext h good.2.2 fun _ member => ?_) trivial
    obtain ⟨p, before, recorded⟩ := good.2.1 member
    exact ⟨p, before, .inr recorded⟩
  · cases step
    exact touched_goto (touched_unlock (touched_unlock h _) _) trivial
  · cases step

theorem touched_step (h : Touched globalepoch chain s) {l : Label nthreads}
    (step : step globalepoch s l = some s') : Touched globalepoch chain s' := by
  cases l with
  | thread t a => exact touched_act h (h.pc t) step
  | lockPersistent n =>
      simp only [Leaflink.step, Option.ite_none_right_eq_some, Option.some.injEq] at step
      obtain ⟨⟨leaf, -⟩, rfl⟩ := step
      exact (touched_recordNode h leaf).1
  | writeBackNext n =>
      cases step
      refine { h with next := fun xs m ys split => ?_, prev := fun xs m ys split => ?_,
                      pc := fun t => (h.pc t).later ⟨fun _ => id, fun _ => id, fun _ => id⟩ }
      · refine (h.next xs m ys split).imp_right fun ⟨cached, stored⟩ => ⟨cached, ?_⟩
        by_cases here : m = n
        · subst here
          simpa using cached
        · simpa [here] using stored
      · refine (h.prev xs m ys split).imp_right fun ⟨cached, stored⟩ => ⟨cached, ?_⟩
        by_cases here : m = n
        · subst here
          simpa using stored
        · simpa [here] using stored
  | writeBackPrev n =>
      cases step
      refine { h with next := fun xs m ys split => ?_, prev := fun xs m ys split => ?_,
                      pc := fun t => (h.pc t).later ⟨fun _ => id, fun _ => id, fun _ => id⟩ }
      · refine (h.next xs m ys split).imp_right fun ⟨cached, stored⟩ => ⟨cached, ?_⟩
        by_cases here : m = n
        · subst here
          simpa using stored
        · simpa [here] using stored
      · refine (h.prev xs m ys split).imp_right fun ⟨cached, stored⟩ => ⟨cached, ?_⟩
        by_cases here : m = n
        · subst here
          simpa using cached
        · simpa [here] using stored

theorem touched_initial (null : 0 ∉ chain)
    (initial : Checkpoint globalepoch chain s) : Touched globalepoch chain s where
  leaves n member := initial.leaves ▸ member
  recorded n recorded := by simp [initial.log] at recorded
  known n leaf := .inl (initial.leaves ▸ leaf)
  null := ⟨null, by simp [initial.made]⟩
  made n new := by simp [initial.made] at new
  logged n member epoch := absurd epoch (initial.epoch n member)
  points n leaf member := by
    rw [initial.leaves] at leaf
    obtain ⟨xs, ys, split⟩ := List.append_of_mem leaf
    rw [initial.linked xs n ys split, inOrder] at member ⊢
    cases ys with
    | nil => exact absurd member null
    | cons m ys => exact ⟨n, ⟨xs, ys, split⟩, .inl rfl⟩
  next xs n ys split := by
    rw [initial.memory, initial.linked xs n ys split]
    exact .inr ⟨rfl, rfl⟩
  prev xs n ys split := by
    rw [initial.memory, initial.linked xs n ys split]
    exact .inr ⟨rfl, rfl⟩
  pc t := by simp [initial.pc, PcGood]

theorem touched_of_reachable (null : 0 ∉ chain)
    (reachable : (machine nthreads globalepoch chain).Reachable Machine.anyStep s) :
    Touched globalepoch chain s := by
  refine reachable.invariant (fun s initial => touched_initial null initial) ?_
  exact fun s l s' touched _ step => touched_step touched step

end Incll.Proof.Leaflink
