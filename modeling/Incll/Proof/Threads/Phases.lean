import Incll.Model.Threads
import Incll.Proof.Leaf.Crash

/-! # A leaf waits for its rollback or is past it

`undo_incll` tests the entry before it takes the bucket lock and not again under it. As long as the
tests still hold when the lock is taken, a leaf goes through its rollback once. -/

namespace Incll.Proof.Threads
open Incll.Lib Incll.Model Incll.Model.Threads

variable {n : Nat} {s s' : State n} {t : Fin n} {a b : Addr}

/-- The node that a logging call works on. -/
def logging : Pc → Option Addr
  | .logTest _ a | .save _ a | .updateEpochs a | .setNotLogged a | .record _ a | .tag a
  | .invalidate a => some a
  | _ => none

/-- The leaf that is being rolled back. -/
def undoing : Pc → Option Addr
  | .recover _ a | .recoverFinal a => some a
  | _ => none

def bucketOf : Pc → Option Nat
  | .recover _ a | .recoverFinal a | .unlockBucket a => some (computeBucket a)
  | _ => none

def pendingAt (s : State n) (a : Addr) : Bool := (leafAt s a).any (·.pending s.failedepoch)

inductive Phase (s : State n) (a : Addr) : Prop
  | waiting (pending : pendingAt s a = true) (quiet : ∀ t, logging (s.pc t) ≠ some a)
      (rollbacks : s.rollbacks a = 0 ∧ (∀ t, s.pc t ≠ .recoverFinal a) ∨
        s.rollbacks a = 1 ∧ ∃ t, s.pc t = .recoverFinal a)
  | settled (past : pendingAt s a = true → ∃ t, s.pc t = .updateEpochs a)
      (rollbacks : s.rollbacks a ≤ 1) (quiet : ∀ t, undoing (s.pc t) ≠ some a)

structure Inv (s : State n) : Prop where
  epochs : s.failedepoch < s.globalepoch
  below : ∀ a, (s.heap a).isSome → a < s.fresh
  locked : ∀ a u, s.lock a = some u → (s.heap a).isSome
  bucket : ∀ t i, bucketOf (s.pc t) = some i → s.bucket i = some t
  lock : ∀ t a, logging (s.pc t) = some a → s.lock a = some t
  finished : ∀ a, 0 < s.finished a → 0 < s.rollbacks a
  overwritten : ∀ a, s.overwritten a = false
  phase : ∀ a, Phase s a

/-- The leaf whose bucket lock is taken by the step. -/
def bucketLocked (s : State n) (l : Label n) : Option Addr :=
  match l.act, s.pc l.thread with
  | .go, .lockBucket _ a => some a
  | _, _ => none

/-- A thread takes the bucket lock only while the leaf still holds its entry of the failed epoch and
no save of a new entry is under way. -/
def StillPending (s : State n) (l : Label n) : Prop :=
  ∀ a ∈ bucketLocked s l, pendingAt s a = true ∧ ∀ u, s.pc u ≠ .updateEpochs a

instance (s : State n) (l : Label n) : Decidable (StillPending s l) :=
  inferInstanceAs (Decidable (∀ a ∈ bucketLocked s l, _))

/-- The node on which the step starts a logging call. -/
def logStarted (s : State n) (l : Label n) : Option Addr :=
  match l.act, s.pc l.thread with
  | .log _ a, .idle => some a
  | _, _ => none

/-- A logging call starts only on a leaf that holds no entry of the failed epoch. -/
def LogsVisited (s : State n) (l : Label n) : Prop :=
  ∀ a ∈ logStarted s l, pendingAt s a = false

instance (s : State n) (l : Label n) : Decidable (LogsVisited s l) :=
  inferInstanceAs (Decidable (∀ a ∈ logStarted s l, _))

/-! Where the leaf of a step lies. -/

theorem leafAt_setKind_self (k : Kind) : leafAt (s.setKind a k) a = k.leaf? := by
  simp [leafAt, State.setKind]

theorem leafAt_setKind_other (k : Kind) (other : b ≠ a) :
    leafAt (s.setKind a k) b = leafAt s b := by
  simp [leafAt, State.setKind, other]

theorem pendingAt_congr (heap : s'.heap b = s.heap b) (epoch : s'.failedepoch = s.failedepoch) :
    pendingAt s' b = pendingAt s b := by
  simp only [pendingAt, leafAt, heap, epoch]

theorem pendingAt_of_leaf {l : Leaf} (here : s.heap a = some (.leaf l)) :
    pendingAt s a = l.pending s.failedepoch := by
  simp [pendingAt, leafAt, here, Kind.leaf?]

theorem pendingAt_of_internode {i : Internode} (here : s.heap a = some (.internode i)) :
    pendingAt s a = false := by
  simp [pendingAt, leafAt, here, Kind.leaf?]

theorem heap_of_leafAt {l : Leaf} (here : leafAt s a = some l) : s.heap a = some (.leaf l) := by
  obtain ⟨k, at_a, leaf⟩ := Option.bind_eq_some_iff.mp here
  cases k with
  | leaf l' =>
      cases leaf
      exact at_a
  | internode i => cases leaf

/-- The node a step of this thread can change. -/
def touching (pc : Pc) (a : Addr) : Prop := logging pc = some a ∨ undoing pc = some a

theorem forall_moved {pc : Pc} (P : Pc → Prop) (place : s'.pc = Function.update s.pc t pc)
    (here : P pc) (there : ∀ u, u ≠ t → P (s.pc u)) (u : Fin n) : P (s'.pc u) := by
  rw [place]
  by_cases same : u = t
  · rw [same, Function.update_self]
    exact here
  · rw [Function.update_of_ne same]
    exact there u same

/-- A step that has nothing to do with the node at `b`. -/
theorem Phase.aside {pc : Pc} (phase : Phase s b) (place : s'.pc = Function.update s.pc t pc)
    (pending : pendingAt s' b = pendingAt s b) (rollbacks : s'.rollbacks b = s.rollbacks b)
    (before : ¬ touching (s.pc t) b) (after : ¬ touching pc b) : Phase s' b := by
  rw [touching, not_or] at before after
  have survives {pc₀ : Pc} (touches : touching pc₀ b) (u : Fin n) (at_u : s.pc u = pc₀) :
      s'.pc u = pc₀ := by
    rw [place, Function.update_of_ne, at_u]
    rintro rfl
    rw [at_u] at before
    exact touches.elim before.1 before.2
  cases phase with
  | waiting waits quiet rolled =>
      refine .waiting (pending ▸ waits) ?_ ?_
      · exact forall_moved (logging · ≠ some b) place after.1 fun u _ => quiet u
      · rw [rollbacks]
        rcases rolled with ⟨zero, out⟩ | ⟨one, u, at_u⟩
        · refine .inl ⟨zero, forall_moved (· ≠ .recoverFinal b) place ?_ fun u _ => out u⟩
          rintro rfl
          exact after.2 rfl
        · exact .inr ⟨one, u, survives (.inr rfl) u at_u⟩
  | settled past few quiet =>
      refine .settled (fun waits => ?_) (rollbacks ▸ few) ?_
      · obtain ⟨u, at_u⟩ := past (pending ▸ waits)
        exact ⟨u, survives (.inl rfl) u at_u⟩
      · exact forall_moved (undoing · ≠ some b) place after.2 fun u _ => quiet u

/-- A step of a logging call on the node at `a`. -/
theorem Phase.logged {pc : Pc} (phase : Phase s a) (place : s'.pc = Function.update s.pc t pc)
    (call : logging (s.pc t) = some a) (rollbacks : s'.rollbacks a = s.rollbacks a)
    (pending : pendingAt s' a = true → pc = .updateEpochs a) (after : undoing pc = none) :
    Phase s' a := by
  cases phase with
  | waiting _ quiet _ => exact absurd call (quiet t)
  | settled past few quiet =>
      refine .settled (fun waits => ⟨t, ?_⟩) (rollbacks ▸ few) ?_
      · rw [place, Function.update_self, pending waits]
      · exact forall_moved (undoing · ≠ some a) place (by simp [after]) fun u _ => quiet u

theorem Inv.alone (inv : Inv s) (call : logging (s.pc t) = some a) {u : Fin n}
    (other : logging (s.pc u) = some a) : u = t := by
  have here := inv.lock t a call
  rw [inv.lock u a other] at here
  exact Option.some.inj here

/-- A logging call works on a leaf that was visited. -/
theorem Inv.not_pending (inv : Inv s) (call : logging (s.pc t) = some a)
    (outside : s.pc t ≠ .updateEpochs a) : pendingAt s a = false := by
  cases pending : pendingAt s a with
  | false => rfl
  | true =>
      cases inv.phase a with
      | waiting _ quiet _ => exact absurd call (quiet t)
      | settled past _ _ =>
          obtain ⟨u, at_u⟩ := past pending
          have same := inv.alone call (by rw [at_u]; rfl : logging (s.pc u) = some a)
          rw [same] at at_u
          exact absurd at_u outside

/-! The steps. -/

/-- Everything but the heap, the logs, the visits and the places of the threads. -/
structure Rest (s s' : State n) : Prop where
  failedepoch : s'.failedepoch = s.failedepoch
  globalepoch : s'.globalepoch = s.globalepoch
  fresh : s'.fresh = s.fresh
  lock : s'.lock = s.lock
  bucket : s'.bucket = s.bucket
  rollbacks : s'.rollbacks = s.rollbacks
  finished : s'.finished = s.finished
  overwritten : s'.overwritten = s.overwritten

theorem below_update {k : Kind} (below : ∀ a, (s.heap a).isSome → a < s.fresh)
    (here : (s.heap a).isSome) (b : Addr)
    (some : (Function.update s.heap a (some k) b).isSome) : b < s.fresh := by
  by_cases same : b = a
  · exact same ▸ below a here
  · rw [Function.update_of_ne same] at some
    exact below b some

theorem isSome_update {k : Kind} (old : (s.heap b).isSome) :
    (Function.update s.heap a (some k) b).isSome := by
  by_cases same : b = a
  · simp [same]
  · rwa [Function.update_of_ne same]

theorem undoing_of_bucketOf {pc : Pc} (h : bucketOf pc = none) : undoing pc = none := by
  cases pc <;> first | rfl | cases h

theorem bucketOf_of_logging {pc : Pc} (h : logging pc = some a) : bucketOf pc = none := by
  cases pc <;> first | rfl | cases h

theorem not_touching {pc : Pc} (log : logging pc = none) (bucket : bucketOf pc = none) (b : Addr) :
    ¬ touching pc b := by
  rintro (call | undo)
  · rw [log] at call
    cases call
  · rw [undoing_of_bucketOf bucket] at undo
    cases undo

theorem Inv.bucket_moved {pc : Pc} (inv : Inv s) (place : s'.pc = Function.update s.pc t pc)
    (kept : ∀ u i, u ≠ t → s.bucket i = some u → s'.bucket i = some u)
    (here : ∀ i, bucketOf pc = some i → s'.bucket i = some t) (u : Fin n) (i : Nat)
    (holds : bucketOf (s'.pc u) = some i) : s'.bucket i = some u := by
  rw [place] at holds
  by_cases same : u = t
  · subst same
    rw [Function.update_self] at holds
    exact here i holds
  · rw [Function.update_of_ne same] at holds
    exact kept u i same (inv.bucket u i holds)

theorem Inv.lock_moved {pc : Pc} (inv : Inv s) (place : s'.pc = Function.update s.pc t pc)
    (kept : ∀ u b, u ≠ t → s.lock b = some u → s'.lock b = some u)
    (here : ∀ b, logging pc = some b → s'.lock b = some t) (u : Fin n) (b : Addr)
    (call : logging (s'.pc u) = some b) : s'.lock b = some u := by
  rw [place] at call
  by_cases same : u = t
  · subst same
    rw [Function.update_self] at call
    exact here b call
  · rw [Function.update_of_ne same] at call
    exact kept u b same (inv.lock u b call)

theorem inv_aside {pc : Pc} (inv : Inv s) (rest : Rest s s') (heap : s'.heap = s.heap)
    (place : s'.pc = Function.update s.pc t pc) (log : logging (s.pc t) = none)
    (bucket : bucketOf (s.pc t) = none) (log' : logging pc = none) (bucket' : bucketOf pc = none) :
    Inv s' := by
  refine ⟨?_, ?_, ?_, ?_, ?_, ?_, ?_, fun b => ?_⟩
  · rw [rest.failedepoch, rest.globalepoch]
    exact inv.epochs
  · rw [heap, rest.fresh]
    exact inv.below
  · rw [heap, rest.lock]
    exact inv.locked
  · refine inv.bucket_moved place (fun u i _ holds => by rw [rest.bucket]; exact holds) ?_
    simp [bucket']
  · refine inv.lock_moved place (fun u b _ holds => by rw [rest.lock]; exact holds) ?_
    simp [log']
  · rw [rest.finished, rest.rollbacks]
    exact inv.finished
  · rw [rest.overwritten]
    exact inv.overwritten
  · exact (inv.phase b).aside place (pendingAt_congr (by rw [heap]) rest.failedepoch)
      (by rw [rest.rollbacks]) (not_touching log bucket b) (not_touching log' bucket' b)

/-- A step of a logging call that leaves `k` at `a`. -/
theorem inv_logged {pc : Pc} {k : Kind} (inv : Inv s) (rest : Rest s s')
    (heap : s'.heap = Function.update s.heap a (some k)) (here : (s.heap a).isSome)
    (place : s'.pc = Function.update s.pc t pc) (call : logging (s.pc t) = some a)
    (after : logging pc = none ∨ logging pc = some a) (bucket : bucketOf pc = none)
    (pending : k.leaf?.any (·.pending s.failedepoch) = true → pc = .updateEpochs a) : Inv s' := by
  refine ⟨?_, ?_, ?_, ?_, ?_, ?_, ?_, fun b => ?_⟩
  · rw [rest.failedepoch, rest.globalepoch]
    exact inv.epochs
  · rw [heap, rest.fresh]
    exact below_update inv.below here
  · rw [heap, rest.lock]
    exact fun b u holds => isSome_update (inv.locked b u holds)
  · refine inv.bucket_moved place (fun u i _ holds => by rw [rest.bucket]; exact holds) ?_
    simp [bucket]
  · refine inv.lock_moved place (fun u b _ holds => by rw [rest.lock]; exact holds) ?_
    intro b call'
    rcases after with none | again
    · rw [none] at call'
      cases call'
    · rw [again] at call'
      cases call'
      rw [rest.lock]
      exact inv.lock t a call
  · rw [rest.finished, rest.rollbacks]
    exact inv.finished
  · rw [rest.overwritten]
    exact inv.overwritten
  · by_cases same : b = a
    · subst same
      refine (inv.phase b).logged place call (by rw [rest.rollbacks]) (fun waits => pending ?_)
        (undoing_of_bucketOf bucket)
      simpa [pendingAt, leafAt, heap, rest.failedepoch] using waits
    · refine (inv.phase b).aside place ?_ (by rw [rest.rollbacks]) ?_ ?_
      · exact pendingAt_congr (by rw [heap, Function.update_of_ne same]) rest.failedepoch
      · rintro (log | undo)
        · rw [call] at log
          exact same (Option.some.inj log).symm
        · rw [undoing_of_bucketOf (bucketOf_of_logging call)] at undo
          cases undo
      · rintro (log | undo)
        · rcases after with none | again
          · rw [none] at log
            cases log
          · rw [again] at log
            exact same (Option.some.inj log).symm
        · rw [undoing_of_bucketOf bucket] at undo
          cases undo

/-- Two threads that hold the same bucket are one. -/
theorem Inv.bucket_alone (inv : Inv s) {u : Fin n} {i : Nat} (here : bucketOf (s.pc t) = some i)
    (there : bucketOf (s.pc u) = some i) : u = t := by
  have holds := inv.bucket t i here
  rw [inv.bucket u i there] at holds
  exact Option.some.inj holds

theorem bucketOf_of_undoing {pc : Pc} (h : undoing pc = some a) :
    bucketOf pc = some (computeBucket a) := by
  cases pc <;> cases h <;> rfl

theorem logging_of_bucketOf {pc : Pc} {i : Nat} (h : bucketOf pc = some i) : logging pc = none := by
  cases pc <;> first | rfl | cases h

theorem inv_lockBucket {e : Entry} (inv : Inv s) (at_t : s.pc t = .lockBucket e a)
    (free : s.bucket (computeBucket a) = none) (pending : pendingAt s a = true)
    (outside : ∀ u, s.pc u ≠ .updateEpochs a) :
    Inv { s.goto t (.recover e a) with
      bucket := Function.update s.bucket (computeBucket a) (some t) } := by
  have nobody (u : Fin n) : bucketOf (s.pc u) ≠ some (computeBucket a) := by
    intro holds
    rw [inv.bucket u _ holds] at free
    cases free
  refine ⟨inv.epochs, inv.below, inv.locked, inv.bucket_moved rfl ?_ ?_, inv.lock_moved rfl ?_ ?_,
    inv.finished, inv.overwritten, fun b => ?_⟩
  · intro u i _ holds
    have other : i ≠ computeBucket a := by
      rintro rfl
      rw [free] at holds
      cases holds
    exact (Function.update_of_ne other ..).trans holds
  · intro i here
    cases here
    exact Function.update_self ..
  · exact fun u b _ holds => holds
  · exact nofun
  · by_cases same : b = a
    · subst same
      cases inv.phase b with
      | settled past _ _ =>
          obtain ⟨u, at_u⟩ := past pending
          exact absurd at_u (outside u)
      | waiting waits quiet rolled =>
          refine .waiting waits ?_ (.inl ?_)
          · exact forall_moved (s := s) (logging · ≠ some b) rfl nofun fun u _ => quiet u
          · rcases rolled with ⟨zero, out⟩ | ⟨-, u, at_u⟩
            · exact ⟨zero, forall_moved (s := s) (· ≠ .recoverFinal b) rfl nofun fun u _ => out u⟩
            · exact absurd (by rw [at_u]; rfl) (nobody u)
    · refine (inv.phase b).aside (t := t) rfl rfl rfl ?_ ?_
      · rw [at_t]
        exact not_touching rfl rfl b
      · rintro (log | undo)
        · cases log
        · exact same (Option.some.inj undo).symm

/-- The thread that rolls a leaf back is the only one that does. -/
theorem Inv.undoing_alone (inv : Inv s) (here : undoing (s.pc t) = some a) {u : Fin n}
    (there : undoing (s.pc u) = some a) : u = t :=
  inv.bucket_alone (bucketOf_of_undoing here) (bucketOf_of_undoing there)

theorem inv_recover {e : Entry} {l : Leaf} (inv : Inv s) (at_t : s.pc t = .recover e a)
    (leaf : leafAt s a = some l) :
    Inv (((s.setLeaf a (recoverEntry l e)).noteRollback a).goto t (.recoverFinal a)) := by
  have here := heap_of_leafAt leaf
  have undo : undoing (s.pc t) = some a := by rw [at_t]; rfl
  have words : (recoverEntry l e).incll = l.incll := by cases e <;> rfl
  have first : s.rollbacks a = 0 := by
    cases inv.phase a with
    | settled _ _ quiet => exact absurd undo (quiet t)
    | waiting _ _ rolled =>
        rcases rolled with ⟨zero, -⟩ | ⟨-, u, at_u⟩
        · exact zero
        · have same := inv.undoing_alone undo (by rw [at_u]; rfl : undoing (s.pc u) = some a)
          rw [same, at_t] at at_u
          cases at_u
  have none : s.finished a = 0 := by
    by_contra some
    have := inv.finished a (Nat.pos_of_ne_zero some)
    omega
  refine ⟨inv.epochs, below_update inv.below (by simp [here]),
    fun b u holds => isSome_update (inv.locked b u holds),
    inv.bucket_moved rfl (fun _ _ _ holds => holds) ?_,
    inv.lock_moved rfl (fun _ _ _ holds => holds) (by simp [logging]), ?_, ?_, fun b => ?_⟩
  · intro i holds
    cases holds
    exact inv.bucket t _ (by rw [at_t]; rfl)
  · intro b some
    simp only [State.goto, State.noteRollback, State.setLeaf] at some ⊢
    by_cases same : b = a
    · simp [same]
    · rw [Function.update_of_ne same]
      exact inv.finished b some
  · intro b
    simp only [State.goto, State.noteRollback, State.setLeaf]
    by_cases same : b = a
    · simp [same, inv.overwritten, none]
    · rw [Function.update_of_ne same]
      exact inv.overwritten b
  · by_cases same : b = a
    · subst same
      cases inv.phase b with
      | settled _ _ quiet => exact absurd undo (quiet t)
      | waiting waits quiet _ =>
          refine .waiting ?_ ?_ (.inr ⟨?_, t, ?_⟩)
          · rw [pendingAt_of_leaf here] at waits
            simpa [pendingAt, leafAt, State.goto, State.noteRollback, State.setLeaf, Kind.leaf?,
              Leaf.pending, Leaf.holdsEntry, words] using waits
          · exact forall_moved (s := s) (logging · ≠ some b) rfl (by simp [logging]) fun u _ => quiet u
          · simp [State.goto, State.noteRollback, State.setLeaf, first]
          · simp [State.goto]
    · refine (inv.phase b).aside (t := t) rfl ?_ ?_ ?_ ?_
      · exact pendingAt_congr (by simp [State.goto, State.noteRollback, State.setLeaf, same]) rfl
      · simp [State.goto, State.noteRollback, State.setLeaf, same]
      · rw [at_t]
        rintro (log | undo)
        · cases log
        · exact same (Option.some.inj undo).symm
      · rintro (log | undo)
        · cases log
        · exact same (Option.some.inj undo).symm

theorem not_pending_recoverFinal (fe ge : Nat) (l : Leaf) :
    (l.recoverFinal ge).pending fe = false := by
  simp [Leaf.pending, Leaf.holdsEntry, Leaf.recoverFinal, Incll.recoverFinal, Incll.updateEpochs,
    Incll.invalidateCls]

theorem inv_recoverFinal {l : Leaf} (inv : Inv s) (at_t : s.pc t = .recoverFinal a)
    (leaf : leafAt s a = some l) :
    Inv ((s.setLeaf a (l.recoverFinal s.globalepoch)).goto t (.unlockBucket a)) := by
  have here := heap_of_leafAt leaf
  have undo : undoing (s.pc t) = some a := by rw [at_t]; rfl
  refine ⟨inv.epochs, below_update inv.below (by simp [here]),
    fun b u holds => isSome_update (inv.locked b u holds),
    inv.bucket_moved rfl (fun _ _ _ holds => holds) ?_,
    inv.lock_moved rfl (fun _ _ _ holds => holds) nofun, inv.finished, inv.overwritten,
    fun b => ?_⟩
  · intro i holds
    cases holds
    exact inv.bucket t _ (by rw [at_t]; rfl)
  · by_cases same : b = a
    · subst same
      cases inv.phase b with
      | settled _ _ quiet => exact absurd undo (quiet t)
      | waiting _ _ rolled =>
          refine .settled (fun waits => ?_) ?_ ?_
          · simp [pendingAt, leafAt, State.goto, State.setLeaf, Kind.leaf?,
              not_pending_recoverFinal] at waits
          · rcases rolled with ⟨zero, -⟩ | ⟨one, -⟩
            · exact (Nat.le_of_eq zero).trans (Nat.zero_le 1)
            · exact Nat.le_of_eq one
          · refine forall_moved (s := s) (undoing · ≠ some b) rfl nofun fun u other => ?_
            exact fun there => other (inv.undoing_alone undo there)
    · refine (inv.phase b).aside (t := t) rfl ?_ rfl ?_ ?_
      · exact pendingAt_congr (by simp [State.goto, State.setLeaf, same]) rfl
      · rw [at_t]
        rintro (log | undo)
        · cases log
        · exact same (Option.some.inj undo).symm
      · rintro (log | undo)
        · cases log
        · cases undo

theorem inv_unlockBucket (inv : Inv s) (at_t : s.pc t = .unlockBucket a) :
    Inv { s.visit t a with bucket := Function.update s.bucket (computeBucket a) none } := by
  have here : bucketOf (s.pc t) = some (computeBucket a) := by rw [at_t]; rfl
  refine ⟨inv.epochs, inv.below, inv.locked, inv.bucket_moved (t := t) rfl ?_ nofun,
    inv.lock_moved (t := t) rfl (fun _ _ _ holds => holds) nofun, inv.finished,
    inv.overwritten, fun b => ?_⟩
  · intro u i other holds
    have apart : i ≠ computeBucket a := by
      rintro rfl
      rw [inv.bucket t _ here] at holds
      exact other (Option.some.inj holds).symm
    exact (Function.update_of_ne apart ..).trans holds
  · refine (inv.phase b).aside (t := t) rfl rfl rfl ?_ (not_touching rfl rfl b)
    rw [at_t]
    rintro (log | undo)
    · cases log
    · cases undo

/-! The logging calls. -/

theorem heap_self {k : Kind} (here : s.heap a = some k) :
    s.heap = Function.update s.heap a (some k) := by
  rw [← here, Function.update_eq_self]

theorem pending_of_notLogged (fe : Nat) (l : Leaf) (flag : Bool) :
    Leaf.pending fe { l with incll := { l.incll with notLogged := flag } } = l.pending fe := rfl

theorem not_pending_tagged {fe ge : Nat} (epochs : fe < ge) (l : Leaf) {c : Incll}
    (tag : c.loggedepoch = ge) : Leaf.pending fe { l with incll := c } = false := by
  apply not_pending_of_epoch
  rw [tag]
  exact epochs

theorem not_pending_invalidate (fe : Nat) (l : Leaf) :
    Leaf.pending fe { l with incll := l.incll.invalidateCls } = false := by
  simp [Leaf.pending, Leaf.holdsEntry, Incll.invalidateCls]

theorem logBranch_cases (ge : Nat) (l : Leaf) (c : Threads.LogCall) (a : Addr) :
    logBranch ge l c a = .idle ∨ logBranch ge l c a = .save c a ∨ logBranch ge l c a = .record c a := by
  simp only [logBranch]
  split_ifs <;> simp

theorem inv_stepLog (inv : Inv s) (h : stepLog s t (s.pc t) = some s') : Inv s' := by
  cases at_t : s.pc t <;> rw [at_t] at h <;> simp only [stepLog] at h
  case logTest c a =>
    have call : logging (s.pc t) = some a := by rw [at_t]; rfl
    have visited := inv.not_pending call (by simp [at_t])
    obtain ⟨k, here, rfl⟩ := Option.map_eq_some_iff.mp h
    cases k with
    | leaf l =>
        rw [pendingAt_of_leaf here] at visited
        have branch := logBranch_cases s.globalepoch l c a
        refine inv_logged inv ⟨rfl, rfl, rfl, rfl, rfl, rfl, rfl, rfl⟩
          (heap_self here) (by simp [here]) rfl call ?_ ?_ ?_
        · rcases branch with idle | save | record
          · exact .inl (by rw [idle]; rfl)
          · exact .inr (by rw [save]; rfl)
          · exact .inr (by rw [record]; rfl)
        · rcases branch with idle | save | record
          · rw [idle]; rfl
          · rw [save]; rfl
          · rw [record]; rfl
        · simp [Kind.leaf?, visited]
    | internode i =>
        refine inv_logged inv ⟨rfl, rfl, rfl, rfl, rfl, rfl, rfl, rfl⟩
          (heap_self here) (by simp [here]) rfl call ?_ ?_ ?_
        · split
          · exact .inr rfl
          · exact .inl rfl
        · split <;> rfl
        · simp [Kind.leaf?]
  case save c a =>
    have call : logging (s.pc t) = some a := by rw [at_t]; rfl
    obtain ⟨l, leaf, rfl⟩ := Option.map_eq_some_iff.mp h
    have here := heap_of_leafAt leaf
    exact inv_logged inv ⟨rfl, rfl, rfl, rfl, rfl, rfl, rfl, rfl⟩ rfl (by simp [here]) rfl call
      (.inr rfl) rfl fun _ => rfl
  case updateEpochs a =>
    have call : logging (s.pc t) = some a := by rw [at_t]; rfl
    obtain ⟨l, leaf, rfl⟩ := Option.map_eq_some_iff.mp h
    have here := heap_of_leafAt leaf
    refine inv_logged inv ⟨rfl, rfl, rfl, rfl, rfl, rfl, rfl, rfl⟩ rfl (by simp [here]) rfl call
      (.inr rfl) rfl fun waits => ?_
    rw [Kind.leaf?, Option.any_some, not_pending_tagged inv.epochs l rfl] at waits
    cases waits
  case setNotLogged a =>
    have call : logging (s.pc t) = some a := by rw [at_t]; rfl
    have visited := inv.not_pending call (by simp [at_t])
    obtain ⟨l, leaf, rfl⟩ := Option.map_eq_some_iff.mp h
    have here := heap_of_leafAt leaf
    rw [pendingAt_of_leaf here] at visited
    refine inv_logged inv ⟨rfl, rfl, rfl, rfl, rfl, rfl, rfl, rfl⟩ rfl (by simp [here]) rfl call
      (.inl rfl) rfl fun waits => ?_
    rw [Kind.leaf?, Option.any_some, pending_of_notLogged, visited] at waits
    cases waits
  case record c a =>
    have call : logging (s.pc t) = some a := by rw [at_t]; rfl
    have visited := inv.not_pending call (by simp [at_t])
    obtain ⟨k, here, rfl⟩ := Option.map_eq_some_iff.mp h
    cases k with
    | leaf l =>
        rw [pendingAt_of_leaf here] at visited
        refine inv_logged inv ⟨rfl, rfl, rfl, rfl, rfl, rfl, rfl, rfl⟩ rfl (by simp [here]) rfl call
          (.inr ?_) ?_ fun waits => ?_
        · split <;> rfl
        · split <;> rfl
        · rw [Kind.leaf?, Option.any_some, pending_of_notLogged, visited] at waits
          cases waits
    | internode i =>
        refine inv_logged inv ⟨rfl, rfl, rfl, rfl, rfl, rfl, rfl, rfl⟩ (heap_self here)
          (by simp [here]) rfl call (.inr rfl) rfl ?_
        simp [Kind.leaf?]
  case tag a =>
    have call : logging (s.pc t) = some a := by rw [at_t]; rfl
    obtain ⟨k, here, rfl⟩ := Option.map_eq_some_iff.mp h
    cases k with
    | leaf l =>
        refine inv_logged inv ⟨rfl, rfl, rfl, rfl, rfl, rfl, rfl, rfl⟩ rfl (by simp [here]) rfl call
          (.inr rfl) rfl fun waits => ?_
        rw [Kind.leaf?, Option.any_some, not_pending_tagged inv.epochs l rfl] at waits
        cases waits
    | internode i =>
        refine inv_logged inv ⟨rfl, rfl, rfl, rfl, rfl, rfl, rfl, rfl⟩ rfl (by simp [here]) rfl call
          (.inl rfl) rfl ?_
        simp [Kind.leaf?]
  case invalidate a =>
    have call : logging (s.pc t) = some a := by rw [at_t]; rfl
    obtain ⟨l, leaf, rfl⟩ := Option.map_eq_some_iff.mp h
    have here := heap_of_leafAt leaf
    refine inv_logged inv ⟨rfl, rfl, rfl, rfl, rfl, rfl, rfl, rfl⟩ rfl (by simp [here]) rfl call
      (.inl rfl) rfl fun waits => ?_
    rw [Kind.leaf?, Option.any_some, not_pending_invalidate] at waits
    cases waits
  all_goals cases h

/-! `lazy_recovery`. -/

theorem inv_stepRecovery (inv : Inv s) (ok : StillPending s ⟨t, .go⟩)
    (h : stepRecovery s t (s.pc t) = some s') : Inv s' := by
  cases at_t : s.pc t <;> rw [at_t] at h <;> simp only [stepRecovery] at h
  case guard a =>
    obtain ⟨l, -, rfl⟩ := Option.map_eq_some_iff.mp h
    split
    · exact inv_aside inv ⟨rfl, rfl, rfl, rfl, rfl, rfl, rfl, rfl⟩ rfl rfl (by rw [at_t]; rfl)
        (by rw [at_t]; rfl) rfl rfl
    · exact inv_aside inv ⟨rfl, rfl, rfl, rfl, rfl, rfl, rfl, rfl⟩ rfl rfl (by rw [at_t]; rfl)
        (by rw [at_t]; rfl) rfl rfl
  case test e a =>
    obtain ⟨l, -, rfl⟩ := Option.map_eq_some_iff.mp h
    split
    · exact inv_aside inv ⟨rfl, rfl, rfl, rfl, rfl, rfl, rfl, rfl⟩ rfl rfl (by rw [at_t]; rfl)
        (by rw [at_t]; rfl) rfl rfl
    · cases e <;> exact inv_aside inv ⟨rfl, rfl, rfl, rfl, rfl, rfl, rfl, rfl⟩ rfl rfl
        (by rw [at_t]; rfl) (by rw [at_t]; rfl) rfl rfl
  case lockBucket e a =>
    simp only [Option.ite_none_right_eq_some, Option.some.injEq] at h
    obtain ⟨free, rfl⟩ := h
    obtain ⟨pending, outside⟩ := ok a (by simp [bucketLocked, at_t])
    exact inv_lockBucket inv at_t free pending outside
  case recover e a =>
    obtain ⟨l, leaf, rfl⟩ := Option.map_eq_some_iff.mp h
    exact inv_recover inv at_t leaf
  case recoverFinal a =>
    obtain ⟨l, leaf, rfl⟩ := Option.map_eq_some_iff.mp h
    exact inv_recoverFinal inv at_t leaf
  case unlockBucket a =>
    cases h
    exact inv_unlockBucket inv at_t
  all_goals cases h

/-! The other steps. -/

/-- A step that changes no place of a thread. -/
theorem phases_of_idle (inv : Inv s) (idle : s.pc t = .idle) (place : s'.pc = s.pc)
    (rollbacks : s'.rollbacks = s.rollbacks) (pending : ∀ b, pendingAt s' b = pendingAt s b)
    (b : Addr) : Phase s' b := by
  have stays : s'.pc = Function.update s.pc t .idle := by
    rw [place, ← idle, Function.update_eq_self]
  refine (inv.phase b).aside stays (pending b) (by rw [rollbacks]) ?_ (not_touching rfl rfl b)
  rw [idle]
  exact not_touching rfl rfl b

theorem pendingAt_store {k : Kind} (here : s.heap a = some k) (c : Change) (b : Addr) :
    pendingAt (s.setKind a (c.apply k)) b = pendingAt s b := by
  by_cases same : b = a
  · subst same
    have there : (s.setKind b (c.apply k)).heap b = some (c.apply k) := Function.update_self ..
    cases k with
    | leaf l =>
        rw [pendingAt_of_leaf here]
        cases c with
        | leaf f => exact pendingAt_of_leaf (l := { l with body := f l.body }) there
        | internode f => exact pendingAt_of_leaf (l := l) there
    | internode i =>
        rw [pendingAt_of_internode here]
        cases c with
        | leaf f => exact pendingAt_of_internode (i := i) there
        | internode f =>
            exact pendingAt_of_internode (i := { f i with loggedepoch := i.loggedepoch }) there
  · exact pendingAt_congr (by simp [State.setKind, same]) rfl

theorem inv_lock (inv : Inv s) (idle : s.pc t = .idle) (here : (s.heap a).isSome)
    (free : s.lock a = none) : Inv { s with lock := Function.update s.lock a (some t) } := by
  refine ⟨inv.epochs, inv.below, ?_, inv.bucket, ?_, inv.finished, inv.overwritten,
    phases_of_idle inv idle rfl rfl fun _ => rfl⟩
  · intro b u holds
    dsimp only at holds
    by_cases same : b = a
    · exact same ▸ here
    · exact inv.locked b u (by rwa [Function.update_of_ne same] at holds)
  · intro u b call
    have holds := inv.lock u b call
    have same : b ≠ a := by
      rintro rfl
      rw [free] at holds
      cases holds
    exact (Function.update_of_ne same ..).trans holds

theorem inv_unlock {finished : Addr → Nat} (inv : Inv s) (idle : s.pc t = .idle)
    (mine : s.lock a = some t) (counts : ∀ b, 0 < finished b → 0 < s.rollbacks b) :
    Inv { s with lock := Function.update s.lock a none, finished := finished } := by
  refine ⟨inv.epochs, inv.below, ?_, inv.bucket, ?_, counts, inv.overwritten,
    phases_of_idle inv idle rfl rfl fun _ => rfl⟩
  · intro b u holds
    dsimp only at holds
    by_cases same : b = a
    · rw [same, Function.update_self] at holds
      cases holds
    · exact inv.locked b u (by rwa [Function.update_of_ne same] at holds)
  · intro u b call
    have holds := inv.lock u b call
    have same : b ≠ a := by
      rintro rfl
      rw [mine] at holds
      cases holds
      rw [idle] at call
      cases call
    exact (Function.update_of_ne same ..).trans holds

theorem inv_store {k : Kind} (inv : Inv s) (idle : s.pc t = .idle) (here : s.heap a = some k)
    (c : Change) : Inv (s.setKind a (c.apply k)) :=
  ⟨inv.epochs, below_update inv.below (by simp [here]),
    fun b u holds => isSome_update (inv.locked b u holds), inv.bucket, inv.lock, inv.finished,
    inv.overwritten, phases_of_idle inv idle rfl rfl (pendingAt_store here c)⟩

theorem inv_log {c : Threads.LogCall} (inv : Inv s) (idle : s.pc t = .idle) (mine : s.lock a = some t)
    (visited : pendingAt s a = false) : Inv (s.goto t (.logTest c a)) := by
  have notPending : pendingAt s a ≠ true := by simp [visited]
  refine ⟨inv.epochs, inv.below, inv.locked,
    inv.bucket_moved (t := t) rfl (fun _ _ _ holds => holds) nofun,
    inv.lock_moved (t := t) rfl (fun _ _ _ holds => holds) ?_, inv.finished, inv.overwritten,
    fun b => ?_⟩
  · intro b call
    cases call
    exact mine
  · by_cases same : b = a
    · subst same
      cases inv.phase b with
      | waiting waits _ _ => exact absurd waits notPending
      | settled _ few quiet =>
          refine .settled (fun waits => absurd waits notPending) few ?_
          exact forall_moved (s := s) (undoing · ≠ some b) rfl nofun fun u _ => quiet u
    · refine (inv.phase b).aside (t := t) rfl rfl rfl ?_ ?_
      · rw [idle]
        exact not_touching rfl rfl b
      · rintro (log | undo)
        · exact same (Option.some.inj log).symm
        · cases undo

theorem inv_make {k : Kind} (inv : Inv s) (idle : s.pc t = .idle)
    (new : k.leaf?.any (·.pending s.failedepoch) = false) :
    Inv { s.setKind s.fresh k with
      fresh := s.fresh + 1, lock := Function.update s.lock s.fresh (some t) } := by
  have unused : s.heap s.fresh = none := by
    by_contra used
    exact absurd (inv.below s.fresh (Option.isSome_iff_ne_none.mpr used)) (Nat.lt_irrefl _)
  refine ⟨inv.epochs, ?_, ?_, inv.bucket, ?_, inv.finished, inv.overwritten,
    phases_of_idle inv idle rfl rfl fun b => ?_⟩
  · intro b some
    by_cases same : b = s.fresh
    · exact Nat.lt_succ_of_le (Nat.le_of_eq same)
    · have old : (s.heap b).isSome := by simpa [State.setKind, same] using some
      exact Nat.lt_succ_of_lt (inv.below b old)
  · intro b u holds
    dsimp only at holds
    by_cases same : b = s.fresh
    · simp [same, State.setKind]
    · exact isSome_update (inv.locked b u (by rwa [Function.update_of_ne same] at holds))
  · intro u b call
    have holds := inv.lock u b call
    have same : b ≠ s.fresh := by
      rintro rfl
      have := inv.locked _ u holds
      rw [unused] at this
      cases this
    exact (Function.update_of_ne same ..).trans holds
  · by_cases same : b = s.fresh
    · rw [same]
      simpa [pendingAt, leafAt, State.setKind, unused] using new
    · exact pendingAt_congr (by simp [State.setKind, same]) rfl

theorem inv_start {act : Act} (inv : Inv s) (idle : s.pc t = .idle)
    (visited : LogsVisited s ⟨t, act⟩) (h : start s t act = some s') : Inv s' := by
  cases act <;> simp only [start] at h
  case go => cases h
  case lazyRecovery a =>
    obtain ⟨l, -, rfl⟩ := Option.map_eq_some_iff.mp h
    exact inv_aside inv ⟨rfl, rfl, rfl, rfl, rfl, rfl, rfl, rfl⟩ rfl rfl (by rw [idle]; rfl)
      (by rw [idle]; rfl) rfl rfl
  case lock a =>
    simp only [Option.ite_none_right_eq_some, Option.some.injEq] at h
    obtain ⟨⟨here, free⟩, rfl⟩ := h
    exact inv_lock inv idle here free
  case log c a =>
    simp only [Option.ite_none_right_eq_some, Option.some.injEq] at h
    obtain ⟨⟨mine, -⟩, rfl⟩ := h
    exact inv_log inv idle mine (visited a (by simp [logStarted, idle]))
  case store c a =>
    simp only [Option.ite_none_right_eq_some] at h
    obtain ⟨-, h⟩ := h
    obtain ⟨k, here, rfl⟩ := Option.map_eq_some_iff.mp h
    exact inv_store inv idle here c
  case unlock a =>
    simp only [Option.ite_none_right_eq_some, Option.some.injEq] at h
    obtain ⟨mine, rfl⟩ := h
    refine inv_unlock inv idle mine fun b some => ?_
    by_cases same : b = a
    · rw [same, Function.update_self] at some
      rw [same]
      by_contra zero
      rw [if_neg zero] at some
      exact zero (inv.finished a some)
    · exact inv.finished b (by rwa [Function.update_of_ne same] at some)
  case makeLeaf b =>
    cases h
    refine inv_make inv idle ?_
    exact not_pending_of_epoch inv.epochs
  case makeInternode i =>
    cases h
    exact inv_make inv idle rfl
  case raise =>
    cases h
    exact ⟨Nat.lt_succ_of_lt inv.epochs, inv.below, inv.locked, inv.bucket, inv.lock, inv.finished,
      inv.overwritten, phases_of_idle inv idle rfl rfl fun _ => rfl⟩

theorem step_cases {l : Label n} (h : step s l = some s') :
    s.pc l.thread = .idle ∧ start s l.thread l.act = some s' ∨
      l.act = .go ∧ (stepRecovery s l.thread (s.pc l.thread) = some s' ∨
        stepLog s l.thread (s.pc l.thread) = some s') := by
  simp only [step] at h
  split at h
  · next at_t => exact .inl ⟨at_t, h⟩
  · next go _ => exact .inr ⟨go, (Option.or_eq_some_iff.mp h).imp_right And.right⟩
  · cases h

theorem inv_step {l : Label n} (inv : Inv s) (pending : StillPending s l)
    (visited : LogsVisited s l) (h : step s l = some s') : Inv s' := by
  obtain ⟨t, act⟩ := l
  rcases step_cases h with ⟨idle, h⟩ | ⟨rfl, h | h⟩
  · exact inv_start inv idle visited h
  · exact inv_stepRecovery inv pending h
  · exact inv_stepLog inv h

theorem inv_initial (h : Initial s) : Inv s := by
  refine ⟨h.epochs, h.below, ?_, ?_, ?_, ?_, ?_, fun a => ?_⟩
  · simp [h.lock]
  · simp [h.pc, bucketOf]
  · simp [h.pc, logging]
  · simp [h.finished]
  · simp [h.overwritten]
  · cases pending : pendingAt s a with
    | true => exact .waiting pending (by simp [h.pc, logging]) (.inl ⟨by simp [h.rollbacks],
        by simp [h.pc]⟩)
    | false => exact .settled (by simp [pending]) (by simp [h.rollbacks]) (by simp [h.pc, undoing])

theorem Phase.rollbacks_le (phase : Phase s a) : s.rollbacks a ≤ 1 := by
  cases phase with
  | waiting _ _ rolled =>
      rcases rolled with ⟨zero, -⟩ | ⟨one, -⟩
      · exact (Nat.le_of_eq zero).trans (Nat.zero_le 1)
      · exact Nat.le_of_eq one
  | settled _ few _ => exact few

end Incll.Proof.Threads
