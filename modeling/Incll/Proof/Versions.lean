import Incll.Model.Versions

/-! # Version words after recovery -/

namespace Incll.Proof.Versions
open Incll.Lib Incll.Model Incll.Model.Versions

variable {n : Nat} {s s' : State n}

/-- A bit that would make `stable` or `lock` wait. -/
def Waits (v : Nodeversion) : Prop := v.locked = true ∨ v.dirty = true

structure Held (s : State n) : Prop where
  locked : ∀ a ∈ s.nodes, ((s.cache a).version.locked = true ↔ ∃ t, s.holder a = some t)
  dirty : ∀ a ∈ s.nodes, (s.cache a).version.dirty = true → (s.cache a).version.locked = true
  holder : ∀ a t, s.holder a = some t → a ∈ s.nodes
  -- between the two halves of `lock_persistent` the node is not marked
  recording : ∀ t a, s.recording t = some a →
    s.holder a = some t ∧ (s.cache a).version.dirty = false
  images : ∀ e ∈ s.log, e.2.isLeaf = false → e.2.version.dirty = false
  memory : ∀ a ∈ s.tree, (s.memory a).version.dirty = true → (s.memory a).version.locked = true
  tree : s.tree ⊆ s.nodes

/-! What a change of one header keeps. -/

theorem held_modify (h : Held s) {a : Addr} {f : Header → Header}
    (locked : (f (s.cache a)).version.locked = (s.cache a).version.locked)
    (dirty : (f (s.cache a)).version.dirty = true → (s.cache a).version.locked = true)
    (free : (f (s.cache a)).version.dirty = true → (s.cache a).version.dirty = false →
      ∀ t, s.recording t ≠ some a) : Held (s.modify a f) := by
  refine { h with locked := fun b member => ?_, dirty := fun b member => ?_,
                  recording := fun t b recording => ?_ }
  · by_cases here : b = a
    · subst here
      simpa [State.modify, locked] using h.locked b member
    · simpa [State.modify, here] using h.locked b member
  · by_cases here : b = a
    · subst here
      simpa [State.modify, locked] using dirty
    · simpa [State.modify, here] using h.dirty b member
  · obtain ⟨holds, clean⟩ := h.recording t b recording
    refine ⟨holds, ?_⟩
    by_cases here : b = a
    · subst here
      simp only [State.modify, Function.update_self]
      by_contra marked
      exact free (by simpa using marked) clean t recording
    · simpa [State.modify, here] using clean

/-- A change that leaves the three bits alone. -/
theorem held_same (h : Held s) {a : Addr} {f : Header → Header}
    (locked : (f (s.cache a)).version.locked = (s.cache a).version.locked)
    (dirty : (f (s.cache a)).version.dirty = (s.cache a).version.dirty)
    (member : a ∈ s.nodes) : Held (s.modify a f) := by
  refine held_modify h locked (fun marked => h.dirty a member (dirty ▸ marked)) ?_
  intro marked clean
  rw [dirty, clean] at marked
  cases marked

theorem held_append (h : Held s) {e : Addr × Header}
    (image : e.2.isLeaf = false → e.2.version.dirty = false) :
    Held { s with log := s.log ++ [e] } := by
  refine { h with images := fun e' recorded leaf => ?_ }
  rw [List.mem_append, List.mem_singleton] at recorded
  obtain recorded | rfl := recorded
  · exact h.images e' recorded leaf
  · exact image leaf

theorem held_recordNode (h : Held s) {a : Addr} (member : a ∈ s.nodes)
    (image : (s.cache a).isLeaf = false → (s.cache a).version.dirty = false) :
    Held (s.recordNode a) := by
  simp only [State.recordNode]
  split
  · refine held_append (s := s.modify a _) (held_same h ?_ ?_ member) ?_
    · split <;> rfl
    · split <;> rfl
    · split
      · rename_i leaf
        intro internode
        simp [leaf] at internode
      · exact image
  · exact h

theorem recordNode_recording (s : State n) (a : Addr) :
    (s.recordNode a).recording = s.recording := by
  simp only [State.recordNode]
  split <;> rfl

theorem held_saveCl (h : Held s) {a : Addr} (member : a ∈ s.nodes)
    (leaf : (s.cache a).isLeaf = true) : Held (s.saveCl a) := by
  simp only [State.saveCl]
  split
  · exact held_same h rfl rfl member
  · split
    · refine held_append (s := s.modify a _) (held_same h rfl rfl member) fun internode => ?_
      simp [leaf] at internode
    · exact h

theorem held_lock (h : Held s) {t : Fin n} {a : Addr} (locks : s.lock t a = some s') :
    Held s' ∧ s'.holder a = some t ∧ (s'.cache a).version.dirty = false ∧
      s'.recording = s.recording ∧ s'.nodes = s.nodes := by
  simp only [State.lock, Option.ite_none_right_eq_some, Option.some.injEq] at locks
  obtain ⟨⟨member, free⟩, rfl⟩ := locks
  have clean : (s.cache a).version.dirty = false := by
    by_contra marked
    have := h.dirty a member (by simpa using marked)
    simp [free] at this
  refine ⟨{ h with locked := ?_, dirty := ?_, holder := ?_, recording := ?_ }, by simp,
    by simpa [State.modify, Header.setVersion, Nodeversion.dirty] using clean, rfl, rfl⟩
  · intro b known
    by_cases here : b = a
    · subst here
      simp [State.modify, Header.setVersion]
    · simpa [State.modify, here] using h.locked b known
  · intro b known
    by_cases here : b = a
    · subst here
      simp [State.modify, Header.setVersion]
    · simpa [State.modify, here] using h.dirty b known
  · intro b u holds
    by_cases here : b = a
    · exact here ▸ member
    · exact h.holder b u (by simpa [here] using holds)
  · intro u b recording
    obtain ⟨holds, unmarked⟩ := h.recording u b recording
    have other : b ≠ a := by
      rintro rfl
      have := (h.locked b member).mpr ⟨u, holds⟩
      simp [free] at this
    simpa [State.modify, other] using And.intro holds unmarked

theorem held_mark (h : Held s) {t : Fin n} {a : Addr} {f : Nodeversion → Nodeversion}
    (idle : s.recording t = none) (marks : mark s t a f = some s')
    (keeps : ∀ v, (f v).locked = v.locked) : Held s' := by
  simp only [mark, Option.ite_none_right_eq_some, Option.some.injEq] at marks
  obtain ⟨holds, rfl⟩ := marks
  have member := h.holder a t holds
  refine held_modify h (keeps _) (fun _ => (h.locked a member).mpr ⟨t, holds⟩) ?_
  intro _ _ u recording
  obtain ⟨holds', -⟩ := h.recording u a recording
  rw [holds] at holds'
  cases holds'
  rw [idle] at recording
  cases recording

theorem unlock_clean (v : Nodeversion) : v.unlock.locked = false ∧ v.unlock.dirty = false := by
  rw [Nodeversion.unlock]
  split
  · exact ⟨rfl, rfl⟩
  · rename_i split
    exact ⟨rfl, by simpa [Nodeversion.dirty] using split⟩

theorem held_unlock (h : Held s) {t : Fin n} {a : Addr} (idle : s.recording t = none)
    (holds : s.holder a = some t) : Held (s.unlock a) := by
  obtain ⟨free, clean⟩ := unlock_clean (s.cache a).version
  refine { h with locked := ?_, dirty := ?_, holder := ?_, recording := ?_ }
  · intro b member
    by_cases here : b = a
    · subst here
      simp [State.unlock, State.modify, Header.setVersion, free]
    · simpa [State.unlock, State.modify, here] using h.locked b member
  · intro b member
    by_cases here : b = a
    · subst here
      simp [State.unlock, State.modify, Header.setVersion, clean]
    · simpa [State.unlock, State.modify, here] using h.dirty b member
  · intro b u holds'
    by_cases here : b = a
    · exact here ▸ h.holder a t holds
    · exact h.holder b u (by simpa [State.unlock, here] using holds')
  · intro u b recording
    obtain ⟨holds', unmarked⟩ := h.recording u b recording
    have other : b ≠ a := by
      rintro rfl
      rw [holds] at holds'
      cases holds'
      rw [show s.recording t = some b from recording] at idle
      cases idle
    simpa [State.unlock, State.modify, other] using And.intro holds' unmarked

theorem held_make (h : Held s) {t : Fin n} {a : Addr} {isLeaf : Bool} {version : Nodeversion}
    (new : a ∉ s.nodes) (marked : version.dirty = true → version.locked = true) :
    Held (s.make t a isLeaf version) := by
  refine { h with locked := ?_, dirty := ?_, holder := ?_, recording := ?_, tree := ?_ }
  · intro b member
    by_cases here : b = a
    · subst here
      cases locked : version.locked <;> simp [State.make, State.modify, locked]
    · simpa [State.make, State.modify, here] using
        h.locked b ((List.mem_cons.mp member).resolve_left here)
  · intro b member
    by_cases here : b = a
    · subst here
      simpa [State.make, State.modify] using marked
    · simpa [State.make, State.modify, here] using
        h.dirty b ((List.mem_cons.mp member).resolve_left here)
  · intro b u holds
    by_cases here : b = a
    · exact here ▸ List.mem_cons_self
    · exact List.mem_cons_of_mem _ (h.holder b u (by simpa [State.make, here] using holds))
  · intro u b recording
    obtain ⟨holds, unmarked⟩ := h.recording u b recording
    have other : b ≠ a := fun same => new (same ▸ h.holder b u holds)
    simpa [State.make, State.modify, other] using And.intro holds unmarked
  · exact fun b member => List.mem_cons_of_mem _ (h.tree member)

theorem held_act (h : Held s) {t : Fin n} {pending : Option Addr} {a : Act}
    (pc : s.recording t = pending) (step : act s t pending a = some s') : Held s' := by
  unfold act at step
  split at step
  · exact (held_lock h step).1
  · obtain ⟨u, locks, rfl⟩ := Option.map_eq_some_iff.mp step
    obtain ⟨held, holds, clean, same, -⟩ := held_lock h locks
    refine { held with recording := fun v b recording => ?_ }
    by_cases own : v = t
    · subst own
      simp only [Function.update_self, Option.some.injEq] at recording
      exact recording ▸ ⟨holds, clean⟩
    · exact held.recording v b (by simpa [own] using recording)
  · cases step
    rename_i a
    obtain ⟨holds, clean⟩ := h.recording t a pc
    have recorded := held_recordNode h (h.holder a t holds) fun _ => clean
    refine { recorded with recording := fun u b recording => ?_ }
    by_cases own : u = t
    · simp [own] at recording
    · refine recorded.recording u b ?_
      rw [recordNode_recording]
      simpa [own] using recording
  · simp only [Option.ite_none_right_eq_some, Option.some.injEq] at step
    obtain ⟨⟨holds, leaf⟩, rfl⟩ := step
    refine held_recordNode h (h.holder _ t holds) fun internode => ?_
    simp [leaf] at internode
  · simp only [Option.ite_none_right_eq_some, Option.some.injEq] at step
    obtain ⟨⟨holds, leaf⟩, rfl⟩ := step
    exact held_saveCl h (h.holder _ t holds) leaf
  · exact held_mark h pc step fun _ => rfl
  · exact held_mark h pc step fun _ => rfl
  · exact held_mark h pc step fun _ => rfl
  · simp only [Option.ite_none_right_eq_some, Option.some.injEq] at step
    obtain ⟨member, rfl⟩ := step
    exact held_same h rfl rfl member
  · simp only [Option.ite_none_right_eq_some, Option.some.injEq] at step
    obtain ⟨holds, rfl⟩ := step
    exact held_unlock h pc holds
  · simp only [Option.ite_none_left_eq_some, Option.some.injEq] at step
    obtain ⟨new, rfl⟩ := step
    exact held_make h new (by decide)
  · simp only [Option.ite_none_right_eq_some, Option.some.injEq] at step
    obtain ⟨⟨new, holds⟩, rfl⟩ := step
    exact held_make h new (h.dirty _ (h.holder _ t holds))
  · cases step

/-! A crash. -/

def isRecorded (s : State n) (a : Addr) : Bool := s.log.any (·.1 == a)

/-- No node of the checkpoint that is not recorded was locked when its version word was last written
back. -/
def covered (s : State n) : Bool :=
  s.tree.all fun a => isRecorded s a || !(s.memory a).version.locked

theorem undo_unrecorded (log : List (Addr × Header)) (memory : Addr → Header) {a : Addr}
    (none : ∀ e ∈ log, e.1 ≠ a) : log.foldl State.undoEntry memory a = memory a := by
  induction log generalizing memory with
  | nil => rfl
  | cons e log ih =>
      rw [List.foldl_cons, ih _ fun e' member => none e' (List.mem_cons_of_mem _ member), State.undoEntry,
        Function.update_of_ne (none e (by simp)).symm]

theorem undo_recorded (log : List (Addr × Header)) (memory : Addr → Header) {a : Addr}
    (some : ∃ e ∈ log, e.1 = a) :
    ∃ e ∈ log, e.1 = a ∧ log.foldl State.undoEntry memory a = e.2.fixState := by
  induction log generalizing memory with
  | nil => simp at some
  | cons e log ih =>
      rw [List.foldl_cons]
      by_cases later : ∃ e ∈ log, e.1 = a
      · obtain ⟨e', member, addr, undone⟩ := ih (State.undoEntry memory e) later
        exact ⟨e', List.mem_cons_of_mem _ member, addr, undone⟩
      · simp only [not_exists, not_and] at later
        have own : e.1 = a := by
          obtain ⟨e', member, addr⟩ := some
          obtain rfl | member := List.mem_cons.mp member
          · exact addr
          · exact absurd addr (later e' member)
        refine ⟨e, by simp, own, ?_⟩
        rw [undo_unrecorded log _ later, State.undoEntry, own, Function.update_self]

theorem fixState_clean {h : Header} (image : h.isLeaf = false → h.version.dirty = false) :
    ¬ Waits h.fixState.version := by
  rw [Header.fixState]
  split
  · simp [Waits, Nodeversion.resetState, Nodeversion.make, Nodeversion.dirty]
  · rename_i internode
    have clean := image (by simpa using internode)
    simpa [Waits, Nodeversion.fixLock, Nodeversion.dirty] using clean

/-- Recovery clears the bits of all nodes of the checkpoint, if and only if the crash is covered. -/
theorem crash_clean_iff (h : Held s) :
    (∀ a ∈ s.crash.nodes, ¬ Waits (s.crash.cache a).version) ↔ covered s = true := by
  simp only [covered, List.all_eq_true, Bool.or_eq_true, Bool.not_eq_true']
  refine forall₂_congr fun a member => ?_
  show ¬ Waits (s.log.foldl State.undoEntry s.memory a).version ↔ _
  by_cases recorded : ∃ e ∈ s.log, e.1 = a
  · obtain ⟨e, entry, -, undone⟩ := undo_recorded s.log s.memory recorded
    have known : isRecorded s a = true := by simpa [isRecorded] using recorded
    rw [undone]
    exact ⟨fun _ => .inl known, fun _ => fixState_clean (h.images e entry)⟩
  · simp only [not_exists, not_and] at recorded
    have unknown : isRecorded s a = false := by
      simp only [isRecorded, List.any_eq_false, beq_iff_eq]
      exact recorded
    rw [undo_unrecorded s.log s.memory recorded]
    constructor
    · intro free
      refine .inr ?_
      by_contra locked
      exact free (.inl (by simpa using locked))
    · rintro (known | free)
      · simp [unknown] at known
      · rintro (locked | dirty)
        · simp [free] at locked
        · have locked := h.memory a member dirty
          simp [free] at locked

theorem held_crash (h : Held s) (allowed : covered s = true) : Held s.crash := by
  have clean := (crash_clean_iff h).mpr allowed
  refine ⟨fun a member => ?_, fun a member dirty => ?_, nofun, nofun, nofun, h.memory, fun _ => id⟩
  · have free := clean a member
    simp only [Waits, not_or] at free
    simp [State.crash] at free ⊢
    exact free.1
  · exact absurd (.inr dirty) (clean a member)

/-! Runs. -/

def coveredCrash (s : State n) : Label n → Bool
  | .crash => covered s
  | _ => true

theorem held_step (h : Held s) {l : Label n} (allowed : coveredCrash s l = true)
    (step : step s l = some s') : Held s' := by
  cases l with
  | thread t a => exact held_act h rfl step
  | writeBack a =>
      cases step
      refine { h with memory := fun b member => ?_ }
      by_cases here : b = a
      · subst here
        simpa using h.dirty b (h.tree member)
      · simpa [here] using h.memory b member
  | checkpoint tree =>
      simp only [Versions.step, Option.ite_none_right_eq_some, Option.some.injEq] at step
      obtain ⟨known, rfl⟩ := step
      exact { h with memory := fun a member => h.dirty a (known member), tree := known,
                     images := nofun }
  | crash =>
      cases step
      exact held_crash h allowed

theorem held_initial (h : Initial s) : Held s := by
  refine ⟨?_, ?_, ?_, ?_, ?_, ?_, ?_⟩
  · intro a member
    simp [h.holder, (h.clean a member).1]
  · intro a member dirty
    simp [(h.clean a member).2] at dirty
  · simp [h.holder]
  · simp [h.recording]
  · simp [h.log]
  · intro a member dirty
    rw [h.memory, (h.clean a (h.tree ▸ member)).2] at dirty
    cases dirty
  · exact h.tree ▸ fun _ => id

/-- In a run whose crashes are all covered, a thread of the present execution holds the lock of every
node that another one would wait for; and a crash leaves no such node if and only if it is covered. -/
theorem bits_released (reachable : (machine n).Reachable (coveredCrash · · = true) s) :
    (∀ a ∈ s.nodes, Waits (s.cache a).version → ∃ t, s.holder a = some t) ∧
      ∀ s', step s .crash = some s' →
        ((∀ a ∈ s'.nodes, ¬ Waits (s'.cache a).version) ↔ covered s = true) := by
  have held : Held s := reachable.invariant (fun _ initial => held_initial initial)
    fun _ _ _ held allowed step => held_step held allowed step
  constructor
  · rintro a member (locked | dirty)
    · exact (held.locked a member).mp locked
    · exact (held.locked a member).mp (held.dirty a member dirty)
  · intro s' crash
    cases crash
    exact crash_clean_iff held

/-! One leaf and one thread. -/

def oneLeaf : State 1 where
  cache _ := ⟨true, .make, 0, false⟩
  memory _ := ⟨true, .make, 0, false⟩
  nodes := [1]
  tree := [1]
  log := []
  globalepoch := 1
  holder _ := none
  recording _ := none

theorem reachable_oneLeaf (allowed : State 1 → Label 1 → Prop) :
    (machine 1).Reachable allowed oneLeaf := .initial ⟨rfl, rfl, rfl, rfl, rfl, by decide⟩

/-- The leaf is recorded before the crash. -/
theorem bits_released_recorded : ∃ s : State 1,
    (machine 1).Reachable (coveredCrash · · = true) s ∧ s.globalepoch = 2 ∧
      (∀ a ∈ s.nodes, Waits (s.cache a).version → ∃ t, s.holder a = some t) ∧
      ∀ s', step s .crash = some s' →
        ((∀ a ∈ s'.nodes, ¬ Waits (s'.cache a).version) ↔ covered s = true) := by
  obtain ⟨s, reachable, epoch⟩ := (reachable_oneLeaf (coveredCrash · · = true)).exists_run
    [.thread 0 (.lock 1), .thread 0 (.logPersistent 1), .thread 0 (.markInsert 1), .writeBack 1,
      .crash] (·.globalepoch == 2) (by decide)
  exact ⟨s, reachable, by simpa using epoch, bits_released reachable⟩

/-- The leaf is covered by its in-cache-line log only. -/
theorem bit_left_over : ¬ ∀ s : State 1, (machine 1).Reachable Machine.anyStep s →
    ∀ a ∈ s.nodes, Waits (s.cache a).version → ∃ t, s.holder a = some t := by
  intro claim
  obtain ⟨s, reachable, final⟩ := (reachable_oneLeaf Machine.anyStep).exists_run
    [.thread 0 (.lock 1), .thread 0 (.saveCl 1), .writeBack 1, .crash]
    (fun s => s.nodes == [1] && (s.cache 1).version.locked && s.holder 1 == none) (by decide)
  simp only [Bool.and_eq_true, beq_iff_eq] at final
  obtain ⟨⟨nodes, locked⟩, free⟩ := final
  obtain ⟨t, holds⟩ := claim s reachable 1 (by simp [nodes]) (.inl locked)
  rw [free] at holds
  cases holds

end Incll.Proof.Versions
