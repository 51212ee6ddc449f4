import Incll.Model.Rcu
import Mathlib.Tactic.Common

/-! # Safety of read-copy-update -/

namespace Incll.Proof.Rcu
open Incll.Lib Incll.Model Incll.Model.Rcu
open Incll.Model.Kvthread (epochBefore epochLimit minActiveEpoch rcuFreeCount)

variable {n : Nat} {s s' : State n} {t u : Fin n} {ti ti' : Threadinfo}

def readers : Status n → List (Fin n)
  | .unlinked readers | .freed readers => readers
  | _ => []

/-- The object is no longer in the structure. -/
def retired : Status n → Bool
  | .unlinked _ | .freed _ => true
  | _ => false

@[simp] theorem retired_release (status : Status n) : retired (status.release t) = retired status := by
  cases status <;> rfl

@[simp] theorem retired_free (status : Status n) : retired status.free = retired status := by
  cases status <;> rfl

@[simp] theorem readers_free (status : Status n) : readers status.free = readers status := by
  cases status <;> rfl

@[simp] theorem mem_readers_release {status : Status n} :
    u ∈ readers (status.release t) ↔ u ∈ readers status ∧ u ≠ t := by
  cases status <;> simp [readers, Status.release]

theorem retired_of_mem_readers {status : Status n} (member : t ∈ readers status) :
    retired status = true := by
  cases status with
  | fresh | linked => cases member
  | unlinked readers | freed readers => rfl

/-- The objects in a limbo list with their epochs, and the epoch at its end. -/
def tagged : Nat → List Element → List (Nat × Nat)
  | _, [] => []
  | _, .epoch e :: elements => tagged e elements
  | e, .object o :: elements => (e, o) :: tagged e elements

def lastEpoch : Nat → List Element → Nat
  | e, [] => e
  | _, .epoch e :: elements => lastEpoch e elements
  | e, .object _ :: elements => lastEpoch e elements

theorem tagged_append (e : Nat) (first second : List Element) :
    tagged e (first ++ second) = tagged e first ++ tagged (lastEpoch e first) second := by
  induction first generalizing e with
  | nil => rfl
  | cons x first ih => cases x <;> simp [tagged, lastEpoch, ih]

theorem lastEpoch_append (e : Nat) (first second : List Element) :
    lastEpoch e (first ++ second) = lastEpoch (lastEpoch e first) second := by
  induction first generalizing e with
  | nil => rfl
  | cons x first ih => cases x <;> exact ih _

def taggedGroups : Nat → List LimboGroup → List (Nat × Nat)
  | _, [] => []
  | e, g :: groups => tagged e g.elements ++ taggedGroups 0 groups

/-- The epoch that `clean_until` has at the first element. -/
def headEpoch : Pc → Nat
  | .clean _ _ _ epoch | .freeRcu _ _ _ epoch => epoch
  | _ => 0

/-- The epoch in front of the last group. -/
def tailStart (ti : Threadinfo) : Nat := if ti.limbo = [] then headEpoch ti.pc else 0

def groups (ti : Threadinfo) : List LimboGroup := ti.limbo ++ [ti.limboTail]

/-- The objects that a thread has recorded, or is recording, with their epochs. -/
def recorded (ti : Threadinfo) : List (Nat × Nat) :=
  taggedGroups (headEpoch ti.pc) (groups ti) ++ ti.recording.toList.map Prod.swap

/-- A thread that may have a pointer to a recorded object holds back `active_epoch`, and the scan
that computes the next one. -/
structure Waits (s : State n) (x : Nat × Nat) : Prop where
  epoch : x.1 ≤ s.globalepoch
  gone : retired (s.status x.2) = true
  gc : ∀ t ∈ readers (s.status x.2), (s.ti t).gcEpoch ≤ x.1
  active : readers (s.status x.2) ≠ [] → s.activeEpoch ≤ x.1
  scan : ∀ rest ae, s.advance = some (.scan rest ae) → ∀ t ∈ readers (s.status x.2),
    t ∈ rest ∨ ae ≤ x.1

/-- `clean_until` is at an epoch within its bound, and what still has readers is beyond it. -/
structure Passed (s : State n) (ti : Threadinfo) (bound epoch : Nat) : Prop where
  within : epoch ≤ bound
  below : bound < s.globalepoch
  beyond : ∀ x ∈ recorded ti, readers (s.status x.2) ≠ [] → bound < x.1

/-- What a thread knows inside a call. -/
def AtPc (s : State n) (ti : Threadinfo) : Pc → Prop
  | .compareEpoch c | .readEpoch c => c ≠ .rcuQuiesce → ti.inside = false
  | .storeEpoch c e => (c ≠ .rcuQuiesce → ti.inside = false) ∧ 0 < e ∧ e ≤ s.globalepoch
  | .clean _ bound _ epoch => Passed s ti bound epoch
  | .freeRcu _ bound _ epoch => Passed s ti bound epoch ∧
      ∃ o elements, ti.limboHead.elements = .object o :: elements
  | _ => True

structure Local (s : State n) (t : Fin n) (ti : Threadinfo) : Prop where
  made : ti.inside = true ∨ ti.pc ≠ .idle → t ∈ s.allthreads
  gc : ti.gcEpoch ≤ s.globalepoch
  inside : ti.inside = true → ti.gcEpoch ≠ 0
  held : ∀ o ∈ ti.held, ti.inside = true ∧ (s.status o = .linked ∨ t ∈ readers (s.status o))
  unlinked : ∀ o ∈ ti.unlinked, retired (s.status o) = true
  waits : ∀ x ∈ recorded ti, Waits s x
  markers : ∀ g ∈ groups ti, ∀ e, .epoch e ∈ g.elements → e ≤ s.globalepoch
  tail : ti.limboTail.elements ≠ [] →
    lastEpoch (tailStart ti) ti.limboTail.elements = ti.limboTail.epoch
  pc : AtPc s ti ti.pc

structure Inv (s : State n) : Prop where
  active : 0 < s.activeEpoch ∧ s.activeEpoch ≤ s.globalepoch
  limit : s.globalepoch < epochLimit
  raise : ∀ e, s.advance = some (.raise e) → s.globalepoch < e ∧ e < epochLimit
  scan : ∀ rest ae, s.advance = some (.scan rest ae) → 0 < ae ∧ ae ≤ s.globalepoch
  reading : ∀ o, ∀ t ∈ readers (s.status o), (s.ti t).inside = true
  freed : ∀ o readers, s.status o = .freed readers → readers = []
  threads : ∀ t, Local s t (s.ti t)

/-- The step does not advance the epoch, and a thread whose `gc_epoch_` changes is no reader. -/
structure Quiet (s s' : State n) : Prop where
  epoch : s'.globalepoch = s.globalepoch
  active : s'.activeEpoch = s.activeEpoch
  advance : s'.advance = s.advance
  allthreads : s.allthreads ⊆ s'.allthreads
  gone : ∀ o, retired (s.status o) = true → retired (s'.status o) = true
  fewer : ∀ o, retired (s.status o) = true → ∀ t ∈ readers (s'.status o),
    t ∈ readers (s.status o) ∧ (s'.ti t).gcEpoch = (s.ti t).gcEpoch

theorem Quiet.still_read (quiet : Quiet s s') {o : Nat} (old : retired (s.status o) = true)
    (some : readers (s'.status o) ≠ []) : readers (s.status o) ≠ [] := by
  obtain ⟨t, member⟩ := List.exists_mem_of_ne_nil _ some
  exact List.ne_nil_of_mem (quiet.fewer o old t member).1

theorem Waits.quiet {x : Nat × Nat} (waits : Waits s x) (quiet : Quiet s s') : Waits s' x where
  epoch := quiet.epoch ▸ waits.epoch
  gone := quiet.gone _ waits.gone
  gc := by
    intro t member
    obtain ⟨old, gc⟩ := quiet.fewer _ waits.gone t member
    rw [gc]
    exact waits.gc t old
  active := by
    intro some
    rw [quiet.active]
    exact waits.active (quiet.still_read waits.gone some)
  scan := by
    intro rest ae scan t member
    rw [quiet.advance] at scan
    exact waits.scan rest ae scan t (quiet.fewer _ waits.gone t member).1

theorem Passed.quiet {bound epoch : Nat} (quiet : Quiet s s') (waits : ∀ x ∈ recorded ti, Waits s x)
    (h : Passed s ti bound epoch) : Passed s' ti bound epoch := by
  refine ⟨h.within, quiet.epoch ▸ h.below, fun x member some => ?_⟩
  exact h.beyond x member (quiet.still_read (waits x member).gone some)

theorem Passed.fewer {bound epoch : Nat} (h : Passed s ti bound epoch)
    (fewer : ∀ x ∈ recorded ti', x ∈ recorded ti) : Passed s ti' bound epoch :=
  ⟨h.within, h.below, fun x member => h.beyond x (fewer x member)⟩

theorem AtPc.quiet {pc : Pc} (quiet : Quiet s s') (waits : ∀ x ∈ recorded ti, Waits s x)
    (h : AtPc s ti pc) : AtPc s' ti pc := by
  cases pc with
  | idle | compareActive | readActive | clearEpoch => trivial
  | compareEpoch | readEpoch => exact h
  | storeEpoch c e => exact ⟨h.1, h.2.1, quiet.epoch ▸ h.2.2⟩
  | clean c bound count epoch => exact Passed.quiet quiet waits h
  | freeRcu c bound count epoch => exact ⟨Passed.quiet quiet waits h.1, h.2⟩

theorem Local.quiet (h : Local s t ti) (quiet : Quiet s s')
    (held : ∀ o ∈ ti.held, s.status o = .linked ∨ t ∈ readers (s.status o) →
      s'.status o = .linked ∨ t ∈ readers (s'.status o)) : Local s' t ti where
  made some := quiet.allthreads (h.made some)
  gc := quiet.epoch ▸ h.gc
  inside := h.inside
  held o member := ⟨(h.held o member).1, held o member (h.held o member).2⟩
  unlinked o member := quiet.gone o (h.unlinked o member)
  waits x member := (h.waits x member).quiet quiet
  markers := quiet.epoch ▸ h.markers
  tail := h.tail
  pc := h.pc.quiet quiet h.waits

theorem Inv.quiet (inv : Inv s) (quiet : Quiet s s') (threads : ∀ t, Local s' t (s'.ti t))
    (reading : ∀ o, ∀ u ∈ readers (s'.status o), (s'.ti u).inside = true)
    (freed : ∀ o readers, s'.status o = .freed readers → readers = []) : Inv s' where
  active := by
    rw [quiet.active, quiet.epoch]
    exact inv.active
  limit := quiet.epoch ▸ inv.limit
  raise e h := by
    rw [quiet.advance] at h
    rw [quiet.epoch]
    exact inv.raise e h
  scan rest ae h := by
    rw [quiet.advance] at h
    rw [quiet.epoch]
    exact inv.scan rest ae h
  reading := reading
  freed := freed
  threads := threads

theorem quiet_setTi (gc : ti'.gcEpoch = (s.ti t).gcEpoch) : Quiet s (s.setTi t ti') where
  epoch := rfl
  active := rfl
  advance := rfl
  allthreads := List.Subset.refl _
  gone _ old := old
  fewer o _ u member := by
    refine ⟨member, ?_⟩
    by_cases same : u = t
    · subst same
      simpa [State.setTi] using gc
    · simp [State.setTi, Function.update_of_ne same]

@[simp] theorem setTi_self (s : State n) (t : Fin n) (ti : Threadinfo) : (s.setTi t ti).ti t = ti :=
  Function.update_self ..

theorem setTi_other (s : State n) (ti : Threadinfo) (other : u ≠ t) : (s.setTi t ti).ti u = s.ti u :=
  Function.update_of_ne other ..

/-- The step changes what only the thread itself sees. -/
theorem Inv.setTi (inv : Inv s) (gc : ti'.gcEpoch = (s.ti t).gcEpoch)
    (inside : ti'.inside = (s.ti t).inside) (own : Local s t ti') : Inv (s.setTi t ti') := by
  have quiet : Quiet s (s.setTi t ti') := quiet_setTi gc
  refine inv.quiet quiet (fun u => ?_) (fun o u member => ?_) inv.freed
  · by_cases same : u = t
    · subst same
      rw [setTi_self]
      exact own.quiet quiet fun o _ old => old
    · rw [setTi_other s ti' same]
      exact (inv.threads u).quiet quiet fun o _ old => old
  · have old := inv.reading o u member
    by_cases same : u = t
    · subst same
      rw [setTi_self, inside]
      exact old
    · rw [setTi_other s ti' same]
      exact old

theorem inv_freeRcu {o : Nat} (inv : Inv s) (none : readers (s.status o) = []) (out : retired (s.status o) = true) :
    Inv (s.freeRcu o) := by
  have status (o' : Nat) : readers ((s.freeRcu o).status o') = readers (s.status o') ∧
      retired ((s.freeRcu o).status o') = retired (s.status o') := by
    by_cases same : o' = o
    · subst same
      simp [State.freeRcu]
    · simp [State.freeRcu, Function.update_of_ne same]
  have quiet : Quiet s (s.freeRcu o) := by
    refine ⟨rfl, rfl, rfl, List.Subset.refl _, fun o' old => ?_, fun o' old u member => ⟨?_, rfl⟩⟩
    · rw [(status o').2]
      exact old
    · rw [(status o').1] at member
      exact member
  refine inv.quiet quiet (fun u => (inv.threads u).quiet quiet fun o' _ old => ?_) ?_ ?_
  · refine old.imp (fun linked => ?_) fun member => (status o').1 ▸ member
    have other : o' ≠ o := by
      rintro rfl
      rw [linked] at out
      cases out
    simp only [State.freeRcu, Function.update_of_ne other]
    exact linked
  · intro o' u member
    rw [(status o').1] at member
    exact inv.reading o' u member
  · intro o' r freed
    have same := (status o').1
    rw [freed] at same
    by_cases here : o' = o
    · subst here
      exact same.trans none
    · simp only [State.freeRcu, Function.update_of_ne here] at freed
      exact inv.freed o' r freed

section
variable {elements : List Element}

theorem groups_cons (ti : Threadinfo) : ∃ rest, groups ti = ti.limboHead :: rest ∧
    ∀ elements, groups (ti.setHead elements) = { ti.limboHead with elements := elements } :: rest := by
  cases limbo : ti.limbo with
  | nil => exact ⟨[], by simp [groups, Threadinfo.limboHead, limbo],
      fun elements => by simp [groups, Threadinfo.limboHead, Threadinfo.setHead, limbo]⟩
  | cons g rest => exact ⟨rest ++ [ti.limboTail], by simp [groups, Threadinfo.limboHead, limbo],
      fun elements => by simp [groups, Threadinfo.limboHead, Threadinfo.setHead, limbo]⟩

theorem setHead_same (ti : Threadinfo) (elements : List Element) :
    (ti.setHead elements).gcEpoch = ti.gcEpoch ∧ (ti.setHead elements).inside = ti.inside ∧
    (ti.setHead elements).held = ti.held ∧ (ti.setHead elements).unlinked = ti.unlinked ∧
    (ti.setHead elements).recording = ti.recording := by
  cases limbo : ti.limbo <;> simp [Threadinfo.setHead, limbo]

/-- A turn of the loop in `clean_until` moves epochs to the front. -/
theorem tail_setHead {pc : Pc}
    (old : ti.limboTail.elements ≠ [] →
      lastEpoch (tailStart ti) ti.limboTail.elements = ti.limboTail.epoch)
    (some : ti.limboHead.elements ≠ [])
    (keep : lastEpoch (headEpoch pc) elements =
      lastEpoch (headEpoch ti.pc) ti.limboHead.elements) :
    (ti.setHead elements).limboTail.elements ≠ [] →
      lastEpoch (tailStart { ti.setHead elements with pc := pc })
        (ti.setHead elements).limboTail.elements = (ti.setHead elements).limboTail.epoch := by
  intro _
  cases limbo : ti.limbo with
  | nil =>
      simp only [Threadinfo.limboHead, limbo, List.headD_nil] at some keep
      simp only [tailStart, limbo, if_true] at old
      simp only [Threadinfo.setHead, limbo, tailStart, if_true]
      rw [keep, old some]
  | cons g rest =>
      simp only [tailStart, limbo, reduceCtorEq, if_false] at old
      simp_all [Threadinfo.setHead, tailStart]

end

/-- The step changes the list and the position of the thread, and records nothing. -/
theorem Local.move (h : Local s t ti) (made : t ∈ s.allthreads)
    (same : ti'.gcEpoch = ti.gcEpoch ∧ ti'.inside = ti.inside ∧ ti'.held = ti.held ∧
      ti'.unlinked = ti.unlinked)
    (fewer : ∀ x ∈ recorded ti', x ∈ recorded ti)
    (markers : ∀ g ∈ groups ti', ∀ e, .epoch e ∈ g.elements → e ≤ s.globalepoch)
    (tail : ti'.limboTail.elements ≠ [] →
      lastEpoch (tailStart ti') ti'.limboTail.elements = ti'.limboTail.epoch)
    (pc : AtPc s ti' ti'.pc) : Local s t ti' := by
  obtain ⟨gc, inside, held, unlinked⟩ := same
  refine ⟨fun _ => made, ?_, ?_, ?_, ?_, ?_, markers, tail, pc⟩
  · rw [gc]
    exact h.gc
  · rw [gc, inside]
    exact h.inside
  · rw [held, inside]
    exact h.held
  · rw [unlinked]
    exact h.unlinked
  · exact fun x member => h.waits x (fewer x member)

/-- The step changes the position only. -/
theorem Local.setPc (h : Local s t ti) (made : t ∈ s.allthreads) (pc : Pc)
    (first : tagged (headEpoch pc) ti.limboHead.elements =
      tagged (headEpoch ti.pc) ti.limboHead.elements)
    (last : ti.limboHead.elements ≠ [] → lastEpoch (headEpoch pc) ti.limboHead.elements =
      lastEpoch (headEpoch ti.pc) ti.limboHead.elements)
    (perform : Nat) (atPc : AtPc s { ti with pc := pc, performGcEpoch := perform } pc) :
    Local s t { ti with pc := pc, performGcEpoch := perform } := by
  obtain ⟨rest, here, -⟩ := groups_cons ti
  refine h.move made ⟨rfl, rfl, rfl, rfl⟩ ?_ h.markers ?_ atPc
  · intro x member
    have same : groups { ti with pc := pc, performGcEpoch := perform } = groups ti := rfl
    simp only [recorded, same, here, taggedGroups, first] at member
    simp only [recorded, here, taggedGroups]
    exact member
  · intro some
    rw [← h.tail some]
    cases limbo : ti.limbo with
    | nil =>
        simp only [Threadinfo.limboHead, limbo, List.headD_nil] at last
        simp only [tailStart, limbo, if_true]
        exact last some
    | cons g rest => simp only [tailStart, limbo, reduceCtorEq, if_false]

theorem taggedGroups_concat (e : Nat) (gs : List LimboGroup) (g : LimboGroup) :
    taggedGroups e (gs ++ [g]) = taggedGroups e gs ++ tagged (if gs = [] then e else 0) g.elements := by
  induction gs generalizing e with
  | nil => simp [taggedGroups]
  | cons g' gs ih => simp [taggedGroups, ih]

section
variable {g : LimboGroup} {start o e : Nat}

theorem tagged_pushBack (tail : g.elements ≠ [] → lastEpoch start g.elements = g.epoch) :
    tagged start (g.pushBack o e).elements = tagged start g.elements ++ [(e, o)] := by
  rw [LimboGroup.pushBack]
  split
  · rw [tagged_append]
    rfl
  · next same =>
      push Not at same
      rw [tagged_append, tail same.1, same.2]
      rfl

theorem lastEpoch_pushBack (tail : g.elements ≠ [] → lastEpoch start g.elements = g.epoch) :
    lastEpoch start (g.pushBack o e).elements = (g.pushBack o e).epoch := by
  rw [LimboGroup.pushBack]
  split
  · rw [lastEpoch_append]
    rfl
  · next same =>
      push Not at same
      rw [lastEpoch_append, tail same.1]
      rfl

theorem marker_pushBack {e' : Nat} (member : .epoch e' ∈ (g.pushBack o e).elements) :
    .epoch e' ∈ g.elements ∨ e' = e := by
  rw [LimboGroup.pushBack] at member
  split at member
  · simpa using member
  · exact .inl (by simpa using member)

theorem head_pushBack {o' : Nat} {elements : List Element} (head : g.elements = .object o' :: elements) :
    ∃ elements, (g.pushBack o e).elements = .object o' :: elements := by
  rw [LimboGroup.pushBack, head]
  split <;> exact ⟨_, List.cons_append⟩

end

/-- The thread is where it was, and what it has recorded since is not older than `globalepoch`. -/
theorem AtPc.stay {pc : Pc} (h : AtPc s ti pc) (inside : ti'.inside = ti.inside)
    (recorded : ∀ x ∈ recorded ti', x ∈ Rcu.recorded ti ∨ s.globalepoch ≤ x.1)
    (head : ∀ o elements, ti.limboHead.elements = .object o :: elements →
      ∃ elements, ti'.limboHead.elements = .object o :: elements) : AtPc s ti' pc := by
  have passed {bound epoch : Nat} (h : Passed s ti bound epoch) : Passed s ti' bound epoch := by
    refine ⟨h.within, h.below, fun x member some => ?_⟩
    rcases recorded x member with old | new
    · exact h.beyond x old some
    · exact h.below.trans_le new
  cases pc with
  | idle | compareActive | readActive | clearEpoch => trivial
  | compareEpoch | readEpoch => exact fun start => inside.trans (h start)
  | storeEpoch => exact ⟨fun start => inside.trans (h.1 start), h.2⟩
  | clean => exact passed h
  | freeRcu =>
      obtain ⟨old, o, elements, first⟩ := h
      exact ⟨passed old, o, head o elements first⟩

theorem groups_recordRcu (ti : Threadinfo) (o e : Nat) :
    recorded { ti.recordRcu o e with recording := none } =
      taggedGroups (headEpoch ti.pc) (groups (ti.recordRcu o e)) := by
  rw [recorded, Threadinfo.recordRcu]
  split <;> simp [groups]

theorem local_pushBack {o e : Nat} (h : Local s t ti) (recording : ti.recording = some (o, e)) :
    Local s t { ti.recordRcu o e with recording := none } := by
  have new : (e, o) ∈ recorded ti := by simp [recorded, recording]
  have fewer : ∀ x ∈ recorded { ti.recordRcu o e with recording := none }, x ∈ recorded ti := by
    intro x member
    have old : x ∈ taggedGroups (headEpoch ti.pc) (groups ti) ∨ x = (e, o) := by
      rw [groups_recordRcu, Threadinfo.recordRcu] at member
      split at member
      · rw [groups, taggedGroups_concat, tagged_pushBack (by simp [LimboGroup.make])] at member
        simpa [LimboGroup.make, tagged, groups] using member
      · have pushed := tagged_pushBack (o := o) (e := e) h.tail
        rw [tailStart] at pushed
        simp only [groups, taggedGroups_concat, pushed] at member ⊢
        simpa [or_assoc] using member
    rcases old with old | rfl
    · exact List.mem_append_left _ old
    · exact new
  have bound := (h.waits _ new).epoch
  have same : (ti.recordRcu o e).pc = ti.pc ∧ (ti.recordRcu o e).inside = ti.inside ∧
      (ti.recordRcu o e).gcEpoch = ti.gcEpoch ∧ (ti.recordRcu o e).held = ti.held ∧
      (ti.recordRcu o e).unlinked = ti.unlinked := by
    rw [Threadinfo.recordRcu]
    split <;> exact ⟨rfl, rfl, rfl, rfl, rfl⟩
  obtain ⟨pc, inside, gc, held, unlinked⟩ := same
  refine ⟨?_, ?_, ?_, ?_, ?_, fun x member => h.waits x (fewer x member), ?_, ?_, ?_⟩
  · rw [inside, pc]
    exact h.made
  · rw [gc]
    exact h.gc
  · rw [inside, gc]
    exact h.inside
  · rw [held, inside]
    exact h.held
  · rw [unlinked]
    exact h.unlinked
  · intro g member e' marker
    rw [Threadinfo.recordRcu] at member
    split at member
    · rcases List.mem_append.mp member with old | new
      · exact h.markers g old e' marker
      · cases List.mem_singleton.mp new
        rcases marker_pushBack marker with old | rfl
        · cases old
        · exact bound
    · rcases List.mem_append.mp member with old | new
      · exact h.markers g (List.mem_append_left _ old) e' marker
      · cases List.mem_singleton.mp new
        rcases marker_pushBack marker with old | rfl
        · exact h.markers _ (by simp [groups]) e' old
        · exact bound
  · intro _
    rw [Threadinfo.recordRcu]
    split
    · exact lastEpoch_pushBack fun some => absurd rfl some
    · exact lastEpoch_pushBack h.tail
  · rw [pc]
    refine h.pc.stay inside (fun x member => .inl (fewer x member)) fun o' elements head => ?_
    rw [Threadinfo.recordRcu]
    split
    · refine ⟨elements, ?_⟩
      cases limbo : ti.limbo <;> simpa [Threadinfo.limboHead, limbo] using head
    · cases limbo : ti.limbo with
      | nil =>
          simp only [Threadinfo.limboHead, limbo, List.headD_nil] at head ⊢
          exact head_pushBack head
      | cons g rest =>
          refine ⟨elements, ?_⟩
          simpa [Threadinfo.limboHead, limbo] using head

theorem bound_eq (inv : Inv s) : (s.activeEpoch + 2 ^ 64 - 1) % 2 ^ 64 = s.activeEpoch - 1 := by
  have active := inv.active
  have limit := inv.limit
  rw [epochLimit] at limit
  omega

theorem le_of_not_before {bound e : Nat} (small : bound < epochLimit) (small' : e < epochLimit)
    (passed : ¬ epochBefore bound e = true) : e ≤ bound := by
  simp only [epochBefore, epochLimit, decide_eq_true_eq] at *
  omega

theorem headEpoch_finished (c : Call) :
    headEpoch (if c = .rcuStop then .clearEpoch else .idle) = 0 := by
  split <;> rfl

theorem atPc_finished (s : State n) (ti : Threadinfo) (c : Call) :
    AtPc s ti (if c = .rcuStop then .clearEpoch else .idle) := by
  split <;> trivial

/-- `hard_rcu_quiesce` ends, at a position where the first element has its epoch. -/
theorem local_done (h : Local s t ti) (made : t ∈ s.allthreads) (c : Call) (bound count : Nat)
    (first : tagged 0 ti.limboHead.elements = tagged (headEpoch ti.pc) ti.limboHead.elements)
    (last : ti.limboHead.elements ≠ [] → lastEpoch 0 ti.limboHead.elements =
      lastEpoch (headEpoch ti.pc) ti.limboHead.elements) :
    Local s t (ti.done c bound count) := by
  rw [← headEpoch_finished c] at first last
  exact h.setPc made _ first last _ (atPc_finished s _ c)

/-- The loop changes the first group. -/
theorem local_setHead (h : Local s t ti) (made : t ∈ s.allthreads) (pc : Pc) (perform : Nat)
    {elements : List Element} (some : ti.limboHead.elements ≠ [])
    (first : ∀ x ∈ tagged (headEpoch pc) elements,
      x ∈ tagged (headEpoch ti.pc) ti.limboHead.elements)
    (last : lastEpoch (headEpoch pc) elements = lastEpoch (headEpoch ti.pc) ti.limboHead.elements)
    (markers : ∀ e, .epoch e ∈ elements → e ≤ s.globalepoch)
    (atPc : (∀ x ∈ recorded { ti.setHead elements with pc := pc, performGcEpoch := perform },
        x ∈ recorded ti) →
      AtPc s { ti.setHead elements with pc := pc, performGcEpoch := perform } pc) :
    Local s t { ti.setHead elements with pc := pc, performGcEpoch := perform } := by
  obtain ⟨rest, here, set⟩ := groups_cons ti
  obtain ⟨gc, inside, held, unlinked, recording⟩ := setHead_same ti elements
  have fewer : ∀ x ∈ recorded { ti.setHead elements with pc := pc, performGcEpoch := perform },
      x ∈ recorded ti := by
    intro x member
    change x ∈ taggedGroups (headEpoch pc) (groups (ti.setHead elements)) ++
      (ti.setHead elements).recording.toList.map Prod.swap at member
    simp only [set, recording, taggedGroups, List.mem_append] at member
    simp only [recorded, here, taggedGroups, List.mem_append]
    exact member.imp_left (Or.imp_left (first x))
  refine h.move made ⟨gc, inside, held, unlinked⟩ fewer ?_ ?_ (atPc fewer)
  · intro g member e marker
    have split : g ∈ groups (ti.setHead elements) := member
    rw [set] at split
    rcases List.mem_cons.mp split with rfl | old
    · exact markers e marker
    · exact h.markers g (here ▸ List.mem_cons_of_mem _ old) e marker
  · exact tail_setHead h.tail some last

/-- All groups are empty. -/
theorem local_emptied (h : Local s t ti) (made : t ∈ s.allthreads) (limbo : ti.limbo = []) (c : Call)
    (bound count : Nat) : Local s t ({ ti with limboTail := .make }.done c bound count) := by
  refine h.move made ⟨rfl, rfl, rfl, rfl⟩ ?_ ?_ (fun some => absurd rfl some) (atPc_finished s _ c)
  · intro x member
    change x ∈ taggedGroups _ (ti.limbo ++ [.make]) ++ ti.recording.toList.map Prod.swap at member
    rw [limbo] at member
    exact List.mem_append_right _ member
  · intro g member e marker
    change g ∈ ti.limbo ++ [.make] at member
    rw [limbo] at member
    cases List.mem_singleton.mp member
    cases marker

/-- The first group is empty. -/
theorem local_nextGroup (h : Local s t ti) (made : t ∈ s.allthreads) {bound epoch : Nat}
    (passed : Passed s ti bound epoch) (none : ti.limboHead.elements = []) {g : LimboGroup}
    {rest : List LimboGroup} (limbo : ti.limbo = g :: rest) (c : Call) (count : Nat) :
    Local s t { ti with limbo := rest, pc := .clean c bound count 0 } := by
  have fewer : ∀ x ∈ recorded { ti with limbo := rest, pc := .clean c bound count 0 },
      x ∈ recorded ti := by
    intro x member
    simp only [Threadinfo.limboHead, limbo, List.headD_cons] at none
    simp only [recorded, groups, limbo, List.cons_append, taggedGroups, none]
    exact member
  refine h.move made ⟨rfl, rfl, rfl, rfl⟩ fewer ?_ ?_ ?_
  · intro g member e marker
    refine h.markers g ?_ e marker
    rw [groups, limbo]
    exact List.mem_cons_of_mem _ member
  · intro some
    have old := h.tail some
    simp only [tailStart, limbo, reduceCtorEq, if_false] at old
    simpa [tailStart, headEpoch] using old
  · exact ⟨Nat.zero_le _, passed.below, (passed.fewer fewer).beyond⟩

/-- The loop goes over an epoch within the bound. -/
theorem local_epoch (h : Local s t ti) (made : t ∈ s.allthreads) {bound epoch e : Nat}
    {elements : List Element} (passed : Passed s ti bound epoch)
    (first : ti.limboHead.elements = .epoch e :: elements) (within : e ≤ bound) (c : Call)
    (count : Nat) : Local s t { ti.setHead elements with pc := .clean c bound count e } := by
  obtain ⟨rest, here, -⟩ := groups_cons ti
  refine local_setHead h made _ _ (by simp [first]) ?_ ?_ ?_ ?_
  · rw [first]
    exact fun x member => member
  · rw [first]
    rfl
  · intro e' marker
    refine h.markers ti.limboHead (here ▸ List.mem_cons_self) e' ?_
    rw [first]
    exact List.mem_cons_of_mem _ marker
  · exact fun fewer => ⟨within, passed.below, (passed.fewer fewer).beyond⟩

theorem inv_clean {c : Call} {bound count epoch : Nat} (inv : Inv s)
    (pc : (s.ti t).pc = .clean c bound count epoch) : Inv (s.clean t c bound count epoch) := by
  have h := inv.threads t
  have passed := h.pc
  rw [pc] at passed
  have made := h.made (.inr (by simp [pc]))
  obtain ⟨rest, here, -⟩ := groups_cons (s.ti t)
  rw [State.clean]
  split
  · next none =>
    split
    · next limbo => exact inv.setTi rfl rfl (local_emptied h made limbo c bound count)
    · next limbo => exact inv.setTi rfl rfl (local_nextGroup h made passed none limbo c count)
  · next e elements first =>
    split
    · refine inv.setTi rfl rfl (local_done h made c bound count ?_ ?_) <;>
        simp [first, tagged, lastEpoch]
    · next within =>
      have small : e ≤ s.globalepoch :=
        h.markers (s.ti t).limboHead (here ▸ List.mem_cons_self) e (first ▸ List.mem_cons_self)
      have within := le_of_not_before (passed.below.trans inv.limit) (small.trans_lt inv.limit) within
      refine inv.setTi ?_ ?_ (local_epoch h made passed first within c count)
      · exact (setHead_same _ _).1
      · exact (setHead_same _ _).2.1
  · next o elements first =>
    have member : (epoch, o) ∈ recorded (s.ti t) := by
      simp [recorded, here, taggedGroups, first, pc, headEpoch, tagged]
    have none : readers (s.status o) = [] := by
      by_contra some
      exact absurd (passed.beyond _ member some) (Nat.not_lt.mpr passed.within)
    have freeing : Local s t { s.ti t with pc := .freeRcu c bound count epoch } := by
      refine h.setPc made (.freeRcu c bound count epoch) (by rw [pc]; rfl) (fun _ => by rw [pc]; rfl) _
        ⟨passed.fewer ?_, o, elements, first⟩
      intro x member
      simpa [recorded, groups, pc, headEpoch] using member
    exact inv_freeRcu (inv.setTi rfl rfl freeing) none (h.waits _ member).gone

theorem inv_freedRcu {c : Call} {bound count epoch : Nat} (inv : Inv s)
    (pc : (s.ti t).pc = .freeRcu c bound count epoch) : Inv (s.freedRcu t c bound count epoch) := by
  have h := inv.threads t
  have made := h.made (.inr (by simp [pc]))
  have passed := h.pc
  rw [pc] at passed
  obtain ⟨passed, o, elements, first⟩ := passed
  obtain ⟨rest, here, -⟩ := groups_cons (s.ti t)
  have markers : ∀ e, .epoch e ∈ elements → e ≤ s.globalepoch := fun e marker =>
    h.markers (s.ti t).limboHead (here ▸ List.mem_cons_self) e
      (first ▸ List.mem_cons_of_mem _ marker)
  have member : (epoch, o) ∈ recorded (s.ti t) := by
    simp [recorded, here, taggedGroups, first, pc, headEpoch, tagged]
  rw [State.freedRcu, first, List.tail_cons]
  split
  · refine inv.setTi (setHead_same _ _).1 (setHead_same _ _).2.1
      (local_setHead h made _ _ (by simp [first]) ?_ ?_ ?_ fun _ => atPc_finished s _ c)
    · rw [first, pc, headEpoch_finished]
      exact fun x member => List.mem_cons_of_mem _ member
    · rw [first, pc, headEpoch_finished]
      rfl
    · intro e marker
      rcases List.mem_cons.mp marker with same | old
      · cases same
        exact (h.waits _ member).epoch
      · exact markers e old
  · refine inv.setTi (setHead_same _ _).1 (setHead_same _ _).2.1
      (local_setHead h made _ _ (by simp [first]) ?_ ?_ markers fun fewer => passed.fewer fewer)
    · rw [first, pc]
      exact fun x member => List.mem_cons_of_mem _ member
    · rw [first, pc]
      rfl

/-- The thread is quiescent: it holds no pointers, and may set `gc_epoch_`. -/
theorem Local.quiescent (h : Local s t ti) (quiet : Quiet s s') (made : t ∈ s'.allthreads)
    (head : headEpoch ti.pc = 0) {e : Nat} {b : Bool} (pc : Pc) (gc : e ≤ s'.globalepoch)
    (inside : b = true → e ≠ 0) (head' : headEpoch pc = 0)
    (atPc : AtPc s' { ti with gcEpoch := e, inside := b, held := [], pc := pc } pc) :
    Local s' t { ti with gcEpoch := e, inside := b, held := [], pc := pc } := by
  refine ⟨fun _ => made, gc, inside, by simp, fun o member => quiet.gone o (h.unlinked o member), ?_,
    quiet.epoch ▸ h.markers, ?_, atPc⟩
  · intro x member
    refine (h.waits x ?_).quiet quiet
    simp only [recorded, head'] at member
    simp only [recorded, head]
    exact member
  · have tail := h.tail
    simp only [tailStart, head] at tail
    simp only [tailStart, head']
    exact tail

theorem quiet_release (s : State n) (t : Fin n) (ti : Threadinfo) :
    Quiet s ((s.setTi t ti).release t) := by
  refine ⟨rfl, rfl, rfl, List.Subset.refl _, fun o old => ?_, fun o _ u member => ?_⟩
  · simpa [State.release, State.setTi] using old
  · simp only [State.release, State.setTi, mem_readers_release] at member
    exact ⟨member.1, congrArg _ (setTi_other s ti member.2)⟩

theorem inv_release (inv : Inv s) (own : Local ((s.setTi t ti').release t) t ti') :
    Inv ((s.setTi t ti').release t) := by
  have quiet := quiet_release s t ti'
  refine inv.quiet quiet (fun u => ?_) (fun o u member => ?_) ?_
  · by_cases same : u = t
    · subst same
      simpa [State.release] using own
    · have other : ((s.setTi t ti').release t).ti u = s.ti u := setTi_other s ti' same
      rw [other]
      refine (inv.threads u).quiet quiet fun o _ old => old.imp (fun linked => ?_) fun member => ?_
      · simp [State.release, State.setTi, linked, Status.release]
      · simpa [State.release, State.setTi, same] using member
  · simp only [State.release, State.setTi, mem_readers_release] at member
    have other : ((s.setTi t ti').release t).ti u = s.ti u := setTi_other s ti' member.2
    rw [other]
    exact inv.reading o u member.1
  · intro o r freed
    have old : s.status o = .freed [] ∨ ∀ r, s.status o ≠ .freed r := by
      by_cases some : ∃ r, s.status o = .freed r
      · obtain ⟨r, some⟩ := some
        cases inv.freed o r some
        exact .inl some
      · exact .inr fun r same => some ⟨r, same⟩
    change (s.status o).release t = _ at freed
    rcases old with old | old
    · rw [old] at freed
      cases freed
      rfl
    · cases status : s.status o with
      | fresh | linked | unlinked =>
          rw [status] at freed
          cases freed
      | freed r => exact absurd status (old r)

/-- A thread that is in no section opens one. -/
theorem inv_open {e : Nat} (inv : Inv s) (made : t ∈ s.allthreads) (head : headEpoch (s.ti t).pc = 0)
    (outside : (s.ti t).inside = false) (low : 0 < e) (high : e ≤ s.globalepoch) :
    Inv (s.setTi t { s.ti t with gcEpoch := e, inside := true, pc := .idle }) := by
  have h := inv.threads t
  have absent (o : Nat) (u : Fin n) (member : u ∈ readers (s.status o)) : u ≠ t := by
    rintro rfl
    have inside := inv.reading o u member
    simp [outside] at inside
  have none : (s.ti t).held = [] := by
    by_contra some
    obtain ⟨o, member⟩ := List.exists_mem_of_ne_nil _ some
    have inside := (h.held o member).1
    simp [outside] at inside
  have quiet : Quiet s (s.setTi t { s.ti t with gcEpoch := e, inside := true, pc := .idle }) := by
    refine ⟨rfl, rfl, rfl, List.Subset.refl _, fun o old => old, fun o _ u member => ⟨member, ?_⟩⟩
    rw [setTi_other s _ (absent o u member)]
  refine inv.quiet quiet (fun u => ?_) (fun o u member => ?_) inv.freed
  · by_cases same : u = t
    · subst same
      have own := h.quiescent quiet made head (b := true) .idle high
        (fun _ => Nat.ne_of_gt low) rfl trivial
      rw [← none] at own
      rw [setTi_self]
      exact own
    · rw [setTi_other s _ same]
      exact (inv.threads u).quiet quiet fun o _ old => old
  · rw [setTi_other s _ (absent o u member)]
    exact inv.reading o u member

/-- The end of `rcu_start`, with the epoch that it leaves in `gc_epoch_`. -/
theorem inv_started {c : Call} {e : Nat} (inv : Inv s) (made : t ∈ s.allthreads)
    (head : headEpoch (s.ti t).pc = 0)
    (start : c ≠ .rcuQuiesce → (s.ti t).inside = false) (low : 0 < e) (high : e ≤ s.globalepoch) :
    Inv (s.started t { s.ti t with gcEpoch := e } c) := by
  rw [State.started]
  split
  · exact inv_release inv ((inv.threads t).quiescent (quiet_release s t _) made head _ high
      (fun _ => Nat.ne_of_gt low) rfl trivial)
  · next other => exact inv_open inv made head (start other) low high

theorem inv_stepThread (inv : Inv s) (h : s.stepThread t = some s') : Inv s' := by
  have own := inv.threads t
  have low := inv.active.1.trans_le inv.active.2
  simp only [State.stepThread] at h
  split at h
  · cases h
  · next c pc =>
    have made := own.made (.inr (by simp [pc]))
    have start := own.pc
    rw [pc] at start
    split at h
    · cases h
      refine inv.setTi rfl rfl (own.setPc made (.readEpoch c) ?_ ?_ _ start) <;> simp [pc, headEpoch]
    · next same =>
      cases h
      rw [ne_eq, not_not] at same
      exact inv_started inv made (by rw [pc]; rfl) start (same ▸ low) own.gc
  · next c pc =>
    have made := own.made (.inr (by simp [pc]))
    have start := own.pc
    rw [pc] at start
    cases h
    refine inv.setTi rfl rfl
      (own.setPc made (.storeEpoch c s.globalepoch) ?_ ?_ _ ⟨start, low, Nat.le_refl _⟩) <;>
      simp [pc, headEpoch]
  · next c e pc =>
    have made := own.made (.inr (by simp [pc]))
    have start := own.pc
    rw [pc] at start
    cases h
    exact inv_started inv made (by rw [pc]; rfl) start.1 start.2.1 start.2.2
  · next c pc =>
    have made := own.made (.inr (by simp [pc]))
    split at h
    · cases h
      refine inv.setTi rfl rfl (own.setPc made (.readActive c) ?_ ?_ _ trivial) <;> simp [pc, headEpoch]
    · cases h
      refine inv.setTi rfl rfl (own.setPc made _ ?_ ?_ _ (atPc_finished s _ c))
      · rw [headEpoch_finished, pc]
        rfl
      · rw [headEpoch_finished, pc]
        exact fun _ => rfl
  · next c pc =>
    have made := own.made (.inr (by simp [pc]))
    rw [bound_eq inv] at h
    split at h
    · cases h
      refine inv.setTi rfl rfl (local_done own made c _ _ ?_ ?_) <;> simp [pc, headEpoch]
    · cases h
      refine inv.setTi rfl rfl (own.setPc made (.clean c _ rcuFreeCount 0) ?_ ?_ _ ?_)
      · simp [pc, headEpoch]
      · simp [pc, headEpoch]
      · have active := inv.active
        refine ⟨Nat.zero_le _, by omega, fun x member some => ?_⟩
        have old : x ∈ recorded (s.ti t) := by
          simpa [recorded, groups, pc, headEpoch] using member
        have waits := (own.waits x old).active some
        omega
  · next c bound count epoch pc =>
    cases h
    exact inv_clean inv pc
  · next c bound count epoch pc =>
    cases h
    exact inv_freedRcu inv pc
  · next pc =>
    have made := own.made (.inr (by simp [pc]))
    cases h
    exact inv_release inv (own.quiescent (quiet_release s t _) made (by rw [pc]; rfl) _
      (Nat.zero_le _) (by simp) rfl trivial)

/-- The readers of a recorded object hold back a scan. -/
theorem Waits.advance {x : Nat × Nat} {g active : Nat} {next : Option (Advance n)} (waits : Waits s x)
    (epoch : s.globalepoch ≤ g) (atActive : readers (s.status x.2) ≠ [] → active ≤ x.1)
    (scan : ∀ rest ae, next = some (.scan rest ae) → ∀ t ∈ readers (s.status x.2), t ∈ rest ∨ ae ≤ x.1) :
    Waits { s with globalepoch := g, activeEpoch := active, advance := next } x :=
  ⟨waits.epoch.trans epoch, waits.gone, waits.gc, atActive, scan⟩

theorem Local.advance {g active : Nat} {next : Option (Advance n)} (h : Local s t ti)
    (epoch : s.globalepoch ≤ g)
    (atActive : ∀ x, Waits s x → readers (s.status x.2) ≠ [] → active ≤ x.1)
    (scan : ∀ x, Waits s x → ∀ rest ae, next = some (.scan rest ae) →
      ∀ t ∈ readers (s.status x.2), t ∈ rest ∨ ae ≤ x.1) :
    Local { s with globalepoch := g, activeEpoch := active, advance := next } t ti := by
  refine ⟨h.made, h.gc.trans epoch, h.inside, h.held, h.unlinked, fun x member => ?_,
    fun x member e marker => (h.markers x member e marker).trans epoch, h.tail, ?_⟩
  · have waits := h.waits x member
    exact waits.advance epoch (atActive x waits) (scan x waits)
  · have old := h.pc
    cases pc : ti.pc with
    | idle | compareActive | readActive | clearEpoch => trivial
    | compareEpoch | readEpoch =>
        rw [pc] at old
        exact old
    | storeEpoch =>
        rw [pc] at old
        exact ⟨old.1, old.2.1, old.2.2.trans epoch⟩
    | clean =>
        rw [pc] at old
        exact ⟨old.within, old.below.trans_le epoch, old.beyond⟩
    | freeRcu =>
        rw [pc] at old
        exact ⟨⟨old.1.within, old.1.below.trans_le epoch, old.1.beyond⟩, old.2⟩

theorem minActiveEpoch_le {ae te : Nat} (small : ae < epochLimit) (small' : te < epochLimit) :
    minActiveEpoch ae te ≤ ae ∧ (te ≠ 0 → minActiveEpoch ae te ≤ te) ∧
    (0 < ae → 0 < minActiveEpoch ae te) := by
  simp only [minActiveEpoch, epochBefore, epochLimit, decide_eq_true_eq] at *
  split <;> omega

theorem inv_stepAdvance (inv : Inv s) (h : s.stepAdvance = some s') : Inv s' := by
  obtain ⟨at', here, rfl⟩ := Option.map_eq_some_iff.mp h
  have kept (x : Nat × Nat) (waits : Waits s x) := waits.active
  cases at' with
  | raise e =>
      obtain ⟨up, limit⟩ := inv.raise e here
      refine ⟨⟨inv.active.1, inv.active.2.trans up.le⟩, limit, ?_, ?_, inv.reading, inv.freed, fun t => ?_⟩
      · simp
      · simp
      · exact (inv.threads t).advance up.le kept (by simp)
  | readGlobal =>
      refine ⟨inv.active, inv.limit, by simp, ?_, inv.reading, inv.freed, fun t => ?_⟩
      · rintro rest ae ⟨⟩
        exact ⟨inv.active.1.trans_le inv.active.2, Nat.le_refl _⟩
      · refine (inv.threads t).advance (Nat.le_refl _) kept ?_
        rintro x waits rest ae ⟨⟩ u member
        exact .inl ((inv.threads u).made (.inl (inv.reading _ u member)))
  | scan rest ae =>
      obtain ⟨low, high⟩ := inv.scan rest ae here
      cases rest with
      | nil =>
          refine ⟨⟨low, high⟩, inv.limit, by simp, by simp, inv.reading, inv.freed, fun t => ?_⟩
          refine (inv.threads t).advance (Nat.le_refl _) (fun x waits some => ?_) (by simp)
          obtain ⟨u, member⟩ := List.exists_mem_of_ne_nil _ some
          exact (waits.scan [] ae here u member).resolve_left (by simp)
      | cons u rest =>
          have gc := (inv.threads u).gc.trans_lt inv.limit
          obtain ⟨less, least, positive⟩ := minActiveEpoch_le (high.trans_lt inv.limit) gc
          refine ⟨inv.active, inv.limit, by simp, ?_, inv.reading, inv.freed, fun t => ?_⟩
          · rintro _ _ ⟨⟩
            exact ⟨positive low, less.trans high⟩
          · refine (inv.threads t).advance (Nat.le_refl _) kept ?_
            rintro x waits _ _ ⟨⟩ v member
            by_cases same : v = u
            · subst same
              have inside := (inv.threads v).inside (inv.reading _ v member)
              exact .inr ((least inside).trans (waits.gc v member))
            · rcases waits.scan _ ae here v member with left | passed
              · exact .inl ((List.mem_cons.mp left).resolve_left same)
              · exact .inr (less.trans passed)

theorem inv_raise {e : Nat} (inv : Inv s) (limit : e < epochLimit) : Inv (s.raise e) := by
  simp only [State.raise]
  split
  · next up =>
    have small := inv.limit
    rw [epochLimit] at limit small
    refine ⟨inv.active, inv.limit, ?_, by simp, inv.reading, inv.freed, fun t => ?_⟩
    · rintro _ ⟨⟩
      refine ⟨?_, limit⟩
      show s.globalepoch < e
      omega
    · exact (inv.threads t).advance (Nat.le_refl _) (fun x waits => waits.active) (by simp)
  · exact inv

theorem inv_make (inv : Inv s) : Inv { s with allthreads := t :: s.allthreads } := by
  have quiet : Quiet s { s with allthreads := t :: s.allthreads } :=
    ⟨rfl, rfl, rfl, List.subset_cons_self _ _, fun o old => old, fun o _ u member => ⟨member, rfl⟩⟩
  exact inv.quiet quiet (fun u => (inv.threads u).quiet quiet fun o _ old => old) inv.reading inv.freed

theorem inv_call {c : Call} (inv : Inv s) (made : t ∈ s.allthreads) (idle : (s.ti t).pc = .idle)
    (start : c = .rcuStart → (s.ti t).inside = false) :
    Inv (s.setTi t { s.ti t with pc := entry c }) := by
  have head : headEpoch (entry c) = headEpoch (s.ti t).pc := by
    rw [idle]
    cases c <;> rfl
  refine inv.setTi rfl rfl ((inv.threads t).setPc made (entry c) ?_ ?_ _ ?_)
  · rw [head]
  · rw [head]
    exact fun _ => rfl
  · cases c with
    | rcuStart => exact fun _ => start rfl
    | rcuQuiesce => exact fun other => absurd rfl other
    | rcuStop => trivial

section
variable {o : Nat} {new : Status n} {f : Fin n → Threadinfo}

/-- An object in the structure changes, and no `gc_epoch_` does. -/
theorem quiet_update (still : retired (s.status o) = false)
    (gc : ∀ u, (f u).gcEpoch = (s.ti u).gcEpoch) :
    Quiet s { s with ti := f, status := Function.update s.status o new } := by
  have other {o' : Nat} (old : retired (s.status o') = true) :
      Function.update s.status o new o' = s.status o' := by
    refine Function.update_of_ne ?_ _ _
    rintro rfl
    rw [still] at old
    cases old
  refine ⟨rfl, rfl, rfl, List.Subset.refl _, fun o' old => ?_, fun o' old u member => ⟨?_, gc u⟩⟩
  · show retired (Function.update s.status o new o') = true
    rw [other old]
    exact old
  · change u ∈ readers (Function.update s.status o new o') at member
    rw [other old] at member
    exact member

theorem inv_update (inv : Inv s) (still : retired (s.status o) = false)
    (gc : ∀ u, (f u).gcEpoch = (s.ti u).gcEpoch) (inside : ∀ u, (f u).inside = (s.ti u).inside)
    (alive : ∀ r, new ≠ .freed r) (reading : ∀ u ∈ readers new, (s.ti u).inside = true)
    (threads : ∀ t, Local { s with ti := f, status := Function.update s.status o new } t (f t)) :
    Inv { s with ti := f, status := Function.update s.status o new } := by
  refine inv.quiet (quiet_update still gc) threads (fun o' u member => ?_) fun o' r freed => ?_
  · show (f u).inside = true
    rw [inside]
    by_cases same : o' = o
    · subst same
      simp only [Function.update_self] at member
      exact reading u member
    · simp only [Function.update_of_ne same] at member
      exact inv.reading o' u member
  · by_cases same : o' = o
    · subst same
      simp only [Function.update_self] at freed
      exact absurd freed (alive r)
    · simp only [Function.update_of_ne same] at freed
      exact inv.freed o' r freed

theorem inv_link (inv : Inv s) (fresh : s.status o = .fresh) :
    Inv { s with status := Function.update s.status o .linked } := by
  have still : retired (s.status o) = false := by
    rw [fresh]
    rfl
  refine inv_update inv still (fun _ => rfl) (fun _ => rfl) (by simp) (by simp [readers]) fun u => ?_
  refine (inv.threads u).quiet (quiet_update still fun _ => rfl) fun o' _ old => ?_
  have other : o' ≠ o := by
    rintro rfl
    simp [fresh, readers] at old
  simpa only [Function.update_of_ne other] using old

theorem inv_read (inv : Inv s) (inside : (s.ti t).inside = true) (linked : s.status o = .linked) :
    Inv (s.setTi t { s.ti t with held := o :: (s.ti t).held }) := by
  have h := inv.threads t
  refine inv.setTi rfl rfl ⟨h.made, h.gc, h.inside, fun o' member => ?_, h.unlinked, h.waits, h.markers,
    h.tail, h.pc.stay rfl (fun x member => .inl member) fun _ elements first => ⟨elements, first⟩⟩
  rcases List.mem_cons.mp member with rfl | member
  · exact ⟨inside, .inl linked⟩
  · exact h.held o' member

theorem inv_unlink (inv : Inv s) (linked : s.status o = .linked) :
    Inv { s.setTi t { s.ti t with unlinked := o :: (s.ti t).unlinked } with
      status := Function.update s.status o
        (.unlinked (s.allthreads.filter fun u => (s.ti u).inside)) } := by
  have still : retired (s.status o) = false := by
    rw [linked]
    rfl
  have same (u : Fin n) : (s.setTi t { s.ti t with unlinked := o :: (s.ti t).unlinked }).ti u =
      s.ti u ∨ u = t := by
    by_cases here : u = t
    · exact .inr here
    · exact .inl (setTi_other s _ here)
  have gc (u : Fin n) : ((s.setTi t { s.ti t with unlinked := o :: (s.ti t).unlinked }).ti u).gcEpoch =
      (s.ti u).gcEpoch := by
    rcases same u with old | rfl
    · rw [old]
    · rw [setTi_self]
  have inside (u : Fin n) :
      ((s.setTi t { s.ti t with unlinked := o :: (s.ti t).unlinked }).ti u).inside = (s.ti u).inside := by
    rcases same u with old | rfl
    · rw [old]
    · rw [setTi_self]
  change Inv { s with
    ti := (s.setTi t { s.ti t with unlinked := o :: (s.ti t).unlinked }).ti
    status := Function.update s.status o (.unlinked (s.allthreads.filter fun u => (s.ti u).inside)) }
  have quiet : Quiet s { s with
      ti := (s.setTi t { s.ti t with unlinked := o :: (s.ti t).unlinked }).ti
      status := Function.update s.status o
        (.unlinked (s.allthreads.filter fun u => (s.ti u).inside)) } := quiet_update still gc
  have before (u : Fin n) := (inv.threads u).quiet quiet fun o' member old => by
    by_cases here : o' = o
    · subst here
      have reads := ((inv.threads u).held o' member).1
      refine .inr ?_
      simp only [Function.update_self]
      exact List.mem_filter.mpr ⟨(inv.threads u).made (.inl reads), reads⟩
    · simpa only [Function.update_of_ne here] using old
  refine inv_update inv still gc inside (by simp) (fun u member => ?_) fun u => ?_
  · exact (List.mem_filter.mp member).2
  · rcases same u with old | rfl
    · rw [old]
      exact before u
    · have h := before u
      rw [setTi_self]
      refine ⟨h.made, h.gc, h.inside, h.held, fun o' member => ?_, h.waits, h.markers, h.tail,
        h.pc.stay rfl (fun x member => .inl member) fun _ elements first => ⟨elements, first⟩⟩
      rcases List.mem_cons.mp member with rfl | member
      · simp only [Function.update_self]
        rfl
      · exact h.unlinked o' member

theorem inv_recordRcu (inv : Inv s) (member : o ∈ (s.ti t).unlinked) :
    Inv (s.setTi t { s.ti t with
      unlinked := (s.ti t).unlinked.erase o
      recording := some (o, s.globalepoch) }) := by
  have h := inv.threads t
  have recorded : ∀ x ∈ recorded { s.ti t with
      unlinked := (s.ti t).unlinked.erase o
      recording := some (o, s.globalepoch) }, x ∈ Rcu.recorded (s.ti t) ∨ x = (s.globalepoch, o) := by
    intro x member
    rcases List.mem_append.mp member with old | new
    · exact .inl (List.mem_append_left _ old)
    · exact .inr (by simpa using new)
  refine inv.setTi rfl rfl ⟨h.made, h.gc, h.inside, h.held,
    fun o' member => h.unlinked o' (List.mem_of_mem_erase member), fun x member => ?_, h.markers, h.tail,
    h.pc.stay rfl (fun x member => ?_) fun _ elements first => ⟨elements, first⟩⟩
  · rcases recorded x member with old | rfl
    · exact h.waits x old
    · exact ⟨Nat.le_refl _, h.unlinked o ‹_›, fun u _ => (inv.threads u).gc, fun _ => inv.active.2,
        fun rest ae scan u _ => .inr (inv.scan rest ae scan).2⟩
  · rcases recorded x member with old | rfl
    · exact .inl old
    · exact .inr (Nat.le_refl _)

end

theorem inv_step {l : Label n} (inv : Inv s) (h : step s l = some s') : Inv s' := by
  cases l with
  | make t =>
      simp only [step, Option.ite_none_left_eq_some, Option.some.injEq] at h
      obtain ⟨-, rfl⟩ := h
      exact inv_make inv
  | setGlobalEpoch e =>
      simp only [step, Option.ite_none_right_eq_some, Option.some.injEq] at h
      obtain ⟨⟨-, limit⟩, rfl⟩ := h
      exact inv_raise inv limit
  | epochinc =>
      simp only [step, Option.ite_none_right_eq_some, Option.some.injEq] at h
      obtain ⟨⟨-, limit⟩, rfl⟩ := h
      exact inv_raise inv limit
  | advance => exact inv_stepAdvance inv h
  | call t c =>
      simp only [step, Option.ite_none_right_eq_some, Option.some.injEq] at h
      obtain ⟨⟨made, idle, -, start⟩, rfl⟩ := h
      exact inv_call inv made idle start
  | thread t =>
      simp only [step, Option.ite_none_right_eq_some] at h
      exact inv_stepThread inv h.2
  | link o =>
      simp only [step, Option.ite_none_right_eq_some, Option.some.injEq] at h
      obtain ⟨fresh, rfl⟩ := h
      exact inv_link inv fresh
  | read t o =>
      simp only [step, Option.ite_none_right_eq_some, Option.some.injEq] at h
      obtain ⟨⟨inside, -, linked⟩, rfl⟩ := h
      exact inv_read inv inside linked
  | unlink t o =>
      simp only [step, Option.ite_none_right_eq_some, Option.some.injEq] at h
      obtain ⟨⟨-, -, linked⟩, rfl⟩ := h
      exact inv_unlink inv linked
  | recordRcu t o =>
      simp only [step, Option.ite_none_right_eq_some, Option.some.injEq] at h
      obtain ⟨⟨-, member⟩, rfl⟩ := h
      exact inv_recordRcu inv member
  | pushBack t =>
      obtain ⟨⟨o, e⟩, recording, rfl⟩ := Option.map_eq_some_iff.mp h
      refine inv.setTi ?_ ?_ (local_pushBack (inv.threads t) recording)
      · simp only [Threadinfo.recordRcu]
        split <;> rfl
      · simp only [Threadinfo.recordRcu]
        split <;> rfl

theorem inv_init {e : Nat} (low : 0 < e) (limit : e < epochLimit) : Inv (init n e) := by
  refine ⟨⟨low, Nat.le_refl _⟩, limit, by simp [init], by simp [init], by simp [init, readers],
    by simp [init], fun t => ?_⟩
  refine ⟨by simp [init, Threadinfo.make], Nat.zero_le _, by simp [init, Threadinfo.make],
    by simp [init, Threadinfo.make], by simp [init, Threadinfo.make], ?_, ?_, ?_, trivial⟩
  · simp [init, Threadinfo.make, LimboGroup.make, recorded, groups, taggedGroups, tagged]
  · simp [init, Threadinfo.make, LimboGroup.make, groups]
  · simp [init, Threadinfo.make, LimboGroup.make]

theorem reachable_inv (reachable : (machine n).Reachable Machine.anyStep s) : Inv s := by
  refine reachable.invariant ?_ fun s l s' inv _ h => inv_step inv h
  rintro s ⟨e, low, limit, rfl⟩
  exact inv_init low limit

end Incll.Proof.Rcu
