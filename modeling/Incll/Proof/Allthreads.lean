import Incll.Model.Allthreads
import Mathlib.Data.List.Nodup

/-! # The list of all threads -/

namespace Incll.Proof.Allthreads
open Incll.Lib Incll.Model Incll.Model.Allthreads

/-- The records from `start` on, each with the thread that it belongs to. -/
def Linked (ti : Nat → Option Threadinfo) : Option Nat → List Thread → Prop
  | start, [] => start = none
  | start, t :: threads => start = some t.addr ∧ ∃ next,
      ti t.addr = some ⟨t.purpose, t.index, t.epoch, next⟩ ∧ Linked ti next threads

/-- Every thread has its own record, the list goes through all of them and ends, and
`min_active_epoch` reads the epochs that they have set. -/
structure Sound (s : State) : Prop where
  disjoint : s.threads.Pairwise fun t u => t.addr + tiSize ≤ u.addr ∨ u.addr + tiSize ≤ t.addr
  linked : Linked s.memory.ti s.memory.allthreads s.threads
  scans : ∀ globalepoch, scan s.memory.ti s.threads.length s.memory.allthreads globalepoch =
    some ((s.threads.map (·.epoch)).foldl Kvthread.minActiveEpoch globalepoch)

theorem scan_linked {ti : Nat → Option Threadinfo} {start : Option Nat} {threads : List Thread}
    (linked : Linked ti start threads) (ae : Nat) :
    scan ti threads.length start ae = some ((threads.map (·.epoch)).foldl Kvthread.minActiveEpoch ae) := by
  induction threads generalizing start ae with
  | nil =>
      rw [linked]
      rfl
  | cons t threads ih =>
      obtain ⟨rfl, next, here, rest⟩ := linked
      rw [List.length_cons, scan, here]
      exact ih rest _

/-- Records elsewhere do not matter. -/
theorem Linked.frame {ti ti' : Nat → Option Threadinfo} {start : Option Nat} {threads : List Thread}
    (linked : Linked ti start threads) (same : ∀ t ∈ threads, ti' t.addr = ti t.addr) :
    Linked ti' start threads := by
  induction threads generalizing start with
  | nil => exact linked
  | cons t threads ih =>
      obtain ⟨start, next, here, rest⟩ := linked
      exact ⟨start, next, (same t (by simp)).trans here, ih rest fun u member => same u (by simp [member])⟩

/-- Threads with their own indices. -/
structure Slots (superpageSize : Nat) (s : State) : Prop where
  mapped : s.memory.mapped = !s.threads.isEmpty
  addr : ∀ t ∈ s.threads, t.addr = allocateTi (t.index + 1).toNat
  index : ∀ t ∈ s.threads, -1 ≤ t.index ∧ t.index + 1 ≤ s.threads.length
  free : dataRegionAddr + skipToData + s.threads.length * superpageSize ≤ s.memory.nvmFreeAddr

section
variable {superpageSize : Nat} {s s' : State}

theorem slots_apart {t u : Thread} {threads : List Thread}
    (addr : ∀ t ∈ threads, t.addr = allocateTi (t.index + 1).toNat)
    (index : ∀ t ∈ threads, -1 ≤ t.index) (inside : t ∈ threads) (inside' : u ∈ threads)
    (other : t.index ≠ u.index) : t.addr + tiSize ≤ u.addr ∨ u.addr + tiSize ≤ t.addr := by
  have low := index t inside
  have low' := index u inside'
  rw [addr t inside, addr u inside', allocateTi, allocateTi, tiSize]
  omega

/-- The record that is made lies in front of the superpage that its constructor takes. -/
theorem Slots.below (slots : Slots superpageSize s) (large : tiSize ≤ superpageSize) {index : Int}
    (bound : index + 1 ≤ s.threads.length) :
    allocateTi (index + 1).toNat + tiSize ≤ s.memory.nvmFreeAddr := by
  have free := slots.free
  have more : s.threads.length * tiSize ≤ s.threads.length * superpageSize :=
    Nat.mul_le_mul_left _ large
  have pindex : (index + 1).toNat * tiSize ≤ s.threads.length * tiSize :=
    Nat.mul_le_mul_right _ (by omega)
  rw [allocateTi]
  simp only [skipToData, skipToTi, tiSize] at *
  omega

theorem performed_index {threads : List Thread} {purpose : Purpose} {index : Int}
    (ok : performed threads purpose index = true) :
    -1 ≤ index ∧ index + 1 ≤ threads.length ∧ (index = -1 ↔ threads = []) := by
  simp only [performed] at ok
  split at ok
  · next none =>
      simp only [decide_eq_true_eq] at ok
      simp [none, ok.2]
  · next some =>
      simp only [decide_eq_true_eq] at ok
      refine ⟨by omega, by omega, ?_⟩
      simp only [some, iff_false]
      omega

/-- What `make` does to a state in which it succeeds. -/
theorem step_make {purpose : Purpose} {index : Int}
    (h : step superpageSize s (.make purpose index) = some s') :
    ∃ m, performed s.threads purpose index = true ∧
      make superpageSize purpose index s.memory = some (allocateTi (index + 1).toNat, m) ∧
      s' = ⟨m, ⟨allocateTi (index + 1).toNat, purpose, index, 0⟩ :: s.threads⟩ := by
  simp only [step, Option.ite_none_right_eq_some, Option.map_eq_some_iff] at h
  obtain ⟨ok, ⟨a, m⟩, made, rfl⟩ := h
  have addr : a = allocateTi (index + 1).toNat := by
    simp only [make] at made
    split at made
    · cases made
    · cases made
      rfl
  subst addr
  exact ⟨m, ok, made, rfl⟩

theorem step_setGcEpoch {k epoch : Nat}
    (h : step superpageSize s (.setGcEpoch k epoch) = some s') :
    ∃ t, s.threads[k]? = some t ∧
      s' = ⟨{ s.memory with
          ti := Function.update s.memory.ti t.addr
            ((s.memory.ti t.addr).map ({ · with gcEpoch := epoch })) },
        s.threads.set k { t with epoch := epoch }⟩ := by
  simp only [step, Option.map_eq_some_iff] at h
  obtain ⟨t, here, rfl⟩ := h
  exact ⟨t, here, rfl⟩

theorem slots_make {purpose : Purpose} {index : Int} (slots : Slots superpageSize s)
    (h : step superpageSize s (.make purpose index) = some s') : Slots superpageSize s' := by
  obtain ⟨m, ok, made, rfl⟩ := step_make h
  obtain ⟨low, high, -⟩ := performed_index ok
  simp only [make] at made
  split at made
  · cases made
  · cases made
    refine ⟨rfl, ?_, ?_, ?_⟩
    · intro t member
      rcases List.mem_cons.mp member with rfl | member
      · rfl
      · exact slots.addr t member
    · intro t member
      rw [List.length_cons]
      rcases List.mem_cons.mp member with rfl | member
      · exact ⟨low, by push_cast; omega⟩
      · have old := slots.index t member
        exact ⟨old.1, by push_cast; omega⟩
    · have free := slots.free
      show _ + (s.threads.length + 1) * superpageSize ≤ s.memory.nvmFreeAddr + superpageSize
      rw [Nat.succ_mul]
      omega

theorem slots_setGcEpoch {k epoch : Nat} (slots : Slots superpageSize s)
    (h : step superpageSize s (.setGcEpoch k epoch) = some s') : Slots superpageSize s' := by
  obtain ⟨t, here, rfl⟩ := step_setGcEpoch h
  have inside := List.mem_of_getElem? here
  have old {u : Thread} (member : u ∈ s.threads.set k { t with epoch := epoch }) :
      ∃ v ∈ s.threads, u.addr = v.addr ∧ u.index = v.index := by
    rcases List.mem_or_eq_of_mem_set member with member | rfl
    · exact ⟨u, member, rfl, rfl⟩
    · exact ⟨t, inside, rfl, rfl⟩
  refine ⟨?_, ?_, ?_, ?_⟩
  · rw [slots.mapped]
    cases s.threads <;> cases k <;> rfl
  · intro u member
    obtain ⟨v, member, addr, index⟩ := old member
    rw [addr, index]
    exact slots.addr v member
  · intro u member
    obtain ⟨v, member, addr, index⟩ := old member
    rw [index, List.length_set]
    exact slots.index v member
  · rw [List.length_set]
    exact slots.free

/-- With an index of its own, the new record is linked in front of the others. -/
theorem linked_make {purpose : Purpose} {index : Int} (large : tiSize ≤ superpageSize)
    (slots : Slots superpageSize s) (linked : Linked s.memory.ti s.memory.allthreads s.threads)
    (new : ∀ t ∈ s.threads, t.index ≠ index)
    (h : step superpageSize s (.make purpose index) = some s') :
    Linked s'.memory.ti s'.memory.allthreads s'.threads := by
  have slots' := slots_make slots h
  obtain ⟨m, ok, made, rfl⟩ := step_make h
  obtain ⟨low, high, -⟩ := performed_index ok
  have free := slots.below large high
  simp only [make] at made
  split at made
  · cases made
  · cases made
    refine ⟨rfl, s.memory.allthreads, ?_, linked.frame fun t member => ?_⟩
    · simp only [Function.update_self]
      rw [overwrite, if_neg (by omega), Function.update_self]
      rfl
    · have apart := slots_apart slots'.addr (fun t member => (slots'.index t member).1)
        (List.mem_cons_of_mem _ member) List.mem_cons_self (new t member)
      simp only at apart
      have below := slots.below large (slots.index t member).2
      rw [← slots.addr t member] at below
      have ne : t.addr ≠ allocateTi (index + 1).toNat := by
        simp only [tiSize] at apart
        omega
      simp only [Function.update_of_ne ne, overwrite]
      rw [if_neg (by omega), if_neg (by omega)]

/-- A thread sets the epoch in its own record. -/
theorem Linked.set {ti : Nat → Option Threadinfo} {start : Option Nat} {threads : List Thread}
    {k epoch : Nat} {t : Thread} (linked : Linked ti start threads)
    (apart : (threads.map (·.addr)).Nodup) (here : threads[k]? = some t) :
    Linked (Function.update ti t.addr ((ti t.addr).map ({ · with gcEpoch := epoch }))) start
      (threads.set k { t with epoch := epoch }) := by
  induction threads generalizing start k with
  | nil => cases here
  | cons u threads ih =>
      obtain ⟨first, next, record, rest⟩ := linked
      rw [List.map_cons, List.nodup_cons] at apart
      cases k with
      | zero =>
          cases here
          refine ⟨first, next, ?_, rest.frame fun v member => ?_⟩
          · rw [Function.update_self, record]
            rfl
          · refine Function.update_of_ne ?_ _ _
            intro same
            exact apart.1 (List.mem_map.mpr ⟨v, member, same⟩)
      | succ k =>
          have inside := List.mem_of_getElem? (show threads[k]? = some t from here)
          refine ⟨first, next, ?_, ih rest apart.2 here⟩
          rw [Function.update_of_ne, record]
          rintro same
          exact apart.1 (List.mem_map.mpr ⟨t, inside, same.symm⟩)

theorem index_set {threads : List Thread} {k epoch : Nat} {t : Thread}
    (here : threads[k]? = some t) :
    (threads.set k { t with epoch := epoch }).map (·.index) = threads.map (·.index) := by
  induction threads generalizing k with
  | nil => rfl
  | cons u threads ih =>
      cases k with
      | zero =>
          cases here
          rfl
      | succ k => exact congrArg (u.index :: ·) (ih here)

/-- Different indices give different records. -/
theorem Slots.disjoint (slots : Slots superpageSize s) (distinct : (s.threads.map (·.index)).Nodup) :
    s.threads.Pairwise fun t u => t.addr + tiSize ≤ u.addr ∨ u.addr + tiSize ≤ t.addr := by
  have pairs := List.pairwise_map.mp distinct
  refine (List.Pairwise.and_mem.mp pairs).imp ?_
  rintro t u ⟨inside, inside', other⟩
  exact slots_apart slots.addr (fun t member => (slots.index t member).1) inside inside' other

theorem reachable_linked (large : tiSize ≤ superpageSize)
    (reachable : (machine superpageSize).Reachable Machine.anyStep s) :
    Slots superpageSize s ∧ ((s.threads.map (·.index)).Nodup →
      Linked s.memory.ti s.memory.allthreads s.threads) := by
  refine reachable.invariant ?_ ?_
  · rintro s ⟨nvm, region, rfl⟩
    exact ⟨⟨rfl, nofun, nofun, by simpa using region⟩, fun _ => rfl⟩
  · rintro s label s' ⟨slots, linked⟩ - h
    cases label with
    | make purpose index =>
        refine ⟨slots_make slots h, fun distinct => ?_⟩
        obtain ⟨m, -, -, rfl⟩ := step_make h
        rw [List.map_cons, List.nodup_cons] at distinct
        refine linked_make large slots (linked distinct.2) ?_ h
        intro t member same
        exact distinct.1 (List.mem_map.mpr ⟨t, member, same⟩)
    | setGcEpoch k epoch =>
        refine ⟨slots_setGcEpoch slots h, fun distinct => ?_⟩
        change step superpageSize s (.setGcEpoch k epoch) = some s' at h
        obtain ⟨t, here, rfl⟩ := step_setGcEpoch h
        rw [index_set here] at distinct
        refine (linked distinct).set (List.pairwise_map.mpr ((slots.disjoint distinct).imp ?_)) here
        rintro t u apart same
        simp only [tiSize] at apart
        omega

/-- The records are sound if and only if no two threads have the same index. -/
theorem records_sound_iff (large : tiSize ≤ superpageSize)
    (reachable : (machine superpageSize).Reachable Machine.anyStep s) :
    Sound s ↔ (s.threads.map (·.index)).Nodup := by
  obtain ⟨slots, linked⟩ := reachable_linked large reachable
  constructor
  · intro sound
    refine List.pairwise_map.mpr ((List.Pairwise.and_mem.mp sound.disjoint).imp ?_)
    rintro t u ⟨inside, inside', apart⟩ same
    rw [slots.addr t inside, slots.addr u inside', same] at apart
    simp only [tiSize] at apart
    omega
  · intro distinct
    exact ⟨slots.disjoint distinct, linked distinct, scan_linked (linked distinct)⟩

end

/-- The state behind a run from a new data region. -/
def started : State := ⟨⟨false, dataRegionAddr + skipToData, fun _ => none, none⟩, []⟩

theorem started_reachable (superpageSize : Nat) :
    (machine superpageSize).Reachable Machine.anyStep started :=
  .initial ⟨_, le_rfl, rfl⟩

theorem records_sound_two_workers : ∃ s, (machine (2 ^ 21)).Reachable Machine.anyStep s ∧
    s.threads.map (·.index) = [1, 0, -1] ∧ Sound s := by
  have main := (started_reachable (2 ^ 21)).next (l := .make .main (-1)) trivial rfl
  have first := main.next (l := .make .process 0) trivial rfl
  have second := first.next (l := .make .process 1) trivial rfl
  exact ⟨_, second, rfl, (records_sound_iff (by decide) second).mpr (by decide)⟩

theorem scan_loop {ti : Nat → Option Threadinfo} {a : Nat} {r : Threadinfo} (here : ti a = some r)
    (loop : r.next = some a) (fuel ae : Nat) : scan ti fuel (some a) ae = none := by
  induction fuel generalizing ae with
  | zero => rfl
  | succ fuel ih =>
      rw [scan, here, Option.bind_some, loop]
      exact ih _

/-- A logger and a checkpointer get the record of index 0: the list goes round in it and never comes
to the main thread. -/
theorem logger_and_checkpointer_collide : ∃ s, (machine (2 ^ 21)).Reachable Machine.anyStep s ∧
    s.threads.map (fun t => (t.purpose, t.index)) =
      [(.checkpoint, 0), (.log, 0), (.main, -1)] ∧
    ¬ Sound s ∧ ∀ fuel globalepoch, scan s.memory.ti fuel s.memory.allthreads globalepoch = none := by
  obtain ⟨s, reachable, found⟩ := (started_reachable (2 ^ 21)).exists_run
    [.make .main (-1), .make .log 0, .make .checkpoint 0]
    (fun s => s.threads.map (fun t => (t.purpose, t.index)) =
        [(.checkpoint, 0), (.log, 0), (.main, -1)] ∧
      s.memory.allthreads = some (allocateTi 1) ∧
      s.memory.ti (allocateTi 1) = some ⟨.checkpoint, 0, 0, some (allocateTi 1)⟩)
    (by decide +kernel)
  obtain ⟨threads, first, loop⟩ := of_decide_eq_true found
  have endless (fuel ae : Nat) : scan s.memory.ti fuel s.memory.allthreads ae = none := by
    rw [first]
    exact scan_loop loop rfl fuel ae
  refine ⟨s, reachable, threads, fun sound => ?_, endless⟩
  have ends := sound.scans 0
  rw [endless] at ends
  cases ends

end Incll.Proof.Allthreads
