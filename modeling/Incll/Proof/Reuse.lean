import Incll.Model.Kvthread
import Mathlib.Algebra.BigOperators.Fin
import Mathlib.Algebra.Order.BigOperators.Group.Finset
import Mathlib.Data.List.TakeWhile

/-! # Blocks of the checkpoint are not reused

A block that the checkpoint needs was retired after the last flush, so the epoch in the limbo list is
at least the one of that flush. -/

namespace Incll.Proof.Reuse
open Incll.Lib Incll.Model Incll.Model.Kvthread

variable {n superpageSize : Nat} {s s' : State n} {t : Fin n} {a b : Addr}

/-- Whenever `active_epoch` is stored, the minimum of the threads' epochs is not later than the last
flush. -/
def Covered (s : State n) : Label n → Prop
  | .flush l => s.flush.pc l.thread = .testInFlush →
      ∀ x ∈ s.scan, x.1 = [] → x.2 ≤ s.flushedEpoch
  | _ => True

instance (s : State n) (l : Label n) : Decidable (Covered s l) := by
  cases l <;> simp only [Covered] <;> infer_instance

/-! Where a block is. -/

namespace Threadinfo

def blocks (ti : Threadinfo) : List Addr :=
  ti.pool.map Prod.snd ++ ti.limbo.map (·.2.2) ++ ti.own.map Prod.snd

end Threadinfo

/-- How often a block is in a list of a thread or in the tree. -/
def uses (s : State n) (a : Addr) : Nat :=
  ∑ t, (Threadinfo.blocks (s.ti t)).count a + (s.tree a).isSome.toNat

theorem uses_setTi (s : State n) (t : Fin n) (ti : Threadinfo) (a : Addr) :
    uses (s.setTi t ti) a + (Threadinfo.blocks (s.ti t)).count a =
      uses s a + (Threadinfo.blocks ti).count a := by
  have same : (s.setTi t ti).tree = s.tree := rfl
  simp only [uses, same]
  rw [← Finset.add_sum_erase Finset.univ (fun u => (Threadinfo.blocks (s.ti u)).count a)
      (Finset.mem_univ t),
    ← Finset.add_sum_erase Finset.univ (fun u => (Threadinfo.blocks ((s.setTi t ti).ti u)).count a)
      (Finset.mem_univ t)]
  have others : ∑ u ∈ Finset.univ.erase t, (Threadinfo.blocks ((s.setTi t ti).ti u)).count a =
      ∑ u ∈ Finset.univ.erase t, (Threadinfo.blocks (s.ti u)).count a := by
    refine Finset.sum_congr rfl fun u member => ?_
    simp only [State.setTi]
    rw [Function.update_of_ne (Finset.ne_of_mem_erase member)]
  have mine : (s.setTi t ti).ti t = ti := by simp [State.setTi]
  rw [others, mine]
  omega

theorem uses_moved (s : State n) (t : Fin n) (ti : Threadinfo) (tree : Addr → Option Nat) (a : Addr) :
    uses { s.setTi t ti with tree := tree } a + (Threadinfo.blocks (s.ti t)).count a +
        (s.tree a).isSome.toNat =
      uses s a + (Threadinfo.blocks ti).count a + (tree a).isSome.toNat := by
  have moved := uses_setTi s t ti a
  have same : (s.setTi t ti).tree = s.tree := rfl
  simp only [uses, same] at moved ⊢
  omega

/-- Each block is in one place, and the lists hold nothing of the checkpoint that may be freed. -/
structure Inv (s : State n) : Prop where
  once : ∀ a, uses s a ≤ 1
  below : ∀ a, 0 < uses s a → a < s.nvmFreeAddr
  flushed : ∀ a, (s.checkpoint a).isSome → a < s.flushedFree
  free : s.flushedFree ≤ s.nvmFreeAddr
  active : s.activeEpoch ≤ s.flushedEpoch
  epoch : s.flushedEpoch ≤ s.flush.globalepoch
  limit : s.flush.globalepoch < epochLimit
  limbo : ∀ t, ∀ x ∈ (s.ti t).limbo, x.1 < epochLimit ∧
    ((s.checkpoint x.2.2).isSome → s.flushedEpoch ≤ x.1)
  clean : ∀ t, ∀ x ∈ (s.ti t).pool ++ (s.ti t).own, s.checkpoint x.2 = none
  kept : s.reused = false

theorem count_blocks (ti : Threadinfo) (a : Addr) : (Threadinfo.blocks ti).count a =
    (ti.pool.map Prod.snd).count a + (ti.limbo.map (·.2.2)).count a +
      (ti.own.map Prod.snd).count a := by
  simp only [Threadinfo.blocks, List.count_append]

theorem count_le_uses (s : State n) (t : Fin n) (a : Addr) :
    (Threadinfo.blocks (s.ti t)).count a + (s.tree a).isSome.toNat ≤ uses s a := by
  refine Nat.add_le_add_right ?_ _
  exact Finset.single_le_sum (f := fun u => (Threadinfo.blocks (s.ti u)).count a)
    (fun _ _ => Nat.zero_le _) (Finset.mem_univ t)

/-- A block in a list of a thread is not in the tree. -/
theorem Inv.not_tree (inv : Inv s) (member : a ∈ Threadinfo.blocks (s.ti t)) : s.tree a = none := by
  have one := (count_le_uses s t a).trans (inv.once a)
  have some := List.count_pos_iff.mpr member
  by_contra tree
  rw [Option.isSome_iff_ne_none.mpr tree, Bool.toNat_true] at one
  omega

theorem mem_blocks_of_pool {ti : Threadinfo} {x : Nat × Addr} (member : x ∈ ti.pool) :
    x.2 ∈ Threadinfo.blocks ti := by
  simp only [Threadinfo.blocks, List.mem_append, List.mem_map]
  exact .inl (.inl ⟨x, member, rfl⟩)

theorem mem_blocks_of_limbo {ti : Threadinfo} {x : Nat × Nat × Addr} (member : x ∈ ti.limbo) :
    x.2.2 ∈ Threadinfo.blocks ti := by
  simp only [Threadinfo.blocks, List.mem_append, List.mem_map]
  exact .inl (.inr ⟨x, member, rfl⟩)

theorem mem_blocks_of_own {ti : Threadinfo} {x : Nat × Addr} (member : x ∈ ti.own) :
    x.2 ∈ Threadinfo.blocks ti := by
  simp only [Threadinfo.blocks, List.mem_append, List.mem_map]
  exact .inr ⟨x, member, rfl⟩

theorem setTi_self (s : State n) (t : Fin n) (ti : Threadinfo) : (s.setTi t ti).ti t = ti := by
  simp [State.setTi]

theorem forall_setTi (P : Threadinfo → Prop) {ti : Threadinfo} (here : P ti)
    (others : ∀ u, P (s.ti u)) (u : Fin n) : P ((s.setTi t ti).ti u) := by
  simp only [State.setTi]
  by_cases same : u = t
  · rw [same, Function.update_self]
    exact here
  · rw [Function.update_of_ne same]
    exact others u

/-- A thread moves blocks between its lists and the tree. -/
theorem Inv.moved {ti : Threadinfo} {tree : Addr → Option Nat} (inv : Inv s)
    (same : ∀ a, uses { s.setTi t ti with tree := tree } a = uses s a)
    (limbo : ∀ x ∈ ti.limbo, x.1 < epochLimit ∧
      ((s.checkpoint x.2.2).isSome → s.flushedEpoch ≤ x.1))
    (clean : ∀ x ∈ ti.pool ++ ti.own, s.checkpoint x.2 = none) :
    Inv { s.setTi t ti with tree := tree } := by
  refine ⟨fun a => ?_, fun a used => ?_, inv.flushed, inv.free, inv.active, inv.epoch, inv.limit,
    ?_, ?_, inv.kept⟩
  · rw [same]
    exact inv.once a
  · rw [same] at used
    exact inv.below a used
  · exact forall_setTi (fun ti => ∀ x ∈ ti.limbo, x.1 < epochLimit ∧
      ((s.checkpoint x.2.2).isSome → s.flushedEpoch ≤ x.1)) limbo inv.limbo
  · exact forall_setTi (fun ti => ∀ x ∈ ti.pool ++ ti.own, s.checkpoint x.2 = none) clean inv.clean

theorem Inv.rearranged {ti : Threadinfo} (inv : Inv s)
    (count : ∀ a, (Threadinfo.blocks ti).count a = (Threadinfo.blocks (s.ti t)).count a)
    (limbo : ∀ x ∈ ti.limbo, x ∈ (s.ti t).limbo)
    (clean : ∀ x ∈ ti.pool ++ ti.own, s.checkpoint x.2 = none) : Inv (s.setTi t ti) := by
  refine Inv.moved inv (fun a => ?_) (fun x member => inv.limbo t x (limbo x member)) clean
  have moved := uses_setTi s t ti a
  rw [count a] at moved
  exact Nat.add_right_cancel moved

/-! `hard_rcu_quiesce`. -/

theorem lt_of_not_epochBefore {active epoch : Nat} (late : active < epochLimit)
    (small : epoch < epochLimit)
    (ready : epochBefore ((active + 2 ^ 64 - 1) % 2 ^ 64) epoch = false) : epoch < active := by
  simp only [epochBefore, decide_eq_false_iff_not, epochLimit] at *
  omega

theorem limbo_eq (active : Nat) (ti : Threadinfo) :
    ti.ready active ++ ti.limbo.drop (ti.ready active).length = ti.limbo :=
  List.prefix_iff_eq_append.mp ((List.take_prefix ..).trans (List.takeWhile_prefix _))

theorem count_hardRcuQuiesce (active : Nat) (ti : Threadinfo) (a : Addr) :
    (Threadinfo.blocks (ti.hardRcuQuiesce active)).count a = (Threadinfo.blocks ti).count a := by
  rw [count_blocks, count_blocks]
  have whole : (ti.limbo.map (·.2.2)).count a = ((ti.ready active).map (·.2.2)).count a +
      ((ti.limbo.drop (ti.ready active).length).map (·.2.2)).count a := by
    rw [← List.count_append, ← List.map_append, limbo_eq]
  simp only [Kvthread.Threadinfo.hardRcuQuiesce, List.map_append, List.count_append,
    List.map_reverse, List.count_reverse, List.map_map]
  rw [whole]
  simp only [Function.comp_def]
  omega

theorem due_of_ready {active : Nat} {ti : Threadinfo} {x : Nat × Nat × Addr}
    (member : x ∈ ti.ready active) :
    epochBefore ((active + 2 ^ 64 - 1) % 2 ^ 64) x.1 = false := by
  have due := List.mem_takeWhile_imp (List.mem_of_mem_take member)
  rwa [Bool.not_eq_true'] at due

theorem Inv.ready (inv : Inv s) {x : Nat × Nat × Addr}
    (member : x ∈ (s.ti t).ready s.activeEpoch) : s.checkpoint x.2.2 = none := by
  have listed : x ∈ (s.ti t).limbo := by
    rw [← limbo_eq s.activeEpoch (s.ti t)]
    exact List.mem_append_left _ member
  obtain ⟨small, later⟩ := inv.limbo t x listed
  have early : x.1 < s.activeEpoch :=
    lt_of_not_epochBefore ((inv.active.trans inv.epoch).trans_lt inv.limit) small
      (due_of_ready member)
  by_contra some
  have := later (Option.isSome_iff_ne_none.mpr some)
  have := inv.active
  omega

theorem inv_quiesce (inv : Inv s) (e : Nat) :
    Inv (s.setTi t { (s.ti t).quiesce s.activeEpoch with gcEpoch := e }) := by
  simp only [Kvthread.Threadinfo.quiesce]
  split
  · refine inv.rearranged (count_hardRcuQuiesce s.activeEpoch (s.ti t)) ?_ ?_
    · exact fun x member => List.mem_of_mem_drop member
    · intro x member
      simp only [Kvthread.Threadinfo.hardRcuQuiesce, List.mem_append, List.mem_reverse,
        List.mem_map] at member
      rcases member with (⟨y, ready, rfl⟩ | pool) | own
      · exact inv.ready ready
      · exact inv.clean t x (List.mem_append_left _ pool)
      · exact inv.clean t x (List.mem_append_right _ own)
  · exact inv.rearranged (fun _ => rfl) (fun _ member => member) (inv.clean t)

theorem quiesce_rcuStart (active e : Nat) (ti : Threadinfo) :
    (ti.rcuStart e).quiesce active = { ti.quiesce active with gcEpoch := e } := by
  have same : (ti.rcuStart e).performGcEpoch = ti.performGcEpoch := rfl
  simp only [Kvthread.Threadinfo.quiesce, same]
  by_cases due : ti.performGcEpoch ≠ active
  · simp only [if_pos due]
    rfl
  · simp only [if_neg due]
    rfl

/-! `pool_allocate`. -/

theorem count_map_erase (l : List (Nat × Addr)) {nl : Nat} (member : (nl, b) ∈ l) (a : Addr) :
    ((l.erase (nl, b)).map Prod.snd).count a + (if b == a then 1 else 0) =
      (l.map Prod.snd).count a := by
  have moved := ((List.perm_cons_erase member).map Prod.snd).count_eq a
  rw [moved, List.map_cons, List.count_cons]

theorem inv_popPool {x : Nat × Addr} (inv : Inv s) (member : x ∈ (s.ti t).pool) :
    Inv (s.popPool t x) := by
  obtain ⟨nl, b⟩ := x
  have used : b ∈ Threadinfo.blocks (s.ti t) := mem_blocks_of_pool member
  have clear : s.checkpoint b = none := inv.clean t (nl, b) (List.mem_append_left _ member)
  have moved : Inv (s.setTi t { s.ti t with
      pool := (s.ti t).pool.erase (nl, b), own := (nl, b) :: (s.ti t).own }) := by
    refine inv.rearranged (fun a => ?_) (fun _ member => member) fun y listed => ?_
    · have erased := count_map_erase (s.ti t).pool member a
      rw [count_blocks, count_blocks]
      simp only [List.map_cons, List.count_cons]
      omega
    · simp only [List.mem_append, List.mem_cons] at listed
      rcases listed with pool | rfl | own
      · exact inv.clean t y (List.mem_append_left _ (List.mem_of_mem_erase pool))
      · exact clear
      · exact inv.clean t y (List.mem_append_right _ own)
  refine ⟨moved.once, moved.below, moved.flushed, moved.free, moved.active, moved.epoch,
    moved.limit, moved.limbo, moved.clean, ?_⟩
  simp only [State.popPool, inv.kept, clear, inv.not_tree used]
  rfl

theorem initializePool_bounds {superpageSize base nl : Nat} {x : Nat × Addr}
    (member : x ∈ initializePool superpageSize base nl) :
    base ≤ x.2 ∧ x.2 < base + superpageSize := by
  obtain ⟨i, small, rfl⟩ := List.mem_map.mp member
  have fits := Nat.div_mul_le_self superpageSize (nl * cacheLineSize)
  have before := List.mem_range.mp small
  have wide : 0 < nl * cacheLineSize := by
    by_contra none
    simp only [Nat.not_lt, Nat.le_zero] at none
    rw [none, Nat.div_zero] at before
    exact absurd before (Nat.not_lt_zero _)
  refine ⟨Nat.le_add_right _ _, Nat.add_lt_add_left ?_ _⟩
  exact ((Nat.mul_lt_mul_right wide).mpr before).trans_le fits

theorem initializePool_nodup (superpageSize base nl : Nat) :
    ((initializePool superpageSize base nl).map Prod.snd).Nodup := by
  by_cases none : nl * cacheLineSize = 0
  · simp [initializePool, none]
  · rw [initializePool, List.map_map]
    refine List.nodup_range.map fun i j same => ?_
    simp only [Function.comp_apply, Nat.add_left_cancel_iff] at same
    exact Nat.eq_of_mul_eq_mul_right (Nat.pos_of_ne_zero none) same

theorem uses_refill (s : State n) (t : Fin n) (page : List (Nat × Addr)) (a : Addr) :
    uses (s.setTi t { s.ti t with pool := page ++ (s.ti t).pool }) a =
      uses s a + (page.map Prod.snd).count a := by
  have moved := uses_setTi s t { s.ti t with pool := page ++ (s.ti t).pool } a
  rw [count_blocks (s.ti t), count_blocks, List.map_append, List.count_append] at moved
  dsimp only at moved ⊢
  omega

theorem inv_refillPool {nl : Nat} (inv : Inv s)
    (refill : s.refillPool superpageSize t nl = some s') : Inv s' := by
  simp only [State.refillPool, Option.ite_none_right_eq_some, Option.some.injEq] at refill
  obtain ⟨-, rfl⟩ := refill
  -- a block of the new page is used nowhere
  have fresh {a : Addr} (member : a ∈ (initializePool superpageSize s.nvmFreeAddr nl).map Prod.snd) :
      uses s a = 0 ∧ s.checkpoint a = none ∧ a < s.nvmFreeAddr + superpageSize := by
    obtain ⟨x, new, rfl⟩ := List.mem_map.mp member
    obtain ⟨low, high⟩ := initializePool_bounds new
    refine ⟨?_, ?_, high⟩
    · by_contra used
      exact absurd (inv.below _ (Nat.pos_of_ne_zero used)) (Nat.not_lt.mpr low)
    · by_contra some
      have := inv.flushed _ (Option.isSome_iff_ne_none.mpr some)
      exact absurd (this.trans_le inv.free) (Nat.not_lt.mpr low)
  have moved (a : Addr) := uses_refill s t (initializePool superpageSize s.nvmFreeAddr nl) a
  refine ⟨fun a => ?_, fun a used => ?_, inv.flushed, inv.free.trans (Nat.le_add_right _ _),
    inv.active, inv.epoch, inv.limit, ?_, ?_, inv.kept⟩
  · refine (moved a).trans_le ?_
    by_cases member : a ∈ (initializePool superpageSize s.nvmFreeAddr nl).map Prod.snd
    · rw [(fresh member).1, Nat.zero_add]
      exact List.nodup_iff_count_le_one.mp (initializePool_nodup ..) a
    · rw [List.count_eq_zero_of_not_mem member]
      exact inv.once a
  · replace used : 0 < _ := used.trans_eq (moved a)
    by_cases member : a ∈ (initializePool superpageSize s.nvmFreeAddr nl).map Prod.snd
    · exact (fresh member).2.2
    · rw [List.count_eq_zero_of_not_mem member] at used
      exact (inv.below a used).trans_le (Nat.le_add_right _ _)
  · exact forall_setTi (fun ti => ∀ x ∈ ti.limbo, x.1 < epochLimit ∧
      ((s.checkpoint x.2.2).isSome → s.flushedEpoch ≤ x.1)) (inv.limbo t) inv.limbo
  · refine forall_setTi (fun ti => ∀ x ∈ ti.pool ++ ti.own, s.checkpoint x.2 = none)
      (fun x member => ?_) inv.clean
    simp only [List.append_assoc] at member
    rcases List.mem_append.mp member with new | old
    · exact (fresh (List.mem_map_of_mem new)).2.1
    · exact inv.clean t x old

theorem inv_poolAllocate {nl : Nat} (inv : Inv s)
    (allocate : s.poolAllocate superpageSize t nl = some s') : Inv s' := by
  simp only [State.poolAllocate, Option.ite_none_left_eq_some] at allocate
  obtain ⟨filled, refill, popped⟩ := Option.bind_eq_some_iff.mp allocate.2
  obtain ⟨x, first, rfl⟩ := Option.map_eq_some_iff.mp popped
  have ready : Inv filled := by
    split at refill
    · exact inv_refillPool inv refill
    · cases refill
      exact inv
  exact inv_popPool ready (List.mem_of_find?_eq_some first)

/-! The tree. -/

theorem inv_deallocate {nl : Nat} (inv : Inv s) (own : (nl, a) ∈ (s.ti t).own) :
    Inv (s.setTi t { s.ti t with
      own := (s.ti t).own.erase (nl, a), pool := (nl, a) :: (s.ti t).pool }) := by
  refine inv.rearranged (fun b => ?_) (fun _ member => member) fun x listed => ?_
  · have erased := count_map_erase (s.ti t).own own b
    rw [count_blocks, count_blocks]
    simp only [List.map_cons, List.count_cons]
    omega
  · simp only [List.cons_append, List.mem_cons, List.mem_append] at listed
    rcases listed with rfl | pool | kept
    · exact inv.clean t _ (List.mem_append_right _ own)
    · exact inv.clean t x (List.mem_append_left _ pool)
    · exact inv.clean t x (List.mem_append_right _ (List.mem_of_mem_erase kept))

theorem inv_link {nl : Nat} (inv : Inv s) (own : (nl, a) ∈ (s.ti t).own) :
    Inv { s.setTi t { s.ti t with own := (s.ti t).own.erase (nl, a) } with
      tree := Function.update s.tree a (some nl) } := by
  have unlinked : s.tree a = none := inv.not_tree (mem_blocks_of_own own)
  refine Inv.moved inv (fun b => ?_) (inv.limbo t) fun x listed => ?_
  · have erased := count_map_erase (s.ti t).own own b
    have linked := uses_moved s t { s.ti t with own := (s.ti t).own.erase (nl, a) }
      (Function.update s.tree a (some nl)) b
    rw [count_blocks, count_blocks] at linked
    dsimp only at linked ⊢
    by_cases same : b = a
    · rw [same] at linked erased ⊢
      rw [unlinked, Function.update_self, Option.isSome_none, Option.isSome_some] at linked
      rw [if_pos (beq_self_eq_true a)] at erased
      simp only [Bool.toNat_false, Bool.toNat_true] at linked
      omega
    · rw [Function.update_of_ne same] at linked
      rw [if_neg (by simpa using Ne.symm same)] at erased
      omega
  · simp only [List.mem_append] at listed
    rcases listed with pool | kept
    · exact inv.clean t x (List.mem_append_left _ pool)
    · exact inv.clean t x (List.mem_append_right _ (List.mem_of_mem_erase kept))

theorem inv_retire {nl : Nat} (inv : Inv s) (linked : s.tree a = some nl) :
    Inv { s.setTi t { s.ti t with
        limbo := (s.ti t).limbo ++ [(s.flush.globalepoch, nl, a)] } with
      tree := Function.update s.tree a none } := by
  refine Inv.moved inv (fun b => ?_) (fun x listed => ?_) (inv.clean t)
  · have put := uses_moved s t { s.ti t with
      limbo := (s.ti t).limbo ++ [(s.flush.globalepoch, nl, a)] } (Function.update s.tree a none) b
    rw [count_blocks, count_blocks, List.map_append, List.count_append, List.map_singleton,
      List.count_singleton] at put
    dsimp only at put ⊢
    by_cases same : b = a
    · rw [same] at put ⊢
      rw [linked, Function.update_self, Option.isSome_none, Option.isSome_some,
        if_pos (beq_self_eq_true a)] at put
      simp only [Bool.toNat_false, Bool.toNat_true] at put
      omega
    · rw [Function.update_of_ne same, if_neg (by simpa using Ne.symm same)] at put
      omega
  · rcases List.mem_append.mp listed with old | new
    · exact inv.limbo t x old
    · rw [List.mem_singleton.mp new]
      exact ⟨inv.limit, fun _ => inv.epoch⟩

theorem inv_stepAct {act : Act} (inv : Inv s) (h : stepAct superpageSize s t act = some s') :
    Inv s' := by
  cases act with
  | rcuStart =>
      cases h
      exact inv.rearranged (fun _ => rfl) (fun _ member => member) (inv.clean t)
  | rcuStop =>
      cases h
      exact inv_quiesce inv 0
  | rcuQuiesce =>
      cases h
      rw [quiesce_rcuStart]
      exact inv_quiesce inv s.flush.globalepoch
  | allocate nl => exact inv_poolAllocate inv h
  | deallocate nl a =>
      simp only [stepAct, Option.ite_none_right_eq_some, Option.some.injEq] at h
      obtain ⟨own, rfl⟩ := h
      exact inv_deallocate inv own
  | link nl a =>
      simp only [stepAct, Option.ite_none_right_eq_some, Option.some.injEq] at h
      obtain ⟨own, rfl⟩ := h
      exact inv_link inv own
  | retire a =>
      obtain ⟨nl, linked, rfl⟩ := Option.map_eq_some_iff.mp h
      exact inv_retire inv linked

/-! `set_global_epoch` and the flush. -/

def holdsEpochLock : GlobalFlush.Pc → Bool
  | .compareEpoch _ | .raiseEpoch _ | .testInFlush | .unlockEpoch _ => true
  | _ => false

/-- The epoch that the thread may store in `globalepoch`. -/
def target : GlobalFlush.Pc → Option Nat
  | .lockEpoch e | .compareEpoch e | .raiseEpoch e => some e
  | _ => none

/-- The comparison of `set_global_epoch` still holds when the epoch is stored. -/
structure Rising (f : GlobalFlush.State n) : Prop where
  locked : ∀ t, holdsEpochLock (f.pc t) = true → f.epochLock = some t
  later : ∀ t e, f.pc t = .raiseEpoch e → f.globalepoch < e
  small : ∀ t, ∀ e ∈ target (f.pc t), e < epochLimit

theorem epochLater_small {e globalepoch : Nat} (small : e < epochLimit)
    (later : GlobalFlush.epochLater e globalepoch = true) (limit : globalepoch < epochLimit) :
    globalepoch < e := by
  simp only [GlobalFlush.epochLater, Bool.and_eq_true, decide_eq_true_eq, epochLimit] at *
  omega

/-- What a step of thread `t` can do to the lock and to the epoch. -/
theorem step_rises {f f' : GlobalFlush.State n} {call : GlobalFlush.Call} (ok : inLimit call = true)
    (h : GlobalFlush.stepThread f t call (f.pc t) = some f') :
    ∃ pc, f'.pc = Function.update f.pc t pc ∧
      (f'.epochLock = f.epochLock ∧
          (holdsEpochLock pc = true → holdsEpochLock (f.pc t) = true) ∨
        f.epochLock = none ∧ f'.epochLock = some t ∨
        holdsEpochLock (f.pc t) = true ∧ holdsEpochLock pc = false) ∧
      (∀ e, pc = .raiseEpoch e → target (f.pc t) = some e ∧ f'.globalepoch = f.globalepoch ∧
        GlobalFlush.epochLater e f.globalepoch = true) ∧
      (∀ e ∈ target pc, e ∈ target (f.pc t) ∨ e < epochLimit) ∧
      (f'.globalepoch = f.globalepoch ∨ f.pc t = .raiseEpoch f'.globalepoch) := by
  cases hpc : f.pc t <;> rw [hpc] at h <;> simp only [GlobalFlush.stepThread] at h
  case idle =>
    cases h
    refine ⟨_, rfl, ?_⟩
    cases call with
    | setGlobalEpoch e =>
        simpa [GlobalFlush.begin, holdsEpochLock, target, inLimit] using ok
    | ackFlush => simp [GlobalFlush.begin, holdsEpochLock, target]
    | threadDone => simp [GlobalFlush.begin, holdsEpochLock, target]
  all_goals repeat' (split at h)
  all_goals cases h
  all_goals exact ⟨_, rfl, by simp_all [holdsEpochLock, target]⟩

theorem rising_step {f f' : GlobalFlush.State n} {call : GlobalFlush.Call} (rising : Rising f)
    (limit : f.globalepoch < epochLimit) (ok : inLimit call = true)
    (h : GlobalFlush.stepThread f t call (f.pc t) = some f') : Rising f' := by
  obtain ⟨pc, hpc, lock, raises, targets, stores⟩ := step_rises ok h
  constructor
  · intro u holds
    rw [hpc] at holds
    by_cases same : u = t
    · rw [same, Function.update_self] at holds
      rcases lock with ⟨keep, old⟩ | ⟨-, taken⟩ | ⟨-, out⟩
      · rw [keep, same]
        exact rising.locked t (old holds)
      · rw [taken, same]
      · exact absurd (holds.symm.trans out) nofun
    · rw [Function.update_of_ne same] at holds
      have mine := rising.locked u holds
      rcases lock with ⟨keep, -⟩ | ⟨free, -⟩ | ⟨held, -⟩
      · rw [keep, mine]
      · exact absurd (mine.symm.trans free) nofun
      · exact absurd (Option.some.inj (mine.symm.trans (rising.locked t held))) same
  · intro u e raise
    rw [hpc] at raise
    by_cases same : u = t
    · rw [same, Function.update_self] at raise
      obtain ⟨aim, keep, later⟩ := raises e raise
      rw [keep]
      exact epochLater_small (rising.small t e aim) later limit
    · rw [Function.update_of_ne same] at raise
      rcases stores with keep | store
      · rw [keep]
        exact rising.later u e raise
      · -- two threads before the store would both hold the lock
        have mine := rising.locked u (by rw [raise]; rfl)
        have other := rising.locked t (by rw [store]; rfl)
        exact absurd (Option.some.inj (mine.symm.trans other)) same
  · intro u e aim
    rw [hpc] at aim
    by_cases same : u = t
    · rw [same, Function.update_self] at aim
      exact (targets e aim).elim (rising.small t e) id
    · rw [Function.update_of_ne same] at aim
      exact rising.small u e aim

theorem rising_init (n e : Nat) : Rising (GlobalFlush.init n e) :=
  ⟨fun _ => nofun, fun _ _ => nofun, fun _ _ => nofun⟩

theorem uses_make (clear : ∀ t, s.ti t = .make) (a : Addr) :
    uses s a = (s.tree a).isSome.toNat := by
  have none (t : Fin n) : (Threadinfo.blocks (s.ti t)).count a = 0 := by
    rw [clear t]
    rfl
  simp only [uses, none, Finset.sum_const_zero, Nat.zero_add]

/-- The tree, as it is at a flush, becomes the checkpoint. -/
theorem inv_globalFlush {f : GlobalFlush.State n} (inv : Inv s)
    (same : f.globalepoch = s.flush.globalepoch) : Inv (s.follow f .globalFlush) := by
  refine ⟨inv.once, inv.below, fun a some => ?_, le_rfl, inv.active.trans inv.epoch, same.ge, ?_,
    fun t x member => ⟨(inv.limbo t x member).1, fun some => ?_⟩, fun t x member => ?_, inv.kept⟩
  · refine inv.below a ?_
    have linked : (s.tree a).isSome.toNat = 1 := by rw [show (s.tree a).isSome = true from some]; rfl
    simp only [uses, linked]
    omega
  · exact same.trans_lt inv.limit
  · exact absurd some (by simp [State.follow, inv.not_tree (mem_blocks_of_limbo member)])
  · rcases List.mem_append.mp member with pool | own
    · exact inv.not_tree (mem_blocks_of_pool pool)
    · exact inv.not_tree (mem_blocks_of_own own)

/-- The other steps leave the blocks alone. -/
theorem Inv.epochs {f : GlobalFlush.State n} {active : Nat} {scan : Option (List (Fin n) × Nat)}
    (inv : Inv s) (early : active ≤ s.flushedEpoch) (later : s.flush.globalepoch ≤ f.globalepoch)
    (small : f.globalepoch < epochLimit) :
    Inv { s with flush := f, activeEpoch := active, scan := scan } :=
  ⟨inv.once, inv.below, inv.flushed, inv.free, early, inv.epoch.trans later, small, inv.limbo,
    inv.clean, inv.kept⟩

theorem inv_follow {f : GlobalFlush.State n} {call : GlobalFlush.Call} (inv : Inv s)
    (rising : Rising s.flush) (ok : inLimit call = true)
    (h : GlobalFlush.stepThread s.flush t call (s.flush.pc t) = some f) :
    Inv (s.follow f (s.flush.pc t)) := by
  obtain ⟨-, -, -, -, -, stores⟩ := step_rises ok h
  have bounds : s.flush.globalepoch ≤ f.globalepoch ∧ f.globalepoch < epochLimit := by
    rcases stores with keep | store
    · exact ⟨keep.ge, keep.trans_lt inv.limit⟩
    · exact ⟨(rising.later t _ store).le, rising.small t _ (by rw [store]; rfl)⟩
  by_cases flushes : s.flush.pc t = .globalFlush
  · rw [flushes]
    refine inv_globalFlush inv (stores.resolve_right fun store => ?_)
    exact absurd (flushes.symm.trans store) nofun
  · have kept : Inv { s with flush := f } := inv.epochs inv.active bounds.1 bounds.2
    cases place : s.flush.pc t
    case globalFlush => exact absurd place flushes
    case raiseEpoch => exact inv.epochs inv.active bounds.1 bounds.2
    all_goals exact kept

theorem inv_restart {e nvm : Nat} (inv : Inv s) (small : e < epochLimit)
    (free : s.flushedFree ≤ nvm) : Inv (restart s e nvm) := by
  have only (a : Addr) : uses (restart s e nvm) a = (s.checkpoint a).isSome.toNat :=
    uses_make (fun _ => rfl) a
  refine ⟨fun a => ?_, fun a used => ?_, inv.flushed, free, le_rfl, le_rfl, small, nofun, nofun,
    inv.kept⟩
  · rw [only]
    exact Bool.toNat_le _
  · rw [only] at used
    refine (inv.flushed a ?_).trans_le free
    by_contra none
    rw [Bool.eq_false_of_not_eq_true none] at used
    exact absurd used (Nat.lt_irrefl _)

theorem inv_init {e : Nat} (nvm : Nat) (small : e < epochLimit) : Inv (init n e nvm) := by
  have unused (a : Addr) : uses (init n e nvm) a = 0 := uses_make (fun _ => rfl) a
  refine ⟨fun a => ?_, fun a used => ?_, nofun, le_rfl, le_rfl, le_rfl, small, nofun, nofun, rfl⟩
  · rw [unused]
    exact Nat.zero_le _
  · rw [unused] at used
    exact absurd used (Nat.lt_irrefl _)

theorem flush_poolAllocate {nl : Nat} (h : s.poolAllocate superpageSize t nl = some s') :
    s'.flush = s.flush := by
  simp only [State.poolAllocate, State.refillPool, Option.ite_none_left_eq_some] at h
  obtain ⟨filled, refill, popped⟩ := Option.bind_eq_some_iff.mp h.2
  obtain ⟨x, -, rfl⟩ := Option.map_eq_some_iff.mp popped
  split at refill
  · simp only [Option.ite_none_right_eq_some, Option.some.injEq] at refill
    obtain ⟨-, rfl⟩ := refill
    rfl
  · cases refill
    rfl

theorem flush_stepAct {act : Act} (h : stepAct superpageSize s t act = some s') :
    s'.flush = s.flush := by
  cases act with
  | rcuStart | rcuStop | rcuQuiesce =>
      cases h
      rfl
  | allocate nl => exact flush_poolAllocate h
  | deallocate nl a | link nl a =>
      simp only [stepAct, Option.ite_none_right_eq_some, Option.some.injEq] at h
      obtain ⟨-, rfl⟩ := h
      rfl
  | retire a =>
      obtain ⟨nl, -, rfl⟩ := Option.map_eq_some_iff.mp h
      rfl

theorem follow_flush (s : State n) (f : GlobalFlush.State n) (pc : GlobalFlush.Pc) :
    (s.follow f pc).flush = f := by
  cases pc <;> rfl

theorem inv_step {l : Label n} (inv : Inv s) (rising : Rising s.flush) (covered : Covered s l)
    (h : step superpageSize s l = some s') : Inv s' ∧ Rising s'.flush := by
  cases l with
  | act t act =>
      simp only [step, Option.ite_none_right_eq_some] at h
      refine ⟨inv_stepAct inv h.2, ?_⟩
      rw [flush_stepAct h.2]
      exact rising
  | crash e nvm =>
      simp only [step, Option.ite_none_right_eq_some, Option.some.injEq] at h
      obtain ⟨⟨small, free, -⟩, rfl⟩ := h
      exact ⟨inv_restart inv small free, rising_init n e⟩
  | flush l =>
      simp only [step, Option.ite_none_right_eq_some] at h
      obtain ⟨ok, moved⟩ := h
      split at moved
      · cases moved
        exact ⟨inv.epochs inv.active le_rfl inv.limit, rising⟩
      · rename_i place scan
        cases moved
        exact ⟨inv.epochs (covered place _ scan rfl) le_rfl inv.limit, rising⟩
      · obtain ⟨f, flushes, rfl⟩ := Option.map_eq_some_iff.mp moved
        refine ⟨inv_follow inv rising ok flushes, ?_⟩
        rw [follow_flush]
        exact rising_step rising inv.limit ok flushes

/-- `k` steps of a thread in `set_global_epoch`, `flush` or `ack_flush`. -/
def burst (t : Fin n) (call : GlobalFlush.Call) (k : Nat) : List (Label n) :=
  (GlobalFlush.burst t call k).map .flush

section twoThreads

local instance neZero_threads : NeZero 2 := ⟨two_ne_zero⟩

/-- Thread 1 raises the epoch and flushes, and thread 0 takes part. -/
def flushed (e : Nat) : List (Label 2) :=
  burst 1 (.setGlobalEpoch e) 12 ++ burst 0 .ackFlush 5 ++ burst 1 .ackFlush 6 ++
    burst 0 .ackFlush 2

/-- Thread 0 links the first block of a page, and the block is in the checkpoint of epoch 2. -/
def checkpointed : List (Label 2) :=
  [.act 0 .rcuStart, .act 1 .rcuStart, .act 0 (.allocate 70), .act 0 (.link 70 0)] ++ flushed 2

end twoThreads

end Incll.Proof.Reuse
