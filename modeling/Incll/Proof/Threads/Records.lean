import Incll.Proof.Threads.Rollback
import Mathlib.Algebra.BigOperators.Fin

/-! # A node is recorded at most once in an epoch

The first record of a node leaves `loggedepoch` at the global epoch and `not_logged` cleared, and
every logging call tests the two before it appends. -/

namespace Incll.Proof.Threads
open Incll.Lib Incll.Model Incll.Model.Threads

variable {n : Nat} {s s' : State n} {t : Fin n} {a b : Addr}

def raises : Act → Bool
  | .raise => true
  | _ => false

def OneEpoch (_ : State n) (l : Label n) : Prop := raises l.act = false

instance (s : State n) (l : Label n) : Decidable (OneEpoch s l) :=
  inferInstanceAs (Decidable (_ = _))

/-- The words that a logging call tests. -/
structure Words where
  isLeaf : Bool
  loggedepoch : Nat
  notLogged : Bool
  deriving DecidableEq

def words : Kind → Words
  | .leaf l => ⟨true, l.incll.loggedepoch, l.incll.notLogged⟩
  | .internode i => ⟨false, i.loggedepoch, false⟩

def wordsAt (s : State n) (a : Addr) : Option Words := (s.heap a).map words

/-- No logging call will append an image of the node in this epoch. -/
def Tagged (s : State n) (a : Addr) : Prop :=
  ∀ w, wordsAt s a = some w → w.loggedepoch = s.globalepoch ∧ w.notLogged = false

/-- How often a node was recorded. -/
def recs (s : State n) (a : Addr) : Nat :=
  ∑ t, ((s.log t).since.map Prod.fst).count a

theorem count_allRecords : ((allRecords s).map Prod.fst).count a = recs s a := by
  rw [allRecords, List.map_flatMap, List.count_flatMap, recs, Fin.sum_univ_def]
  rfl

theorem recs_congr (log : s'.log = s.log) : recs s' a = recs s a := by
  simp only [recs, log]

theorem count_since_record (log : GlobalFlush.ThreadLog (Addr × Kind)) (r : Addr × Kind) :
    ((log.record r).since.map Prod.fst).count a ≤
      (log.since.map Prod.fst).count a + if r.1 = a then 1 else 0 := by
  simp only [GlobalFlush.ThreadLog.record, GlobalFlush.ThreadLog.since, List.drop_append,
    List.map_append, List.count_append]
  refine Nat.add_le_add_left ?_ _
  refine (List.Sublist.count_le a ((List.drop_sublist _ [r]).map Prod.fst)).trans ?_
  simp [List.count_cons]

theorem recs_append (k : Kind) : recs (s.append t a k) b ≤ recs s b + if a = b then 1 else 0 := by
  rw [recs, recs, ← Finset.add_sum_erase _ _ (Finset.mem_univ t),
    ← Finset.add_sum_erase _ _ (Finset.mem_univ t)]
  have others : ∑ u ∈ Finset.univ.erase t, (((s.append t a k).log u).since.map Prod.fst).count b =
      ∑ u ∈ Finset.univ.erase t, ((s.log u).since.map Prod.fst).count b := by
    refine Finset.sum_congr rfl fun u member => ?_
    simp only [State.append]
    rw [Function.update_of_ne (Finset.ne_of_mem_erase member)]
  have mine := count_since_record (a := b) (s.log t) (a, k)
  have here : (s.append t a k).log t = (s.log t).record (a, k) := by simp [State.append]
  dsimp only at mine
  rw [here, others]
  omega

/-- The node that a logging call has found not yet recorded. -/
def unrecorded : Pc → Option Addr
  | .save _ a | .updateEpochs a | .setNotLogged a | .record _ a => some a
  | _ => none

/-- The node between the test of a logging call and the words it leaves. -/
def recording : Pc → Option Addr
  | .tag a => some a
  | pc => unrecorded pc

/-- The state of the node at `a` beside a thread at `pc`. -/
structure RecordAt (s : State n) (pc : Pc) (a : Addr) : Prop where
  fresh : unrecorded pc = some a → recs s a = 0
  epoch : ∀ c, pc = .record c a → c ≠ .recordNode →
    ∀ w, wordsAt s a = some w → w.isLeaf = true → w.loggedepoch = s.globalepoch
  flag : pc = .tag a → ∀ w, wordsAt s a = some w → w.notLogged = false

structure Records (s : State n) : Prop where
  few : ∀ a, recs s a ≤ 1
  tagged : ∀ a, 0 < recs s a → Tagged s a ∨ ∃ t, s.pc t = .tag a
  at_pc : ∀ t a, RecordAt s (s.pc t) a

theorem RecordAt.of_recording {pc : Pc} (away : recording pc ≠ some a) : RecordAt s pc a := by
  refine ⟨fun h => absurd ?_ away, ?_, ?_⟩
  · cases pc <;> first | exact h | cases h
  · rintro c rfl
    exact absurd rfl away
  · rintro rfl
    exact absurd rfl away

theorem RecordAt.congr {pc : Pc} (old : RecordAt s pc a) (count : recs s' a ≤ recs s a)
    (words : wordsAt s' a = wordsAt s a) (epoch : s'.globalepoch = s.globalepoch) :
    RecordAt s' pc a := by
  refine ⟨?_, ?_, ?_⟩
  · intro here
    rw [old.fresh here] at count
    exact Nat.le_zero.mp count
  · rw [words, epoch]
    exact old.epoch
  · rw [words]
    exact old.flag

theorem Records.zero (records : Records s) (untagged : ¬ Tagged s a)
    (quiet : ∀ t, s.pc t ≠ .tag a) : recs s a = 0 := by
  by_contra some
  rcases records.tagged a (Nat.pos_of_ne_zero some) with tagged | ⟨t, at_t⟩
  · exact untagged tagged
  · exact quiet t at_t

theorem Tagged.congr (tagged : Tagged s a) (words : wordsAt s' a = wordsAt s a)
    (epoch : s'.globalepoch = s.globalepoch) : Tagged s' a := by
  rw [Tagged, words, epoch]
  exact tagged

/-- A step that appends nothing and keeps the words of every node. -/
theorem Records.aside {pc : Pc} (records : Records s) (place : s'.pc = Function.update s.pc t pc)
    (log : s'.log = s.log) (words : ∀ b, wordsAt s' b = wordsAt s b)
    (epoch : s'.globalepoch = s.globalepoch) (before : ∀ b, s.pc t ≠ .tag b)
    (after : recording pc = none) : Records s' := by
  have same (b : Addr) : recs s' b = recs s b := recs_congr log
  refine ⟨fun b => ?_, fun b some => ?_, fun u b => ?_⟩
  · rw [same]
    exact records.few b
  · rw [same] at some
    rcases records.tagged b some with tagged | ⟨u, at_u⟩
    · exact .inl (tagged.congr (words b) epoch)
    · refine .inr ⟨u, ?_⟩
      rw [place, Function.update_of_ne, at_u]
      rintro rfl
      exact before b at_u
  · rw [place]
    by_cases mine : u = t
    · rw [mine, Function.update_self]
      exact .of_recording (by simp [after])
    · rw [Function.update_of_ne mine]
      exact (records.at_pc u b).congr (Nat.le_of_eq (same b)) (words b) epoch

/-- A step of the only thread that works on the node at `a`. -/
theorem Records.next {pc : Pc} (records : Records s) (place : s'.pc = Function.update s.pc t pc)
    (epoch : s'.globalepoch = s.globalepoch) (count : ∀ b, b ≠ a → recs s' b ≤ recs s b)
    (heap : ∀ b, b ≠ a → wordsAt s' b = wordsAt s b)
    (before : ∀ b, b ≠ a → recording (s.pc t) ≠ some b)
    (after : ∀ b, b ≠ a → recording pc ≠ some b)
    (alone : ∀ u, u ≠ t → recording (s.pc u) ≠ some a) (few : recs s' a ≤ 1)
    (tagged : 0 < recs s' a → Tagged s' a ∨ pc = .tag a) (here : RecordAt s' pc a) :
    Records s' := by
  refine ⟨fun b => ?_, fun b some => ?_, fun u b => ?_⟩
  · by_cases same : b = a
    · exact same ▸ few
    · exact (count b same).trans (records.few b)
  · by_cases same : b = a
    · subst same
      refine (tagged some).imp_right fun at_t => ⟨t, ?_⟩
      rw [place, Function.update_self, at_t]
    · rcases records.tagged b (Nat.lt_of_lt_of_le some (count b same)) with tagged | ⟨u, at_u⟩
      · exact .inl (tagged.congr (heap b same) epoch)
      · refine .inr ⟨u, ?_⟩
        rw [place, Function.update_of_ne, at_u]
        rintro rfl
        exact before b same (by rw [at_u]; rfl)
  · rw [place]
    by_cases mine : u = t
    · rw [mine, Function.update_self]
      by_cases same : b = a
      · exact same ▸ here
      · exact .of_recording (after b same)
    · rw [Function.update_of_ne mine]
      by_cases same : b = a
      · exact .of_recording (same ▸ alone u mine)
      · exact (records.at_pc u b).congr (count b same) (heap b same) epoch

theorem wordsAt_congr (heap : s'.heap b = s.heap b) : wordsAt s' b = wordsAt s b := by
  simp only [wordsAt, heap]

theorem wordsAt_update {k : Kind} (heap : s'.heap = Function.update s.heap a (some k)) :
    wordsAt s' a = some (words k) := by
  simp [wordsAt, heap]

theorem wordsAt_update_other {k : Kind} (heap : s'.heap = Function.update s.heap a (some k))
    (other : b ≠ a) : wordsAt s' b = wordsAt s b :=
  wordsAt_congr (by rw [heap, Function.update_of_ne other])

/-- A store that keeps the words of the node. -/
theorem wordsAt_same {k k' : Kind} (heap : s'.heap = Function.update s.heap a (some k'))
    (here : s.heap a = some k) (same : words k' = words k) (b : Addr) :
    wordsAt s' b = wordsAt s b := by
  by_cases other : b = a
  · rw [other, wordsAt_update heap, wordsAt, here, Option.map_some, same]
  · exact wordsAt_update_other heap other

theorem logging_of_recording {pc : Pc} (h : recording pc = some a) : logging pc = some a := by
  cases pc <;> first | exact h | cases h

theorem Inv.not_recording (inv : Inv s) (call : logging (s.pc t) = some a) (u : Fin n)
    (other : u ≠ t) : recording (s.pc u) ≠ some a :=
  fun there => other (inv.alone call (logging_of_recording there))

/-- A step of a logging call on the node at `a`, which may append one image. -/
theorem Records.logged {pc : Pc} {k : Kind} (records : Records s) (inv : Inv s)
    (call : logging (s.pc t) = some a) (place : s'.pc = Function.update s.pc t pc)
    (epoch : s'.globalepoch = s.globalepoch) (count : ∀ b, b ≠ a → recs s' b ≤ recs s b)
    (heap : s'.heap = Function.update s.heap a (some k)) (after : ∀ b, b ≠ a → recording pc ≠ some b)
    (few : recs s' a ≤ 1) (tagged : 0 < recs s' a → Tagged s' a ∨ pc = .tag a)
    (here : RecordAt s' pc a) : Records s' := by
  refine records.next place epoch count (fun b => wordsAt_update_other heap) ?_ after
    (inv.not_recording call) few tagged here
  intro b other at_b
  rw [logging_of_recording at_b] at call
  exact other (Option.some.inj call)

theorem Records.unlogged {pc : Pc} {k : Kind} (records : Records s) (inv : Inv s)
    (call : logging (s.pc t) = some a) (place : s'.pc = Function.update s.pc t pc)
    (epoch : s'.globalepoch = s.globalepoch) (log : s'.log = s.log)
    (heap : s'.heap = Function.update s.heap a (some k)) (after : ∀ b, b ≠ a → recording pc ≠ some b)
    (zero : recs s a = 0) (here : recs s' a = 0 → RecordAt s' pc a) : Records s' := by
  have none : recs s' a = 0 := (recs_congr log).trans zero
  exact records.logged inv call place epoch (fun _ _ => Nat.le_of_eq (recs_congr log)) heap after
    (by omega) (by omega) (here none)

theorem other_ne {b a : Addr} (other : b ≠ a) : some a ≠ some b :=
  fun h => other (Option.some.inj h).symm

theorem tagged_update {k : Kind} (heap : s'.heap = Function.update s.heap a (some k))
    (epoch : (words k).loggedepoch = s'.globalepoch) (flag : (words k).notLogged = false) :
    Tagged s' a := by
  intro w at_a
  rw [wordsAt_update heap] at at_a
  cases at_a
  exact ⟨epoch, flag⟩

theorem not_tagged {w : Words} (here : wordsAt s a = some w)
    (due : ¬ (w.loggedepoch = s.globalepoch ∧ w.notLogged = false)) : ¬ Tagged s a :=
  fun tagged => due (tagged w here)

/-- The test of a logging call finds the node not recorded. -/
theorem Records.due (records : Records s) (inv : Inv s) (call : logging (s.pc t) = some a)
    (outside : s.pc t ≠ .tag a) (untagged : ¬ Tagged s a) : recs s a = 0 := by
  refine records.zero untagged fun u at_u => ?_
  have same := inv.alone call (by rw [at_u]; rfl : logging (s.pc u) = some a)
  rw [same] at at_u
  exact outside at_u

theorem logBranch_due (ge : Nat) (l : Leaf) (c : Threads.LogCall) (a : Addr) :
    logBranch ge l c a = .idle ∨
      ¬ (l.incll.loggedepoch = ge ∧ l.incll.notLogged = false) ∧
        (logBranch ge l c a = .save c a ∨
          logBranch ge l c a = .record c a ∧ (c ≠ .recordNode → l.incll.loggedepoch = ge)) := by
  simp only [logBranch]
  split_ifs with call tag epoch flag <;> simp_all
  tauto

theorem records_logTest {c : Threads.LogCall} {k : Kind} {pc : Pc} (records : Records s) (inv : Inv s)
    (at_t : s.pc t = .logTest c a) (here : s.heap a = some k)
    (due : ¬ ((words k).loggedepoch = s.globalepoch ∧ (words k).notLogged = false))
    (branch : pc = .save c a ∨ pc = .record c a ∧
      (c ≠ .recordNode → (words k).isLeaf = true → (words k).loggedepoch = s.globalepoch)) :
    Records (s.goto t pc) := by
  have call : logging (s.pc t) = some a := by rw [at_t]; rfl
  have at_a : wordsAt s a = some (words k) := by rw [wordsAt, here, Option.map_some]
  have zero := records.due inv call (by rw [at_t]; exact nofun) (not_tagged at_a due)
  refine records.unlogged inv call rfl rfl rfl (heap_self here) ?_ zero
    fun none => ⟨fun _ => none, ?_, ?_⟩
  · rcases branch with rfl | ⟨rfl, -⟩
    · exact fun _ => other_ne
    · exact fun _ => other_ne
  · rintro c' rfl other w at_w leaf
    rcases branch with save | ⟨record, epoch⟩
    · cases save
    · cases record
      have : wordsAt s a = some w := at_w
      rw [at_a] at this
      cases this
      exact epoch other leaf
  · rintro rfl
    rcases branch with save | ⟨record, -⟩
    · cases save
    · cases record

theorem recs_append_self (k : Kind) : recs (s.append t a k) a ≤ recs s a + 1 := by
  simpa using recs_append (s := s) (t := t) (a := a) (b := a) k

theorem recs_append_other (k : Kind) (other : b ≠ a) : recs (s.append t a k) b ≤ recs s b := by
  simpa [other.symm] using recs_append (s := s) (t := t) (a := a) (b := b) k

theorem records_record {c : Threads.LogCall} {k image : Kind} {pc : Pc} (records : Records s) (inv : Inv s)
    (at_t : s.pc t = .record c a) (place : s'.pc = Function.update s.pc t pc)
    (epoch : s'.globalepoch = s.globalepoch) (log : s'.log = (s.append t a image).log)
    (heap : s'.heap = Function.update s.heap a (some k)) (flag : (words k).notLogged = false)
    (after : pc = .tag a ∨ pc = .invalidate a ∧ (words k).loggedepoch = s.globalepoch) :
    Records s' := by
  have call : logging (s.pc t) = some a := by rw [at_t]; rfl
  have zero := (records.at_pc t a).fresh (by rw [at_t]; rfl)
  have few : recs s' a ≤ 1 := by
    rw [recs_congr log]
    exact (recs_append_self image).trans (by rw [zero])
  refine records.logged inv call place epoch (fun b other => ?_) heap ?_ few ?_ ?_
  · rw [recs_congr log]
    exact recs_append_other image other
  · rcases after with rfl | ⟨rfl, -⟩
    · exact fun _ => other_ne
    · exact fun _ _ => nofun
  · rcases after with rfl | ⟨rfl, tag⟩
    · exact fun _ => .inr rfl
    · exact fun _ => .inl (tagged_update heap (tag.trans epoch.symm) flag)
  · rcases after with rfl | ⟨rfl, -⟩
    · refine ⟨nofun, nofun, fun _ w at_w => ?_⟩
      rw [wordsAt_update heap] at at_w
      cases at_w
      exact flag
    · exact .of_recording nofun

theorem records_tag {k : Kind} {pc : Pc} (records : Records s) (inv : Inv s)
    (at_t : s.pc t = .tag a) (place : s'.pc = Function.update s.pc t pc)
    (epoch : s'.globalepoch = s.globalepoch) (log : s'.log = s.log)
    (heap : s'.heap = Function.update s.heap a (some k)) (flag : (words k).notLogged = false)
    (tag : (words k).loggedepoch = s.globalepoch) (after : recording pc = none) : Records s' := by
  have call : logging (s.pc t) = some a := by rw [at_t]; rfl
  refine records.logged inv call place epoch (fun _ _ => Nat.le_of_eq (recs_congr log)) heap
    (by simp [after]) ?_ ?_ (.of_recording (by simp [after]))
  · rw [recs_congr log]
    exact records.few a
  · exact fun _ => .inl (tagged_update heap (tag.trans epoch.symm) flag)

theorem records_stepLog (records : Records s) (inv : Inv s)
    (h : stepLog s t (s.pc t) = some s') : Records s' := by
  cases at_t : s.pc t <;> rw [at_t] at h <;> simp only [stepLog] at h
  case logTest c a =>
    obtain ⟨k, here, rfl⟩ := Option.map_eq_some_iff.mp h
    cases k with
    | leaf l =>
        dsimp only
        rcases logBranch_due s.globalepoch l c a with idle | ⟨due, branch⟩
        · rw [idle]
          exact records.aside rfl rfl (fun _ => rfl) rfl (by simp [at_t]) rfl
        · refine records_logTest records inv at_t here due ?_
          exact branch.imp_right (·.imp_right fun epoch other _ => epoch other)
    | internode i =>
        dsimp only
        split
        · next due =>
          exact records_logTest records inv at_t here (fun h => due h.1) (.inr ⟨rfl, by simp [words]⟩)
        · exact records.aside rfl rfl (fun _ => rfl) rfl (by simp [at_t]) rfl
  case save c a =>
    have call : logging (s.pc t) = some a := by rw [at_t]; rfl
    have zero := (records.at_pc t a).fresh (by rw [at_t]; rfl)
    obtain ⟨l, leaf, rfl⟩ := Option.map_eq_some_iff.mp h
    exact records.unlogged inv call rfl rfl rfl rfl (fun _ => other_ne) zero
      fun none => ⟨fun _ => none, by simp, by simp⟩
  case updateEpochs a =>
    have call : logging (s.pc t) = some a := by rw [at_t]; rfl
    have zero := (records.at_pc t a).fresh (by rw [at_t]; rfl)
    obtain ⟨l, leaf, rfl⟩ := Option.map_eq_some_iff.mp h
    exact records.unlogged inv call rfl rfl rfl rfl (fun _ => other_ne) zero
      fun none => ⟨fun _ => none, by simp, by simp⟩
  case setNotLogged a =>
    have call : logging (s.pc t) = some a := by rw [at_t]; rfl
    have zero := (records.at_pc t a).fresh (by rw [at_t]; rfl)
    obtain ⟨l, leaf, rfl⟩ := Option.map_eq_some_iff.mp h
    exact records.unlogged inv call rfl rfl rfl rfl (by simp [recording, unrecorded]) zero
      fun none => ⟨fun _ => none, by simp, by simp⟩
  case record c a =>
    obtain ⟨k, here, rfl⟩ := Option.map_eq_some_iff.mp h
    have old := records.at_pc t a
    rw [at_t] at old
    cases k with
    | leaf l =>
        refine records_record records inv at_t rfl rfl rfl rfl rfl ?_
        by_cases call : c = .recordNode
        · exact .inl (if_pos call)
        · refine .inr ⟨if_neg call, ?_⟩
          exact old.epoch c rfl call (words (.leaf l)) (by rw [wordsAt, here, Option.map_some]) rfl
    | internode i => exact records_record records inv at_t rfl rfl rfl (heap_self here) rfl (.inl rfl)
  case tag a =>
    obtain ⟨k, here, rfl⟩ := Option.map_eq_some_iff.mp h
    have old := records.at_pc t a
    rw [at_t] at old
    cases k with
    | leaf l =>
        refine records_tag records inv at_t rfl rfl rfl rfl ?_ rfl rfl
        exact old.flag rfl (words (.leaf l)) (by rw [wordsAt, here, Option.map_some])
    | internode i => exact records_tag records inv at_t rfl rfl rfl rfl rfl rfl rfl
  case invalidate a =>
    obtain ⟨l, leaf, rfl⟩ := Option.map_eq_some_iff.mp h
    exact records.aside rfl rfl (wordsAt_same rfl (heap_of_leafAt leaf) rfl) rfl (by simp [at_t]) rfl
  all_goals cases h

theorem not_tagged_of_pending (epochs : s.failedepoch < s.globalepoch)
    (pending : pendingAt s a = true) : ¬ Tagged s a := by
  obtain ⟨l, leaf, waits⟩ := pendingAt_eq_true.mp pending
  refine not_tagged (by rw [wordsAt, heap_of_leafAt leaf, Option.map_some]) fun h => ?_
  have tag : l.incll.loggedepoch = s.globalepoch := h.1
  rw [not_pending_of_epoch (tag ▸ epochs)] at waits
  cases waits

/-- The rollback of a leaf starts before any record of it. -/
theorem records_recoverFinal {l : Leaf} (records : Records s) (inv : Inv s)
    (at_t : s.pc t = .recoverFinal a) :
    Records ((s.setLeaf a (l.recoverFinal s.globalepoch)).goto t (.unlockBucket a)) := by
  cases inv.phase a with
  | settled _ _ quiet => exact absurd (by rw [at_t]; rfl) (quiet t)
  | waiting waits quiet _ =>
      have none (u : Fin n) : recording (s.pc u) ≠ some a :=
        fun there => quiet u (logging_of_recording there)
      have zero : recs s a = 0 := by
        refine records.zero (not_tagged_of_pending inv.epochs waits) fun u at_u => ?_
        exact none u (by rw [at_u]; rfl)
      have zero' : recs ((s.setLeaf a (l.recoverFinal s.globalepoch)).goto t (.unlockBucket a)) a =
          0 := zero
      refine records.next (a := a) rfl rfl (fun _ _ => le_rfl) (fun b => wordsAt_update_other rfl)
        ?_ (fun _ _ => nofun) (fun u _ => none u) (by omega) (by omega) (.of_recording nofun)
      simp [at_t, recording, unrecorded]

theorem records_stepRecovery (records : Records s) (inv : Inv s)
    (h : stepRecovery s t (s.pc t) = some s') : Records s' := by
  cases at_t : s.pc t <;> rw [at_t] at h <;> simp only [stepRecovery] at h
  case guard a =>
    obtain ⟨l, -, rfl⟩ := Option.map_eq_some_iff.mp h
    split <;> exact records.aside rfl rfl (fun _ => rfl) rfl (by simp [at_t]) rfl
  case test e a =>
    obtain ⟨l, -, rfl⟩ := Option.map_eq_some_iff.mp h
    split
    · exact records.aside rfl rfl (fun _ => rfl) rfl (by simp [at_t]) rfl
    · cases e <;> exact records.aside rfl rfl (fun _ => rfl) rfl (by simp [at_t]) rfl
  case lockBucket e a =>
    simp only [Option.ite_none_right_eq_some, Option.some.injEq] at h
    obtain ⟨-, rfl⟩ := h
    exact records.aside (t := t) rfl rfl (fun _ => rfl) rfl (by simp [at_t]) rfl
  case recover e a =>
    obtain ⟨l, leaf, rfl⟩ := Option.map_eq_some_iff.mp h
    refine records.aside rfl rfl (wordsAt_same rfl (heap_of_leafAt leaf) ?_) rfl (by simp [at_t]) rfl
    cases e <;> rfl
  case recoverFinal a =>
    obtain ⟨l, leaf, rfl⟩ := Option.map_eq_some_iff.mp h
    exact records_recoverFinal records inv at_t
  case unlockBucket a =>
    cases h
    exact records.aside (t := t) rfl rfl (fun _ => rfl) rfl (by simp [at_t]) rfl
  all_goals cases h

theorem words_apply (c : Change) (k : Kind) : words (c.apply k) = words k := by
  cases c <;> cases k <;> rfl

theorem records_make {k : Kind} (records : Records s) (inv : Inv s) (idle : s.pc t = .idle)
    (tag : (words k).loggedepoch = s.globalepoch) (flag : (words k).notLogged = false) :
    Records { s.setKind s.fresh k with
      fresh := s.fresh + 1, lock := Function.update s.lock s.fresh (some t) } := by
  have stays : s.pc = Function.update s.pc t .idle := by rw [← idle, Function.update_eq_self]
  refine records.next (a := s.fresh) stays rfl (fun _ _ => le_rfl)
    (fun b => wordsAt_update_other rfl) ?_ (fun _ _ => nofun) ?_ (records.few s.fresh)
    (fun _ => .inl (tagged_update rfl tag flag)) (.of_recording nofun)
  · simp [idle, recording, unrecorded]
  · intro u _ there
    have := inv.below _ (inv.locked _ u (inv.lock u _ (logging_of_recording there)))
    exact absurd this (Nat.lt_irrefl _)

theorem records_start {act : Act} (records : Records s) (inv : Inv s) (idle : s.pc t = .idle)
    (epoch : OneEpoch s ⟨t, act⟩) (h : start s t act = some s') : Records s' := by
  have stays : s.pc = Function.update s.pc t .idle := by rw [← idle, Function.update_eq_self]
  cases act <;> simp only [start] at h
  case go => cases h
  case lazyRecovery a =>
    obtain ⟨l, -, rfl⟩ := Option.map_eq_some_iff.mp h
    exact records.aside rfl rfl (fun _ => rfl) rfl (by simp [idle]) rfl
  case lock a =>
    simp only [Option.ite_none_right_eq_some, Option.some.injEq] at h
    obtain ⟨-, rfl⟩ := h
    exact records.aside stays rfl (fun _ => rfl) rfl (by simp [idle]) rfl
  case log c a =>
    simp only [Option.ite_none_right_eq_some, Option.some.injEq] at h
    obtain ⟨-, rfl⟩ := h
    exact records.aside rfl rfl (fun _ => rfl) rfl (by simp [idle]) rfl
  case store c a =>
    simp only [Option.ite_none_right_eq_some] at h
    obtain ⟨-, h⟩ := h
    obtain ⟨k, here, rfl⟩ := Option.map_eq_some_iff.mp h
    exact records.aside stays rfl (wordsAt_same rfl here (words_apply c k)) rfl (by simp [idle]) rfl
  case unlock a =>
    simp only [Option.ite_none_right_eq_some, Option.some.injEq] at h
    obtain ⟨-, rfl⟩ := h
    exact records.aside stays rfl (fun _ => rfl) rfl (by simp [idle]) rfl
  case makeLeaf b =>
    cases h
    exact records_make records inv idle rfl rfl
  case makeInternode i =>
    cases h
    exact records_make records inv idle rfl rfl
  case raise => cases epoch

theorem records_step {l : Label n} (records : Records s) (inv : Inv s) (epoch : OneEpoch s l)
    (h : step s l = some s') : Records s' := by
  obtain ⟨t, act⟩ := l
  rcases step_cases h with ⟨idle, h⟩ | ⟨-, h | h⟩
  · exact records_start records inv idle epoch h
  · exact records_stepRecovery records inv h
  · exact records_stepLog records inv h

theorem records_initial (h : Initial s) : Records s := by
  have none (a : Addr) : recs s a = 0 := by simp [recs, h.log]
  refine ⟨fun a => ?_, fun a some => ?_, fun t a => ?_⟩
  · rw [none]
    exact Nat.zero_le 1
  · rw [none] at some
    exact absurd some (Nat.lt_irrefl 0)
  · exact .of_recording (by simp [h.pc, recording, unrecorded])

/-! The order of `undo`. -/

theorem undo_order {records order order' : List (Addr × Kind)}
    (once : ∀ a, (records.map Prod.fst).count a ≤ 1) (perm : order.Perm records)
    (perm' : order'.Perm records) (heap : Addr → Option Kind) :
    order.foldl undoRecord heap = order'.foldl undoRecord heap := by
  have nodup : (order.map Prod.fst).Nodup := by
    rw [(perm.map Prod.fst).nodup_iff]
    exact List.nodup_iff_count_le_one.mpr once
  refine (perm.trans perm'.symm).foldl_eq' (fun x hx y hy z => ?_) heap
  by_cases same : x.1 = y.1
  · rw [List.inj_on_of_nodup_map nodup hx hy same]
  · exact Function.update_comm same _ _ _

/-- A step of an epoch on whose leaves the tests of `lazy_recovery` hold until the bucket lock is
taken and which records no leaf before its rollback. -/
def Ordered (s : State n) (l : Label n) : Prop := OneEpoch s l ∧ StillPending s l ∧ LogsVisited s l

instance (s : State n) (l : Label n) : Decidable (Ordered s l) :=
  inferInstanceAs (Decidable (_ ∧ _))

/-- A removal by thread `t`, which records the leaf. -/
def remove (t : Fin n) : List (Label n) :=
  [⟨t, .lock 1⟩, ⟨t, .log .recordNode 1⟩] ++ go t 4 ++
    [⟨t, .store (.leaf fun b => { b with permutation := .makeEmpty }) 1⟩, ⟨t, .unlock 1⟩]

end Incll.Proof.Threads
