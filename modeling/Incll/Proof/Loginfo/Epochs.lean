import Incll.Model.Loginfo

/-! # The epochs in a log -/

namespace Incll.Proof.Loginfo
open Incll.Lib Incll.Model Incll.Model.Logger

variable {n : Nat}

/-! Tags. -/

def lastEpoch (cur : Nat) (rs : List Record) : Nat := rs.foldl (fun cur r => r.epochAfter cur) cur

theorem tagged_append (cur : Nat) (rs qs : List Record) :
    tagged cur (rs ++ qs) = tagged cur rs ++ tagged (lastEpoch cur rs) qs := by
  induction rs generalizing cur with
  | nil => rfl
  | cons r rs ih => rw [List.cons_append, tagged, tagged, List.cons_append, ih]; rfl

theorem map_tagged (cur : Nat) (rs : List Record) : (tagged cur rs).map Prod.snd = rs := by
  induction rs generalizing cur with
  | nil => rfl
  | cons r rs ih => rw [tagged, List.map_cons, ih]

theorem lastEpoch_append (cur : Nat) (rs qs : List Record) :
    lastEpoch cur (rs ++ qs) = lastEpoch (lastEpoch cur rs) qs := List.foldl_append

/-- The last epoch is one that was there before or that of a record. -/
theorem lastEpoch_cases (cur : Nat) (rs : List Record) :
    lastEpoch cur rs = cur ∨ ∃ x ∈ tagged cur rs, lastEpoch cur rs = x.1 := by
  induction rs generalizing cur with
  | nil => exact .inl rfl
  | cons r rs ih =>
      rcases ih (r.epochAfter cur) with same | ⟨x, member, last⟩
      · exact .inr ⟨_, List.mem_cons_self, same⟩
      · exact .inr ⟨x, List.mem_cons_of_mem _ member, last⟩

/-- Records of one epoch. -/
def AllOf (e : Nat) (rs : List Record) : Prop := ∀ r ∈ rs, ∀ e', r.epoch? = some e' → e' = e

theorem tagged_allOf {e : Nat} {rs : List Record} (all : AllOf e rs) : tagged e rs = rs.map (e, ·) := by
  induction rs with
  | nil => rfl
  | cons r rs ih =>
      have here : r.epochAfter e = e := by
        rw [Record.epochAfter]
        cases epoch : r.epoch? with
        | none => rfl
        | some e' => exact all r (by simp) e' epoch
      rw [tagged, here, ih fun q member => all q (by simp [member])]
      rfl

theorem lastEpoch_allOf {e : Nat} {rs : List Record} (all : AllOf e rs) : lastEpoch e rs = e := by
  rcases lastEpoch_cases e rs with same | ⟨x, member, last⟩
  · exact same
  · rw [tagged_allOf all] at member
    obtain ⟨r, -, rfl⟩ := List.mem_map.mp member
    exact last

/-- Records that follow records of epoch `cur` and belong to `e`. -/
structure Belongs (e cur : Nat) (rs : List Record) : Prop where
  tagged : tagged cur rs = rs.map (e, ·)
  last : rs ≠ [] → lastEpoch cur rs = e

theorem belongs_same {e : Nat} {rs : List Record} (all : AllOf e rs) : Belongs e e rs :=
  ⟨tagged_allOf all, fun _ => lastEpoch_allOf all⟩

theorem belongs_new {e cur : Nat} {rs : List Record} (all : AllOf e rs) :
    Belongs e cur (.epoch e :: rs) := by
  constructor
  · rw [tagged, List.map_cons]
    exact congrArg _ (tagged_allOf all)
  · intro _
    exact lastEpoch_allOf all

/-! What a call writes. -/

/-- The records that a call adds. -/
theorem write_buf (l : Model.Loginfo) (we : Nat) (c : LogCall) :
    ∃ wake : List Record, AllOf c.qtimes.epoch (wake ++ [Loginfo.dataRecord c]) ∧
      (l.write we c).1.logEpoch = c.qtimes.epoch ∧
      (l.write we c).1.buf = l.buf ++
        ((if c.qtimes.epoch ≠ l.logEpoch then [.epoch c.qtimes.epoch] else []) ++
          (wake ++ [Loginfo.dataRecord c])) := by
  have data : AllOf c.qtimes.epoch [Loginfo.dataRecord c] := by
    intro r member e epoch
    rw [List.mem_singleton.mp member, Loginfo.dataRecord] at epoch
    split at epoch <;> cases epoch
  have start : (l.recordEpoch c.qtimes.epoch).logEpoch = c.qtimes.epoch ∧
      (l.recordEpoch c.qtimes.epoch).buf =
        l.buf ++ (if c.qtimes.epoch ≠ l.logEpoch then [.epoch c.qtimes.epoch] else []) := by
    simp only [Loginfo.recordEpoch]
    split
    · exact ⟨rfl, rfl⟩
    · next same => exact ⟨(not_not.mp same).symm, (List.append_nil _).symm⟩
  have leave (l : Model.Loginfo) (e w : Nat) :
      (l.leaveQuiescence e w).1.buf = l.buf ∧ (l.leaveQuiescence e w).1.logEpoch = l.logEpoch := by
    simp only [Loginfo.leaveQuiescence]
    split <;> exact ⟨rfl, rfl⟩
  have wake (l : Model.Loginfo) (e w : Nat) : ∃ ws : List Record, AllOf e ws ∧
      (l.recordWake e w).buf = l.buf ++ ws ∧ (l.recordWake e w).logEpoch = l.logEpoch := by
    simp only [Loginfo.recordWake]
    generalize (if w ≠ l.wakeEpoch ∧ e < w then e else w) = w
    split
    · refine ⟨[.wake], ?_, rfl, rfl⟩
      intro r member e' epoch
      rw [List.mem_singleton.mp member] at epoch
      cases epoch
    · exact ⟨[], nofun, (List.append_nil _).symm, rfl⟩
  obtain ⟨ws, all, buf, log⟩ := wake
    ((l.recordEpoch c.qtimes.epoch).leaveQuiescence c.qtimes.epoch we).1 c.qtimes.epoch
    ((l.recordEpoch c.qtimes.epoch).leaveQuiescence c.qtimes.epoch we).2
  obtain ⟨leaveBuf, leaveLog⟩ := leave (l.recordEpoch c.qtimes.epoch) c.qtimes.epoch we
  refine ⟨ws, ?_, ?_, ?_⟩
  · intro r member
    rcases List.mem_append.mp member with member | member
    · exact all r member
    · exact data r member
  · exact log.trans (leaveLog.trans start.1)
  · simp only [Loginfo.write, Loginfo.store]
    rw [buf, leaveBuf, start.2]
    simp only [List.append_assoc]

theorem write_belongs {l : Model.Loginfo} {cur : Nat} {c : LogCall} (we : Nat)
    (pos : 0 < c.qtimes.epoch) (current : l.logEpoch = 0 ∨ l.logEpoch = cur) :
    ∃ news, (l.write we c).1.buf = l.buf ++ news ∧ news ≠ [] ∧ Belongs c.qtimes.epoch cur news ∧
      (l.write we c).1.logEpoch = c.qtimes.epoch := by
  obtain ⟨wake, all, log, buf⟩ := write_buf l we c
  refine ⟨_, buf, by simp, ?_, log⟩
  split
  · exact belongs_new all
  · next same =>
      have here : cur = c.qtimes.epoch := by omega
      rw [here]
      exact belongs_same all

/-- The logger adds nothing, or a quiescence notification to an empty buffer. -/
theorem quiesce_cases (l : Model.Loginfo) (ge we : Nat) (waiting : Bool) :
    ((l.quiesce ge we waiting).buf = l.buf ∧ (l.quiesce ge we waiting).logEpoch = l.logEpoch) ∨
      (waiting = false ∧ l.buf = [] ∧ (l.quiesce ge we waiting).logEpoch = ge ∧
        ∃ rest, AllOf ge rest ∧ (l.quiesce ge we waiting).buf = .epoch ge :: rest) := by
  have notice : (l.noticeWake we).buf = l.buf ∧ (l.noticeWake we).logEpoch = l.logEpoch := by
    rw [Loginfo.noticeWake]
    split <;> exact ⟨rfl, rfl⟩
  simp only [Loginfo.quiesce]
  split
  · next idle =>
      obtain ⟨empty, -, -, -, nobody⟩ := idle
      refine .inr ⟨nobody, ?_, rfl, _, ?_, rfl⟩
      · rw [← notice.1]
        cases some : (l.noticeWake we).buf with
        | nil => rfl
        | cons r rs =>
            rw [Loginfo.pos, some, List.map_cons, List.sum_cons] at empty
            cases r <;> simp [Record.size, Record.sizeofKv, Record.sizeofKvdelta,
              Record.sizeofEpoch, Record.sizeofBase] at empty
      · intro r member e epoch
        split at member <;> simp at member
        · rcases member with rfl | rfl <;> cases epoch
        · cases member; cases epoch
  · exact .inl notice

/-! The records of a log. -/

/-- The file, with what is on its way. -/
def records (l : Log) : List Record :=
  l.disk ++ (l.inflight.elim [] Prod.fst) ++ l.info.buf

/-- The records of a log belong to epochs up to `g` that do not decrease. -/
structure Ordered (g : Nat) (l : Log) : Prop where
  file : l.made.map Prod.snd = records l
  tags : l.made = tagged 0 (records l)
  sorted : l.made.Pairwise fun x y => x.1 ≤ y.1
  bound : ∀ x ∈ l.made, 0 < x.1 ∧ x.1 ≤ g
  current : l.info.logEpoch = 0 ∨ l.info.logEpoch = lastEpoch 0 (records l)

/-- The epochs of the calls that have not written yet, in the order in which they took the lock. -/
def pending (l : Log) : List Nat := l.waiting.map (·.qtimes.epoch) ++ l.holder.toList

structure Queued (g : Nat) (l : Log) : Prop where
  sorted : (pending l).Pairwise (· ≤ ·)
  bound : ∀ e ∈ pending l, 0 < e ∧ e ≤ g
  above : ∀ e ∈ pending l, ∀ x ∈ l.made, x.1 ≤ e

/-- The records `news` of epoch `e` are added. -/
theorem Ordered.extend {g e : Nat} {l l' : Log} {news : List Record} (ordered : Ordered g l)
    (belongs : Belongs e (lastEpoch 0 (records l)) news) (nonempty : news ≠ []) (pos : 0 < e)
    (bound : e ≤ g) (above : ∀ x ∈ l.made, x.1 ≤ e) (file : records l' = records l ++ news)
    (made : l'.made = l.made ++ news.map (e, ·)) (log : l'.info.logEpoch = e) : Ordered g l' := by
  constructor
  · rw [made, file, List.map_append, ordered.file, List.map_map]
    exact congrArg _ (List.map_id' news)
  · rw [made, file, tagged_append, belongs.tagged, ← ordered.tags]
  · rw [made]
    refine List.pairwise_append.mpr ⟨ordered.sorted, ?_, ?_⟩
    · exact List.pairwise_map.mpr (List.pairwise_of_forall fun _ _ => le_refl e)
    · intro x member y new
      obtain ⟨r, -, rfl⟩ := List.mem_map.mp new
      exact above x member
  · intro x member
    rw [made] at member
    rcases List.mem_append.mp member with old | new
    · exact ordered.bound x old
    · obtain ⟨r, -, rfl⟩ := List.mem_map.mp new
      exact ⟨pos, bound⟩
  · rw [file, lastEpoch_append, belongs.last nonempty]
    exact .inr log

theorem Ordered.mono {g g' : Nat} {l : Log} (ordered : Ordered g l) (le : g ≤ g') : Ordered g' l :=
  ⟨ordered.file, ordered.tags, ordered.sorted,
    fun x member => ⟨(ordered.bound x member).1, (ordered.bound x member).2.trans le⟩,
    ordered.current⟩

/-- Nothing is written. -/
theorem Ordered.same {g : Nat} {l l' : Log} (ordered : Ordered g l) (file : records l' = records l)
    (made : l'.made = l.made) (log : l'.info.logEpoch = l.info.logEpoch) : Ordered g l' := by
  refine ⟨?_, ?_, ?_, ?_, ?_⟩
  · rw [made, file, ordered.file]
  · rw [made, file, ← ordered.tags]
  · rw [made]; exact ordered.sorted
  · rw [made]; exact ordered.bound
  · rw [log, file]; exact ordered.current

/-- A call writes. -/
theorem Ordered.write {g we : Nat} {l : Log} {c : LogCall} (ordered : Ordered g l)
    (pos : 0 < c.qtimes.epoch) (bound : c.qtimes.epoch ≤ g)
    (above : ∀ x ∈ l.made, x.1 ≤ c.qtimes.epoch) : Ordered g (l.write we c).1 := by
  obtain ⟨news, buf, nonempty, belongs, log⟩ := write_belongs we pos ordered.current
  refine ordered.extend belongs nonempty pos bound above ?_ ?_ log
  · simp only [records, Log.write, buf, List.append_assoc]
  · simp only [Log.write, buf, List.drop_left]

theorem swap_calls (l : Log) (ge we : Nat) :
    (l.swap ge we).waiting = l.waiting ∧ (l.swap ge we).holder = l.holder := by
  simp only [Log.swap]
  split <;> exact ⟨rfl, rfl⟩

/-- The logger swaps the buffers. -/
theorem swap_cases {l : Log} {ge : Nat} (we : Nat) (idle : l.inflight = none) :
    (records (l.swap ge we) = records l ∧ (l.swap ge we).made = l.made ∧
        (l.swap ge we).info.logEpoch = l.info.logEpoch) ∨
      (l.waiting = [] ∧ (l.swap ge we).info.logEpoch = ge ∧ ∃ rest, AllOf ge rest ∧
        records (l.swap ge we) = records l ++ .epoch ge :: rest ∧
        (l.swap ge we).made = l.made ++ (.epoch ge :: rest).map (ge, ·)) := by
  have swapped : records (l.swap ge we) =
        l.disk ++ (l.info.quiesce ge we (!l.waiting.isEmpty)).buf ∧
      (l.swap ge we).made = l.made ++
        ((l.info.quiesce ge we (!l.waiting.isEmpty)).buf.drop l.info.buf.length).map (ge, ·) ∧
      (l.swap ge we).info.logEpoch = (l.info.quiesce ge we (!l.waiting.isEmpty)).logEpoch := by
    simp only [Log.swap]
    split
    · next empty => exact ⟨by simp [records, idle, empty], rfl, rfl⟩
    · exact ⟨by simp [records], rfl, rfl⟩
  have before : records l = l.disk ++ l.info.buf := by simp [records, idle]
  rw [swapped.1, swapped.2.1, swapped.2.2, before]
  rcases quiesce_cases l.info ge we (!l.waiting.isEmpty) with
    ⟨buf, same⟩ | ⟨nobody, empty, now, rest, all, buf⟩
  · refine .inl ⟨by rw [buf], ?_, same⟩
    rw [buf, List.drop_length]
    exact List.append_nil _
  · refine .inr ⟨by simpa using nobody, now, rest, all, ?_, ?_⟩
    · rw [buf, empty, List.append_nil]
    · rw [buf, empty]
      rfl

theorem Ordered.swap {g we : Nat} {l : Log} (ordered : Ordered g l) (pos : 0 < g)
    (idle : l.inflight = none) : Ordered g (l.swap g we) := by
  rcases swap_cases we idle with ⟨file, made, log⟩ | ⟨-, log, rest, all, file, made⟩
  · exact ordered.same file made log
  · exact ordered.extend (belongs_new all) (by simp) pos (le_refl g)
      (fun x member => (ordered.bound x member).2) file made log

/-! The order of the calls. -/

/-- Calls leave the queue, a new last one has the current epoch, and what is written is not above
the rest. -/
theorem Queued.next {g : Nat} {l l' : Log} (queued : Queued g l)
    (rest : (pending l').Sublist (pending l)) (above : ∀ e ∈ pending l', ∀ x ∈ l'.made, x.1 ≤ e) :
    Queued g l' :=
  ⟨queued.sorted.sublist rest, fun e member => queued.bound e (rest.subset member), above⟩

theorem Queued.mono {g g' : Nat} {l : Log} (queued : Queued g l) (le : g ≤ g') : Queued g' l :=
  ⟨queued.sorted, fun e member => ⟨(queued.bound e member).1, (queued.bound e member).2.trans le⟩,
    queued.above⟩

/-- A call writes that is not above the pending ones. -/
theorem Queued.write {g we : Nat} {l : Log} {c : LogCall} (queued : Queued g l)
    (first : ∀ e ∈ pending l, c.qtimes.epoch ≤ e) : Queued g (l.write we c).1 := by
  refine queued.next (List.Sublist.refl _) ?_
  intro e member x made
  rcases List.mem_append.mp made with old | new
  · exact queued.above e member x old
  · obtain ⟨r, -, rfl⟩ := List.mem_map.mp new
    exact first e member

theorem Queued.swap {g we : Nat} {l : Log} (queued : Queued g l) (free : l.holder = none)
    (idle : l.inflight = none) : Queued g (l.swap g we) := by
  have same : pending (l.swap g we) = pending l := by
    simp only [pending, (swap_calls l g we).1, (swap_calls l g we).2]
  refine queued.next (by rw [same]) ?_
  rcases swap_cases we idle with ⟨-, made, -⟩ | ⟨nobody, -⟩
  · rw [same, made]
    exact queued.above
  · rw [same, pending, nobody, free]
    exact nofun

structure Epochs (g : Nat) (l : Log) : Prop where
  ordered : Ordered g l
  queued : Queued g l

/-- A newcomer that finds space writes before the calls that wait: none of them has an older
epoch. -/
def inOrder (s : State n) : Label n → Prop
  | .record i command ts prevTs key value => ∀ epoch ∈ (s.log i).holder,
      (s.log i).info.fits ⟨command, ⟨epoch, ts, prevTs⟩, key, value⟩ →
        ∀ c ∈ (s.log i).waiting, epoch ≤ c.qtimes.epoch
  | _ => True

instance (s : State n) (label : Label n) : Decidable (inOrder s label) := by
  cases label <;> unfold inOrder <;> infer_instance

theorem start_epochs {s : State n} (initial : (machine n).initial s) (i : Fin n) :
    Epochs s.globalLogEpoch (s.log i) := by
  obtain ⟨disk, wellFormed, start⟩ := initial.2 i
  rw [start]
  have file : records (.start disk) = disk := by simp [records, Log.start, Loginfo.make]
  refine ⟨⟨?_, ?_, wellFormed.sorted, ?_, .inl rfl⟩, List.Pairwise.nil, nofun, nofun⟩
  · rw [file]; exact map_tagged 0 disk
  · rw [file]; rfl
  · exact fun x member => ⟨wellFormed.first x member, wellFormed.bound x member⟩

theorem setLog_epochs {s : State n} {i : Fin n} {l : Log} {g : Nat}
    (epochs : ∀ j, Epochs g (s.log j)) (changed : Epochs g l) (j : Fin n) :
    Epochs g ((s.setLog i l).log j) :=
  (Function.forall_update_iff s.log fun _ l => Epochs g l).mpr
    ⟨changed, fun j _ => epochs j⟩ j

/-- The call of the thread that holds the lock. -/
theorem record_epochs {s : State n} {i : Fin n} {c : LogCall}
    (epochs : ∀ j, Epochs s.globalLogEpoch (s.log j))
    (held : (s.log i).holder = some c.qtimes.epoch)
    (ok : (s.log i).info.fits c → ∀ w ∈ (s.log i).waiting, c.qtimes.epoch ≤ w.qtimes.epoch) :
    (stepRecord s i c).globalLogEpoch = s.globalLogEpoch ∧
      ∀ j, Epochs s.globalLogEpoch ((stepRecord s i c).log j) := by
  obtain ⟨ordered, queued⟩ := epochs i
  have member : c.qtimes.epoch ∈ pending (s.log i) := by simp [pending, held]
  have released : Queued s.globalLogEpoch { s.log i with holder := none } := by
    have rest : (pending { s.log i with holder := none }).Sublist (pending (s.log i)) := by
      simp only [pending, Option.toList_none, List.append_nil]
      exact List.sublist_append_left _ _
    exact queued.next rest fun e pend => queued.above e (rest.subset pend)
  simp only [stepRecord]
  split
  · next space =>
      refine ⟨rfl, setLog_epochs epochs ⟨?_, ?_⟩⟩
      · obtain ⟨pos, bound⟩ := queued.bound _ member
        exact Ordered.write (ordered.same rfl rfl rfl) pos bound (queued.above _ member)
      · refine released.write fun e pend => ?_
        simp only [pending, Option.toList_none, List.append_nil, List.mem_map] at pend
        obtain ⟨w, waits, rfl⟩ := pend
        exact ok space w waits
  · refine ⟨rfl, setLog_epochs epochs ⟨ordered.same rfl rfl rfl, ?_⟩⟩
    have same : pending { s.log i with holder := none, waiting := (s.log i).waiting ++ [c] } =
        pending (s.log i) := by
      simp [pending, held]
    exact queued.next (by rw [same]) fun e pend => queued.above e (same ▸ pend)

/-- The first call that waits. -/
theorem retry_epochs {s : State n} {i : Fin n} {c : LogCall} {waiting : List LogCall}
    (epochs : ∀ j, Epochs s.globalLogEpoch (s.log j)) (waits : (s.log i).waiting = c :: waiting)
    (j : Fin n) :
    Epochs s.globalLogEpoch ((s.writeLog i { s.log i with waiting := waiting } c).log j) := by
  obtain ⟨ordered, queued⟩ := epochs i
  have calls : pending (s.log i) = c.qtimes.epoch :: pending { s.log i with waiting := waiting } := by
    simp [pending, waits]
  have member : c.qtimes.epoch ∈ pending (s.log i) := by simp [calls]
  refine setLog_epochs epochs ⟨?_, ?_⟩ j
  · obtain ⟨pos, bound⟩ := queued.bound _ member
    exact Ordered.write (ordered.same rfl rfl rfl) pos bound (queued.above _ member)
  · have rest : (pending { s.log i with waiting := waiting }).Sublist (pending (s.log i)) := by
      rw [calls]
      exact List.sublist_cons_self _ _
    have left : Queued s.globalLogEpoch { s.log i with waiting := waiting } :=
      queued.next rest fun e pend => queued.above e (rest.subset pend)
    have sorted := queued.sorted
    rw [calls, List.pairwise_cons] at sorted
    exact left.write sorted.1

theorem step_epochs {s s' : State n} {label : Label n} (pos : 0 < s.globalLogEpoch)
    (epochs : ∀ i, Epochs s.globalLogEpoch (s.log i)) (ok : inOrder s label)
    (h : step s label = some s') :
    0 < s'.globalLogEpoch ∧ ∀ i, Epochs s'.globalLogEpoch (s'.log i) := by
  cases label with
  | acquire i =>
      simp only [step, Option.ite_none_right_eq_some, Option.some.injEq] at h
      obtain ⟨free, rfl⟩ := h
      obtain ⟨ordered, queued⟩ := epochs i
      refine ⟨pos, setLog_epochs epochs ⟨ordered.same rfl rfl rfl, ?_⟩⟩
      have calls : pending { s.log i with holder := some s.globalLogEpoch } =
          pending (s.log i) ++ [s.globalLogEpoch] := by simp [pending, free]
      refine ⟨?_, ?_, ?_⟩
      · rw [calls, List.pairwise_append]
        refine ⟨queued.sorted, List.pairwise_singleton _ _, ?_⟩
        intro e member g now
        rw [List.mem_singleton.mp now]
        exact (queued.bound e member).2
      · intro e member
        rw [calls, List.mem_append, List.mem_singleton] at member
        rcases member with old | rfl
        · exact queued.bound e old
        · exact ⟨pos, le_refl _⟩
      · intro e member x made
        rw [calls, List.mem_append, List.mem_singleton] at member
        rcases member with old | rfl
        · exact queued.above e old x made
        · exact (ordered.bound x made).2
  | record i command ts prevTs key value =>
      simp only [step, Option.map_eq_some_iff] at h
      obtain ⟨epoch, held, rfl⟩ := h
      obtain ⟨same, after⟩ := record_epochs epochs held (ok epoch held)
      rw [same]
      exact ⟨pos, after⟩
  | retry i =>
      simp only [step, Option.ite_none_right_eq_some] at h
      obtain ⟨-, h⟩ := h
      split at h
      · cases h
      · next c waiting waits =>
          split at h <;> cases h
          · exact ⟨pos, retry_epochs epochs waits⟩
          · exact ⟨pos, epochs⟩
  | swap i =>
      simp only [step, Option.ite_none_right_eq_some, Option.some.injEq] at h
      obtain ⟨⟨free, idle⟩, rfl⟩ := h
      obtain ⟨ordered, queued⟩ := epochs i
      exact ⟨pos, setLog_epochs epochs ⟨ordered.swap pos idle, queued.swap free idle⟩⟩
  | flush i =>
      simp only [step, Option.map_eq_some_iff] at h
      obtain ⟨⟨x, xEpoch⟩, inflight, rfl⟩ := h
      obtain ⟨ordered, queued⟩ := epochs i
      refine ⟨pos, setLog_epochs epochs ⟨ordered.same ?_ rfl rfl, ?_⟩⟩
      · simp [records, inflight]
      · exact queued.next (List.Sublist.refl _) queued.above
  | checkEpoch =>
      simp only [step, Option.ite_none_right_eq_some, Option.some.injEq] at h
      obtain ⟨-, rfl⟩ := h
      exact ⟨Nat.succ_pos _, fun i =>
        ⟨(epochs i).ordered.mono (Nat.le_succ _), (epochs i).queued.mono (Nat.le_succ _)⟩⟩

theorem reachable_epochs {s : State n} (reachable : (machine n).Reachable inOrder s) :
    0 < s.globalLogEpoch ∧ ∀ i, Epochs s.globalLogEpoch (s.log i) :=
  reachable.invariant (fun _ initial => ⟨initial.1, start_epochs initial⟩)
    fun _ _ _ epochs ok h => step_epochs epochs.1 epochs.2 ok h

/-! The epoch records. -/

/-- The epochs of the epoch records do not decrease, and the last one before a data record is that
of the call that made it. -/
def EpochsInOrder (l : Log) : Prop :=
  ((records l).filterMap Record.epoch?).Pairwise (· ≤ ·) ∧
    ∀ before e r after, l.made = before ++ (e, r) :: after → r.key?.isSome →
      (((before.map Prod.snd).filterMap Record.epoch?).getLast?) = some e

/-- The epoch of an epoch record is its own. -/
theorem epoch_tagged {cur e e' : Nat} {rs : List Record} {r : Record}
    (member : (e, r) ∈ tagged cur rs) (epoch : r.epoch? = some e') : e' = e := by
  induction rs generalizing cur with
  | nil => cases member
  | cons q rs ih =>
      rcases List.mem_cons.mp member with here | later
      · cases here
        simp [Record.epochAfter, epoch]
      · exact ih later

theorem lastEpoch_getLast (cur : Nat) (rs : List Record) :
    lastEpoch cur rs = ((rs.filterMap Record.epoch?).getLast?).getD cur := by
  induction rs using List.reverseRecOn with
  | nil => rfl
  | append_singleton rs r ih =>
      rw [lastEpoch_append, ih, List.filterMap_append]
      show r.epochAfter _ = _
      rw [Record.epochAfter]
      cases epoch : r.epoch? with
      | none => simp [epoch]
      | some e => simp [epoch]

theorem Ordered.epochsInOrder {g : Nat} {l : Log} (ordered : Ordered g l) : EpochsInOrder l := by
  constructor
  · rw [← ordered.file, List.filterMap_map]
    refine List.Pairwise.filterMap _ ?_ (List.Pairwise.and_mem.mp ordered.sorted)
    intro x y ⟨old, new, le⟩ e first e' second
    rw [ordered.tags] at old new
    rw [epoch_tagged old first, epoch_tagged new second]
    exact le
  · intro before e r after split data
    have tags := ordered.tags
    rw [← ordered.file, split, List.map_append, tagged_append] at tags
    have length : before.length = (tagged 0 (before.map Prod.snd)).length := by
      have tags := congrArg List.length (map_tagged 0 (before.map Prod.snd))
      rw [List.length_map, List.length_map] at tags
      exact tags.symm
    have here := (List.append_inj tags length).2
    rw [List.map_cons, tagged, List.cons.injEq, Prod.mk.injEq] at here
    have own : e = lastEpoch 0 (before.map Prod.snd) := by
      rw [here.1.1, Record.epochAfter]
      cases r <;> first | rfl | cases data
    have pos : 0 < e := (ordered.bound (e, r) (by simp [split])).1
    rw [lastEpoch_getLast] at own
    cases last : ((before.map Prod.snd).filterMap Record.epoch?).getLast? with
    | none => rw [last] at own; exact absurd own (by simpa using pos.ne')
    | some e' => rw [last] at own; exact congrArg some own.symm

/-- In every run in which no newcomer passes a call with an older epoch. -/
theorem epochs_in_order {s : State n} (reachable : (machine n).Reachable inOrder s) (i : Fin n) :
    EpochsInOrder (s.log i) :=
  ((reachable_epochs reachable).2 i).ordered.epochsInOrder

/-- A server with one log. -/
def single (g we : Nat) (l : Log) : State 1 := ⟨g, we, fun _ => l⟩

theorem single_setLog (g we : Nat) (l l' : Log) :
    (single g we l).setLog 0 l' = single g we l' := by
  simp only [State.setLog, single, State.mk.injEq, true_and]
  funext i
  rw [Subsingleton.elim i 0, Function.update_self]

theorem epochs_in_order_two_epochs : ∃ s, (machine 1).Reachable inOrder s ∧
    records (s.log 0) =
      [.epoch 1, .kv .replace 2 [] [], .epoch 2, .kv .replace 4 [] []] ∧
    EpochsInOrder (s.log 0) := by
  have start : (machine 1).Reachable inOrder (single 1 0 (.start [])) :=
    .initial ⟨Nat.one_pos, fun _ => ⟨[], ⟨nofun, List.Pairwise.nil, nofun⟩, rfl⟩⟩
  have first := (start.next (l := .acquire 0) (by trivial) rfl).next
    (l := .record 0 .replace 2 0 [] []) (by rintro _ - - _ ⟨⟩) rfl
  have ticked := first.next (l := .checkEpoch) (by trivial) rfl
  have second := (ticked.next (l := .acquire 0) (by trivial) rfl).next
    (l := .record 0 .replace 4 0 [] []) (by rintro _ - - _ ⟨⟩) rfl
  exact ⟨_, second, rfl, epochs_in_order second 0⟩

/-! A newcomer that passes a call that has stalled. -/

/-- A call of the current epoch. -/
theorem single_call {g we : Nat} {l : Log} (c : LogCall)
    (reachable : (machine 1).Reachable Machine.anyStep (single g we l)) (free : l.holder = none)
    (epoch : c.qtimes.epoch = g) :
    (machine 1).Reachable Machine.anyStep (if l.info.fits c then
      single g (l.write we c).2 (l.write we c).1
      else single g we { l with waiting := l.waiting ++ [c] }) := by
  obtain ⟨command, ⟨e, ts, prevTs⟩, key, value⟩ := c
  obtain ⟨info, holder, waiting, inflight, disk, made⟩ := l
  cases epoch
  cases free
  have acquired := reachable.next (l := .acquire 0) trivial rfl
  rw [single_setLog] at acquired
  refine acquired.next (l := .record 0 command ts prevTs key value) trivial ?_
  show some (stepRecord _ 0 _) = _
  simp only [stepRecord, State.writeLog, single_setLog]
  simp only [single]
  split <;> simp_all

/-- A log whose buffer one long value fills, with a call that has stalled. -/
def stalled (v : List UInt8) : Log where
  info := ⟨[.epoch 1, .kv .replace 2 [] v], 1, 0, 0, 0⟩
  holder := none
  waiting := [⟨.replace, ⟨1, 4, 0⟩, [], []⟩]
  inflight := none
  disk := []
  made := [(1, .epoch 1), (1, .kv .replace 2 [] v)]

theorem stalled_reachable {v : List UInt8} (long : v.length = Model.Loginfo.len - 56) :
    (machine 1).Reachable Machine.anyStep (single 1 0 (stalled v)) := by
  have start : (machine 1).Reachable Machine.anyStep (single 1 0 (.start [])) :=
    .initial ⟨Nat.one_pos, fun _ => ⟨[], ⟨nofun, List.Pairwise.nil, nofun⟩, rfl⟩⟩
  have first := single_call ⟨.replace, ⟨1, 2, 0⟩, [], v⟩ start rfl rfl
  rw [if_pos (by simp [Loginfo.fits, Loginfo.pos, Log.start, Loginfo.make, long, Loginfo.len,
    Record.sizeofKvdelta, Record.sizeofEpoch, Record.sizeofBase])] at first
  have second := single_call (l := { stalled v with waiting := [] })
    ⟨.replace, ⟨1, 4, 0⟩, [], []⟩ first rfl rfl
  rw [if_neg (by simp [stalled, Loginfo.fits, Loginfo.pos, long, Loginfo.len, Record.size,
    Record.sizeofKv, Record.sizeofKvdelta, Record.sizeofEpoch, Record.sizeofBase])] at second
  exact second

/-- The logger swaps the buffers in epoch 2, and a newcomer writes before the call of epoch 1. -/
theorem newcomer_passes :
    ∃ s, (machine 1).Reachable Machine.anyStep s ∧ ¬ EpochsInOrder (s.log 0) := by
  obtain ⟨v, long⟩ : ∃ v : List UInt8, v.length = Model.Loginfo.len - 56 :=
    ⟨List.replicate _ 0, List.length_replicate⟩
  have ticked : (machine 1).Reachable Machine.anyStep (single 2 0 (stalled v)) :=
    (stalled_reachable long).next (l := .checkEpoch) trivial rfl
  have swapped : (machine 1).Reachable Machine.anyStep (single 2 0 { stalled v with
      info := ⟨[], 1, 0, 0, 0⟩
      inflight := some ([.epoch 1, .kv .replace 2 [] v], 1) }) := by
    refine ticked.next (l := .swap 0) trivial ?_
    show some ((single 2 0 (stalled v)).setLog 0 ((stalled v).swap 2 0)) = _
    rw [single_setLog]
    simp [stalled, Log.swap, Loginfo.quiesce, Loginfo.noticeWake]
  have third := single_call ⟨.replace, ⟨2, 6, 0⟩, [], []⟩ swapped rfl rfl
  rw [if_pos (by rfl)] at third
  have fourth := third.next (l := .retry 0) trivial rfl
  refine ⟨_, fourth, fun inOrder => ?_⟩
  have epochs := inOrder.1
  change [1, 2, 1].Pairwise (· ≤ ·) at epochs
  revert epochs
  decide

end Incll.Proof.Loginfo
