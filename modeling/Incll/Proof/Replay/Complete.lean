import Incll.Proof.Replay.Recovered

/-! # The epochs that recovery replays are complete -/

namespace Incll.Proof.Replay
open Incll.Lib Incll.Model Incll.Model.Logger Incll.Proof.Loginfo

variable {n : Nat}

/-! Logs that wake up. -/

/-- What a crash may leave of the file: what is on the disk, and a part of what is on its way. -/
def durable (l : Log) : List (List Record) :=
  (l.inflight.elim [] Prod.fst).inits.map (l.disk ++ ·)

/-- Recovery takes the log for quiescent, or sees nothing of it. -/
def asleep (rs : List Record) : Bool := rs.getLast?.all (· = .quiesce)

/-- The epochs of the records behind `rs`, and of the calls that have not written yet. -/
def behind (l : Log) (rs : List Record) : List Nat :=
  (l.made.drop rs.length).map Prod.fst ++ pending l

/-- The wake records of the epochs from `q` to `e`. -/
def wakes (q e : Nat) (l : Log) : List (Nat × Record) :=
  l.made.filter fun x => x.2 = .wake ∧ q ≤ x.1 ∧ x.1 ≤ e

/-- A log that is not taken for quiescent before such a record is durable. -/
def holdsBack (q e : Nat) (l : Log) : Prop :=
  ∃ x ∈ wakes q e l, ∀ rs ∈ durable l, x ∈ tagged 0 rs ∨ asleep rs = false

/-- The logs know that log `i`, of which a crash leaves `rs`, has woken up by epoch `e`. -/
def wakeNoted (s : State n) (i : Fin n) (rs : List Record) (e : Nat) : Prop :=
  (∀ j, j = i) ∨
    (rs ≠ [] ∧ (∀ j, (s.log j).disk ≠ []) ∧
      ((∃ j, holdsBack (lastEpoch 0 rs) e (s.log j)) ∨
        ∀ j, j ≠ i → wakes (lastEpoch 0 rs) e (s.log j) ≠ []))

/-- No epoch ends before the logs know of the calls in it that a crash could drop behind a
quiescence notification. -/
def inTime (s : State n) : Label n → Prop
  | .checkEpoch => ∀ i, ∀ rs ∈ durable (s.log i), asleep rs →
      ∀ e ∈ behind (s.log i) rs, wakeNoted s i rs e
  | label => inOrder s label

instance (q e : Nat) (l : Log) : Decidable (holdsBack q e l) := by
  unfold holdsBack
  infer_instance

instance (s : State n) (i : Fin n) (rs : List Record) (e : Nat) : Decidable (wakeNoted s i rs e) := by
  unfold wakeNoted
  infer_instance

instance (s : State n) : (label : Label n) → Decidable (inTime s label)
  | .checkEpoch => inferInstanceAs (Decidable (∀ i, ∀ rs ∈ durable (s.log i), asleep rs →
      ∀ e ∈ behind (s.log i) rs, wakeNoted s i rs e))
  | .acquire i => inferInstanceAs (Decidable (inOrder s (.acquire i)))
  | .record i command ts prevTs key value =>
      inferInstanceAs (Decidable (inOrder s (.record i command ts prevTs key value)))
  | .retry i => inferInstanceAs (Decidable (inOrder s (.retry i)))
  | .swap i => inferInstanceAs (Decidable (inOrder s (.swap i)))
  | .flush i => inferInstanceAs (Decidable (inOrder s (.flush i)))

theorem inTime_inOrder {s : State n} {label : Label n} (ok : inTime s label) : inOrder s label := by
  cases label
  case checkEpoch => trivial
  all_goals exact ok

theorem mem_durable {l : Log} {rs : List Record} :
    rs ∈ durable l ↔ ∃ part, part <+: l.inflight.elim [] Prod.fst ∧ rs = l.disk ++ part := by
  simp only [durable, List.mem_map, List.mem_inits, eq_comm]

theorem mem_behind {l : Log} {rs : List Record} {e : Nat} :
    e ∈ behind l rs ↔ (∃ r, (e, r) ∈ l.made.drop rs.length) ∨ e ∈ pending l := by
  rw [behind, List.mem_append, List.mem_map]
  simp only [Prod.exists, exists_and_right, exists_eq_right]

/-- A part of a buffer without quiescence notifications. -/
theorem asleep_part {disk part : List Record} (none : .quiesce ∉ part) (some : part ≠ []) :
    asleep (disk ++ part) = false := by
  obtain ⟨init, r, rfl⟩ : ∃ init r, part = init ++ [r] :=
    ⟨_, _, (List.dropLast_append_getLast some).symm⟩
  have other : r ≠ .quiesce := by
    rintro rfl
    exact none (by simp)
  simp [asleep, ← List.append_assoc, other]

/-! One log goes on. -/

/-- What a step in epoch `g` does to a log. -/
structure Continues (g : Nat) (l l' : Log) : Prop where
  made : ∀ x ∈ l.made, x ∈ l'.made
  disk : l.disk ≠ [] → l'.disk ≠ []
  calls : ∀ rs ∈ durable l', asleep rs → ∀ e ∈ behind l' rs,
    (rs ∈ durable l ∧ e ∈ behind l rs) ∨ e = g
  holds : ∀ q e, holdsBack q e l → holdsBack q e l'

theorem wakes_grow {q e : Nat} {l l' : Log} (grows : ∀ x ∈ l.made, x ∈ l'.made)
    {x : Nat × Record} (member : x ∈ wakes q e l) : x ∈ wakes q e l' := by
  rw [wakes, List.mem_filter] at member ⊢
  exact ⟨grows x member.1, member.2⟩

/-- A step that leaves the file alone, or completes it. -/
theorem continues_of {g : Nat} {l l' : Log} {news : List (Nat × Record)}
    (file : ∀ rs ∈ durable l', rs ∈ durable l) (disk : l.disk <+: l'.disk)
    (made : l'.made = l.made ++ news) (fresh : ∀ x ∈ news, x.1 ∈ pending l)
    (calls : ∀ e ∈ pending l', e ∈ pending l ∨ e = g) : Continues g l l' := by
  have grows (x : Nat × Record) (member : x ∈ l.made) : x ∈ l'.made := by
    rw [made]
    exact List.mem_append_left _ member
  refine ⟨grows, ?_, ?_, ?_⟩
  · intro some none
    rw [none] at disk
    exact some (List.prefix_nil.mp disk)
  · intro rs left _ e lost
    rw [mem_behind, made, List.drop_append] at lost
    rcases lost with ⟨r, member⟩ | pend
    · rcases List.mem_append.mp member with old | new
      · exact .inl ⟨file rs left, mem_behind.mpr (.inl ⟨r, old⟩)⟩
      · exact .inl ⟨file rs left, mem_behind.mpr (.inr (fresh _ (List.mem_of_mem_drop new)))⟩
    · rcases calls e pend with old | now
      · exact .inl ⟨file rs left, mem_behind.mpr (.inr old)⟩
      · exact .inr now
  · rintro q e ⟨x, wake, running⟩
    exact ⟨x, wakes_grow grows wake, fun rs left => running rs (file rs left)⟩

theorem Continues.refl (g : Nat) (l : Log) : Continues g l l :=
  continues_of (fun _ left => left) (List.prefix_refl _) (List.append_nil _).symm nofun
    fun _ pend => .inl pend

theorem swap_file {l : Log} (ge we : Nat) (idle : l.inflight = none) :
    (l.swap ge we).disk = l.disk ∧ (l.swap ge we).info.buf = [] ∧
      (l.swap ge we).inflight.elim [] Prod.fst =
        (l.info.quiesce ge we (!l.waiting.isEmpty)).buf ∧
      (l.swap ge we).made = l.made ++
        ((l.info.quiesce ge we (!l.waiting.isEmpty)).buf.drop l.info.buf.length).map (ge, ·) := by
  simp only [Log.swap]
  split
  · next empty => exact ⟨rfl, empty, by rw [idle, empty]; rfl, rfl⟩
  · exact ⟨rfl, rfl, rfl, rfl⟩

theorem continues_swap {g we : Nat} {l : Log} (ordered : Ordered g l) (free : l.holder = none)
    (idle : l.inflight = none) (none : .quiesce ∉ l.info.buf) : Continues g l (l.swap g we) := by
  obtain ⟨disk, -, inflight, news⟩ := swap_file g we idle
  have same : pending (l.swap g we) = pending l := by
    simp only [pending, (swap_calls l g we).1, (swap_calls l g we).2]
  have here : l.disk ∈ durable l := by simp [durable, idle]
  have parts {rs : List Record} (left : rs ∈ durable (l.swap g we)) :
      ∃ part, part <+: (l.info.quiesce g we (!l.waiting.isEmpty)).buf ∧ rs = l.disk ++ part := by
    rw [mem_durable, disk, inflight] at left
    exact left
  have kept : l.disk ≠ [] → (l.swap g we).disk ≠ [] := by rw [disk]; exact id
  rcases quiesce_cases l.info g we (!l.waiting.isEmpty) with
    ⟨buf, -⟩ | ⟨nobody, empty, -, rest, all, buf⟩
  · have made : (l.swap g we).made = l.made := by
      rw [news, buf, List.drop_length]
      exact List.append_nil _
    have old {rs : List Record} (left : rs ∈ durable (l.swap g we)) :
        rs = l.disk ∨ asleep rs = false := by
      obtain ⟨part, begins, rfl⟩ := parts left
      rw [buf] at begins
      by_cases nothing : part = []
      · exact .inl (by rw [nothing, List.append_nil])
      · exact .inr (asleep_part (fun inside => none (begins.subset inside)) nothing)
    refine ⟨fun x member => by rw [made]; exact member, kept, ?_, ?_⟩
    · intro rs left sleeps e lost
      rcases old left with rfl | running
      · refine .inl ⟨here, ?_⟩
        rw [mem_behind, made, same] at lost
        exact mem_behind.mpr lost
      · rw [running] at sleeps
        cases sleeps
    · rintro q e ⟨x, wake, running⟩
      refine ⟨x, wakes_grow (fun x member => by rw [made]; exact member) wake, fun rs left => ?_⟩
      rcases old left with rfl | awake
      · exact running _ here
      · exact .inr awake
  · -- a quiescence notification: all records are on the disk
    have nobody : l.waiting = [] := by simpa using nobody
    have calls : pending (l.swap g we) = [] := by rw [same, pending, nobody, free]; rfl
    have file : records l = l.disk := by simp [records, idle, empty]
    have length : l.made.length = l.disk.length := by
      rw [← file, ← ordered.file, List.length_map]
    have made : (l.swap g we).made = l.made ++ (Record.epoch g :: rest).map (g, ·) := by
      rw [news, buf, empty]
      rfl
    have grows (x : Nat × Record) (member : x ∈ l.made) : x ∈ (l.swap g we).made := by
      rw [made]
      exact List.mem_append_left _ member
    refine ⟨grows, kept, ?_, ?_⟩
    · intro rs left _ e lost
      obtain ⟨part, -, rfl⟩ := parts left
      rw [mem_behind, made, calls, List.drop_append] at lost
      obtain ⟨r, member⟩ := lost.resolve_right (by simp)
      rcases List.mem_append.mp member with old | new
      · rw [List.drop_eq_nil_of_le (by rw [length, List.length_append]; omega)] at old
        cases old
      · obtain ⟨q, -, tag⟩ := List.mem_map.mp (List.mem_of_mem_drop new)
        cases tag
        exact .inr rfl
    · rintro q e ⟨x, wake, -⟩
      refine ⟨x, wakes_grow grows wake, fun rs left => .inl ?_⟩
      obtain ⟨part, -, rfl⟩ := parts left
      have member := (List.mem_filter.mp wake).1
      rw [ordered.tags, file] at member
      rw [tagged_append]
      exact List.mem_append_left _ member

/-! All logs. -/

/-- The calls and records that a crash could drop behind a quiescence notification are those of the
current epoch, or the logs know of them. -/
structure Awake (s : State n) : Prop where
  noted : ∀ i, ∀ rs ∈ durable (s.log i), asleep rs → ∀ e ∈ behind (s.log i) rs,
    e = s.globalLogEpoch ∨ wakeNoted s i rs e
  buf : ∀ i, .quiesce ∉ (s.log i).info.buf

theorem wakeNoted_continues {g e : Nat} {s s' : State n} {i : Fin n} {rs : List Record}
    (continues : ∀ j, Continues g (s.log j) (s'.log j)) (noted : wakeNoted s i rs e) :
    wakeNoted s' i rs e := by
  rcases noted with only | ⟨some, files, wake⟩
  · exact .inl only
  · refine .inr ⟨some, fun j => (continues j).disk (files j), ?_⟩
    rcases wake with ⟨j, holds⟩ | others
    · exact .inl ⟨j, (continues j).holds _ _ holds⟩
    · refine .inr fun j other => ?_
      obtain ⟨x, member⟩ := List.exists_mem_of_ne_nil _ (others j other)
      exact List.ne_nil_of_mem (wakes_grow (continues j).made member)

theorem quiesce_not_mem_write {l : Model.Loginfo} (we : Nat) (c : LogCall)
    (none : .quiesce ∉ l.buf) : .quiesce ∉ (l.write we c).1.buf := by
  have data : Loginfo.dataRecord c ≠ .quiesce := by
    rw [Loginfo.dataRecord]
    split <;> simp
  simp only [Loginfo.write, Loginfo.store, Loginfo.recordWake, Loginfo.leaveQuiescence,
    Loginfo.recordEpoch]
  split_ifs <;> simp_all [Ne.symm]

theorem setLog_continues {s : State n} {i : Fin n} {l : Log} {g : Nat}
    (changed : Continues g (s.log i) l) (j : Fin n) :
    Continues g (s.log j) ((s.setLog i l).log j) :=
  (Function.forall_update_iff s.log fun j l => Continues g (s.log j) l).mpr
    ⟨changed, fun j _ => .refl g (s.log j)⟩ j

theorem setLog_buf {s : State n} {i : Fin n} {l : Log} (none : ∀ j, .quiesce ∉ (s.log j).info.buf)
    (changed : .quiesce ∉ l.info.buf) (j : Fin n) : .quiesce ∉ ((s.setLog i l).log j).info.buf :=
  (Function.forall_update_iff s.log fun _ (l : Log) => Record.quiesce ∉ l.info.buf).mpr
    ⟨changed, fun j _ => none j⟩ j

/-- A call writes and leaves the queue. -/
theorem continues_write {g we : Nat} {l l₀ : Log} {c : LogCall} (file : durable l₀ = durable l)
    (disk : l₀.disk = l.disk) (made : l₀.made = l.made) (member : c.qtimes.epoch ∈ pending l)
    (rest : ∀ e ∈ pending l₀, e ∈ pending l) : Continues g l (l₀.write we c).1 := by
  refine continues_of (fun rs left => file ▸ left) (by rw [← disk]; exact List.prefix_refl _)
    (congrArg (· ++ _) made) ?_ fun e pend => .inl (rest e pend)
  intro x new
  obtain ⟨r, -, rfl⟩ := List.mem_map.mp new
  exact member

/-- What a step does to the logs. -/
theorem step_continues {s s' : State n} {label : Label n}
    (epochs : ∀ i, Epochs s.globalLogEpoch (s.log i)) (none : ∀ i, .quiesce ∉ (s.log i).info.buf)
    (h : step s label = some s') :
    (∀ i, Continues s.globalLogEpoch (s.log i) (s'.log i)) ∧
      (∀ i, .quiesce ∉ (s'.log i).info.buf) ∧
      (label ≠ .checkEpoch → s'.globalLogEpoch = s.globalLogEpoch) := by
  cases label with
  | acquire i =>
      simp only [step, Option.ite_none_right_eq_some, Option.some.injEq] at h
      obtain ⟨free, rfl⟩ := h
      refine ⟨setLog_continues ?_, setLog_buf none (none i), fun _ => rfl⟩
      refine continues_of (fun _ left => left) (List.prefix_refl _) (List.append_nil _).symm (by intros; contradiction) ?_
      intro e pend
      simp only [pending, Option.toList_some, List.mem_append, List.mem_singleton] at pend
      rcases pend with waits | now
      · exact .inl (List.mem_append_left _ waits)
      · exact .inr now
  | record i command ts prevTs key value =>
      simp only [step, Option.map_eq_some_iff] at h
      obtain ⟨epoch, held, rfl⟩ := h
      have member : epoch ∈ pending (s.log i) := by simp [pending, held]
      simp only [stepRecord]
      split
      · refine ⟨setLog_continues (continues_write rfl rfl rfl member ?_),
          setLog_buf none (quiesce_not_mem_write _ _ (none i)), fun _ => rfl⟩
        intro e pend
        simp only [pending, Option.toList_none, List.append_nil] at pend
        exact List.mem_append_left _ pend
      · refine ⟨setLog_continues ?_, setLog_buf none (none i), fun _ => rfl⟩
        refine continues_of (fun _ left => left) (List.prefix_refl _) (List.append_nil _).symm (by intros; contradiction) ?_
        intro e pend
        simp only [pending, held, List.map_append, List.map_cons, List.map_nil, Option.toList_none,
          List.append_nil] at pend ⊢
        exact .inl pend
  | retry i =>
      simp only [step, Option.ite_none_right_eq_some] at h
      obtain ⟨-, h⟩ := h
      split at h
      · cases h
      · next c waiting waits =>
          split at h <;> cases h
          · refine ⟨setLog_continues (continues_write rfl rfl rfl (by simp [pending, waits]) ?_),
              setLog_buf none (quiesce_not_mem_write _ _ (none i)), fun _ => rfl⟩
            intro e pend
            simp only [pending, waits, List.map_cons, List.cons_append] at pend ⊢
            exact List.mem_cons_of_mem _ pend
          · exact ⟨fun i => .refl _ _, none, fun _ => rfl⟩
  | swap i =>
      simp only [step, Option.ite_none_right_eq_some, Option.some.injEq] at h
      obtain ⟨⟨free, idle⟩, rfl⟩ := h
      refine ⟨setLog_continues (continues_swap (epochs i).ordered free idle (none i)),
        setLog_buf none ?_, fun _ => rfl⟩
      rw [(swap_file _ _ idle).2.1]
      exact List.not_mem_nil
  | flush i =>
      simp only [step, Option.map_eq_some_iff] at h
      obtain ⟨⟨x, xEpoch⟩, inflight, rfl⟩ := h
      refine ⟨setLog_continues ?_, setLog_buf none (none i), fun _ => rfl⟩
      refine continues_of ?_ (List.prefix_append _ _) (List.append_nil _).symm (by intros; contradiction) fun _ pend => .inl pend
      intro rs left
      obtain ⟨part, begins, rfl⟩ := mem_durable.mp left
      refine mem_durable.mpr ⟨x, by rw [inflight]; exact List.prefix_refl _, ?_⟩
      rw [List.prefix_nil.mp begins, List.append_nil]
  | checkEpoch =>
      simp only [step, Option.ite_none_right_eq_some, Option.some.injEq] at h
      obtain ⟨-, rfl⟩ := h
      exact ⟨fun i => .refl _ _, none, fun other => absurd rfl other⟩

theorem start_awake {s : State n} (initial : (machine n).initial s) : Awake s := by
  constructor
  · intro i rs left _ e lost
    obtain ⟨disk, -, start⟩ := initial.2 i
    rw [start] at left lost
    obtain ⟨part, -, rfl⟩ := mem_durable.mp left
    have length : (tagged 0 disk).length = disk.length := by
      rw [← congrArg List.length (map_tagged 0 disk), List.length_map]
    have nothing : (tagged 0 disk).drop (disk ++ part).length = [] :=
      List.drop_eq_nil_of_le (by rw [length, List.length_append]; omega)
    rcases mem_behind.mp lost with ⟨r, member⟩ | pend
    · change (e, r) ∈ (tagged 0 disk).drop (disk ++ part).length at member
      rw [nothing] at member
      cases member
    · cases pend
  · intro i
    obtain ⟨disk, -, start⟩ := initial.2 i
    rw [start]
    exact List.not_mem_nil

theorem step_awake {s s' : State n} {label : Label n}
    (epochs : ∀ i, Epochs s.globalLogEpoch (s.log i)) (awake : Awake s) (ok : inTime s label)
    (h : step s label = some s') : Awake s' := by
  obtain ⟨continues, none, same⟩ := step_continues epochs awake.buf h
  refine ⟨?_, none⟩
  intro i rs left sleeps e lost
  by_cases check : label = .checkEpoch
  · subst check
    simp only [step, Option.ite_none_right_eq_some, Option.some.injEq] at h
    obtain ⟨-, rfl⟩ := h
    exact .inr (ok i rs left sleeps e lost)
  · rw [same check]
    rcases (continues i).calls rs left sleeps e lost with ⟨before, old⟩ | now
    · rcases awake.noted i rs before sleeps e old with now | noted
      · exact .inl now
      · exact .inr (wakeNoted_continues continues noted)
    · exact .inl now

theorem reachable_awake {s : State n} (reachable : (machine n).Reachable inTime s) :
    (∀ i, Epochs s.globalLogEpoch (s.log i)) ∧ Awake s := by
  have all : (0 < s.globalLogEpoch ∧ ∀ i, Epochs s.globalLogEpoch (s.log i)) ∧ Awake s := by
    refine reachable.invariant (fun _ initial => ⟨⟨initial.1, start_epochs initial⟩, start_awake initial⟩)
      fun _ _ _ ⟨epochs, awake⟩ ok h => ⟨?_, ?_⟩
    · exact step_epochs epochs.1 epochs.2 (inTime_inOrder ok) h
    · exact step_awake epochs.2 awake ok h
  exact ⟨all.1.2, all.2⟩

/-! A crash. -/

/-- `left` is what a crash leaves of the logs, with incomplete records behind, and `f` what the
server finds. A checkpoint is not committed until the logs are flushed past it. -/
structure Crash (s : State n) (left : Fin n → List Record) (f : Recover.Found n) : Prop where
  files : ∀ i, left i ∈ durable (s.log i)
  holds : ∀ i, Holds (f.log i) (left i)
  sized : ∀ i, ∀ r ∈ left i, Sized r
  checkpoint : f.ckpMaxEpoch = 0 ∨ ∃ i, f.ckpMaxEpoch < lastEpoch 0 (left i)

/-- The records that are lost belong to epochs that are not replayed, and none is older than an
operation that is. -/
def CompleteReplay (s : State n) (left : Fin n → List Record) (f : Recover.Found n) : Prop :=
  ∀ i, ∃ kept lost, (s.log i).made = kept ++ lost ∧ kept.map Prod.snd = left i ∧
    ∀ x ∈ lost, Recover.replayMaxEpoch f ≤ x.1 ∧
      ∀ j out, Recover.replayed f j = some out → ∀ lr ∈ out.2, lr.epoch.toNat < x.1

theorem lastEpoch_tagged {rs : List Record} (some : rs ≠ []) :
    ∃ x ∈ tagged 0 rs, x.1 = lastEpoch 0 rs := by
  obtain ⟨init, r, rfl⟩ : ∃ init r, rs = init ++ [r] :=
    ⟨_, _, (List.dropLast_append_getLast some).symm⟩
  refine ⟨(r.epochAfter (lastEpoch 0 init), r), ?_, ?_⟩
  · rw [tagged_append]
    exact List.mem_append_right _ List.mem_cons_self
  · rw [lastEpoch_append]
    rfl

section
variable {s : State n} {left : Fin n → List Record} {f : Recover.Found n}
variable (epochs : ∀ i, Epochs s.globalLogEpoch (s.log i)) (crash : Crash s left f)
include epochs crash

omit epochs in
theorem crash_records (i : Fin n) : ∃ rest, records (s.log i) = left i ++ rest := by
  obtain ⟨part, ⟨more, inflight⟩, file⟩ := mem_durable.mp (crash.files i)
  refine ⟨more ++ (s.log i).info.buf, ?_⟩
  rw [records, ← inflight, file]
  simp only [List.append_assoc]

theorem crash_readable (i : Fin n) : Readable (f.log i) (left i) := by
  refine ⟨crash.holds i, crash.sized i, ?_⟩
  obtain ⟨rest, file⟩ := crash_records crash i
  have sorted := (epochs i).ordered.epochsInOrder.1
  rw [file, List.filterMap_append] at sorted
  exact (List.pairwise_append.mp sorted).1

/-- The records that are lost come behind the others. -/
theorem crash_made (i : Fin n) : ∃ lost, (s.log i).made = tagged 0 (left i) ++ lost ∧
    lost = (s.log i).made.drop (left i).length ∧
    ∀ x ∈ lost, lastEpoch 0 (left i) ≤ x.1 ∧ ∀ y ∈ tagged 0 (left i), y.1 ≤ x.1 := by
  obtain ⟨rest, file⟩ := crash_records crash i
  have made := (epochs i).ordered.tags
  rw [file, tagged_append] at made
  have sorted := (epochs i).ordered.sorted
  rw [made, List.pairwise_append] at sorted
  refine ⟨_, made, ?_, ?_⟩
  · have length : (left i).length = (tagged 0 (left i)).length := by
      rw [← List.length_map Prod.snd, map_tagged]
    rw [made, length, List.drop_left]
  · intro x lost
    refine ⟨?_, fun y kept => sorted.2.2 y kept x lost⟩
    rcases lastEpoch_cases 0 (left i) with none | ⟨y, kept, last⟩
    · rw [none]
      exact Nat.zero_le _
    · rw [last]
      exact sorted.2.2 y kept x lost

theorem crash_pos {i : Fin n} {x : Nat × Record} (member : x ∈ tagged 0 (left i)) : 0 < x.1 := by
  obtain ⟨lost, made, -⟩ := crash_made epochs crash i
  exact ((epochs i).ordered.bound x (by rw [made]; exact List.mem_append_left _ member)).1

/-- The bound is not above all logs. -/
theorem max_le_of_last {bound : Nat} (low : ∀ i, lastEpoch 0 (left i) ≤ bound) :
    Recover.replayMaxEpoch f ≤ bound := by
  refine (lowers_le _ _).1.trans (largest_le ?_ ?_)
  · rcases crash.checkpoint with none | ⟨i, past⟩
    · rw [if_neg (by rw [none]; exact not_not.mpr rfl)]
      exact Nat.zero_le _
    · have high := low i
      split <;> omega
  · intro x member
    obtain ⟨y, listed, rfl⟩ := List.mem_map.mp member
    obtain ⟨i, rfl⟩ := List.mem_ofFn.mp listed
    rw [last_of (crash_readable epochs crash) i]
    exact low i

theorem info_asleep {i : Fin n} (some : left i ≠ []) :
    (Recover.info f i).quiescent = asleep (left i) := by
  have readable := crash_readable epochs crash
  rw [info_of readable (holds_ne_nil (readable i).holds some)]
  obtain ⟨init, r, file⟩ : ∃ init r, left i = init ++ [r] :=
    ⟨_, _, (List.dropLast_append_getLast some).symm⟩
  rw [file, infoOf, info_quiescent, asleep, List.getLast?_append_cons, List.getLast?_singleton]
  rfl

theorem info_last_pos {i : Fin n} (some : left i ≠ []) : (Recover.info f i).lastEpoch ≠ 0 := by
  obtain ⟨x, member, tag⟩ := lastEpoch_tagged some
  rw [last_of (crash_readable epochs crash) i, ← tag]
  exact (crash_pos epochs crash member).ne'

/-- Nor above a log that is not quiescent. -/
theorem max_le_of_running {i : Fin n} (some : left i ≠ []) (running : asleep (left i) = false) :
    Recover.replayMaxEpoch f ≤ lastEpoch 0 (left i) := by
  obtain ⟨quiescent, last⟩ := analyzed_same f i
  have bound := ((lowers_le (Recover.maxEpoch f) (List.ofFn (Recover.analyzed f))).2
    (Recover.analyzed f i) (List.mem_ofFn.mpr ⟨i, rfl⟩)).1
  rw [quiescent, last, info_asleep epochs crash some] at bound
  rw [← last_of (crash_readable epochs crash) i]
  exact bound running (info_last_pos epochs crash some)

/-- Nor above a wake record that a quiescent log has missed. -/
theorem max_le_of_wake {i j : Fin n} {w : Nat} (files : ∀ k, left k ≠ [])
    (sleeps : asleep (left i) = true) (member : (w, .wake) ∈ tagged 0 (left j))
    (late : lastEpoch 0 (left i) ≤ w) : Recover.replayMaxEpoch f ≤ w := by
  have readable := crash_readable epochs crash
  have held (k : Fin n) : f.log k ≠ [] := holds_ne_nil (readable k).holds (files k)
  obtain ⟨some, least⟩ : Recover.minQuiescentLastEpoch f ≠ 0 ∧
      Recover.minQuiescentLastEpoch f ≤ (Recover.info f i).lastEpoch := by
    refine (minQuiescent_bound 0 ?_).2 _ (List.mem_ofFn.mpr ⟨i, rfl⟩) ?_
    · intro x listed
      obtain ⟨k, rfl⟩ := List.mem_ofFn.mp listed
      exact fun _ => info_last_pos epochs crash (files k)
    · rw [info_asleep epochs crash (files i)]
      exact sleeps
  rw [last_of readable i] at least
  have wake := wake_of readable member
  have most : (Recover.info f j).wakeEpoch ≤ Recover.maxWakeEpoch f :=
    (largest_ge _ _).2 _ (List.mem_map.mpr ⟨_, List.mem_ofFn.mpr ⟨j, rfl⟩, rfl⟩)
  have chosen : Recover.replayMinQuiescentLastEpoch f = Recover.minQuiescentLastEpoch f :=
    if_pos (by omega)
  have value := analyzed_wake readable j
  rw [chosen, if_pos ⟨held j, some, by omega⟩] at value
  obtain ⟨found, first⟩ := wakeOf_le (q := Recover.minQuiescentLastEpoch f)
    (List.pairwise_cons.mpr ⟨fun _ _ => Nat.zero_le _, (readable j).sorted⟩) member
    (crash_pos epochs crash member) (least.trans late)
  have bound := ((lowers_le (Recover.maxEpoch f) (List.ofFn (Recover.analyzed f))).2
    (Recover.analyzed f j) (List.mem_ofFn.mpr ⟨j, rfl⟩)).2
  rw [value] at bound
  exact (bound found).trans first

/-- What is lost belongs to epochs from the bound on. -/
theorem max_le_of_lost (awake : Awake s) {i : Fin n} {x : Nat × Record}
    (lost : x ∈ (s.log i).made.drop (left i).length) : Recover.replayMaxEpoch f ≤ x.1 := by
  obtain ⟨gone, made, rfl, above⟩ := crash_made epochs crash i
  have last := (above x lost).1
  cases sleeps : asleep (left i) with
  | false =>
      have some : left i ≠ [] := by
        rintro none
        rw [none] at sleeps
        cases sleeps
      exact (max_le_of_running epochs crash some sleeps).trans last
  | true =>
      have call : x.1 ∈ behind (s.log i) (left i) := mem_behind.mpr (.inl ⟨x.2, lost⟩)
      rcases awake.noted i (left i) (crash.files i) sleeps x.1 call with
        now | only | ⟨some, files, wake⟩
      · -- the current epoch is not below any other
        refine max_le_of_last epochs crash fun j => ?_
        rw [now]
        rcases lastEpoch_cases 0 (left j) with none | ⟨y, kept, tag⟩
        · rw [none]
          exact Nat.zero_le _
        · obtain ⟨_, made, -⟩ := crash_made epochs crash j
          rw [tag]
          exact ((epochs j).ordered.bound y (by rw [made]; exact List.mem_append_left _ kept)).2
      · exact max_le_of_last epochs crash fun j => by rw [only j]; exact last
      · have all (k : Fin n) : left k ≠ [] := by
          obtain ⟨part, -, file⟩ := mem_durable.mp (crash.files k)
          rw [file]
          exact fun none => files k (List.append_eq_nil_iff.mp none).1
        -- a wake record that is durable bounds the replay
        have seen {j : Fin n} {y : Nat × Record}
            (noted : y ∈ wakes (lastEpoch 0 (left i)) x.1 (s.log j))
            (kept : y ∈ tagged 0 (left j)) : Recover.replayMaxEpoch f ≤ x.1 := by
          obtain ⟨w, r⟩ := y
          obtain ⟨rfl, late, early⟩ := of_decide_eq_true (List.mem_filter.mp noted).2
          exact (max_le_of_wake epochs crash all sleeps kept late).trans early
        -- and one that is lost comes behind what is left
        have passed {j : Fin n} {y : Nat × Record}
            (noted : y ∈ wakes (lastEpoch 0 (left i)) x.1 (s.log j))
            (lost : y ∉ tagged 0 (left j)) : lastEpoch 0 (left j) ≤ x.1 := by
          obtain ⟨member, tag⟩ := List.mem_filter.mp noted
          obtain ⟨gone, made, -, above⟩ := crash_made epochs crash j
          rw [made] at member
          have behind := (List.mem_append.mp member).resolve_left lost
          exact (above y behind).1.trans (of_decide_eq_true tag).2.2
        rcases wake with ⟨j, y, noted, guards⟩ | others
        · by_cases kept : y ∈ tagged 0 (left j)
          · exact seen noted kept
          · have running := (guards _ (crash.files j)).resolve_left kept
            exact (max_le_of_running epochs crash (all j) running).trans (passed noted kept)
        · by_cases durable : ∃ j, ∃ y ∈ wakes (lastEpoch 0 (left i)) x.1 (s.log j),
              y ∈ tagged 0 (left j)
          · obtain ⟨j, y, noted, kept⟩ := durable
            exact seen noted kept
          · refine max_le_of_last epochs crash fun j => ?_
            by_cases own : j = i
            · rw [own]
              exact last
            · obtain ⟨y, noted⟩ := List.exists_mem_of_ne_nil _ (others j own)
              exact passed noted fun kept => durable ⟨j, y, noted, kept⟩

end

/-! The records that are replayed. -/

theorem extract_epoch_kept {lr : Logrecord} {buf : List UInt8}
    (other : (lr.extract buf).1.command ≠ Logcmd.epoch) :
    (lr.extract buf).1.epoch = lr.epoch := by
  simp only [Logrecord.extract, Logrecord.extractBody] at other ⊢
  split_ifs at other ⊢ <;> first | rfl | exact absurd ‹_› other

theorem replayLoop_below {min max fuel : Nat} {lr : Logrecord} {buf : List UInt8}
    {p p' : Logreplay.Progress} (below : lr.epoch.toNat = 0 ∨ lr.epoch.toNat < max)
    (ran : ∀ x ∈ p.run, x.epoch.toNat < max)
    (result : Logreplay.replayLoop min max fuel lr buf p = some p') :
    ∀ x ∈ p'.run, x.epoch.toNat < max := by
  induction fuel generalizing lr buf p with
  | zero =>
      cases result
      exact ran
  | succ fuel ih =>
      have stopped {q : Logreplay.Progress} (same : q.run = p.run) (stops : some q = some p') :
          ∀ x ∈ p'.run, x.epoch.toNat < max := by
        cases stops
        rw [same]
        exact ran
      simp only [Logreplay.replayLoop] at result
      split at result
      · exact stopped rfl result
      split at result
      · exact stopped rfl result
      split at result
      · split at result
        · cases result
        · exact stopped (by rfl) result
      · next uncut =>
          have next : (lr.extract buf).1.epoch.toNat = 0 ∨
              (lr.extract buf).1.epoch.toNat < max := by
            by_cases epoch : (lr.extract buf).1.command = Logcmd.epoch
            · exact .inr (not_le.mp fun high => uncut ⟨epoch, high⟩)
            · rw [extract_epoch_kept epoch]
              exact below
          split at result
          · exact ih next (by exact ran) result
          · next late =>
              split at result
              · cases result
              · refine ih next ?_ result
                intro x member
                split at member
                · rcases List.mem_append.mp member with old | new
                  · exact ran x old
                  · rw [List.mem_singleton.mp new]
                    exact next.resolve_left fun zero => late (.inl zero)
                · exact ran x member

theorem replayed_below {f : Recover.Found n} {j : Fin n} {out : List UInt8 × List Logrecord}
    (replayed : Recover.replayed f j = some out) :
    ∀ lr ∈ out.2, lr.epoch.toNat < Recover.replayMaxEpoch f := by
  obtain ⟨p, result, rfl⟩ := Option.map_eq_some_iff.mp replayed
  have below := replayLoop_below (.inl rfl) (fun _ none => absurd none List.not_mem_nil) result
  split <;> exact below

/-- In every run in which each epoch ends in time. -/
theorem replay_complete {s : State n} {left : Fin n → List Record} {f : Recover.Found n}
    (reachable : (machine n).Reachable inTime s) (crash : Crash s left f) :
    CompleteReplay s left f := by
  obtain ⟨epochs, awake⟩ := reachable_awake reachable
  intro i
  obtain ⟨lost, made, gone, -⟩ := crash_made epochs crash i
  refine ⟨_, lost, made, map_tagged 0 (left i), fun x member => ?_⟩
  rw [gone] at member
  have bound := max_le_of_lost epochs crash awake member
  exact ⟨bound, fun j out replayed lr ran => (replayed_below replayed lr ran).trans_le bound⟩

/-! Two logs that have been quiescent. -/

/-- What the server finds of the records of the logs, without a checkpoint. -/
def foundDisks (left : Fin n → List Record) : Recover.Found n where
  ckpMinEpoch := 0
  ckpMaxEpoch := 0
  log i := ((left i).map chunkOf).flatten
  stale _ := false

theorem crash_disks {s : State n} {left : Fin n → List Record} (disks : ∀ i, (s.log i).disk = left i)
    (sized : ∀ i, ∀ r ∈ left i, Sized r) : Crash s left (foundDisks left) :=
  ⟨fun i => mem_durable.mpr ⟨[], List.nil_prefix, by rw [disks i, List.append_nil]⟩,
    fun i => holds_chunks (left i), sized, .inl rfl⟩

section twoLogs

local instance neZero_logs : NeZero 2 := ⟨two_ne_zero⟩

/-- Both loggers write a quiescence notification in epoch 1. -/
def quiescence : List (Label 2) := [.swap 0, .flush 0, .swap 1, .flush 1, .checkEpoch]

/-- A call of a client. -/
def call (i : Fin 2) (ts : Kvtimestamp) : List (Label 2) :=
  [.acquire i, .record i .replace ts 0 [97] []]

def quiescent : List Record := [.epoch 1, .quiesce]

theorem sized_records {rs : List Record}
    (small : ∀ r ∈ rs, r.size < 256 ^ 4 ∧ (r.epoch?.getD 0) < 256 ^ 8) (r : Record) (member : r ∈ rs) :
    Sized r := by
  obtain ⟨size, word⟩ := small r member
  exact ⟨size, fun e epoch => by rw [epoch] at word; exact word⟩

/-- The disks of two logs after the second one has woken up. -/
def twoDisks (rs : List Record) (i : Fin 2) : List Record := if i = 0 then quiescent ++ rs else quiescent

end twoLogs

theorem crash_two {s : State 2} {rs : List Record} (first : (s.log 0).disk = quiescent ++ rs)
    (second : (s.log 1).disk = quiescent)
    (small : ∀ r ∈ quiescent ++ rs, r.size < 256 ^ 4 ∧ (r.epoch?.getD 0) < 256 ^ 8) :
    Crash s (twoDisks rs) (foundDisks (twoDisks rs)) := by
  refine crash_disks ?_ ?_
  · intro i
    fin_cases i
    · exact first
    · exact second
  · intro i r member
    refine sized_records small r ?_
    rw [twoDisks] at member
    split at member
    · exact member
    · exact List.mem_append_left _ member

theorem start_two (allowed : State 2 → Label 2 → Prop) :
    (machine 2).Reachable allowed ⟨1, 0, fun _ => .start []⟩ :=
  .initial ⟨Nat.one_pos, fun _ => ⟨[], ⟨nofun, List.Pairwise.nil, nofun⟩, rfl⟩⟩

/-- The wake-up of the second log in epoch 2 is noted by the first one, and bounds the replay. -/
theorem replay_complete_woken : ∃ s left f, (machine 2).Reachable inTime s ∧ Crash s left f ∧
    (s.log 1).made.length = 5 ∧ (left 1).length = 2 ∧ Recover.replayMaxEpoch f = 2 ∧
    CompleteReplay s left f := by
  obtain ⟨s, reachable, view⟩ := (start_two inTime).exists_run
    (quiescence ++ call 1 2 ++ call 0 4 ++ [.swap 0, .flush 0, .checkEpoch] ++ call 0 6 ++
      [.swap 0, .flush 0])
    (fun s => (s.log 0).disk = quiescent ++ [.epoch 2, .wake, .kv .replace 4 [97] [], .epoch 3,
        .kv .replace 6 [97] []] ∧ (s.log 1).disk = quiescent ∧ (s.log 1).made.length = 5)
    (by decide +kernel)
  obtain ⟨first, second, made⟩ := of_decide_eq_true view
  have crash := crash_two first second (by decide)
  exact ⟨s, _, _, reachable, crash, made, rfl, by decide +kernel, replay_complete reachable crash⟩

/-- The call of epoch 2 in the second log is lost, and epoch 2 is replayed: the first log notes the
wake-up in epoch 3 only. -/
theorem woken_log_lost : ∃ s left f, (machine 2).Reachable inOrder s ∧ Crash s left f ∧
    ¬ CompleteReplay s left f := by
  obtain ⟨s, reachable, view⟩ := (start_two inOrder).exists_run
    (quiescence ++ call 1 2 ++ [.checkEpoch] ++ call 0 4 ++ [.swap 0, .flush 0])
    (fun s => (s.log 0).disk = quiescent ++ [.epoch 3, .wake, .kv .replace 4 [97] []] ∧
      (s.log 1).disk = quiescent ∧ (s.log 1).made = [(1, .epoch 1), (1, .quiesce), (2, .epoch 2),
        (2, .wake), (2, .kv .replace 2 [97] [])])
    (by decide +kernel)
  obtain ⟨first, second, made⟩ := of_decide_eq_true view
  refine ⟨s, _, _, reachable, crash_two first second (by decide), fun complete => ?_⟩
  obtain ⟨kept, lost, split, file, bound⟩ := complete 1
  have length : kept.length = 2 := by
    rw [← List.length_map Prod.snd, file]
    rfl
  have gone : (2, .epoch 2) ∈ lost := by
    have rest : (s.log 1).made.drop 2 = lost := by rw [split, ← length, List.drop_left]
    rw [← rest, made]
    exact List.mem_cons_self
  have low := (bound _ gone).1
  revert low
  decide +kernel

end Incll.Proof.Replay
