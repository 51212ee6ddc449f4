import Incll.Proof.Replay.Bounds
import Incll.Proof.Replay.Order

/-! # Recovery leaves clean logs behind -/

namespace Incll.Proof.Replay
open Incll.Model Incll.Model.Logger Incll.Proof.Loginfo

/-- A log after a crash: complete records whose epochs do not decrease, and maybe a part of one
more. -/
structure Crashed (buf : List UInt8) (rs : List Record) : Prop where
  holds : Holds buf rs
  proper : ∀ r ∈ rs, Proper r
  positive : ∀ e, .epoch e ∈ rs → 0 < e
  sorted : Nondecreasing rs

/-- What the analysis of a log needs. -/
structure Readable (buf : List UInt8) (rs : List Record) : Prop where
  holds : Holds buf rs
  sized : ∀ r ∈ rs, Sized r
  sorted : Nondecreasing rs

theorem Crashed.readable {buf : List UInt8} {rs : List Record} (crashed : Crashed buf rs) :
    Readable buf rs :=
  ⟨crashed.holds, fun r member => (crashed.proper r member).sized, crashed.sorted⟩

theorem holds_nil {rs : List Record} (holds : Holds [] rs) : rs = [] := by
  obtain ⟨chunks, tail, stored, -, bytes⟩ := holds
  have length := length_le_flatten stored
  have empty := congrArg List.length bytes
  rw [List.length_append, List.length_nil] at empty
  exact List.length_eq_zero_iff.mp (by omega)

theorem holds_ne_nil {buf : List UInt8} {rs : List Record} (holds : Holds buf rs) (some : rs ≠ []) :
    buf ≠ [] := by
  rintro rfl
  exact some (holds_nil holds)

section
variable {n : Nat} {f : Recover.Found n} {rs : Fin n → List Record}
variable (readable : ∀ i, Readable (f.log i) (rs i))
include readable

theorem info_of {i : Fin n} (some : f.log i ≠ []) : Recover.info f i = infoOf (rs i) := by
  rw [Recover.info, if_neg some]
  exact info_holds (readable i).holds (readable i).sized

theorem last_of (i : Fin n) : (Recover.info f i).lastEpoch = lastEpoch 0 (rs i) := by
  by_cases empty : f.log i = []
  · have none := (readable i).holds
    rw [empty] at none
    rw [holds_nil none, Recover.info, if_pos empty]
    rfl
  · rw [info_of readable empty]
    exact info_last _ _

theorem wake_of {i : Fin n} {w : Nat} (member : (w, .wake) ∈ tagged 0 (rs i)) :
    w ≤ (Recover.info f i).wakeEpoch := by
  have some : f.log i ≠ [] := holds_ne_nil (readable i).holds (by rintro none; rw [none] at member; cases member)
  rw [info_of readable some]
  refine (info_wake (x := ⟨0, 0, 0, 0, true⟩) le_rfl ?_).2 w member
  exact List.pairwise_cons.mpr ⟨fun _ _ => Nat.zero_le _, (readable i).sorted⟩

omit readable in
theorem info_minPost (x : InfoType) (rs : List Record) :
    (rs.foldl noteRecord x).minPostQuiescentWakeEpoch = x.minPostQuiescentWakeEpoch := by
  induction rs generalizing x with
  | nil => rfl
  | cons r rs ih =>
      rw [List.foldl_cons, ih]
      cases r <;> rfl

omit readable in
theorem analyzed_same (f : Recover.Found n) (i : Fin n) :
    (Recover.analyzed f i).quiescent = (Recover.info f i).quiescent ∧
      (Recover.analyzed f i).lastEpoch = (Recover.info f i).lastEpoch := by
  rw [Recover.analyzed]
  split <;> exact ⟨rfl, rfl⟩

/-- The wake epochs that bound the replay. -/
theorem analyzed_wake (i : Fin n) :
    (Recover.analyzed f i).minPostQuiescentWakeEpoch =
      if f.log i ≠ [] ∧ Recover.replayMinQuiescentLastEpoch f ≠ 0 ∧
        Recover.replayMinQuiescentLastEpoch f ≤ (Recover.info f i).wakeEpoch then
        wakeOf (Recover.replayMinQuiescentLastEpoch f) 0 (rs i)
      else 0 := by
  rw [Recover.analyzed]
  split
  · exact minPostQuiescentWakeEpoch_holds (readable i).holds (readable i).sized
  · by_cases empty : f.log i = []
    · rw [Recover.info, if_pos empty]
    · rw [info_of readable empty]
      exact info_minPost _ _

end

/-! The second recovery. -/

theorem lastEpoch_pos {e : Nat} {rs : List Record} (member : .epoch e ∈ rs)
    (positive : ∀ e, .epoch e ∈ rs → 0 < e) : lastEpoch 0 rs ≠ 0 := by
  rw [lastEpoch_getLast]
  cases last : (rs.filterMap Record.epoch?).getLast? with
  | none =>
      rw [List.getLast?_eq_none_iff] at last
      have inside : e ∈ rs.filterMap Record.epoch? := List.mem_filterMap.mpr ⟨_, member, rfl⟩
      rw [last] at inside
      cases inside
  | some e' =>
      obtain ⟨r, inside, epoch⟩ := List.mem_filterMap.mp (List.mem_of_getLast? last)
      rw [eq_epoch epoch] at inside
      exact (positive e' inside).ne'

theorem Cleaned.sublist {min max : Nat} {rs ks : List Record} (cleaned : Cleaned min max rs ks) :
    ks.Sublist rs := by
  obtain ⟨before, after, rfl, -⟩ := cleaned
  exact (List.sublist_append_right before ks).trans (List.sublist_append_left _ after)

theorem Cleaned.tagged {min max : Nat} {rs ks : List Record} (cleaned : Cleaned min max rs ks)
    {x : Nat × Record} (member : x ∈ tagged 0 ks) : x ∈ tagged 0 rs := by
  obtain ⟨before, after, rfl, -, ⟨rfl, -⟩ | ⟨first, ks', rfl, -⟩⟩ := cleaned
  · cases member
  · rw [List.append_assoc, tagged_append, List.mem_append, tagged_append, List.mem_append]
    exact .inr (.inl member)

section
variable {n : Nat} {f : Recover.Found n} {rs ks : Fin n → List Record}
variable {log : Fin n → List UInt8} {stale : Fin n → Bool}
variable (crashed : ∀ i, Crashed (f.log i) (rs i))
variable (cleaned : ∀ i, Cleaned f.ckpMinEpoch (Recover.replayMaxEpoch f) (rs i) (ks i))
variable (crashed' : ∀ i, Crashed (log i) (ks i))
variable (complete : ∀ i, ks i = [] → log i = [])
variable (steady : ∀ i, (∀ r ∈ rs i, r.epoch? = none) → stale i = (Recover.info f i).quiescent)
include crashed cleaned crashed' complete steady

/-- The infos of a log that is found again. -/
theorem info_again (i : Fin n) :
    ((Recover.info { f with log := log, stale := stale } i).quiescent =
        (Recover.info f i).quiescent ∧
      (Recover.info { f with log := log, stale := stale } i).lastEpoch =
        (Recover.info f i).lastEpoch) ∨
    ((Recover.info { f with log := log, stale := stale } i).quiescent = false ∧
      (Recover.info f i).lastEpoch ≠ 0 ∧ Recover.replayMaxEpoch f ≤
        (Recover.info { f with log := log, stale := stale } i).lastEpoch) := by
  have readable (i : Fin n) := (crashed i).readable
  have readable' (i : Fin n) := (crashed' i).readable
  have last := last_of readable i
  have last' := last_of (f := { f with log := log, stale := stale }) readable' i
  obtain ⟨before, after, split, -, ⟨none, -, noEpoch⟩ | ⟨first, ks', begins, -, stop⟩⟩ := cleaned i
  · have zero : (Recover.info f i).lastEpoch = 0 := by
      rcases lastEpoch_cases 0 (rs i) with same | ⟨x, member, same⟩
      · rw [last, same]
      · rw [last, same, tagged_no_epoch noEpoch x member]
    refine .inl ⟨?_, ?_⟩
    · rw [← steady i noEpoch, Recover.info, if_pos (complete i none)]
    · rw [last', none, zero]
      rfl
  · have nonempty' : log i ≠ [] :=
      holds_ne_nil (crashed' i).holds (by rw [begins]; exact List.cons_ne_nil _ _)
    have nonempty : f.log i ≠ [] := by
      refine holds_ne_nil (crashed i).holds ?_
      rw [split, begins]
      simp
    rw [info_of (f := { f with log := log, stale := stale }) readable' nonempty',
      info_of readable nonempty] at *
    rcases stop with ⟨rfl, -⟩ | ⟨inner, e, ends, high, -⟩
    · obtain ⟨init, z, ends⟩ : ∃ init z, ks i = init ++ [z] :=
        ⟨_, _, (List.dropLast_append_getLast (by rw [begins]; exact List.cons_ne_nil _ _)).symm⟩
      refine .inl ⟨?_, ?_⟩
      · rw [split, ends, List.append_nil, ← List.append_assoc, infoOf, infoOf, info_quiescent,
          info_quiescent]
      · rw [last', last, split, List.append_nil, lastEpoch_append, begins]
        rfl
    · refine .inr ⟨?_, ?_, ?_⟩
      · rw [ends, infoOf, info_quiescent]
        rfl
      · rw [last]
        refine lastEpoch_pos (e := e) ?_ (crashed i).positive
        rw [split, ends]
        simp
      · rw [last', ends, lastEpoch_append]
        exact high

/-- The second bound is not below the first. -/
theorem replayMaxEpoch_again :
    Recover.replayMaxEpoch f ≤ Recover.replayMaxEpoch { f with log := log, stale := stale } := by
  let f' : Recover.Found n := { f with log := log, stale := stale }
  have again := info_again crashed cleaned crashed' complete steady
  have bound := lowers_le (Recover.maxEpoch f) (List.ofFn (Recover.analyzed f))
  have low (i : Fin n) := bound.2 (Recover.analyzed f i) (List.mem_ofFn.mpr ⟨i, rfl⟩)
  refine le_lowers ?_ ?_
  · -- some log is cut at or above the bound, or no last epoch has changed
    by_cases cut : ∃ i, Recover.replayMaxEpoch f ≤ (Recover.info f' i).lastEpoch
    · obtain ⟨i, high⟩ := cut
      refine high.trans ((largest_ge _ _).2 _ ?_)
      exact List.mem_map.mpr ⟨_, List.mem_ofFn.mpr ⟨i, rfl⟩, rfl⟩
    · refine bound.1.trans (largest_le (largest_ge _ _).1 ?_)
      intro x member
      obtain ⟨y, listed, rfl⟩ := List.mem_map.mp member
      obtain ⟨i, rfl⟩ := List.mem_ofFn.mp listed
      rcases again i with ⟨-, last⟩ | ⟨-, -, high⟩
      · rw [← last]
        exact (largest_ge _ _).2 _ (List.mem_map.mpr ⟨_, List.mem_ofFn.mpr ⟨i, rfl⟩, rfl⟩)
      · exact absurd ⟨i, high⟩ cut
  · intro x member
    obtain ⟨i, rfl⟩ := List.mem_ofFn.mp member
    refine ⟨?_, ?_⟩
    · intro active some
      rw [(analyzed_same f' i).1] at active
      rw [(analyzed_same f' i).2] at some ⊢
      rcases again i with ⟨quiescent, last⟩ | ⟨-, -, high⟩
      · rw [last] at some ⊢
        rw [quiescent] at active
        rw [← (analyzed_same f i).2] at some ⊢
        exact (low i).1 ((analyzed_same f i).1.trans active) some
      · exact high
    · intro some
      rw [analyzed_wake (f := f') (fun i => (crashed' i).readable) i] at some ⊢
      split at some
      · next missed =>
          rw [if_pos missed]
          obtain ⟨member, late⟩ := wakeOf_mem some
          have before := (cleaned i).tagged member
          have least : Recover.replayMinQuiescentLastEpoch f' = Recover.minQuiescentLastEpoch f' := by
            have ne := missed.2.1
            rw [Recover.replayMinQuiescentLastEpoch] at ne ⊢
            split
            · rfl
            · next other => rw [if_neg other] at ne; exact absurd rfl ne
          have follows : List.Forall₂ Follows (Recover.infos f) (Recover.infos f') := by
            rw [Recover.infos, Recover.infos, List.ofFn_eq_map, List.ofFn_eq_map,
              List.forall₂_map_left_iff, List.forall₂_map_right_iff]
            refine List.forall₂_same.mpr fun j _ => ?_
            rcases again j with same | ⟨active, some, -⟩
            · exact .inl same
            · exact .inr ⟨active, some⟩
          -- the wake record was there at the first recovery, and so was the quiescent log
          have seen : Recover.minQuiescentLastEpoch f' ≠ 0 := by
            rw [← least]
            exact missed.2.1
          obtain ⟨ne, le⟩ := (minQuiescent_le follows (.inl rfl)).resolve_left seen
          change Recover.minQuiescentLastEpoch f ≠ 0 at ne
          change Recover.minQuiescentLastEpoch f ≤ Recover.minQuiescentLastEpoch f' at le
          have early : Recover.minQuiescentLastEpoch f ≤
              wakeOf (Recover.replayMinQuiescentLastEpoch f') 0 (ks i) := by
            rw [least] at late ⊢
            exact le.trans late
          have readable (i : Fin n) := (crashed i).readable
          have wake := wake_of readable before
          have most : (Recover.info f i).wakeEpoch ≤ Recover.maxWakeEpoch f :=
            (largest_ge _ _).2 _ (List.mem_map.mpr ⟨_, List.mem_ofFn.mpr ⟨i, rfl⟩, rfl⟩)
          have chosen : Recover.replayMinQuiescentLastEpoch f = Recover.minQuiescentLastEpoch f :=
            if_pos (by omega)
          have held : f.log i ≠ [] := by
            refine holds_ne_nil (crashed i).holds fun none => ?_
            rw [none] at before
            cases before
          have first := wakeOf_le (q := Recover.minQuiescentLastEpoch f)
            (List.pairwise_cons.mpr ⟨fun _ _ => Nat.zero_le _, (crashed i).sorted⟩) before
            (Nat.pos_of_ne_zero some) early
          have value := analyzed_wake readable i
          rw [if_pos ⟨held, by rw [chosen]; exact ne, by rw [chosen]; omega⟩, chosen] at value
          have stop := (low i).2 (by rw [value]; exact first.1)
          rw [value] at stop
          exact stop.trans first.2
      · exact absurd rfl some

end

/-! The logs that recovery leaves behind. -/

/-- A log of complete records, without data from `max` on and with epochs up to `epoch`. -/
structure CleanLog (max epoch : Nat) (buf : List UInt8) : Prop where
  complete : ∀ lr ∈ Logrecord.extractAll buf, lr.command ≠ Logcmd.none
  data : ∀ lr ∈ Logrecord.extractAll buf, Logreplay.isData lr → lr.epoch.toNat < max
  sorted : ((Logrecord.extractAll buf).map (·.epoch.toNat)).Pairwise (· ≤ ·)
  bound : ∀ lr ∈ Logrecord.extractAll buf, lr.command = Logcmd.epoch → lr.epoch.toNat ≤ epoch

/-- The records as they are read, with their epochs. -/
theorem readAll_tagged {rs : List Record} (lr : Logrecord) (proper : ∀ r ∈ rs, Proper r) :
    (readAll lr rs).map (fun lr => (lr.epoch.toNat, lr.command, Logreplay.isData lr)) =
      (tagged lr.epoch.toNat rs).map fun x => (x.1, code x.2, x.2.key?.isSome) := by
  induction rs generalizing lr with
  | nil => rfl
  | cons r rs ih =>
      have epoch := read_epoch lr (proper r (by simp))
      rw [readAll, tagged, List.map_cons, List.map_cons, ih _ fun q member => proper q (by simp [member]),
        epoch, read_command, isData_iff]

theorem epoch_mem_tagged {e : Nat} {rs : List Record} (member : .epoch e ∈ rs) (cur : Nat) :
    (e, .epoch e) ∈ tagged cur rs := by
  induction rs generalizing cur with
  | nil => cases member
  | cons r rs ih =>
      rcases List.mem_cons.mp member with rfl | member
      · exact List.mem_cons_self
      · exact List.mem_cons_of_mem _ (ih member _)

theorem extractAll_stored {ks : List Record} {chunks : List (List UInt8)}
    (stored : List.Forall₂ Stored ks chunks) (proper : ∀ r ∈ ks, Proper r) :
    Logrecord.extractAll chunks.flatten = readAll .make ks :=
  extracts_short stored (fun r member => (proper r member).size) (length_le_flatten stored)
    fun r member => (proper r member).short

/-- What stays of a log is clean if and only if the log is cut at an epoch that is not beyond the
new one. -/
theorem cleanLog_iff {min max epoch : Nat} {rs ks : List Record} {chunks : List (List UInt8)}
    (stored : List.Forall₂ Stored ks chunks) (proper : ∀ r ∈ ks, Proper r)
    (sorted : Nondecreasing ks) (cleaned : Cleaned min max rs ks) (le : max ≤ epoch) :
    CleanLog max epoch chunks.flatten ↔ ∀ e, firstFrom max rs = some e → e ≤ epoch := by
  have read := extractAll_stored stored proper
  have tags := readAll_tagged .make proper
  change _ = (tagged 0 ks).map _ at tags
  obtain ⟨below, kept⟩ := cleaned.epochs
  have tagOf {lr : Logrecord} (member : lr ∈ readAll .make ks) : ∃ x ∈ tagged 0 ks,
      x.1 = lr.epoch.toNat ∧ code x.2 = lr.command ∧ x.2.key?.isSome = Logreplay.isData lr := by
    have view := List.mem_map_of_mem (f := fun lr : Logrecord =>
      (lr.epoch.toNat, lr.command, Logreplay.isData lr)) member
    rw [tags] at view
    obtain ⟨x, inside, same⟩ := List.mem_map.mp view
    simp only [Prod.mk.injEq] at same
    exact ⟨x, inside, same⟩
  constructor
  · intro clean e first
    have inside := List.mem_map_of_mem (f := fun x : Nat × Record =>
      (x.1, code x.2, x.2.key?.isSome)) (epoch_mem_tagged (kept e first) 0)
    rw [← tags, ← read] at inside
    obtain ⟨lr, member, same⟩ := List.mem_map.mp inside
    simp only [Prod.mk.injEq] at same
    rw [← same.1]
    exact clean.bound lr member same.2.1
  · intro within
    refine ⟨?_, ?_, ?_, ?_⟩
    · rw [read]
      exact fun lr member => readAll_ne_none member
    · rw [read]
      intro lr member data
      obtain ⟨x, inside, epoch, -, isData⟩ := tagOf member
      rw [← epoch]
      exact cleaned.data_below inside (isData.trans data)
    · have epochs := congrArg (List.map Prod.fst) tags
      simp only [List.map_map] at epochs
      rw [read]
      refine (show (readAll .make ks).map (·.epoch.toNat) = (tagged 0 ks).map Prod.fst from epochs) ▸ ?_
      exact List.pairwise_map.mpr sorted.tagged
    · rw [read]
      intro lr member command
      obtain ⟨x, inside, epoch, isEpoch, -⟩ := tagOf member
      rw [command, code_epoch] at isEpoch
      obtain ⟨e, isEpoch⟩ := Option.isSome_iff_exists.mp isEpoch
      have same := epoch_tagged inside isEpoch
      rw [← epoch, ← same]
      have held : .epoch e ∈ ks := by
        have record := List.mem_map_of_mem (f := Prod.snd) inside
        rwa [map_tagged, eq_epoch isEpoch] at record
      rcases below e held with low | first
      · omega
      · exact within e first

section
variable {n : Nat} {f : Recover.Found n} {rs : Fin n → List Record} {r : Recover.Recovered n}

/-- What `recover` has done if it has returned. -/
theorem recover_cases (crashed : ∀ i, Crashed (f.log i) (rs i)) (recovered : Recover.recover f = some r) :
    Recover.checks f = true ∧ r.globalLogEpoch = Recover.replayMaxEpoch f + 1 ∧
      ∀ i, ∃ ks chunks, keep f.ckpMinEpoch (Recover.replayMaxEpoch f) .make none [] (rs i) =
        some (ks, r.run i) ∧ List.Forall₂ Stored ks chunks ∧ r.log i = chunks.flatten := by
  rw [Recover.recover] at recovered
  split at recovered
  · next done =>
      cases recovered
      refine ⟨done.1, rfl, fun i => ?_⟩
      have result := replayandclean1_holds f.ckpMinEpoch (Recover.replayMaxEpoch f)
        (crashed i).holds (crashed i).proper
      have some := done.2 i
      split at result
      · rw [Recover.replayed, result] at some
        cases some
      · next ks run kept =>
          obtain ⟨chunks, stored, value⟩ := result
          refine ⟨ks, chunks, ?_, stored, ?_⟩
          · simp only [Recover.replayed, value, Option.get_some, kept]
          · simp only [Recover.replayed, value, Option.get_some]
  · cases recovered

/-- A log that begins with an epoch record below the checkpoint is replayed. -/
theorem keep_some {min max : Nat} {lr : Logrecord} {kept : Option (List Record)}
    {run : List Logrecord} {rs : List Record} (some : kept ≠ none) :
    (keep min max lr kept run rs).isSome := by
  induction rs generalizing lr kept run with
  | nil => rfl
  | cons r rs ih =>
      have more : keepFrom min kept r ≠ none := by
        rw [keepFrom]
        split
        · split
          · exact Option.some_ne_none _
          · exact some
        · exact some
      have next : (keepFrom min kept r).map (· ++ [r]) ≠ none := by simpa using more
      rw [keep]
      split
      · simpa [Option.isSome_iff_ne_none] using more
      · split
        · exact ih next
        · exact ih next

theorem keep_again {min max : Nat} {rs ks : List Record} (cleaned : Cleaned min max rs ks)
    (max' : Nat) : (keep min max' .make none [] ks).isSome := by
  obtain ⟨-, -, -, -, ⟨rfl, -⟩ | ⟨first, ks', rfl, low, -⟩⟩ := cleaned
  · rfl
  · have begins : keepFrom min none (.epoch first) = some [] := by
      refine if_pos ?_
      by_cases zero : min = 0
      · exact .inr ⟨zero, rfl⟩
      · exact .inl ⟨zero, low zero⟩
    rw [keep]
    simp only [begins]
    split
    · rfl
    · split
      · exact keep_some (by simp)
      · exact keep_some (by simp)

/-- Logs that do the same to the table rebuild the same tables. -/
theorem rebuilds_same {Row Change : Type} {rowType : RowType Row Change}
    {run run' : Fin n → List Logrecord} {table table' : List UInt8 → Value Row}
    (same : ∀ i, (run i).map (Logrecord.run rowType) = (run' i).map (Logrecord.run rowType))
    (rebuilds : Recover.Rebuilds rowType run table table') :
    Recover.Rebuilds rowType run' table table' := by
  induction rebuilds generalizing run' with
  | done empty =>
      refine .done fun i => ?_
      have none := same i
      rw [empty i] at none
      exact List.map_eq_nil_iff.mp none.symm
  | next i lr rest first _ ih =>
      have here := same i
      rw [first, List.map_cons] at here
      obtain ⟨lr', rest', first', run, more⟩ := List.map_eq_cons_iff.mp here.symm
      refine .next i lr' rest' first' ?_
      rw [run]
      refine ih fun j => ?_
      by_cases other : j = i
      · subst other
        rw [Function.update_self, Function.update_self]
        exact more.symm
      · rw [Function.update_of_ne other, Function.update_of_ne other]
        exact same j

/-- A second recovery, with the flags that it finds, rebuilds the same tables. -/
def RebuildsAgain {Row Change : Type} (rowType : RowType Row Change) (f : Recover.Found n)
    (r : Recover.Recovered n) (stale : Fin n → Bool) : Prop :=
  ∃ r', Recover.recover { f with log := r.log, stale := stale } = some r' ∧
    ∀ table table', Recover.Rebuilds rowType r'.run table table' ↔
      Recover.Rebuilds rowType r.run table table'

theorem crashed_again {buf : List UInt8} {rs ks : List Record} {min max : Nat}
    {chunks : List (List UInt8)} (crashed : Crashed buf rs) (cleaned : Cleaned min max rs ks)
    (stored : List.Forall₂ Stored ks chunks) : Crashed chunks.flatten ks := by
  have part := cleaned.sublist
  refine ⟨holds_complete stored, ?_, ?_, ?_⟩
  · exact fun r member => crashed.proper r (part.subset member)
  · exact fun e member => crashed.positive e (part.subset member)
  · exact crashed.sorted.sublist (part.filterMap _)

/-- In the logs that stay, each first epoch is below the checkpoint. -/
theorem checks_again {ks : Fin n → List Record} {log : Fin n → List UInt8} {stale : Fin n → Bool}
    (checks : Recover.checks f = true)
    (cleaned : ∀ i, Cleaned f.ckpMinEpoch (Recover.replayMaxEpoch f) (rs i) (ks i))
    (crashed' : ∀ i, Crashed (log i) (ks i))
    (le : Recover.replayMaxEpoch f ≤ Recover.replayMaxEpoch { f with log := log, stale := stale }) :
    Recover.checks { f with log := log, stale := stale } = true := by
  simp only [Recover.checks, decide_eq_true_eq] at checks ⊢
  rcases checks with none | ⟨first, low, high⟩
  · exact .inl none
  · refine .inr ⟨?_, low.trans_le le, high.trans_le le⟩
    have some : f.ckpMinEpoch ≠ 0 := by omega
    refine Nat.lt_of_le_pred (Nat.pos_of_ne_zero some) (largest_le (Nat.zero_le _) ?_)
    intro x member
    obtain ⟨y, listed, rfl⟩ := List.mem_map.mp member
    obtain ⟨i, rfl⟩ := List.mem_ofFn.mp listed
    by_cases empty : log i = []
    · rw [Recover.info, if_pos empty]
      exact Nat.zero_le _
    · rw [info_of (f := { f with log := log, stale := stale }) (fun i => (crashed' i).readable) empty]
      obtain ⟨-, -, -, -, ⟨none, -⟩ | ⟨e, ks', begins, below, -⟩⟩ := cleaned i
      · rw [none]
        exact Nat.zero_le _
      · have pos := (crashed' i).positive e (by rw [begins]; simp)
        rw [begins, infoOf, List.foldl_cons, info_first_kept ks' pos.ne']
        exact Nat.le_pred_of_lt (below some)

/-- After recovery every log is clean, and a second recovery that finds the same flags rebuilds the
same tables, if and only if no log is cut at an epoch beyond the new one. -/
theorem recovery_clean_iff {Row Change : Type} (rowType : RowType Row Change)
    (crashed : ∀ i, Crashed (f.log i) (rs i)) (recovered : Recover.recover f = some r)
    {stale : Fin n → Bool}
    (steady : ∀ i, (∀ x ∈ rs i, x.epoch? = none) → stale i = (Recover.info f i).quiescent) :
    ((∀ i, CleanLog (Recover.replayMaxEpoch f) r.globalLogEpoch (r.log i)) ∧
        RebuildsAgain rowType f r stale) ↔
      ∀ i e, ((rs i).filterMap Record.epoch?).find? (Recover.replayMaxEpoch f ≤ ·) = some e →
        e ≤ Recover.replayMaxEpoch f + 1 := by
  obtain ⟨checks, epoch, logs⟩ := recover_cases crashed recovered
  choose ks chunks kept stored bytes using logs
  have cleaned (i : Fin n) :
      Cleaned f.ckpMinEpoch (Recover.replayMaxEpoch f) (rs i) (ks i) :=
    keep_clean (crashed i).proper (crashed i).sorted (crashed i).positive (kept i)
  have crashed' (i : Fin n) : Crashed (r.log i) (ks i) := by
    rw [bytes i]
    exact crashed_again (crashed i) (cleaned i) (stored i)
  have clean (i : Fin n) : CleanLog (Recover.replayMaxEpoch f) r.globalLogEpoch (r.log i) ↔
      ∀ e, firstFrom (Recover.replayMaxEpoch f) (rs i) = some e →
        e ≤ Recover.replayMaxEpoch f + 1 := by
    rw [bytes i, epoch]
    exact cleanLog_iff (stored i) (crashed' i).proper (crashed' i).sorted (cleaned i) (Nat.le_succ _)
  refine ⟨fun after i => (clean i).mp (after.1 i), fun within => ⟨fun i => (clean i).mpr (within i), ?_⟩⟩
  have complete (i : Fin n) (none : ks i = []) : r.log i = [] := by
    have shape := stored i
    rw [none] at shape
    rw [bytes i, List.forall₂_nil_left_iff.mp shape]
    rfl
  have le := replayMaxEpoch_again crashed cleaned crashed' complete steady
  have again : (Recover.recover { f with log := r.log, stale := stale }).isSome := by
    rw [Recover.recover, dif_pos]
    · rfl
    · refine ⟨checks_again checks cleaned crashed' le, fun i => ?_⟩
      have result := replayandclean1_holds f.ckpMinEpoch
        (Recover.replayMaxEpoch { f with log := r.log, stale := stale })
        (crashed' i).holds (crashed' i).proper
      have some := keep_again (cleaned i)
        (Recover.replayMaxEpoch { f with log := r.log, stale := stale })
      split at result
      · next none =>
          rw [none] at some
          cases some
      · obtain ⟨chunks, -, value⟩ := result
        rw [Recover.replayed, value]
        rfl
  obtain ⟨r', recovered'⟩ := Option.isSome_iff_exists.mp again
  refine ⟨r', recovered', ?_⟩
  obtain ⟨-, -, logs'⟩ := recover_cases crashed' recovered'
  have same (i : Fin n) : (r'.run i).map (Logrecord.run rowType) =
      (r.run i).map (Logrecord.run rowType) := by
    obtain ⟨ks', chunks', kept', -⟩ := logs' i
    rw [keep_run rowType (crashed' i).proper kept', keep_run rowType (crashed i).proper (kept i)]
    exact congrArg _ (congrArg _ ((cleaned i).ran_eq le))
  intro table table'
  exact ⟨rebuilds_same same, rebuilds_same fun i => (same i).symm⟩

end

/-! Two logs with a gap. -/

/-- The bytes of records that were stored into a buffer of zeros. -/
def chunkOf (r : Record) : List UInt8 :=
  r.bytes ++ List.replicate (if r.key?.isSome then 4 else 0) 0

theorem holds_chunks (rs : List Record) : Holds (rs.map chunkOf).flatten rs := by
  refine holds_complete (List.forall₂_map_right_iff.mpr (List.forall₂_same.mpr fun r _ => ⟨?_, ?_⟩))
  · rw [chunkOf, List.length_append, List.length_replicate, length_bytes]
  · exact List.prefix_append _ _

theorem crashed_chunks {rs : List Record} (proper : ∀ r ∈ rs, Proper r)
    (positive : ∀ e, .epoch e ∈ rs → 0 < e) (sorted : Nondecreasing rs) :
    Crashed (rs.map chunkOf).flatten rs :=
  ⟨holds_chunks rs, proper, positive, sorted⟩

/-- A log with one record in epoch 1, and nothing in epoch `e`. -/
def shortLog (e : Nat) : List Record := [.epoch 1, .kv .put 2 [97] [], .epoch e]

theorem crashed_short {e : Nat} (low : 1 ≤ e) (word : e < 256 ^ 8) :
    Crashed ((shortLog e).map chunkOf).flatten (shortLog e) := by
  have dated {e : Nat} (word : e < 256 ^ 8) : Proper (.epoch e) :=
    ⟨(by decide : 16 < 256 ^ 4), by rintro _ ⟨⟩; exact word, nofun⟩
  have data : Proper (.kv .put 2 [97] []) := ⟨by decide, nofun, by rintro _ ⟨⟩; decide⟩
  refine crashed_chunks ?_ ?_ ?_
  · intro r member
    rw [shortLog, List.mem_cons, List.mem_cons, List.mem_singleton] at member
    rcases member with rfl | rfl | rfl
    · exact dated (by decide)
    · exact data
    · exact dated word
  · intro e' member
    simp [shortLog] at member
    omega
  · show [1, e].Pairwise (· ≤ ·)
    simpa using low

def foundTwo (e : Nat) : Recover.Found 2 where
  ckpMinEpoch := 0
  ckpMaxEpoch := 0
  log i := ((shortLog (if i = 0 then 2 else e)).map chunkOf).flatten
  stale _ := false

theorem crashed_two {e : Nat} (low : 1 ≤ e) (word : e < 256 ^ 8) (i : Fin 2) :
    Crashed ((foundTwo e).log i) (shortLog (if i = 0 then 2 else e)) := by
  refine crashed_short ?_ ?_
  · split <;> omega
  · split <;> omega

theorem recovery_clean_iff_small_gap : ∃ (f : Recover.Found 2) (rs : Fin 2 → List Record)
    (r : Recover.Recovered 2), (∀ i, Crashed (f.log i) (rs i)) ∧ Recover.recover f = some r ∧
      (∀ i, CleanLog (Recover.replayMaxEpoch f) r.globalLogEpoch (r.log i)) ∧
      RebuildsAgain appended f r fun _ => true := by
  have crashed := crashed_two (e := 3) (by decide) (by decide)
  obtain ⟨r, recovered⟩ := Option.isSome_iff_exists.mp
    (by decide +kernel : (Recover.recover (foundTwo 3)).isSome = true)
  have bound : Recover.replayMaxEpoch (foundTwo 3) = 2 := by decide +kernel
  have steady (i : Fin 2) (none : ∀ x ∈ shortLog (if i = 0 then 2 else 3), x.epoch? = none) :
      true = (Recover.info (foundTwo 3) i).quiescent :=
    absurd (none (.epoch 1) (by simp [shortLog])) (by decide)
  refine ⟨_, _, r, crashed, recovered, (recovery_clean_iff appended crashed recovered steady).mpr ?_⟩
  rw [bound]
  intro i e first
  fin_cases i <;> cases first <;> decide

/-- The second log is cut at epoch 9, and the new epoch is 3. -/
theorem cut_beyond_epoch : ∃ (f : Recover.Found 2) (rs : Fin 2 → List Record)
    (r : Recover.Recovered 2), (∀ i, Crashed (f.log i) (rs i)) ∧ Recover.recover f = some r ∧
      ¬ ∀ i, CleanLog (Recover.replayMaxEpoch f) r.globalLogEpoch (r.log i) := by
  have crashed := crashed_two (e := 9) (by decide) (by decide)
  obtain ⟨r, recovered⟩ := Option.isSome_iff_exists.mp
    (by decide +kernel : (Recover.recover (foundTwo 9)).isSome = true)
  refine ⟨_, _, r, crashed, recovered, fun clean => ?_⟩
  have bound : Recover.replayMaxEpoch (foundTwo 9) = 2 := by decide +kernel
  obtain ⟨-, epoch, logs⟩ := recover_cases crashed recovered
  obtain ⟨ks, chunks, kept, stored, bytes⟩ := logs 1
  have cleaned := keep_clean (crashed 1).proper (crashed 1).sorted (crashed 1).positive kept
  have again := crashed_again (crashed 1) cleaned stored
  have second := clean 1
  rw [bytes, epoch, cleanLog_iff stored again.proper again.sorted cleaned (Nat.le_succ _), bound] at second
  exact absurd (second 9 rfl) (by decide)

end Incll.Proof.Replay
