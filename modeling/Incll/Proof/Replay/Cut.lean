import Incll.Proof.Loginfo.Epochs
import Incll.Proof.Replay.Files

/-! # The logs after recovery -/

namespace Incll.Proof.Replay
open Incll.Model Incll.Model.Logger Incll.Proof.Loginfo

/-! What stays of a log. -/

/-- `ks` is what stays of `rs`: it begins with an epoch record, and it ends with the first one at or
above `max` if there is one. -/
def Cleaned (min max : Nat) (rs ks : List Record) : Prop :=
  ∃ before after, rs = before ++ ks ++ after ∧ (∀ x ∈ tagged 0 before, x.1 = 0 ∨ x.1 < min) ∧
    ((ks = [] ∧ after = [] ∧ ∀ r ∈ rs, r.epoch? = none) ∨
      ∃ first ks', ks = .epoch first :: ks' ∧ (min ≠ 0 → first < min) ∧
        ((after = [] ∧ ∀ r ∈ rs, cuts max r = false) ∨
          ∃ inner e, ks = inner ++ [.epoch e] ∧ max ≤ e ∧
            ∀ r ∈ before ++ inner, cuts max r = false))

/-- The loop of `keep` behind the records `done`. -/
structure Keeping (min max : Nat) (done : List Record) (kept : Option (List Record)) : Prop where
  uncut : ∀ r ∈ done, cuts max r = false
  absent : kept = none → ∀ r ∈ done, r.epoch? = none
  present : ∀ ks, kept = some ks → ∃ before first ks', done = before ++ ks ∧
    ks = .epoch first :: ks' ∧ (min ≠ 0 → first < min) ∧
    ∀ x ∈ tagged 0 before, x.1 = 0 ∨ x.1 < min

/-- The epochs of the epoch records do not decrease. -/
def Nondecreasing (rs : List Record) : Prop := (rs.filterMap Record.epoch?).Pairwise (· ≤ ·)

theorem tagged_sorted {e : Nat} {rs : List Record}
    (sorted : (e :: rs.filterMap Record.epoch?).Pairwise (· ≤ ·)) :
    (tagged e rs).Pairwise (fun x y => x.1 ≤ y.1) ∧ ∀ x ∈ tagged e rs, e ≤ x.1 := by
  induction rs generalizing e with
  | nil => exact ⟨List.Pairwise.nil, nofun⟩
  | cons r rs ih =>
      have next : (r.epochAfter e :: rs.filterMap Record.epoch?).Pairwise (· ≤ ·) ∧
          e ≤ r.epochAfter e := by
        cases epoch : r.epoch? with
        | none =>
            rw [List.filterMap_cons_none epoch] at sorted
            simpa [Record.epochAfter, epoch] using sorted
        | some e' =>
            rw [List.filterMap_cons_some epoch] at sorted
            obtain ⟨low, rest⟩ := List.pairwise_cons.mp sorted
            rw [Record.epochAfter, epoch, Option.getD_some]
            exact ⟨rest, low e' (by simp)⟩
      obtain ⟨pairs, above⟩ := ih next.1
      refine ⟨List.pairwise_cons.mpr ⟨above, pairs⟩, ?_⟩
      intro x member
      rcases List.mem_cons.mp member with rfl | member
      · exact next.2
      · exact next.2.trans (above x member)

theorem Nondecreasing.tagged {rs : List Record} (sorted : Nondecreasing rs) :
    (tagged 0 rs).Pairwise fun x y => x.1 ≤ y.1 :=
  (tagged_sorted (List.pairwise_cons.mpr ⟨fun _ _ => Nat.zero_le _, sorted⟩)).1

/-- What comes before an epoch record has no larger epoch. -/
theorem before_epoch {done rest : List Record} {e : Nat}
    (sorted : Nondecreasing (done ++ .epoch e :: rest)) : ∀ x ∈ tagged 0 done, x.1 ≤ e := by
  have pairs := sorted.tagged
  rw [tagged_append, List.pairwise_append] at pairs
  exact fun x member => pairs.2.2 x member (e, .epoch e) List.mem_cons_self

theorem tagged_no_epoch {e : Nat} {rs : List Record} (none : ∀ r ∈ rs, r.epoch? = none) :
    ∀ x ∈ tagged e rs, x.1 = e := by
  rw [tagged_allOf fun r member e' epoch => by rw [none r member] at epoch; cases epoch]
  intro x member
  obtain ⟨r, -, rfl⟩ := List.mem_map.mp member
  rfl

theorem eq_epoch {r : Record} {e : Nat} (epoch : r.epoch? = some e) : r = .epoch e := by
  cases r <;> cases epoch
  rfl

section
variable {min max : Nat} {done rs ks : List Record} {r : Record} {kept : Option (List Record)}

/-- The part that stays begins with an epoch record, maybe with `r`. -/
theorem Keeping.begins (keeping : Keeping min max done kept)
    (sorted : Nondecreasing (done ++ r :: rs)) (start : keepFrom min kept r = some ks) :
    ∃ before first ks', done = before ++ ks ∧ ks ++ [r] = .epoch first :: ks' ∧
      (min ≠ 0 → first < min) ∧ ∀ x ∈ tagged 0 before, x.1 = 0 ∨ x.1 < min := by
  have old (same : kept = some ks) : ∃ before first ks', done = before ++ ks ∧
      ks ++ [r] = .epoch first :: ks' ∧ (min ≠ 0 → first < min) ∧
      ∀ x ∈ tagged 0 before, x.1 = 0 ∨ x.1 < min := by
    obtain ⟨before, first, ks', split, rfl, low, tags⟩ := keeping.present ks same
    exact ⟨before, first, ks' ++ [r], split, rfl, low, tags⟩
  cases epoch : r.epoch? with
  | none =>
      simp only [keepFrom, epoch] at start
      exact old start
  | some e =>
      simp only [keepFrom, epoch] at start
      split at start
      · next fresh =>
          cases start
          have here := eq_epoch epoch
          subst here
          refine ⟨done, e, [], (List.append_nil _).symm, rfl, ?_, ?_⟩
          · intro some
            exact (fresh.resolve_right fun absent => some absent.1).2
          · rcases fresh with ⟨some, low⟩ | ⟨-, absent⟩
            · exact fun x member => .inr ((before_epoch sorted x member).trans_lt low)
            · exact fun x member => .inl (tagged_no_epoch (keeping.absent absent) x member)
      · exact old start

theorem Keeping.next (keeping : Keeping min max done kept)
    (sorted : Nondecreasing (done ++ r :: rs)) (uncut : cuts max r = false)
    (absent : keepFrom min kept r = none → kept = none ∧ r.epoch? = none) :
    Keeping min max (done ++ [r]) ((keepFrom min kept r).map (· ++ [r])) := by
  refine ⟨?_, ?_, ?_⟩
  · intro q member
    rcases List.mem_append.mp member with old | new
    · exact keeping.uncut q old
    · rw [List.mem_singleton.mp new]
      exact uncut
  · intro none q member
    obtain ⟨before, here⟩ := absent (Option.map_eq_none_iff.mp none)
    rcases List.mem_append.mp member with old | new
    · exact keeping.absent before q old
    · rw [List.mem_singleton.mp new]
      exact here
  · intro ks extended
    obtain ⟨ks, start, rfl⟩ := Option.map_eq_some_iff.mp extended
    obtain ⟨before, first, ks', split, begins, low, tags⟩ := keeping.begins sorted start
    exact ⟨before, first, ks', by rw [split, List.append_assoc], begins, low, tags⟩

/-- No epoch record goes by before the part that stays begins. -/
theorem keepFrom_none {e : Nat} (positive : ∀ e, r = .epoch e → 0 < e)
    (early : r.epochAfter e = 0 ∨ (min ≠ 0 ∧ r.epochAfter e < min))
    (absent : keepFrom min kept r = none) : kept = none ∧ r.epoch? = none := by
  cases epoch : r.epoch? with
  | none =>
      simp only [keepFrom, epoch] at absent
      exact ⟨absent, rfl⟩
  | some e' =>
      simp only [keepFrom, epoch] at absent
      split at absent
      · cases absent
      · next late =>
          have pos := positive e' (eq_epoch epoch)
          rw [Record.epochAfter, epoch, Option.getD_some] at early
          rcases early with zero | low
          · omega
          · exact absurd (.inl low) late

end

theorem keep_cleaned {min max : Nat} {rs done : List Record} {lr : Logrecord}
    {kept : Option (List Record)} {run run' : List Logrecord} {ks : List Record}
    (proper : ∀ r ∈ rs, Proper r) (sorted : Nondecreasing (done ++ rs))
    (positive : ∀ e, .epoch e ∈ rs → 0 < e) (keeping : Keeping min max done kept)
    (result : keep min max lr kept run rs = some (ks, run')) : Cleaned min max (done ++ rs) ks := by
  induction rs generalizing done lr kept run with
  | nil =>
      rw [List.append_nil]
      cases result
      cases start : kept with
      | none =>
          have none := keeping.absent start
          exact ⟨done, [], by simp, fun x member => .inl (tagged_no_epoch none x member),
            .inl ⟨rfl, rfl, none⟩⟩
      | some ks =>
          obtain ⟨before, first, ks', rfl, begins, low, tags⟩ := keeping.present ks start
          exact ⟨before, [], by simp, tags,
            .inr ⟨first, ks', begins, low, .inl ⟨rfl, keeping.uncut⟩⟩⟩
  | cons r rs ih =>
      have along : done ++ r :: rs = done ++ [r] ++ rs := by simp
      rw [keep] at result
      split at result
      · next reached =>
          obtain ⟨ks, start, same⟩ := Option.map_eq_some_iff.mp result
          cases same
          obtain ⟨before, first, ks', rfl, begins, low, tags⟩ := keeping.begins sorted start
          obtain ⟨e, epoch, high⟩ := (Option.any_eq_true _ _).mp reached
          have here := eq_epoch epoch
          subst here
          exact ⟨before, rs, by simp, tags, .inr ⟨first, ks', begins, low,
            .inr ⟨ks, e, rfl, of_decide_eq_true high, keeping.uncut⟩⟩⟩
      · next under =>
          have uncut : cuts max r = false := by simpa using under
          have rest {lr : Logrecord} {run : List Logrecord}
              (next : Keeping min max (done ++ [r]) ((keepFrom min kept r).map (· ++ [r])))
              (result : keep min max lr ((keepFrom min kept r).map (· ++ [r])) run rs =
                some (ks, run')) : Cleaned min max (done ++ [r] ++ rs) ks :=
            ih (fun q member => proper q (by simp [member])) (along ▸ sorted)
              (fun e member => positive e (by simp [member])) next result
          rw [read_epoch lr (proper r (by simp))] at result
          rw [along]
          split at result
          · next early =>
              refine rest (keeping.next sorted uncut (keepFrom_none ?_ early)) result
              rintro e rfl
              exact positive e (by simp)
          · split at result
            · cases result
            · next some => exact rest (keeping.next sorted uncut fun none => absurd none some) result

/-- What stays of a whole log. -/
theorem keep_clean {min max : Nat} {rs ks : List Record} {run : List Logrecord}
    (proper : ∀ r ∈ rs, Proper r) (sorted : Nondecreasing rs)
    (positive : ∀ e, .epoch e ∈ rs → 0 < e)
    (result : keep min max .make none [] rs = some (ks, run)) : Cleaned min max rs ks := by
  have start : Keeping min max [] none := ⟨nofun, fun _ => nofun, nofun⟩
  rw [← List.nil_append rs]
  exact keep_cleaned proper sorted positive start result

/-! The records that are run. -/

/-- A data record with a key. -/
def hasKey (r : Record) : Bool := r.key?.any (· ≠ [])

/-- The records of the epochs from `min` on that come before the cut. -/
def ran (min max : Nat) : Nat → List Record → List Record
  | _, [] => []
  | e, r :: rs =>
      if cuts max r then []
      else
        (if r.epochAfter e ≠ 0 ∧ min ≤ r.epochAfter e ∧ hasKey r then [r] else []) ++
          ran min max (r.epochAfter e) rs

theorem isData_iff (lr : Logrecord) (r : Record) :
    Logreplay.isData (read lr r) = r.key?.isSome := by
  rw [Logreplay.isData, read_command]
  cases r with
  | kv command => cases command <;> simp [code, Command.code, Record.key?]
  | kvdelta => simp [code, Record.key?]
  | epoch => simp [code, Record.key?, Logcmd.put, Logcmd.replace, Logcmd.modify, Logcmd.remove,
      Logcmd.epoch]
  | wake => decide
  | quiesce => decide

theorem isData_read (lr : Logrecord) (r : Record) :
    ((read lr r).key ≠ [] ∧ Logreplay.isData (read lr r)) ↔ hasKey r := by
  rw [isData_iff]
  cases r <;> simp [hasKey, Record.key?, Loginfo.read]

section
variable {Row Change : Type} (rowType : RowType Row Change)

/-- The previous time is only read for a `modify`, and the epoch never. -/
structure Alike (lr lr' : Logrecord) : Prop where
  command : lr.command = lr'.command
  key : lr.key = lr'.key
  val : lr.val = lr'.val
  ts : lr.ts = lr'.ts
  prevTs : lr.command = Logcmd.modify → lr.prevTs = lr'.prevTs

theorem insert_alike {lr lr' : Logrecord} (alike : Alike lr lr') (v : Value Row) :
    Value.insert rowType lr v = Value.insert rowType lr' v := by
  have change (v : Value Row) : Value.change rowType lr v = Value.change rowType lr' v := by
    unfold Value.change
    rw [← alike.command, ← alike.val, ← alike.ts]
    by_cases delta : lr.command = Logcmd.modify
    · rw [← alike.prevTs delta]
    · rw [if_pos delta, if_pos delta]
  have late (v : Value Row) : Value.outOfDate lr v = Value.outOfDate lr' v := by
    simp only [Value.outOfDate, alike.ts]
  induction v with
  | null => simp only [Value.insert, change, late]
  | row ts r => simp only [Value.insert, change, late]
  | delta ts prevTs req prev ih => simp only [Value.insert, change, late, ih, alike.ts]

theorem run_alike {lr lr' : Logrecord} (alike : Alike lr lr') :
    lr.run rowType = lr'.run rowType := by
  have apply {lr lr' : Logrecord} (alike : Alike lr lr') (v : Value Row) :
      lr.apply rowType v = lr'.apply rowType v := by
    simp only [Logrecord.apply, insert_alike rowType alike]
  funext table
  simp only [Logrecord.run, ← alike.command, ← alike.ts]
  split
  · next remove =>
      have full : lr.command ≠ Logcmd.modify := by rw [remove]; decide
      simp only [alike.key]
      refine congrArg (Function.update table lr'.key) (apply ?_ _)
      exact ⟨rfl, rfl, rfl, rfl, fun delta => absurd delta full⟩
  · rw [apply alike, alike.key]

/-- What `run` does depends on the record alone, not on what the reader held before. -/
theorem run_read {lr lr' : Logrecord} {r : Record} (data : hasKey r) :
    (read lr r).run rowType = (read lr' r).run rowType := by
  cases r with
  | kv command ts key value =>
      have full : command.code ≠ Logcmd.modify := by cases command <;> decide
      exact run_alike rowType ⟨rfl, rfl, rfl, rfl, fun delta => absurd delta full⟩
  | kvdelta ts prevTs key value => exact run_alike rowType ⟨rfl, rfl, rfl, rfl, fun _ => rfl⟩
  | epoch => cases data
  | wake => cases data
  | quiesce => cases data

theorem keep_run {min max : Nat} {rs : List Record} {lr : Logrecord} {kept : Option (List Record)}
    {run run' : List Logrecord} {ks : List Record} (proper : ∀ r ∈ rs, Proper r)
    (result : keep min max lr kept run rs = some (ks, run')) :
    run'.map (Logrecord.run rowType) = run.map (Logrecord.run rowType) ++
      (ran min max lr.epoch.toNat rs).map fun r => (read .make r).run rowType := by
  induction rs generalizing lr kept run with
  | nil =>
      cases result
      exact (List.append_nil _).symm
  | cons r rs ih =>
      have epoch := read_epoch lr (proper r (by simp))
      rw [keep] at result
      rw [ran]
      split at result
      · next cutting =>
          obtain ⟨ks, -, same⟩ := Option.map_eq_some_iff.mp result
          cases same
          rw [if_pos cutting]
          exact (List.append_nil _).symm
      · next under =>
          have later (q : Record) (member : q ∈ rs) : Proper q := proper q (by simp [member])
          rw [if_neg under]
          rw [epoch] at result
          split at result
          · next early =>
              rw [ih later result, epoch, if_neg (by omega), List.nil_append]
          · next late =>
              split at result
              · cases result
              · have dated : r.epochAfter lr.epoch.toNat ≠ 0 ∧ min ≤ r.epochAfter lr.epoch.toNat := by
                  omega
                rw [ih later result, epoch]
                simp only [isData_read]
                by_cases data : hasKey r
                · rw [if_pos data, if_pos ⟨dated.1, dated.2, data⟩, List.map_append, List.map_append,
                    List.append_assoc]
                  rw [List.map_singleton, List.map_singleton, run_read rowType data]
                · rw [if_neg data, if_neg fun all => data all.2.2]
                  rfl

end

section
variable {min max max' e : Nat} {xs ys rs ks : List Record}

theorem cuts_mono {r : Record} (uncut : cuts max r = false) (le : max ≤ max') :
    cuts max' r = false := by
  unfold cuts at *
  cases epoch : r.epoch? with
  | none => rfl
  | some e =>
      rw [epoch] at uncut
      simp only [Option.any_some, decide_eq_false_iff_not] at uncut ⊢
      omega

theorem ran_append (uncut : ∀ r ∈ xs, cuts max r = false) :
    ran min max e (xs ++ ys) = ran min max e xs ++ ran min max (lastEpoch e xs) ys := by
  induction xs generalizing e with
  | nil => rfl
  | cons r xs ih =>
      have here := uncut r (by simp)
      rw [List.cons_append, ran, ran, here, ih fun q member => uncut q (by simp [member]),
        if_neg Bool.false_ne_true, if_neg Bool.false_ne_true, List.append_assoc]
      rfl

theorem ran_max (uncut : ∀ r ∈ xs, cuts max r = false) (le : max ≤ max') :
    ran min max' e xs = ran min max e xs := by
  induction xs generalizing e with
  | nil => rfl
  | cons r xs ih =>
      have here := uncut r (by simp)
      rw [ran, ran, here, cuts_mono here le, ih fun q member => uncut q (by simp [member])]

theorem ran_early (early : ∀ x ∈ tagged e xs, x.1 = 0 ∨ x.1 < min) : ran min max e xs = [] := by
  induction xs generalizing e with
  | nil => rfl
  | cons r xs ih =>
      have here := early (r.epochAfter e, r) List.mem_cons_self
      have skip : ¬ (r.epochAfter e ≠ 0 ∧ min ≤ r.epochAfter e ∧ hasKey r) := by
        simp only at here
        omega
      rw [ran, ih fun x member => early x (List.mem_cons_of_mem _ member), if_neg skip]
      exact ite_self _

/-- What stays of a log is run again. -/
theorem Cleaned.ran_eq (cleaned : Cleaned min max rs ks) (le : max ≤ max') :
    ran min max' 0 ks = ran min max 0 rs := by
  obtain ⟨before, after, rfl, tags, ⟨rfl, -, none⟩ | ⟨first, ks', begins, -, stop⟩⟩ := cleaned
  · exact (ran_early fun x member => .inl (tagged_no_epoch none x member)).symm
  · have skip : ran min max 0 (before ++ ks ++ after) = ran min max 0 (ks ++ after) := by
      have uncut : ∀ r ∈ before, cuts max r = false := by
        rcases stop with ⟨-, uncut⟩ | ⟨inner, e, -, -, uncut⟩
        · exact fun r member => uncut r (by simp [member])
        · exact fun r member => uncut r (by simp [member])
      rw [List.append_assoc, ran_append uncut, ran_early tags, List.nil_append, begins]
      rfl
    rw [skip]
    rcases stop with ⟨rfl, uncut⟩ | ⟨inner, e, rfl, high, uncut⟩
    · rw [List.append_nil]
      exact ran_max (fun r member => uncut r (by simp [member])) le
    · have inside (r : Record) (member : r ∈ inner) : cuts max r = false := uncut r (by simp [member])
      have stops : cuts max (.epoch e) = true := by simpa [cuts, Record.epoch?] using high
      have last (m : Nat) : ran min max' m [.epoch e] = [] := by
        rw [ran, ran]
        split
        · rfl
        · rw [if_neg (by simp [hasKey, Record.key?])]
          rfl
      rw [List.append_assoc, ran_append inside, List.singleton_append, ran, if_pos stops,
        ran_append fun r member => cuts_mono (inside r member) le, last, ran_max inside le]

theorem cuts_epoch {r : Record} (epoch : r.epoch? = some e) : cuts max r = false ↔ e < max := by
  rw [cuts, epoch, Option.any_some, decide_eq_false_iff_not, not_le]

theorem tagged_uncut (uncut : ∀ r ∈ xs, cuts max r = false) :
    ∀ x ∈ tagged e xs, x.1 = e ∨ x.1 < max := by
  induction xs generalizing e with
  | nil => exact nofun
  | cons r xs ih =>
      have here : r.epochAfter e = e ∨ r.epochAfter e < max := by
        rw [Record.epochAfter]
        cases epoch : r.epoch? with
        | none => exact .inl rfl
        | some e' => exact .inr ((cuts_epoch epoch).mp (uncut r (by simp)))
      intro x member
      rcases List.mem_cons.mp member with rfl | member
      · exact here
      · rcases ih (fun q member => uncut q (by simp [member])) x member with same | low
        · rw [same]
          exact here
        · exact .inr low

/-- What stays has only data of epochs below `max`. -/
theorem Cleaned.data_below (cleaned : Cleaned min max rs ks) {x : Nat × Record}
    (member : x ∈ tagged 0 ks) (data : x.2.key?.isSome) : x.1 < max := by
  have dated {first : Nat} {xs : List Record} (uncut : ∀ r ∈ .epoch first :: xs, cuts max r = false)
      (member : x ∈ tagged 0 (.epoch first :: xs)) : x.1 < max := by
    have low : first < max := (cuts_epoch rfl).mp (uncut (.epoch first) (by simp))
    rcases List.mem_cons.mp member with rfl | member
    · exact low
    · rcases tagged_uncut (fun r member => uncut r (by simp [member])) x member with same | below
      · exact same.trans_lt low
      · exact below
  obtain ⟨before, after, rfl, -, ⟨rfl, -⟩ | ⟨first, ks', rfl, -, stop⟩⟩ := cleaned
  · cases member
  · rcases stop with ⟨-, uncut⟩ | ⟨inner, e, ends, -, uncut⟩
    · exact dated (fun r member => uncut r
        (List.mem_append_left _ (List.mem_append_right _ member))) member
    · cases inner with
      | nil =>
          cases ends
          rcases List.mem_cons.mp member with rfl | member
          · cases data
          · cases member
      | cons r inner =>
          rw [ends, tagged_append] at member
          obtain ⟨rfl, -⟩ := List.cons.inj ends
          rcases List.mem_append.mp member with member | last
          · exact dated (fun r member => uncut r (List.mem_append_right _ member)) member
          · rw [List.mem_singleton.mp last] at data
            cases data

/-- The first epoch record at or above `max`. -/
def firstFrom (max : Nat) (rs : List Record) : Option Nat :=
  (rs.filterMap Record.epoch?).find? (max ≤ ·)

theorem firstFrom_uncut (uncut : ∀ r ∈ xs, cuts max r = false) : firstFrom max xs = none := by
  rw [firstFrom, List.find?_eq_none]
  intro e member
  obtain ⟨r, inside, epoch⟩ := List.mem_filterMap.mp member
  simpa using (cuts_epoch epoch).mp (uncut r inside)

theorem firstFrom_cut (uncut : ∀ r ∈ xs, cuts max r = false) (high : max ≤ e) :
    firstFrom max (xs ++ .epoch e :: ys) = some e := by
  have none : (xs.filterMap Record.epoch?).find? (max ≤ ·) = none := firstFrom_uncut uncut
  rw [firstFrom, List.filterMap_append, List.find?_append, none, Option.none_or]
  exact List.find?_cons_of_pos (by simpa using high)

/-- What stays has the epochs below `max` and the first one at or above it. -/
theorem Cleaned.epochs (cleaned : Cleaned min max rs ks) :
    (∀ e, .epoch e ∈ ks → e < max ∨ firstFrom max rs = some e) ∧
      ∀ e, firstFrom max rs = some e → .epoch e ∈ ks := by
  obtain ⟨before, after, rfl, -, ⟨rfl, -, none⟩ | ⟨first, ks', -, -, stop⟩⟩ := cleaned
  · have absent : firstFrom max (before ++ [] ++ after) = Option.none :=
      firstFrom_uncut fun r member => by rw [cuts, none r member]; rfl
    rw [absent]
    exact ⟨by intros; contradiction, by intros; contradiction⟩
  · rcases stop with ⟨-, uncut⟩ | ⟨inner, e, rfl, high, uncut⟩
    · rw [firstFrom_uncut uncut]
      refine ⟨fun e member => .inl ?_, by intros; contradiction⟩
      exact (cuts_epoch rfl).mp (uncut (.epoch e) (by simp [member]))
    · have here : firstFrom max (before ++ (inner ++ [.epoch e]) ++ after) = some e := by
        rw [← List.append_assoc before, List.append_assoc, List.singleton_append]
        exact firstFrom_cut uncut high
      rw [here]
      refine ⟨fun e' member => ?_, ?_⟩
      · rcases List.mem_append.mp member with inside | last
        · exact .inl ((cuts_epoch rfl).mp (uncut (.epoch e') (by simp [inside])))
        · cases List.mem_singleton.mp last
          exact .inr rfl
      · rintro e' ⟨⟩
        simp

end

end Incll.Proof.Replay
