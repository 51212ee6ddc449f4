import Incll.Model.Replay
import Mathlib.Data.List.Sort
import Mathlib.Data.List.FinRange
import Mathlib.Tactic.FinCases

/-! # Replay in any order -/

namespace Incll.Proof.Replay
open Incll.Model

section
variable {Row Change : Type} (rowType : RowType Row Change)

/-- The value that a record leaves behind when the records come in the order of their times. -/
def write (v : Value Row) (lr : Logrecord) : Value Row :=
  if lr.command = Logcmd.replace then .row lr.ts (rowType.create1 lr.val)
  else if lr.command ≠ Logcmd.modify then
    .row lr.ts (rowType.create (rowType.parseChangeset lr.val))
  else
    match v with
    | .row _ r => .row lr.ts (rowType.update r (rowType.parseChangeset lr.val))
    | v => v

/-- The row of a history. -/
def written (h : List Logrecord) : Value Row := h.foldl (write rowType) .null

end

/-- The records of one key: each `modify` comes with the time of the record before it. -/
structure History (h : List Logrecord) : Prop where
  command : ∀ lr ∈ h, lr.command = Logcmd.put ∨ lr.command = Logcmd.replace ∨
    lr.command = Logcmd.modify
  increasing : h.Pairwise fun x y => x.ts.toNat < y.ts.toNat
  even : ∀ lr ∈ h, lr.ts &&& 1 = 0
  linked : ∀ i : Fin h.length, h[i].command = Logcmd.modify →
    ∃ j : Fin h.length, i.val = j.val + 1 ∧ h[i].prevTs = h[j].ts

variable {Row Change : Type} {rowType : RowType Row Change} {h : List Logrecord}

/-! Times. -/

theorem even_toNat {ts : Kvtimestamp} (even : ts &&& 1 = 0) : ts.toNat % 2 = 0 := by
  have bits := congrArg BitVec.toNat even
  rw [BitVec.toNat_and] at bits
  simpa [Nat.and_one_is_mod] using bits

theorem marker_time {ts : Kvtimestamp} (even : ts &&& 1 = 0) :
    (ts ||| 1).toNat = ts.toNat + 1 ∧ (ts ||| 1) - 1 = ts := by
  have split : ts ||| 1 = ts + 1 := (BitVec.add_eq_or_of_and_eq_zero ts 1 even).symm
  constructor
  · rw [split, BitVec.toNat_add, show (1 : Kvtimestamp).toNat = 1 from rfl]
    have low := even_toNat even
    have bound := ts.isLt
    omega
  · rw [split]
    exact BitVec.add_sub_cancel ts 1

theorem History.before (history : History h) {i j : Fin h.length} (lt : i < j) :
    h[i].ts.toNat < h[j].ts.toNat :=
  List.pairwise_iff_getElem.mp history.increasing i j i.isLt j.isLt lt

theorem History.even_at (history : History h) (i : Fin h.length) : h[i].ts &&& 1 = 0 :=
  history.even _ (List.getElem_mem i.isLt)

theorem History.marker_before (history : History h) {i j : Fin h.length} (lt : i < j) :
    (h[i].ts ||| 1).toNat < h[j].ts.toNat := by
  have marker := (marker_time (history.even_at i)).1
  have order := history.before lt
  have low := even_toNat (history.even_at i)
  have high := even_toNat (history.even_at j)
  omega

/-! The row of the first records. -/

theorem written_take (i : Fin h.length) :
    written rowType (h.take (i + 1)) = write rowType (written rowType (h.take i)) h[i] := by
  rw [List.take_succ_eq_append_getElem i.isLt, written, List.foldl_append]
  rfl

variable (rowType) in
/-- The first records leave a row with the time of the last of them. -/
theorem written_row (history : History h) (i : Fin h.length) :
    ∃ r, written rowType (h.take (i + 1)) = .row h[i].ts r := by
  obtain ⟨i, bound⟩ := i
  induction i with
  | zero =>
      rw [written_take ⟨0, bound⟩]
      unfold write
      split
      · exact ⟨_, rfl⟩
      · split
        · exact ⟨_, rfl⟩
        · next full =>
            obtain ⟨j, zero, -⟩ := history.linked ⟨0, bound⟩ (not_not.mp full)
            cases zero
  | succ i ih =>
      obtain ⟨r, row⟩ := ih (Nat.lt_of_succ_lt bound)
      rw [written_take ⟨i + 1, bound⟩, row, write]
      split
      · exact ⟨_, rfl⟩
      · split <;> exact ⟨_, rfl⟩

theorem written_modify {m : Fin h.length} {ts : Kvtimestamp} {r : Row}
    (delta : h[m].command = Logcmd.modify) (below : written rowType (h.take m) = .row ts r) :
    written rowType (h.take (m + 1)) =
      .row h[m].ts (rowType.update r (rowType.parseChangeset h[m].val)) := by
  have notReplace : h[m].command ≠ Logcmd.replace := by rw [delta]; decide
  rw [written_take m, below, write, if_neg notReplace, if_neg (not_not.mpr delta)]

/-! Chains of markers. -/

/-- The markers of the records `ms`, the last one at the bottom. -/
def chain (h : List Logrecord) (ms : List (Fin h.length)) (base : Value Row) : Value Row :=
  ms.foldr (fun i v => .delta (h[i].ts ||| 1) h[i].prevTs h[i].val v) base

theorem chain_append (above below : List (Fin h.length)) (base : Value Row) :
    chain h (above ++ below) base = chain h above (chain h below base) := List.foldr_append

variable (rowType) in
theorem base_cases (history : History h) {b : Nat} (bound : b ≤ h.length) :
    (b = 0 ∧ written rowType (h.take b) = .null) ∨
      ∃ (i : Fin h.length) (r : Row), b = i + 1 ∧ written rowType (h.take b) = .row h[i].ts r := by
  cases b with
  | zero => exact .inl ⟨rfl, rfl⟩
  | succ i =>
      obtain ⟨r, row⟩ := written_row rowType history ⟨i, bound⟩
      exact .inr ⟨⟨i, bound⟩, r, rfl, row⟩

theorem depth_chain (history : History h) {b : Nat} (bound : b ≤ h.length)
    (ms : List (Fin h.length)) : (chain h ms (written rowType (h.take b))).depth = ms.length := by
  induction ms with
  | nil =>
      rcases base_cases rowType history bound with ⟨-, base⟩ | ⟨i, r, -, base⟩
      · rw [chain, List.foldr_nil, base]; rfl
      · rw [chain, List.foldr_nil, base]; rfl
  | cons m ms ih => exact congrArg (· + 1) ih

/-- A record passes the markers of later records. -/
theorem insert_above {lr : Logrecord} {above : List (Fin h.length)} {v : Value Row}
    (later : ∀ i ∈ above, lr.ts.toNat < (h[i].ts ||| 1).toNat) :
    Value.insert rowType lr (chain h above v) = (Value.insert rowType lr v).map (chain h above ·) := by
  induction above with
  | nil => exact Option.map_id'.symm
  | cons i above ih =>
      show Value.insert rowType lr (.delta _ _ _ (chain h above v)) = _
      rw [Value.insert, if_pos (later i (by simp)), ih fun k member => later k (by simp [member]),
        Option.map_map]
      rfl

/-- Markers that come before a record lie below it. -/
theorem split_markers {j : Fin h.length} {ms : List (Fin h.length)} (sorted : ms.Pairwise (· > ·))
    (new : j ∉ ms) : ∃ above below, ms = above ++ below ∧ (∀ i ∈ above, j < i) ∧ ∀ i ∈ below, i < j := by
  induction ms with
  | nil => exact ⟨[], [], rfl, nofun, nofun⟩
  | cons m ms ih =>
      obtain ⟨highest, rest⟩ := List.pairwise_cons.mp sorted
      rw [List.mem_cons, not_or] at new
      obtain ⟨other, new⟩ := new
      rcases lt_or_gt_of_ne other with lower | higher
      · obtain ⟨above, below, rfl, later, earlier⟩ := ih rest new
        refine ⟨m :: above, below, rfl, ?_, earlier⟩
        intro i member
        rcases List.mem_cons.mp member with rfl | member
        · exact lower
        · exact later i member
      · refine ⟨[], m :: ms, rfl, nofun, ?_⟩
        intro i member
        rcases List.mem_cons.mp member with rfl | member
        · exact higher
        · exact (highest i member).trans higher

variable (rowType) in
/-- The last marker is applied if the row below it is the one it was made for. -/
theorem collapse_chain (ms : List (Fin h.length)) (m : Fin h.length) (ts : Kvtimestamp) (r : Row) :
    Value.collapse rowType (chain h (ms ++ [m]) (.row ts r)) =
      if h[m].prevTs = ts then
        some (chain h ms (.row ((h[m].ts ||| 1) - 1)
          (rowType.update r (rowType.parseChangeset h[m].val))))
      else none := by
  induction ms with
  | nil => rfl
  | cons i ms ih =>
      have inner : Value.collapse rowType (chain h (i :: ms ++ [m]) (.row ts r)) =
          (Value.collapse rowType (chain h (ms ++ [m]) (.row ts r))).map
            (.delta (h[i].ts ||| 1) h[i].prevTs h[i].val ·) := by
        cases ms <;> rfl
      rw [inner, ih]
      split <;> rfl

theorem collapse_null (ms : List (Fin h.length)) :
    Value.collapse rowType (chain h ms .null) = none := by
  induction ms with
  | nil => rfl
  | cons i ms ih =>
      have inner : Value.collapse rowType (chain h (i :: ms) .null) =
          (Value.collapse rowType (chain h ms .null)).map
            (.delta (h[i].ts ||| 1) h[i].prevTs h[i].val ·) := by
        cases ms <;> rfl
      rw [inner, ih]
      rfl

/-- The chain over the row of the first `b` records, where the record behind them is missing. -/
structure Settled (h : List Logrecord) (arrived : Fin h.length → Prop) (b : Nat)
    (ms : List (Fin h.length)) : Prop where
  bound : b ≤ h.length
  sorted : ms.Pairwise (· > ·)
  members : ∀ i, i ∈ ms ↔ arrived i ∧ b ≤ i.val
  deltas : ∀ i ∈ ms, h[i].command = Logcmd.modify
  missing : ∀ i, arrived i → i.val ≠ b

/-- The first marker of a chain belongs to the row below it only if it is of the next record. -/
theorem prevTs_eq (history : History h) {m i : Fin h.length}
    (delta : h[m].command = Logcmd.modify) : h[m].prevTs = h[i].ts ↔ m.val = i.val + 1 := by
  obtain ⟨j, next, prevTs⟩ := history.linked m delta
  rw [prevTs]
  constructor
  · intro same
    rcases lt_trichotomy i j with lt | rfl | gt
    · exact absurd (congrArg BitVec.toNat same) (history.before lt).ne'
    · exact next
    · exact absurd (congrArg BitVec.toNat same) (history.before gt).ne
  · intro near
    rw [show j = i from Fin.ext (by omega)]

theorem cleanUp_stop {v : Value Row} {fuel : Nat} (stuck : Value.collapse rowType v = none) :
    Value.cleanUp rowType fuel v = v := by
  cases fuel with
  | zero => rfl
  | succ fuel => rw [Value.cleanUp, stuck]

variable (rowType) in
/-- The loop at the end of `apply` collapses the markers of the records that follow the row. -/
theorem cleanUp_chain (history : History h) {arrived : Fin h.length → Prop} {b fuel : Nat}
    {ms : List (Fin h.length)} (bound : b ≤ h.length) (sorted : ms.Pairwise (· > ·))
    (members : ∀ i, i ∈ ms ↔ arrived i ∧ b ≤ i.val)
    (deltas : ∀ i ∈ ms, h[i].command = Logcmd.modify) (enough : ms.length ≤ fuel) :
    ∃ b' ms', b ≤ b' ∧ Settled h arrived b' ms' ∧
      Value.cleanUp rowType fuel (chain h ms (written rowType (h.take b))) =
        chain h ms' (written rowType (h.take b')) := by
  induction ms using List.reverseRecOn generalizing b fuel with
  | nil =>
      refine ⟨b, [], le_rfl, ⟨bound, sorted, members, deltas, ?_⟩, cleanUp_stop ?_⟩
      · intro i here same
        exact absurd ((members i).mpr ⟨here, same.ge⟩) List.not_mem_nil
      · rcases base_cases rowType history bound with ⟨-, base⟩ | ⟨i, r, -, base⟩
        · rw [chain, List.foldr_nil, base]; rfl
        · rw [chain, List.foldr_nil, base]; rfl
  | append_singleton ms m ih =>
      have delta := deltas m (by simp)
      obtain ⟨others, -, lowest⟩ := List.pairwise_append.mp sorted
      rcases base_cases rowType history bound with ⟨rfl, base⟩ | ⟨i, r, rfl, base⟩
      · refine ⟨0, ms ++ [m], le_rfl, ⟨bound, sorted, members, deltas, ?_⟩, cleanUp_stop ?_⟩
        · intro i here zero
          obtain ⟨j, next, -⟩ := history.linked i (deltas i ((members i).mpr ⟨here, Nat.zero_le _⟩))
          omega
        · rw [base]
          exact collapse_null _
      · have step := collapse_chain rowType ms m h[i].ts r
        rw [← base] at step
        by_cases next : m.val = i.val + 1
        · rw [if_pos ((prevTs_eq history delta).mpr next), (marker_time (history.even_at m)).2] at step
          have below : written rowType (h.take m) = .row h[i].ts r := by rw [next]; exact base
          rw [← written_modify delta below] at step
          have rest (k : Fin h.length) : k ∈ ms ↔ arrived k ∧ m + 1 ≤ k.val := by
            constructor
            · intro member
              have above : m < k := lowest k member m (by simp)
              exact ⟨((members k).mp (by simp [member])).1, above⟩
            · rintro ⟨here, above⟩
              have member := (members k).mpr ⟨here, by omega⟩
              rcases List.mem_append.mp member with member | same
              · exact member
              · rw [List.mem_singleton.mp same] at above
                omega
          obtain ⟨fuel, rfl⟩ : ∃ f, fuel = f + 1 := ⟨fuel - 1, by simp at enough; omega⟩
          obtain ⟨b', ms', le, settled, done⟩ := ih m.isLt others rest
            (fun k member => deltas k (by simp [member])) (by simp at enough; omega)
          refine ⟨b', ms', by omega, settled, ?_⟩
          rw [Value.cleanUp, step]
          exact done
        · rw [if_neg fun same => next ((prevTs_eq history delta).mp same)] at step
          refine ⟨i + 1, ms ++ [m], le_rfl, ⟨bound, sorted, members, deltas, ?_⟩, cleanUp_stop step⟩
          intro k here same
          have low := ((members m).mp (by simp)).2
          rcases List.mem_append.mp ((members k).mpr ⟨here, same.ge⟩) with member | same'
          · have above : m < k := lowest k member m (by simp)
            omega
          · rw [List.mem_singleton.mp same'] at same
            exact next same

/-! One record. -/

/-- What the arrived records have left behind. -/
def Replayed (rowType : RowType Row Change) (h : List Logrecord) (arrived : Fin h.length → Prop)
    (v : Value Row) : Prop :=
  ∃ b ms, Settled h arrived b ms ∧ (∀ i, arrived i → h[i].command ≠ Logcmd.modify → i.val < b) ∧
    v = chain h ms (written rowType (h.take b))

/-- The record comes too late. -/
theorem insert_old (history : History h) {b : Nat} {ms : List (Fin h.length)} {j : Fin h.length}
    (bound : b ≤ h.length) (later : ∀ i ∈ ms, j < i) (old : j.val < b) :
    Value.insert rowType h[j] (chain h ms (written rowType (h.take b))) = none := by
  rw [insert_above fun i member => ?_]
  · rcases base_cases rowType history bound with ⟨rfl, -⟩ | ⟨i, r, rfl, base⟩
    · omega
    · have late : h[j].ts.toNat ≤ h[i].ts.toNat := by
        rcases lt_or_eq_of_le (show j ≤ i from Nat.lt_succ_iff.mp old) with lt | rfl
        · exact (history.before lt).le
        · exact le_rfl
      rw [base, Value.insert, if_pos]
      · rfl
      · simpa [Value.outOfDate, Value.timestamp?] using late
      · intro _ _ _ _ same
        cases same
  · rw [(marker_time (history.even_at i)).1]
    exact Nat.lt_succ_of_lt (history.before (later i member))

variable (rowType) in
/-- The record changes the chain at its place. -/
theorem insert_new (history : History h) {b : Nat} {above below : List (Fin h.length)}
    {j : Fin h.length} (bound : b ≤ h.length) (later : ∀ i ∈ above, j < i)
    (earlier : ∀ i ∈ below, i < j) (new : b ≤ j.val) :
    Value.insert rowType h[j] (chain h (above ++ below) (written rowType (h.take b))) =
      some (chain h above (Value.change rowType h[j]
        (chain h below (written rowType (h.take b))))) := by
  rw [chain_append, insert_above fun i member => ?_]
  · cases below with
    | nil =>
        rcases base_cases rowType history bound with ⟨-, base⟩ | ⟨i, r, rfl, base⟩
        · rw [chain, List.foldr_nil, base]; rfl
        · have fresh : ¬ h[j].ts.toNat ≤ h[i].ts.toNat := (history.before new).not_ge
          rw [chain, List.foldr_nil, base, Value.insert, if_neg]
          · rfl
          · simpa [Value.outOfDate, Value.timestamp?] using fresh
          · intro _ _ _ _ same
            cases same
    | cons m below =>
        have lower := history.marker_before (earlier m (by simp))
        show (Value.insert rowType h[j] (.delta _ _ _ _)).map _ = _
        rw [Value.insert, if_neg lower.not_gt, if_neg]
        · rfl
        · simpa [Value.outOfDate, Value.timestamp?] using lower
  · rw [(marker_time (history.even_at i)).1]
    exact Nat.lt_succ_of_lt (history.before (later i member))

/-- A record that finds its predecessor, or needs none, leaves the row of the history behind. -/
theorem change_full {j : Fin h.length} (full : h[j].command ≠ Logcmd.modify) (v : Value Row) :
    Value.change rowType h[j] v = written rowType (h.take (j + 1)) := by
  rw [written_take]
  unfold Value.change write
  split
  · rfl
  · rfl

theorem change_next (history : History h) {j : Fin h.length} (delta : h[j].command = Logcmd.modify) :
    Value.change rowType h[j] (written rowType (h.take j)) = written rowType (h.take (j + 1)) := by
  obtain ⟨i, next, prevTs⟩ := history.linked j delta
  obtain ⟨r, base⟩ := written_row rowType history i
  rw [← next] at base
  have notReplace : h[j].command ≠ Logcmd.replace := by rw [delta]; decide
  rw [written_modify delta base, base, Value.change, if_neg notReplace, if_neg (not_not.mpr delta)]
  exact if_pos prevTs.symm

/-- A record without its predecessor becomes a marker. -/
theorem change_marker (history : History h) {b : Nat} {below : List (Fin h.length)} {j : Fin h.length}
    (bound : b ≤ h.length) (delta : h[j].command = Logcmd.modify) (gap : j.val ≠ b) :
    Value.change rowType h[j] (chain h below (written rowType (h.take b))) =
      chain h (j :: below) (written rowType (h.take b)) := by
  have notReplace : h[j].command ≠ Logcmd.replace := by rw [delta]; decide
  unfold Value.change
  rw [if_neg notReplace, if_neg (not_not.mpr delta)]
  cases below with
  | cons m below => rfl
  | nil =>
      rcases base_cases rowType history bound with ⟨-, base⟩ | ⟨i, r, rfl, base⟩
      · simp only [chain, List.foldr_nil, List.foldr_cons, base]
      · have other : h[i].ts ≠ h[j].prevTs := fun same => gap ((prevTs_eq history delta).mp same.symm)
        simp only [chain, List.foldr_nil, List.foldr_cons, base]
        exact if_neg other

/-- The chain after a change is settled by the loop at the end. -/
theorem apply_settles (history : History h) {arrived : Fin h.length → Prop} {b : Nat}
    {ms : List (Fin h.length)} {lr : Logrecord} {v : Value Row} (bound : b ≤ h.length)
    (sorted : ms.Pairwise (· > ·)) (members : ∀ i, i ∈ ms ↔ arrived i ∧ b ≤ i.val)
    (full : ∀ i, arrived i → h[i].command ≠ Logcmd.modify → i.val < b)
    (inserted : Value.insert rowType lr v = some (chain h ms (written rowType (h.take b)))) :
    Replayed rowType h arrived (lr.apply rowType v) := by
  have deltas (i : Fin h.length) (member : i ∈ ms) : h[i].command = Logcmd.modify := by
    obtain ⟨here, above⟩ := (members i).mp member
    by_contra other
    exact absurd (full i here other) above.not_gt
  obtain ⟨b', ms', le, settled, done⟩ :=
    cleanUp_chain rowType history bound sorted members deltas le_rfl
  refine ⟨b', ms', settled, fun i here other => (full i here other).trans_le le, ?_⟩
  rw [Logrecord.apply, inserted]
  simp only [depth_chain history bound]
  exact done

theorem apply_replayed (history : History h) {arrived : Fin h.length → Prop} {v : Value Row}
    {j : Fin h.length} (replayed : Replayed rowType h arrived v) (new : ¬ arrived j) :
    Replayed rowType h (fun i => i = j ∨ arrived i) (h[j].apply rowType v) := by
  obtain ⟨b, ms, settled, full, rfl⟩ := replayed
  have absent : j ∉ ms := fun member => new ((settled.members j).mp member).1
  by_cases old : j.val < b
  · have later (i : Fin h.length) (member : i ∈ ms) : j < i :=
      old.trans_le ((settled.members i).mp member).2
    rw [Logrecord.apply, insert_old history settled.bound later old]
    refine ⟨b, ms, ⟨settled.bound, settled.sorted, ?_, settled.deltas, ?_⟩, ?_, rfl⟩
    · intro i
      rw [settled.members]
      constructor
      · exact fun ⟨here, above⟩ => ⟨.inr here, above⟩
      · rintro ⟨rfl | here, above⟩
        · omega
        · exact ⟨here, above⟩
    · rintro i (rfl | here)
      · exact old.ne
      · exact settled.missing i here
    · rintro i (rfl | here) other
      · exact old
      · exact full i here other
  · obtain ⟨above, below, rfl, later, earlier⟩ := split_markers settled.sorted absent
    obtain ⟨sortedAbove, sortedBelow, -⟩ := List.pairwise_append.mp settled.sorted
    have inserted := insert_new rowType history settled.bound later earlier
      (Nat.le_of_not_lt old)
    by_cases gap : h[j].command = Logcmd.modify ∧ j.val ≠ b
    · rw [change_marker history settled.bound gap.1 gap.2, ← chain_append] at inserted
      refine apply_settles history settled.bound ?_ ?_ ?_ inserted
      · refine List.pairwise_append.mpr ⟨sortedAbove, ?_, ?_⟩
        · exact List.pairwise_cons.mpr ⟨earlier, sortedBelow⟩
        · intro i up k down
          rcases List.mem_cons.mp down with rfl | down
          · exact later i up
          · exact (earlier k down).trans (later i up)
      · intro i
        have member := settled.members i
        rw [List.mem_append] at member
        rw [List.mem_append, List.mem_cons]
        constructor
        · rintro (up | rfl | down)
          · exact ⟨.inr (member.mp (.inl up)).1, (member.mp (.inl up)).2⟩
          · exact ⟨.inl rfl, Nat.le_of_not_lt old⟩
          · exact ⟨.inr (member.mp (.inr down)).1, (member.mp (.inr down)).2⟩
        · rintro ⟨rfl | here, from'⟩
          · exact .inr (.inl rfl)
          · rcases member.mpr ⟨here, from'⟩ with up | down
            · exact .inl up
            · exact .inr (.inr down)
      · rintro i (rfl | here) other
        · exact absurd gap.1 other
        · exact full i here other
    · have row : Value.change rowType h[j] (chain h below (written rowType (h.take b))) =
          written rowType (h.take (j + 1)) := by
        by_cases delta : h[j].command = Logcmd.modify
        · have next : j.val = b := by
            by_contra other
            exact gap ⟨delta, other⟩
          have none : below = [] := by
            refine List.eq_nil_iff_forall_not_mem.mpr fun i member => ?_
            have low := ((settled.members i).mp (by simp [member])).2
            have high : i.val < j.val := earlier i member
            omega
          rw [none, chain, List.foldr_nil, ← next]
          exact change_next history delta
        · exact change_full delta _
      rw [row] at inserted
      refine apply_settles history j.isLt sortedAbove ?_ ?_ inserted
      · intro i
        have member := settled.members i
        rw [List.mem_append] at member
        constructor
        · exact fun up => ⟨.inr (member.mp (.inl up)).1, later i up⟩
        · rintro ⟨rfl | here, from'⟩
          · omega
          · rcases member.mpr ⟨here, by omega⟩ with up | down
            · exact up
            · have high : i.val < j.val := earlier i down
              omega
      · rintro i (rfl | here) other
        · exact Nat.lt_succ_self _
        · have low := full i here other
          omega

/-! All records. -/

/-- The checkpointed row of any point of the history, or nothing. -/
theorem start_replayed {k : Nat} (bound : k ≤ h.length) :
    Replayed rowType h (fun _ => False) (written rowType (h.take k)) :=
  ⟨k, [], ⟨bound, List.Pairwise.nil, by simp, nofun, nofun⟩, nofun, rfl⟩

theorem run_replayed (history : History h) {arrived : Fin h.length → Prop} {v : Value Row}
    (order : List (Fin h.length)) (distinct : order.Nodup) (new : ∀ j ∈ order, ¬ arrived j)
    (replayed : Replayed rowType h arrived v) :
    Replayed rowType h (fun i => i ∈ order ∨ arrived i)
      (order.foldl (fun v j => h[j].apply rowType v) v) := by
  induction order generalizing v arrived with
  | nil => simpa using replayed
  | cons j order ih =>
      obtain ⟨other, distinct⟩ := List.nodup_cons.mp distinct
      have after := apply_replayed history replayed (new j (by simp))
      have rest := ih distinct (fun i member => ?_) after
      · refine cast (congrArg (Replayed rowType h · _) ?_) rest
        funext i
        simp only [List.mem_cons, or_assoc, or_left_comm]
      · rintro (rfl | here)
        · exact other member
        · exact new i (by simp [member]) here

/-- Every order of the records is an order of their indices. -/
theorem exists_order {arrivals : List Logrecord} (perm : arrivals.Perm h) :
    ∃ order : List (Fin h.length), order.Perm (List.finRange h.length) ∧
      arrivals = order.map (h[·]) := by
  have indices : List.Forall₂ (fun lr i => lr = h[i]) h (List.finRange h.length) := by
    have listed : h = (List.finRange h.length).map (h[·]) := (List.map_getElem_finRange h).symm
    conv => lhs; rw [listed]
    exact List.forall₂_map_left_iff.mpr (List.forall₂_same.mpr fun _ _ => rfl)
  obtain ⟨order, same, perm⟩ := List.perm_comp_forall₂ perm indices
  exact ⟨order, perm, List.forall₂_eq_eq_eq ▸ List.forall₂_map_right_iff.mpr same⟩

/-- A row of bytes to which changes are appended. -/
def appended : RowType (List UInt8) UInt8 := ⟨id, id, id, (· ++ ·)⟩

def twoDeltas : List Logrecord :=
  [⟨Logcmd.put, [], [1], 2, 0, 0⟩, ⟨Logcmd.modify, [], [2], 4, 2, 0⟩,
    ⟨Logcmd.modify, [], [3], 6, 4, 0⟩]

end Incll.Proof.Replay
