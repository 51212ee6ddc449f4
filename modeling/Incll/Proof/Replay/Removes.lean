import Incll.Model.Rows

/-! # Replay of removes

The marker of a removed key is not a list of changes: the parser fails on its second byte. -/

namespace Incll.Proof.Replay
open Incll.Model

variable {Row : Type} (rows : Rows Row)

/-- The row type of the rows, where a list that does not parse has no changes. -/
def rowType : RowType Row (Nat × List UInt8) where
  parseChangeset s := (Msgpack.parseChangeset s).getD []
  create := rows.create
  create1 := rows.create1
  update := rows.update

section
variable {lr : Logrecord} {v w : Value Row}

theorem change_refines (h : rows.change lr v = some w) : w = v.change (rowType rows) lr := by
  unfold Rows.change at h
  unfold Value.change
  split at h
  · next replace =>
    rw [if_pos replace]
    exact (Option.some.inj h).symm
  · next notReplace =>
    rw [if_neg notReplace]
    split at h
    · next full =>
      obtain ⟨changes, parsed, rfl⟩ := Option.map_eq_some_iff.mp h
      rw [if_pos full]
      simp only [rowType, parsed, Option.getD_some]
    · next delta =>
      rw [if_neg delta]
      cases v with
      | null | delta => exact (Option.some.inj h).symm
      | row ts r =>
          dsimp only at h ⊢
          split at h
          · next same =>
            obtain ⟨changes, parsed, rfl⟩ := Option.map_eq_some_iff.mp h
            rw [if_pos same]
            simp only [rowType, parsed, Option.getD_some]
          · next other =>
            rw [if_neg other]
            exact (Option.some.inj h).symm

theorem late_refines (h : Rows.late lr v = true) : v.insert (rowType rows) lr = none := by
  induction v with
  | null => cases h
  | row => exact if_pos h
  | delta ts prevTs req prev ih =>
      unfold Rows.late at h
      unfold Value.insert
      split at h
      · next above => rw [if_pos above, ih h, Option.map_none]
      · next here => rw [if_neg here, if_pos h]

theorem insert_refines (early : Rows.late lr v = false) (h : rows.insert lr v = some w) :
    v.insert (rowType rows) lr = some w := by
  induction v generalizing w with
  | null =>
      rw [change_refines rows h]
      exact if_neg (by simp [Value.outOfDate, Value.timestamp?])
  | row =>
      rw [change_refines rows h]
      exact if_neg (Bool.not_eq_true _ ▸ early)
  | delta ts prevTs req prev ih =>
      unfold Rows.late at early
      unfold Rows.insert at h
      unfold Value.insert
      split at early
      · next above =>
        rw [if_pos above] at h ⊢
        obtain ⟨below, inner, rfl⟩ := Option.map_eq_some_iff.mp h
        rw [ih early inner, Option.map_some]
      · next here =>
        rw [if_neg here] at h ⊢
        rw [if_neg (Bool.not_eq_true _ ▸ early), change_refines rows h]

theorem collapse_stuck (h : Rows.collapses v = false) : v.collapse (rowType rows) = none := by
  induction v with
  | null | row => rfl
  | delta ts prevTs req prev ih =>
      cases prev with
      | null => exact congrArg (Option.map _) (ih rfl)
      | row => exact if_neg (of_decide_eq_false h)
      | delta => exact congrArg (Option.map _) (ih h)

theorem collapse_refines (more : Rows.collapses v = true) (h : rows.collapse v = some w) :
    v.collapse (rowType rows) = some w := by
  induction v generalizing w with
  | null | row => cases more
  | delta ts prevTs req prev ih =>
      cases prev with
      | null => cases more
      | row =>
          obtain ⟨changes, parsed, rfl⟩ := Option.map_eq_some_iff.mp h
          refine (if_pos (of_decide_eq_true more)).trans ?_
          simp only [rowType, parsed, Option.getD_some]
      | delta =>
          obtain ⟨below, inner, rfl⟩ := Option.map_eq_some_iff.mp h
          exact congrArg (Option.map _) (ih more inner)

theorem cleanUp_refines (fuel : Nat) (h : rows.cleanUp fuel v = some w) :
    v.cleanUp (rowType rows) fuel = w := by
  induction fuel generalizing v with
  | zero => exact Option.some.inj h
  | succ fuel ih =>
      unfold Rows.cleanUp at h
      unfold Value.cleanUp
      split at h
      · next more =>
        obtain ⟨below, step, rest⟩ := Option.bind_eq_some_iff.mp h
        rw [collapse_refines rows more step]
        exact ih rest
      · next stuck =>
        rw [collapse_stuck rows (Bool.eq_false_of_not_eq_true stuck)]
        exact Option.some.inj h

theorem apply_refines (h : rows.apply lr v = some w) : lr.apply (rowType rows) v = w := by
  unfold Rows.apply at h
  unfold Logrecord.apply
  split at h
  · next old =>
    rw [late_refines rows old]
    exact Option.some.inj h
  · next new =>
    obtain ⟨below, step, rest⟩ := Option.bind_eq_some_iff.mp h
    rw [insert_refines rows (Bool.eq_false_of_not_eq_true new) step]
    exact cleanUp_refines rows _ rest

end

/-- When nothing fails, replay runs as the one with a parser that always succeeds. -/
theorem run_refines {lr : Logrecord} {table after : List UInt8 → Value Row}
    (h : rows.run lr table = some after) : lr.run (rowType rows) table = after := by
  obtain ⟨v, step, rfl⟩ := Option.map_eq_some_iff.mp h
  exact congrArg (Function.update table _) (apply_refines rows step)

/-! The law of removes. -/

/-- All that is stored for a key has an earlier time. -/
def Older (ts : Kvtimestamp) : Value Row → Prop
  | .null => True
  | .row t _ => t.toNat < ts.toNat
  | .delta t _ _ prev => t.toNat < ts.toNat ∧ Older ts prev

/-- A remove marker, and nothing below it. -/
def Hides (ts : Kvtimestamp) (v : Value Row) : Prop :=
  ∃ r, v = .row (ts ||| 1) r ∧ Rows.rowIsMarker (ts ||| 1) = true ∧
    rows.markerType r = Logrecord.mtRemove

/-- A put or a replace makes the key visible with what it holds. -/
def Shows (lr : Logrecord) (v : Value Row) : Prop :=
  (lr.command = Logcmd.replace → Rows.get v = some (rows.create1 lr.val)) ∧
  (lr.command = Logcmd.put → ∀ changes, Msgpack.parseChangeset lr.val = some changes →
    Rows.get v = some (rows.create changes))

/-- What replay of the remove record `lr` should do. -/
def RemoveLaw (lr : Logrecord) (table : List UInt8 → Value Row) : Prop :=
  Older lr.ts (table lr.key) → ∃ after, rows.run lr table = some after ∧
    (∀ key, key ≠ lr.key → after key = table key) ∧
    Hides rows lr.ts (after lr.key) ∧ Rows.get (after lr.key) = none ∧
    (∀ lr' : Logrecord, lr'.key = lr.key → lr'.ts.toNat < lr.ts.toNat →
      rows.run lr' after = some after) ∧
    ∀ lr' : Logrecord, lr'.key = lr.key → (lr.ts ||| 1).toNat < lr'.ts.toNat → lr'.ts &&& 1 = 0 →
      lr'.command = Logcmd.replace ∨ lr'.command = Logcmd.put ∧
        (Msgpack.parseChangeset lr'.val).isSome →
      ∃ later, rows.run lr' after = some later ∧ Shows rows lr' (later lr.key)

theorem marker_unparsed : Msgpack.parseChangeset (littleEndian 4 Logrecord.mtRemove) = none := by
  decide

/-- The odd time of the marker is no earlier. -/
theorem le_marker (ts : Kvtimestamp) : ts.toNat ≤ (ts ||| 1).toNat := by
  rw [BitVec.toNat_or]
  exact Nat.left_le_or

theorem older_early {lr : Logrecord} {v : Value Row} (older : Older lr.ts v) :
    Rows.late lr v = false := by
  cases v with
  | null => rfl
  | row t r => exact decide_eq_false (Nat.not_le.mpr older)
  | delta t prevTs req prev =>
      obtain ⟨above, -⟩ := older
      exact (if_neg (Nat.not_lt.mpr (Nat.le_of_lt above))).trans (decide_eq_false (Nat.not_le.mpr above))

theorem older_mono {ts ts' : Kvtimestamp} {v : Value Row} (le : ts.toNat ≤ ts'.toNat)
    (older : Older ts v) : Older ts' v := by
  induction v with
  | null => trivial
  | row => exact Nat.lt_of_lt_of_le older le
  | delta t prevTs req prev ih => exact ⟨Nat.lt_of_lt_of_le older.1 le, ih older.2⟩

/-- A change that does not parse fails at every point of a chain. -/
theorem insert_unparsed (lr : Logrecord) (isRemove : lr.command = Logcmd.remove)
    (unparsed : Msgpack.parseChangeset lr.val = none) (v : Value Row) : rows.insert lr v = none := by
  have full : lr.command ≠ Logcmd.replace ∧ lr.command ≠ Logcmd.modify := by
    rw [isRemove]
    decide
  have fails (w : Value Row) : rows.change lr w = none := by
    unfold Rows.change
    rw [if_neg full.1, if_pos full.2, unparsed, Option.map_none]
  induction v with
  | null | row => exact fails _
  | delta ts prevTs req prev ih =>
      unfold Rows.insert
      rw [ih, fails, Option.map_none, ite_self]

/-- The record that `run` applies for a remove. -/
def marked (lr : Logrecord) : Logrecord :=
  { lr with ts := lr.ts ||| 1, val := littleEndian 4 Logrecord.mtRemove }

/-- A remove that is out of date is passed over; any other fails. -/
theorem run_remove {lr : Logrecord} (isRemove : lr.command = Logcmd.remove)
    (table : List UInt8 → Value Row) :
    rows.run lr table = if Rows.late (marked lr) (table lr.key) then some table else none := by
  have unparsed : rows.insert (marked lr) (table lr.key) = none :=
    insert_unparsed rows (marked lr) isRemove marker_unparsed (table lr.key)
  have applied : rows.apply (marked lr) (table lr.key) =
      if Rows.late (marked lr) (table lr.key) then some (table lr.key) else none := by
    unfold Rows.apply
    rw [unparsed, Option.bind_none]
  unfold Rows.run
  rw [if_pos isRemove]
  change (rows.apply (marked lr) (table lr.key)).map (Function.update table lr.key) = _
  rw [applied, apply_ite (Option.map _), Option.map_some, Function.update_eq_self, Option.map_none]

/-- Replay of a remove fails unless something as new is stored. -/
theorem remove_law_iff (lr : Logrecord) (table : List UInt8 → Value Row)
    (isRemove : lr.command = Logcmd.remove) :
    RemoveLaw rows lr table ↔ ¬ Older lr.ts (table lr.key) := by
  constructor
  · intro law older
    obtain ⟨after, ran, -⟩ := law older
    have later : Older (marked lr).ts (table lr.key) := older_mono (le_marker lr.ts) older
    have early := older_early later
    rw [run_remove rows isRemove, early] at ran
    cases ran
  · exact fun newer older => absurd older newer

/-- Rows that are their columns from 0 on. -/
def columns : Rows (List (Nat × List UInt8)) where
  create changes := changes
  create1 value := [(0, value)]
  update r changes := r ++ changes
  col r i := ((r.reverse.find? fun c => c.1 = i).map (·.2)).getD []

def removal : Logrecord := ⟨Logcmd.remove, [0x6B], [], 6, 0, 3⟩

theorem remove_law_newer : RemoveLaw columns removal fun _ => .row 8 [(0, [0x76])] :=
  (remove_law_iff columns removal _ rfl).mpr (by unfold Older; decide)

/-- Key `k` holds a row of time 4, and is removed at time 6. -/
theorem remove_fails : ¬ ∀ {Row : Type} (rows : Rows Row) (lr : Logrecord)
    (table : List UInt8 → Value Row), lr.command = Logcmd.remove → RemoveLaw rows lr table := by
  intro claim
  obtain ⟨after, ran, -⟩ := claim columns removal (fun _ => .row 4 [(0, [0x76])]) rfl (by unfold Older; decide)
  rw [run_remove columns rfl, if_neg (by decide)] at ran
  cases ran

end Incll.Proof.Replay
