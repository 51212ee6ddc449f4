import Incll.Proof.Kvrow.Bag

/-! # The representations of a row show the same, but for the timestamp of a change in place -/

namespace Incll.Proof.Kvrow
open Incll.Model.Kvrow Incll.Model.Kvrow.ValueBag

variable {o : Nat}

/-! Arrays of column blocks. -/

@[simp] theorem makeColumn_getD (value : List UInt8) : (makeColumn value).getD [] = value := by
  rw [makeColumn]
  split
  · rfl
  · simp_all

theorem setColumns_getD (changes : List Change) (cols : Nat → Column) (i : Nat) :
    (setColumns cols changes i).getD [] = changed (fun j => (cols j).getD []) changes i := by
  induction changes generalizing cols with
  | nil => rfl
  | cons c rest ih =>
      refine (ih _).trans (changed_congr rest ?_)
      by_cases here : i = c.1
      · subst here
        simp
      · simp [Function.update_of_ne here]

/-- Columns that are null from `ncol` on, as a row shows them. -/
def shown (ncol : Nat) (cols : Nat → Column) (i : Nat) : List UInt8 :=
  if i < ncol then (cols i).getD [] else []

theorem shown_setColumns {cols : Nat → Column} {n : Nat} {changes : List Change}
    (inside : ∀ c ∈ changes, c.1 < n) :
    shown n (setColumns cols changes) = changed (shown n cols) changes := by
  funext i
  rw [shown]
  split
  · rename_i bound
    rw [setColumns_getD]
    exact changed_congr changes (if_pos bound).symm
  · rename_i out
    rw [changed_of_ne fun c member => by have := inside c member; omega, shown, if_neg out]

theorem shown_copyColumns (memory cols : Nat → Column) {n m : Nat} (more : n ≤ m) :
    shown m (copyColumns memory cols n m) = shown n cols := by
  funext i
  simp only [shown, copyColumns]
  split
  · split <;> rfl
  · rw [if_neg (by omega)]

/-! Sequences of calls. -/

inductive Call where
  | create (changes : List Change) (ts : Nat)
  | create1 (value : List UInt8) (ts : Nat)
  | update (changes : List Change) (ts : Nat)

def Call.ts : Call → Nat
  | .create _ ts | .create1 _ ts | .update _ ts => ts

def Call.changes : Call → List Change
  | .create changes _ | .update changes _ => changes
  | .create1 value _ => [(0, value)]

/-- What the rows allocated in a call hold before the call stores to them. -/
structure Memory (o : Nat) where
  bag : ValueBag o
  array : Nat → Column
  versioned : Nat → Column

/-- One row in the three representations. -/
structure Rows (o : Nat) where
  bag : ValueBag o
  array : ValueArray
  versioned : ValueVersionedArray

def Rows.step (memory : Nat → Memory o) : Option (Rows o) → Call → Option (Rows o)
  | _, .create changes ts => do
      let bag ← ValueBag.create (memory ts).bag changes ts
      let array ← ValueArray.create (memory ts).array changes ts
      let versioned ← ValueVersionedArray.create (memory ts).versioned changes ts
      return ⟨bag, array, versioned⟩
  | _, .create1 value ts =>
      some ⟨ValueBag.create1 (memory ts).bag value ts, ValueArray.create1 (memory ts).array value ts,
        ValueVersionedArray.create1 (memory ts).versioned value ts⟩
  | none, .update _ _ => none
  | some r, .update changes ts => do
      let bag ← r.bag.update (memory ts).bag changes ts
      let array ← r.array.update (memory ts).array changes ts
      let versioned ← r.versioned.update (memory ts).versioned changes ts false
      return ⟨bag, array, versioned⟩

def Rows.run (memory : Nat → Memory o) (calls : List Call) : Option (Rows o) :=
  calls.foldl (Rows.step memory) none

structure Rows.Agree (r : Rows o) : Prop where
  ts : r.bag.ts = r.array.ts ∧ r.array.ts = r.versioned.ts
  ncol : r.bag.ncol = r.array.ncol ∧ r.array.ncol = r.versioned.ncol
  col : ∀ i, r.bag.col i = r.array.col i ∧ r.array.col i = r.versioned.col i

/-- A row as the calls describe it. -/
structure Row where
  ts : Nat
  ncol : Nat
  col : Nat → List UInt8

def Row.none : Row := ⟨0, 0, fun _ => []⟩

def Row.change (r : Row) (changes : List Change) (ts : Nat) : Row :=
  ⟨ts, max r.ncol (((lastColumn changes).getD 0) + 1), changed r.col changes⟩

def Row.step (r : Row) (c : Call) : Row :=
  match c with
  | .create changes ts => Row.none.change changes ts
  | .create1 value ts => Row.none.change [(0, value)] ts
  | .update changes ts => r.change changes ts

def Row.run (calls : List Call) : Row := calls.foldl Row.step Row.none

/-- The row is within the limits of a bag. -/
def Row.Fits (o : Nat) (r : Row) : Prop :=
  headerSize o r.ncol + total (upTo r.col 0 r.ncol) < 2 ^ (8 * o)

/-- The calls of the statement: a row is made first, the change lists are not empty and have strictly
increasing columns, timestamps increase, and every row is within the limits. -/
structure Valid (o : Nat) (calls : List Call) : Prop where
  starts : ∀ changes ts rest, calls ≠ .update changes ts :: rest
  changes : ∀ c ∈ calls, c.changes ≠ [] ∧ Increasing c.changes
  ts : (calls.map Call.ts).Pairwise (· < ·)
  fits : ∀ before, before <+: calls → (Row.run before).Fits o

/-- Every update is past the columns that the row has. -/
def Grows (calls : List Call) : Prop :=
  ∀ before changes ts rest last, calls = before ++ .update changes ts :: rest →
    lastColumn changes = some last → (Row.run before).ncol ≤ last

/-- The representations show the row; the timestamp of the versioned array may be an older one. -/
structure Holds (r : Rows o) (row : Row) : Prop where
  bag : Shows r.bag row.ts (upTo row.col 0 row.ncol)
  arrayTs : r.array.ts = row.ts
  arrayNcol : r.array.ncol = row.ncol
  arrayCol : shown row.ncol r.array.cols = row.col
  versionedTs : r.versioned.ts ≤ row.ts
  versionedNcol : r.versioned.ncol = row.ncol
  versionedCap : r.versioned.ncolCap = row.ncol
  versionedCol : shown row.ncol r.versioned.cols = row.col

theorem upTo_getD {cols : Nat → Column} {f : Nat → List UInt8} {n : Nat} (h : shown n cols = f) :
    ((upTo f 0 n).getD · []) = f := by
  subst h
  funext i
  rw [List.getD_eq_getElem?_getD]
  by_cases inside : i < n
  · rw [List.getElem?_eq_getElem (by rw [upTo_length]; exact inside), Option.getD_some]
    simp [upTo]
  · rw [List.getElem?_eq_none (by rw [upTo_length]; omega), Option.getD_none, shown, if_neg inside]

theorem Holds.agree_iff {r : Rows o} {row : Row} (h : Holds r row) :
    r.Agree ↔ r.versioned.ts = row.ts := by
  constructor
  · exact fun agree => agree.ts.2.symm.trans h.arrayTs
  · intro same
    refine ⟨⟨h.bag.ts.trans h.arrayTs.symm, h.arrayTs.trans same.symm⟩,
      ⟨?_, h.arrayNcol.trans h.versionedNcol.symm⟩, fun i => ?_⟩
    · rw [h.bag.ncol, upTo_length, h.arrayNcol]
    · have array : r.array.col i = row.col i := by
        rw [← h.arrayCol, ← h.arrayNcol]
        rfl
      have versioned : r.versioned.col i = row.col i := by
        rw [← h.versionedCol, ← h.versionedNcol]
        rfl
      rw [array, versioned, h.bag.col]
      exact ⟨congrFun (upTo_getD h.arrayCol) i, rfl⟩

section change
variable {row : Row} {changes : List Change} {last ts : Nat} (memory : Nat → Column)
  (increasing : Increasing changes) (lastCol : lastColumn changes = some last)
include lastCol

theorem change_ncol (row : Row) (ts : Nat) :
    (row.change changes ts).ncol = max row.ncol (last + 1) := by
  simp [Row.change, lastCol]

include increasing

theorem change_inside (n : Nat) : ∀ c ∈ changes, c.1 < max n (last + 1) := by
  intro c member
  have := le_lastColumn increasing lastCol member
  omega

theorem array_update {a : ValueArray} (order : a.ts ≤ ts) (ncol : a.ncol = row.ncol)
    (col : shown row.ncol a.cols = row.col) :
    ∃ a', a.update memory changes ts = some a' ∧ a'.ts = ts ∧
      a'.ncol = (row.change changes ts).ncol ∧
      shown (row.change changes ts).ncol a'.cols = (row.change changes ts).col := by
  have inside := change_inside increasing lastCol row.ncol
  rw [change_ncol lastCol]
  simp only [ValueArray.update, lastCol, bind, Option.bind_some, if_neg (Nat.not_lt.mpr order), ncol]
  refine ⟨_, rfl, rfl, rfl, ?_⟩
  rw [shown_setColumns inside, shown_copyColumns _ _ (Nat.le_max_left ..), col]
  rfl

theorem versioned_update (ts : Nat) {a : ValueVersionedArray} (ncol : a.ncol = row.ncol)
    (cap : a.ncolCap = row.ncol) (col : shown row.ncol a.cols = row.col) (alwaysCopy : Bool)
    (copies : alwaysCopy = true → row.ncol ≤ last) :
    ∃ a', a.update memory changes ts alwaysCopy = some a' ∧
      a'.ts = (if row.ncol ≤ last then ts else a.ts) ∧
      a'.ncol = (row.change changes ts).ncol ∧ a'.ncolCap = (row.change changes ts).ncol ∧
      shown (row.change changes ts).ncol a'.cols = (row.change changes ts).col := by
  have inside := change_inside increasing lastCol row.ncol
  rw [change_ncol lastCol]
  simp only [ValueVersionedArray.update, lastCol, bind, Option.bind_some, ncol, cap]
  by_cases grows : row.ncol ≤ last
  · rw [if_pos (.inl (by omega)), if_neg (by omega)]
    rw [max_eq_right (by omega)] at inside ⊢
    refine ⟨_, rfl, (if_pos grows).symm, rfl, rfl, ?_⟩
    rw [shown_setColumns inside, shown_copyColumns _ _ (by omega), col]
    rfl
  · have here : ¬ (row.ncol < last + 1 ∨ alwaysCopy = true) := by
      rintro (more | always)
      · omega
      · exact grows (copies always)
    rw [if_neg here, if_neg (by omega)]
    rw [max_eq_left (by omega)] at inside ⊢
    refine ⟨_, rfl, (if_neg grows).symm, rfl, rfl, ?_⟩
    rw [shown_setColumns inside, col]
    rfl

/-- A change of a row that the representations hold. -/
theorem holds_change {bag : ValueBag o} {array : ValueArray} {versioned : ValueVersionedArray}
    (positive : 0 < o) (holds : Holds ⟨bag, array, versioned⟩ row) (order : row.ts ≤ ts)
    (fits : (row.change changes ts).Fits o) (memory : Memory o) (alwaysCopy : Bool)
    (copies : alwaysCopy = true → row.ncol ≤ last) :
    ∃ bag' array' versioned', bag.update memory.bag changes ts = some bag' ∧
      array.update memory.array changes ts = some array' ∧
      versioned.update memory.versioned changes ts alwaysCopy = some versioned' ∧
      Holds ⟨bag', array', versioned'⟩ (row.change changes ts) ∧
      versioned'.ts = if row.ncol ≤ last then ts else versioned.ts := by
  obtain ⟨shows, arrayTs, arrayNcol, arrayCol, versionedTs, versionedNcol, cap, versionedCol⟩ := holds
  have getD := upTo_getD arrayCol
  have count : max (upTo row.col 0 row.ncol).length (last + 1) = (row.change changes ts).ncol := by
    rw [upTo_length, change_ncol lastCol]
  obtain ⟨bag', bagUpdate, bagShows⟩ := shows_update positive shows increasing lastCol count
    memory.bag ts (by rw [getD]; exact fits)
  rw [getD] at bagShows
  obtain ⟨array', arrayUpdate, arrayTs', arrayNcol', arrayCol'⟩ :=
    array_update memory.array increasing lastCol (arrayTs.le.trans order) arrayNcol arrayCol
  obtain ⟨versioned', versionedUpdate, versionedTs', versionedNcol', cap', versionedCol'⟩ :=
    versioned_update memory.versioned increasing lastCol ts versionedNcol cap versionedCol
      alwaysCopy copies
  refine ⟨bag', array', versioned', bagUpdate, arrayUpdate, versionedUpdate,
    ⟨bagShows, arrayTs', arrayNcol', arrayCol', ?_, versionedNcol', cap', versionedCol'⟩,
    versionedTs'⟩
  show versioned'.ts ≤ ts
  rw [versionedTs']
  split
  · exact le_rfl
  · exact versionedTs.trans order

end change

theorem holds_empty (positive : 0 < o) :
    Holds ⟨ValueBag.empty o, ValueArray.empty, ValueVersionedArray.empty⟩ Row.none :=
  ⟨shows_empty positive, rfl, rfl, rfl, le_rfl, rfl, rfl, rfl⟩

theorem lastColumn_of_ne_nil {changes : List Change} (more : changes ≠ []) :
    ∃ last, lastColumn changes = some last :=
  ⟨_, by rw [lastColumn, List.getLast?_eq_some_getLast more, Option.map_some]⟩

/-- The call stores its timestamp in the versioned array. -/
def Call.Stores (c : Call) (row : Row) : Prop :=
  ∀ changes ts last, c = .update changes ts → lastColumn changes = some last → row.ncol ≤ last

/-- One call. -/
theorem holds_step (positive : 0 < o) (memory : Nat → Memory o) {before : Option (Rows o)}
    {row : Row} {c : Call} (more : c.changes ≠ []) (increasing : Increasing c.changes)
    (fits : (row.step c).Fits o)
    (holds : ∀ changes ts, c = .update changes ts → ∃ r, before = some r ∧ Holds r row ∧ row.ts < ts) :
    ∃ r, Rows.step memory before c = some r ∧ Holds r (row.step c) ∧
      (r.versioned.ts = (row.step c).ts ↔ c.Stores row) := by
  cases c with
  | create changes ts =>
      simp only [Call.changes] at more increasing
      obtain ⟨last, lastCol⟩ := lastColumn_of_ne_nil more
      obtain ⟨bag, array, versioned, bagUpdate, arrayUpdate, versionedUpdate, holds, stored⟩ :=
        holds_change increasing lastCol positive (holds_empty positive) (Nat.zero_le ts) fits
          (memory ts) true fun _ => Nat.zero_le last
      refine ⟨⟨bag, array, versioned⟩, ?_, holds, ?_⟩
      · simp only [Rows.step, ValueBag.create, ValueArray.create, ValueVersionedArray.create,
          bagUpdate, arrayUpdate, versionedUpdate, bind, Option.bind_some, pure]
      · exact iff_of_true (stored.trans (if_pos (Nat.zero_le last))) (by simp [Call.Stores])
  | create1 value ts =>
      have first (cols : Nat → Column) :
          shown 1 (Function.update cols 0 (makeColumn value)) = changed (fun _ => []) [(0, value)] := by
        funext i
        by_cases zero : i = 0
        · subst zero
          simp [shown, changed]
        · rw [shown, if_neg (by omega)]
          simp [changed, zero]
      have only : upTo (changed (fun _ => []) [(0, value)]) 0 1 = [value] := by simp [upTo, changed]
      refine ⟨_, rfl, ⟨?_, rfl, rfl, first _, le_rfl, rfl, rfl, first _⟩, iff_of_true rfl (by simp [Call.Stores])⟩
      show Shows _ ts (upTo (changed (fun _ => []) [(0, value)]) 0 1)
      have small : headerSize o 1 + total (upTo (changed (fun _ => []) [(0, value)]) 0 1) <
          2 ^ (8 * o) := fits
      rw [only] at small ⊢
      exact shows_create1 _ (by simpa using small)
  | update changes ts =>
      simp only [Call.changes] at more increasing
      obtain ⟨last, lastCol⟩ := lastColumn_of_ne_nil more
      obtain ⟨r, rfl, holds, order⟩ := holds changes ts rfl
      obtain ⟨bag, array, versioned, bagUpdate, arrayUpdate, versionedUpdate, holds', stored⟩ :=
        holds_change increasing lastCol positive holds order.le fits (memory ts) false (by simp)
      refine ⟨⟨bag, array, versioned⟩, ?_, holds', ?_⟩
      · simp only [Rows.step, bagUpdate, arrayUpdate, versionedUpdate, bind, Option.bind_some, pure]
      · have old := holds.versionedTs
        constructor
        · intro same changes' ts' last' eq lastCol'
          cases eq
          rw [lastCol] at lastCol'
          cases lastCol'
          by_contra inPlace
          rw [stored, if_neg inPlace] at same
          have : r.versioned.ts = ts := same
          omega
        · exact fun stores => stored.trans (if_pos (stores changes ts last rfl lastCol))

theorem step_ts (row : Row) (c : Call) : (row.step c).ts = c.ts := by cases c <;> rfl

theorem run_append (before : List Call) (c : Call) :
    Row.run (before ++ [c]) = (Row.run before).step c := by
  simp [Row.run]

/-- The rows after each call. -/
theorem holds_run (positive : 0 < o) (memory : Nat → Memory o) {calls : List Call}
    (valid : Valid o calls) (before : List Call) (c : Call) (rest : List Call)
    (split : calls = before ++ c :: rest) :
    ∃ r, Rows.run memory (before ++ [c]) = some r ∧ Holds r (Row.run (before ++ [c])) ∧
      (r.versioned.ts = (Row.run (before ++ [c])).ts ↔ c.Stores (Row.run before)) := by
  have step (before : List Call) (c : Call) (rest : List Call) (split : calls = before ++ c :: rest)
      (holds : ∀ changes ts, c = .update changes ts →
        ∃ r, Rows.run memory before = some r ∧ Holds r (Row.run before) ∧
          (Row.run before).ts < ts) :
      ∃ r, Rows.run memory (before ++ [c]) = some r ∧ Holds r (Row.run (before ++ [c])) ∧
        (r.versioned.ts = (Row.run (before ++ [c])).ts ↔ c.Stores (Row.run before)) := by
    obtain ⟨more, increasing⟩ := valid.changes c (by simp [split])
    have fits := valid.fits (before ++ [c]) ⟨rest, by simp [split]⟩
    rw [run_append] at fits ⊢
    rw [Rows.run, List.foldl_append]
    exact holds_step positive memory more increasing fits holds
  induction before using List.reverseRecOn generalizing c rest with
  | nil =>
      refine step [] c rest split fun changes ts eq => ?_
      exact absurd (split.trans (by rw [eq]; rfl)) (valid.starts changes ts rest)
  | append_singleton before c' ih =>
      refine step (before ++ [c']) c rest split fun changes ts eq => ?_
      obtain ⟨r, run, holds, -⟩ := ih c' (c :: rest) (by simp [split])
      refine ⟨r, run, holds, ?_⟩
      rw [run_append, step_ts]
      have ordered := valid.ts
      rw [split, eq] at ordered
      simp only [List.map_append, List.map_cons, List.append_assoc,
        List.singleton_append, List.pairwise_append, List.pairwise_cons] at ordered
      exact ordered.2.1.1 ts (by simp [Call.ts])

/-- After each call the representations report the same if and only if no update is in place. -/
theorem rows_agree_iff (positive : 0 < o) (memory : Nat → Memory o) {calls : List Call}
    (valid : Valid o calls) :
    (∀ before, before <+: calls → before ≠ [] →
      ∃ r, Rows.run memory before = some r ∧ r.Agree) ↔ Grows calls := by
  constructor
  · intro all before changes ts rest last split lastCol
    obtain ⟨r, run, holds, stores⟩ := holds_run positive memory valid before _ rest split
    obtain ⟨r', run', agree⟩ := all (before ++ [.update changes ts]) ⟨rest, by simp [split]⟩ (by simp)
    rw [run] at run'
    cases run'
    exact stores.mp (holds.agree_iff.mp agree) changes ts last rfl lastCol
  · rintro grows before ⟨rest, rfl⟩ more
    obtain ⟨before, c, rfl⟩ := (List.eq_nil_or_concat' before).resolve_left more
    obtain ⟨r, run, holds, stores⟩ := holds_run positive memory valid before c rest (by simp)
    refine ⟨r, run, holds.agree_iff.mpr (stores.mpr ?_)⟩
    rintro changes ts last rfl lastCol
    exact grows before changes ts rest last (by simp) lastCol

def someMemory : Memory 2 := ⟨⟨0, 0, fun _ => 0, fun _ => 0⟩, fun _ => none, fun _ => none⟩

/-- A row with one column, and an update of the column `idx`. -/
def twoCalls (idx : Nat) : List Call := [.create1 [7] 1, .update [(idx, [8])] 2]

theorem valid_twoCalls {idx : Nat} (small : idx ≤ 1) : Valid 2 (twoCalls idx) := by
  refine ⟨nofun, ?_, by simp [twoCalls, Call.ts], ?_⟩
  · simp [twoCalls, Call.changes, Increasing]
  · rintro before ⟨rest, split⟩
    have cases : before = [] ∨ before = [.create1 [7] 1] ∨ before = twoCalls idx := by
      rcases before with _ | ⟨c, _ | ⟨c', _ | ⟨c'', more⟩⟩⟩ <;> simp_all [twoCalls]
    have : idx = 0 ∨ idx = 1 := by omega
    rcases this with rfl | rfl <;> rcases cases with rfl | rfl | rfl <;>
      simp only [Row.Fits] <;> decide

theorem rows_agree_iff_growing : Valid 2 (twoCalls 1) ∧
    ∀ before, before <+: twoCalls 1 → before ≠ [] →
      ∃ r, Rows.run (fun _ => someMemory) before = some r ∧ r.Agree := by
  refine ⟨valid_twoCalls le_rfl, (rows_agree_iff (by decide) _ (valid_twoCalls le_rfl)).mpr ?_⟩
  intro before changes ts rest last split lastCol
  rcases before with _ | ⟨c, _ | ⟨c', more⟩⟩ <;> simp [twoCalls] at split
  obtain ⟨rfl, ⟨rfl, rfl⟩, rfl⟩ := split
  cases lastCol
  decide

/-- The column of the row is changed in place: the versioned array keeps the timestamp of the
creation. -/
theorem versioned_ts_stale :
    ¬ ∀ (memory : Nat → Memory 2) (calls : List Call), Valid 2 calls →
      ∀ before, before <+: calls → before ≠ [] →
        ∃ r, Rows.run memory before = some r ∧ r.Agree := by
  intro claim
  obtain ⟨r, run, agree⟩ := claim (fun _ => someMemory) (twoCalls 0) (valid_twoCalls (by decide)) _
    (List.prefix_rfl) (by simp [twoCalls])
  have stale : (Rows.run (fun _ => someMemory) (twoCalls 0)).map
      (fun r => (r.array.ts, r.versioned.ts)) = some (2, 1) := by decide
  rw [run] at stale
  simp only [Option.map_some, Option.some.injEq, Prod.mk.injEq] at stale
  have := agree.ts.2
  omega

end Incll.Proof.Kvrow
