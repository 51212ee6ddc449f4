import Incll.Proof.RowBlocks.Rows

/-! # Each block has one owner

A block that is allocated is a column of one row in the tree, in limbo, or freed. A block that a
thread can still reach is in the tree, or in limbo and waits for this thread. -/

namespace Incll.Proof.RowBlocks
open Incll.Model.RowBlocks
open Incll.Model.Kvrow (Change lastColumn)

def columnOf : Object → Option Nat
  | .row _ => none
  | .column b => some b

def columnsIn (rows : Nat → Row) (tree : List Nat) : List Nat :=
  tree.flatMap fun r => (rows r).columns

def treeColumns (s : State) : List Nat := columnsIn s.rows s.tree

def limboColumns (s : State) : List Nat := s.limbo.filterMap fun e => columnOf e.1

def owners (s : State) (b : Nat) : Nat :=
  (treeColumns s).count b + (limboColumns s).count b + s.freed.count b

/-- The block is not freed before thread `t` is quiescent. -/
def Protected (s : State) (t b : Nat) : Prop :=
  b ∈ treeColumns s ∨ ∃ readers, (Object.column b, readers) ∈ s.limbo ∧ t ∈ readers

structure Ownership (s : State) : Prop where
  full : ∀ r ∈ s.tree, Full (s.rows r)
  distinct : s.tree.Nodup
  linked : ∀ r ∈ s.tree, r < s.nextRow
  unlinked : ∀ r readers, (Object.row r, readers) ∈ s.limbo → r < s.nextRow ∧ r ∉ s.tree
  owner : ∀ b, owners s b = fresh 0 s.nextColumn b

/-- The rows that `query` keeps for snapshots point to blocks that have been allocated. -/
def Stored (s : State) : Prop :=
  ∀ q storage, s.snapshot q = some storage → ∀ i b, storage.cols i = some b → b < s.nextColumn

structure Guarded (s : State) : Prop where
  inside : ∀ e ∈ s.limbo, ∀ t ∈ e.2, t ∈ s.inside
  rows : ∀ r readers t b, (Object.row r, readers) ∈ s.limbo → t ∈ readers → b ∈ s.columnsOf r →
    Protected s t b
  taken : ∀ t b, b ∈ s.taken t → t ∈ s.inside ∧ Protected s t b

/-- What a call does that changes a row of the tree: each column stays in the tree or is passed to
`deallocate_rcu`, and so is the block of a row that is unlinked. -/
structure Moves (s s' : State) (retired : List Object) : Prop where
  inside : s'.inside = s.inside
  taken : s'.taken = s.taken
  snapshot : s'.snapshot = s.snapshot
  freed : s'.freed = s.freed
  limbo : s'.limbo = retired.map (fun o => (o, s.inside)) ++ s.limbo
  nextColumn : s.nextColumn ≤ s'.nextColumn
  nextRow : s.nextRow ≤ s'.nextRow
  kept : ∀ b, (treeColumns s').count b + (retired.filterMap columnOf).count b =
    (treeColumns s).count b + fresh s.nextColumn s'.nextColumn b
  full : ∀ r ∈ s'.tree, Full (s'.rows r)
  distinct : s'.tree.Nodup
  linked : ∀ r ∈ s'.tree, r ∈ s.tree ∨ (s.nextRow ≤ r ∧ r < s'.nextRow)
  unlinked : ∀ r, Object.row r ∈ retired → r ∈ s.tree ∧ r ∉ s'.tree ∧ s'.rows r = s.rows r
  others : ∀ r < s.nextRow, r ∉ s.tree → s'.rows r = s.rows r

variable {s s' : State} {retired : List Object}

theorem filterMap_columnOf (blocks : List Nat) :
    (blocks.map Object.column).filterMap columnOf = blocks := by
  simp [List.filterMap_map, Function.comp_def, columnOf]

theorem limboColumns_of (moves : Moves s s' retired) :
    limboColumns s' = retired.filterMap columnOf ++ limboColumns s := by
  simp [limboColumns, moves.limbo, List.filterMap_map]

theorem owners_of (moves : Moves s s' retired) (b : Nat) :
    owners s' b = owners s b + fresh s.nextColumn s'.nextColumn b := by
  have kept := moves.kept b
  simp only [owners, limboColumns_of moves, List.count_append, moves.freed]
  omega

theorem protected_of (moves : Moves s s' retired) {t : Nat} (active : t ∈ s.inside) {b : Nat}
    (safe : Protected s t b) : Protected s' t b := by
  rcases safe with member | ⟨readers, member, waits⟩
  · have kept := moves.kept b
    have placed : 0 < (treeColumns s).count b := List.count_pos_iff.mpr member
    by_cases stays : b ∈ treeColumns s'
    · exact .inl stays
    · rw [List.count_eq_zero.mpr stays] at kept
      obtain ⟨o, passed, column⟩ := List.mem_filterMap.mp
        (List.count_pos_iff.mp (show 0 < (retired.filterMap columnOf).count b by omega))
      cases o with
      | row r => simp [columnOf] at column
      | column c =>
          cases column
          refine .inr ⟨s.inside, ?_, active⟩
          rw [moves.limbo]
          exact List.mem_append_left _ (List.mem_map.mpr ⟨_, passed, rfl⟩)
  · refine .inr ⟨readers, ?_, waits⟩
    rw [moves.limbo]
    exact List.mem_append_right _ member

/-- A row in limbo was there before, or has just been unlinked. -/
theorem limbo_row (moves : Moves s s' retired) {r : Nat} {readers : List Nat}
    (member : (Object.row r, readers) ∈ s'.limbo) :
    (Object.row r, readers) ∈ s.limbo ∨ (Object.row r ∈ retired ∧ readers = s.inside) := by
  rw [moves.limbo, List.mem_append] at member
  rcases member with member | member
  · obtain ⟨o, passed, eq⟩ := List.mem_map.mp member
    simp only [Prod.mk.injEq] at eq
    obtain ⟨rfl, rfl⟩ := eq
    exact .inr ⟨passed, rfl⟩
  · exact .inl member

theorem Ownership.moves (owned : Ownership s) (moves : Moves s s' retired) : Ownership s' where
  full := moves.full
  distinct := moves.distinct
  linked r member := by
    rcases moves.linked r member with before | new
    · exact lt_of_lt_of_le (owned.linked r before) moves.nextRow
    · exact new.2
  unlinked r readers member := by
    rcases limbo_row moves member with before | ⟨passed, -⟩
    · obtain ⟨old, gone⟩ := owned.unlinked r readers before
      refine ⟨lt_of_lt_of_le old moves.nextRow, fun member => ?_⟩
      rcases moves.linked r member with again | new
      · exact gone again
      · omega
    · obtain ⟨was, gone, -⟩ := moves.unlinked r passed
      exact ⟨lt_of_lt_of_le (owned.linked r was) moves.nextRow, gone⟩
  owner b := by
    rw [owners_of moves, owned.owner b, fresh_trans (Nat.zero_le _) moves.nextColumn b]

theorem Guarded.moves (guarded : Guarded s) (owned : Ownership s) (moves : Moves s s' retired) :
    Guarded s' where
  inside e member t waits := by
    rw [moves.inside]
    rw [moves.limbo, List.mem_append] at member
    rcases member with member | member
    · obtain ⟨o, -, rfl⟩ := List.mem_map.mp member
      exact waits
    · exact guarded.inside e member t waits
  rows r readers t b member waits column := by
    rcases limbo_row moves member with before | ⟨passed, rfl⟩
    · obtain ⟨old, gone⟩ := owned.unlinked r readers before
      rw [State.columnsOf, moves.others r old gone] at column
      exact protected_of moves (guarded.inside _ before t waits)
        (guarded.rows r readers t b before waits column)
    · obtain ⟨was, -, same⟩ := moves.unlinked r passed
      rw [State.columnsOf, same] at column
      exact protected_of moves waits (.inl (List.mem_flatMap.mpr ⟨r, was, column⟩))
  taken t b member := by
    rw [moves.taken] at member
    obtain ⟨active, safe⟩ := guarded.taken t b member
    rw [moves.inside]
    exact ⟨active, protected_of moves active safe⟩

end Incll.Proof.RowBlocks
