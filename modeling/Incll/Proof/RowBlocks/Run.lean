import Incll.Proof.RowBlocks.Calls

/-! # No shared column is freed

`snapshot` deallocates the columns of a storage row that is too small, but these belong to the rows
it was copied from. -/

namespace Incll.Proof.RowBlocks
open Incll.Lib
open Incll.Model.RowBlocks
open Incll.Model.Kvrow (Change lastColumn)

/-- No block has been freed twice or waits to be freed again, and no row in the tree and no snapshot
that a thread still uses points to a block that has been freed. -/
structure Safe (s : State) : Prop where
  once : s.freed.Nodup
  limbo : ∀ b ∈ s.freed, ∀ e ∈ s.limbo, e.1 ≠ .column b
  tree : ∀ b ∈ s.freed, ∀ r ∈ s.tree, b ∉ s.columnsOf r
  snapshots : ∀ b ∈ s.freed, ∀ t, b ∉ s.taken t

/-- No snapshot replaces a storage row that points to columns. -/
def KeepsStorage (s : State) : Call → Prop
  | .emitFields _ q r _ =>
      ∀ storage ∈ s.snapshot q, storage.ncolCap < (s.rows r).ncol → storage.columns = []
  | _ => True

instance (s : State) : ∀ call, Decidable (KeepsStorage s call)
  | .emitFields _ q r _ => inferInstanceAs (Decidable
      (∀ storage ∈ s.snapshot q, storage.ncolCap < (s.rows r).ncol → storage.columns = []))
  | .applyPut .. | .applyReplace .. | .applyRemove .. => isTrue trivial
  | .rcuStart _ | .rcuQuiesce _ | .rcuStop _ | .free _ => isTrue trivial

structure Held (s : State) : Prop where
  owned : Ownership s
  guarded : Guarded s
  stored : Stored s

variable {s s' : State} {retired : List Object}

theorem Held.moves (held : Held s) (moves : Moves s s' retired) : Held s' :=
  ⟨held.owned.moves moves, held.guarded.moves held.owned moves, fun q storage kept i b at_i =>
    lt_of_lt_of_le (held.stored q storage (moves.snapshot ▸ kept) i b at_i) moves.nextColumn⟩

theorem held_init : Held .init where
  owned := by
    constructor <;> simp [State.init, owners, treeColumns, columnsIn, limboColumns, fresh_self]
  guarded := by
    constructor <;> simp [State.init]
  stored q storage kept := by simp [State.init] at kept

theorem protected_reads (held : Held s) {t r : Nat} (reads : s.reads t r = true) {b : Nat}
    (column : b ∈ s.columnsOf r) : Protected s t b := by
  simp only [State.reads, Bool.or_eq_true, decide_eq_true_eq, List.any_eq_true,
    Bool.and_eq_true] at reads
  rcases reads with inTree | ⟨⟨o, readers⟩, member, rfl, waits⟩
  · exact .inl (List.mem_flatMap.mpr ⟨r, inTree, column⟩)
  · exact held.guarded.rows r readers t b member waits column

/-- A block that a thread can reach has been allocated. -/
theorem protected_allocated (held : Held s) {t b : Nat} (safe : Protected s t b) :
    b < s.nextColumn := by
  have owner := held.owned.owner b
  have placed : 0 < owners s b := by
    rcases safe with inTree | ⟨readers, inLimbo, -⟩
    · have placed := List.count_pos_iff.mpr inTree
      rw [owners]
      omega
    · have placed : 0 < (limboColumns s).count b :=
        List.count_pos_iff.mpr (List.mem_filterMap.mpr ⟨_, inLimbo, rfl⟩)
      rw [owners]
      omega
  rw [fresh] at owner
  split_ifs at owner <;> omega

theorem reserve_keeps {row : Row} {storage : Option Row}
    (keeps : ∀ old ∈ storage, old.ncolCap < row.ncol → old.columns = []) :
    (row.reserve storage).2 = [] := by
  cases storage with
  | none => rfl
  | some old =>
      simp only [Row.reserve]
      split_ifs with small
      · exact keeps old rfl small
      · rfl

theorem emitFields_held (held : Held s) {t q r : Nat} {f : List Int} (active : t ∈ s.inside)
    (reads : s.reads t r = true) (keeps : KeepsStorage s (.emitFields t q r f))
    (emitted : s.emitFields t q r f = some s') : Held s' := by
  obtain ⟨⟨storage, taken, freed⟩, snapshot, rfl⟩ := Option.map_eq_some_iff.mp emitted
  obtain ⟨shared, freed_eq, points⟩ := snapshot_shares snapshot
  obtain rfl : freed = [] := freed_eq.trans (reserve_keeps keeps)
  refine ⟨⟨held.owned.full, held.owned.distinct, held.owned.linked, held.owned.unlinked,
    held.owned.owner⟩, ⟨held.guarded.inside, held.guarded.rows, fun u b member => ?_⟩,
    fun p new kept i b at_i => ?_⟩
  · by_cases same : u = t
    · subst same
      simp only [Function.update_self, List.mem_append] at member
      rcases member with new | old
      · exact ⟨active, protected_reads held reads (shared b new)⟩
      · exact held.guarded.taken u b old
    · simp only [Function.update_of_ne same] at member
      exact held.guarded.taken u b member
  · by_cases same : p = q
    · simp only [same, Function.update_self, Option.some.injEq] at kept
      subst kept
      rcases points i b at_i with column | ⟨old, stored, at_i⟩
      · exact protected_allocated held (protected_reads held reads column)
      · exact held.stored q old stored i b at_i
    · simp only [Function.update_of_ne same] at kept
      exact held.stored p new kept i b at_i

theorem mem_release {t : Nat} {o : Object} {readers : List Nat} :
    (o, readers) ∈ (s.release t).limbo ↔
      ∃ before, (o, before) ∈ s.limbo ∧ before.filter (· ≠ t) = readers := by
  simp only [State.release, List.mem_map, Prod.mk.injEq, Prod.exists]
  constructor
  · rintro ⟨o, before, member, rfl, eq⟩
    exact ⟨before, member, eq⟩
  · rintro ⟨before, member, eq⟩
    exact ⟨o, before, member, rfl, eq⟩

theorem protected_release {t u b : Nat} (other : u ≠ t) (safe : Protected s u b) :
    Protected (s.release t) u b := by
  rcases safe with inTree | ⟨readers, member, waits⟩
  · exact .inl inTree
  · exact .inr ⟨_, mem_release.mpr ⟨readers, member, rfl⟩,
      List.mem_filter.mpr ⟨waits, by simpa using other⟩⟩

/-- Thread `t` has been quiescent, and may have left its section. -/
theorem release_held (held : Held s) (t : Nat) {inside : List Nat}
    (others : ∀ u ∈ s.inside, u ≠ t → u ∈ inside) :
    Held { s.release t with inside := inside } := by
  have waiting : ∀ {o readers u}, (o, readers) ∈ (s.release t).limbo → u ∈ readers →
      u ≠ t ∧ ∃ before, (o, before) ∈ s.limbo ∧ u ∈ before := by
    intro o readers u member waits
    obtain ⟨before, earlier, rfl⟩ := mem_release.mp member
    rw [List.mem_filter] at waits
    exact ⟨by simpa using waits.2, before, earlier, waits.1⟩
  refine ⟨⟨held.owned.full, held.owned.distinct, held.owned.linked, ?_, ?_⟩, ⟨?_, ?_, ?_⟩,
    held.stored⟩
  · intro r readers member
    obtain ⟨before, member, -⟩ := mem_release.mp member
    exact held.owned.unlinked r before member
  · intro b
    have same : limboColumns { s.release t with inside := inside } = limboColumns s := by
      simp [limboColumns, State.release, List.filterMap_map]
    have before := held.owned.owner b
    rw [owners] at before ⊢
    rw [same]
    exact before
  · rintro ⟨o, readers⟩ member u waits
    obtain ⟨other, before, member, waits⟩ := waiting member waits
    exact others u (held.guarded.inside _ member u waits) other
  · intro r readers u b member waits column
    obtain ⟨other, before, member, waits⟩ := waiting member waits
    exact protected_release other (held.guarded.rows r before u b member waits column)
  · intro u b member
    by_cases same : u = t
    · simp [State.release, same] at member
    · simp only [State.release, Function.update_of_ne same] at member
      obtain ⟨active, safe⟩ := held.guarded.taken u b member
      exact ⟨others u active same, protected_release same safe⟩

theorem rcuStart_held (held : Held s) (t : Nat) : Held { s with inside := t :: s.inside } where
  owned := ⟨held.owned.full, held.owned.distinct, held.owned.linked, held.owned.unlinked,
    held.owned.owner⟩
  stored := held.stored
  guarded := {
    inside e member u waits := List.mem_cons_of_mem _ (held.guarded.inside e member u waits)
    rows := held.guarded.rows
    taken u b member :=
      ⟨List.mem_cons_of_mem _ (held.guarded.taken u b member).1,
        (held.guarded.taken u b member).2⟩ }

theorem owners_free {o : Object} (member : (o, []) ∈ s.limbo) (b : Nat) :
    owners (s.free o) b = owners s b := by
  have split := ((List.perm_cons_erase member).filterMap fun e => columnOf e.1).count_eq b
  cases o with
  | row r =>
      rw [List.filterMap_cons_none rfl] at split
      simp only [owners, limboColumns, State.free, split]
      rfl
  | column c =>
      simp only [List.filterMap_cons, columnOf, List.count_cons] at split
      simp only [owners, limboColumns, State.free, columnOf, List.count_cons, split, treeColumns]
      omega

theorem protected_free {o : Object} {t b : Nat} (safe : Protected s t b) :
    Protected (s.free o) t b := by
  rcases safe with inTree | ⟨readers, member, waits⟩
  · exact .inl inTree
  · refine .inr ⟨readers, (List.mem_erase_of_ne fun eq => ?_).mpr member, waits⟩
    simp only [Prod.mk.injEq] at eq
    simp [eq.2] at waits

theorem free_held (held : Held s) {o : Object} (member : (o, []) ∈ s.limbo) :
    Held (s.free o) where
  owned := {
    full := held.owned.full
    distinct := held.owned.distinct
    linked := held.owned.linked
    unlinked r readers rest := held.owned.unlinked r readers (List.mem_of_mem_erase rest)
    owner b := (owners_free member b).trans (held.owned.owner b) }
  stored := held.stored
  guarded := {
    inside e rest := held.guarded.inside e (List.mem_of_mem_erase rest)
    rows r readers t b rest waits column :=
      protected_free (held.guarded.rows r readers t b (List.mem_of_mem_erase rest) waits column)
    taken t b taken :=
      ⟨(held.guarded.taken t b taken).1, protected_free (held.guarded.taken t b taken).2⟩ }

theorem step_held (held : Held s) {call : Call} (keeps : KeepsStorage s call)
    (stepped : step s call = some s') : Held s' := by
  cases call with
  | applyPut found isMarker changes =>
      cases found with
      | none =>
          obtain ⟨_, moves⟩ := create_moves held.owned stepped
          exact held.moves moves
      | some r =>
          simp only [step, Option.ite_none_right_eq_some] at stepped
          obtain ⟨inTree, stepped⟩ := stepped
          split_ifs at stepped
          · have retired := held.moves (deallocateRcu_moves held.owned inTree)
            obtain ⟨_, moves⟩ := create_moves retired.owned stepped
            exact retired.moves moves
          · obtain ⟨_, moves⟩ := update_moves held.owned inTree stepped
            exact held.moves moves
  | applyReplace found value =>
      cases found with
      | none =>
          cases stepped
          exact held.moves (create1_moves held.owned value)
      | some r =>
          simp only [step, Option.ite_none_right_eq_some] at stepped
          obtain ⟨inTree, stepped⟩ := stepped
          cases stepped
          have retired := held.moves (deallocateRcu_moves held.owned inTree)
          exact retired.moves (create1_moves retired.owned value)
  | applyRemove r =>
      simp only [step, Option.ite_none_right_eq_some] at stepped
      obtain ⟨inTree, stepped⟩ := stepped
      cases stepped
      exact held.moves (deallocateRcu_moves held.owned inTree)
  | emitFields t q r f =>
      simp only [step, Option.ite_none_right_eq_some] at stepped
      exact emitFields_held held stepped.1.1 stepped.1.2 keeps stepped.2
  | rcuStart t =>
      simp only [step, Option.ite_none_left_eq_some] at stepped
      obtain ⟨-, stepped⟩ := stepped
      cases stepped
      exact rcuStart_held held t
  | rcuQuiesce t =>
      simp only [step, Option.ite_none_right_eq_some] at stepped
      obtain ⟨-, stepped⟩ := stepped
      cases stepped
      exact release_held held t fun u active _ => active
  | rcuStop t =>
      simp only [step, Option.ite_none_right_eq_some] at stepped
      obtain ⟨-, stepped⟩ := stepped
      cases stepped
      exact release_held held t fun u active other =>
        List.mem_filter.mpr ⟨active, by simpa using other⟩
  | free o =>
      simp only [step, Option.ite_none_right_eq_some] at stepped
      obtain ⟨member, stepped⟩ := stepped
      cases stepped
      exact free_held held member

theorem Held.owners_le (held : Held s) (b : Nat) : owners s b ≤ 1 := by
  rw [held.owned.owner b, fresh]
  split_ifs <;> omega

theorem Held.safe (held : Held s) : Safe s := by
  have alone {b : Nat} (member : b ∈ s.freed) : b ∉ treeColumns s ∧ b ∉ limboColumns s := by
    have one := held.owners_le b
    have gone := List.count_pos_iff.mpr member
    rw [owners] at one
    exact ⟨List.count_eq_zero.mp (by omega), List.count_eq_zero.mp (by omega)⟩
  refine ⟨List.nodup_iff_count_le_one.mpr fun b => ?_, fun b member e inLimbo column => ?_,
    fun b member r inTree column => ?_, fun b member t taken => ?_⟩
  · have one := held.owners_le b
    rw [owners] at one
    omega
  · exact (alone member).2 (List.mem_filterMap.mpr ⟨e, inLimbo, by rw [column, columnOf]⟩)
  · exact (alone member).1 (List.mem_flatMap.mpr ⟨r, inTree, column⟩)
  · rcases (held.guarded.taken t b taken).2 with inTree | ⟨readers, inLimbo, -⟩
    · exact (alone member).1 inTree
    · exact (alone member).2 (List.mem_filterMap.mpr ⟨_, inLimbo, rfl⟩)

/-- A block in a storage row is in the tree, in limbo or freed already, so it must not be freed. -/
theorem emitFields_unsafe (held : Held s) {t q r : Nat} {f : List Int}
    (emitted : s.emitFields t q r f = some s')
    (grows : ¬ KeepsStorage s (.emitFields t q r f)) : ¬ Safe s' := by
  obtain ⟨⟨storage, taken, freed⟩, snapshot, rfl⟩ := Option.map_eq_some_iff.mp emitted
  obtain ⟨-, freed_eq, -⟩ := snapshot_shares snapshot
  simp only [KeepsStorage, not_forall] at grows
  obtain ⟨old, stored, small, some_column⟩ := grows
  obtain ⟨b, member⟩ := List.exists_mem_of_ne_nil _ some_column
  obtain ⟨i, -, at_i⟩ := mem_pointers.mp member
  have replaced : freed = old.columns := by rw [freed_eq, stored, Row.reserve, if_pos small]
  have owner := held.owned.owner b
  rw [fresh, if_pos ⟨Nat.zero_le b, held.stored q old stored i b at_i⟩, owners] at owner
  have again : b ∈ freed ++ s.freed := List.mem_append_left _ (replaced ▸ member)
  intro safe
  have notTree : b ∉ treeColumns s := fun inTree => by
    obtain ⟨r, inTree, column⟩ := List.mem_flatMap.mp inTree
    exact safe.tree b again r inTree column
  have notLimbo : b ∉ limboColumns s := fun inLimbo => by
    obtain ⟨⟨o, readers⟩, inLimbo, column⟩ := List.mem_filterMap.mp inLimbo
    refine safe.limbo b again _ inLimbo ?_
    cases o <;> simp_all [columnOf]
  have freedBefore : 0 < s.freed.count b := by
    rw [List.count_eq_zero.mpr notTree, List.count_eq_zero.mpr notLimbo] at owner
    omega
  have freedNow : 0 < freed.count b := List.count_pos_iff.mpr (replaced ▸ member)
  have twice := List.nodup_iff_count_le_one.mp safe.once b
  simp only [List.count_append] at twice
  omega

theorem reachable_held (reachable : machine.Reachable KeepsStorage s) : Held s :=
  reachable.invariant (fun _ start => start ▸ held_init)
    fun _ _ _ held keeps stepped => step_held held keeps stepped

/-- In a run whose snapshots keep their storage no column is freed that is still used, and the first
snapshot that does not is the end of this. -/
theorem snapshots_safe (reachable : machine.Reachable KeepsStorage s) :
    Safe s ∧ ∀ call s', step s call = some s' → (Safe s' ↔ KeepsStorage s call) := by
  have held := reachable_held reachable
  refine ⟨held.safe, fun call s' stepped => ⟨fun safe => ?_, fun keeps =>
    (step_held held keeps stepped).safe⟩⟩
  by_contra grows
  cases call with
  | emitFields t q r f =>
      simp only [step, Option.ite_none_right_eq_some] at stepped
      exact emitFields_unsafe held stepped.2 grows safe
  | _ => exact grows trivial

/-- A row grows while a snapshot shares its column. The column is replaced in the new row, and freed
when the thread has stopped. -/
def sharedRun : List Call :=
  [.rcuStart 0, .applyPut none false [(0, [1])], .emitFields 0 0 0 [],
    .applyPut (some 0) false [(1, [2])], .emitFields 0 1 1 [], .applyPut (some 1) false [(0, [3])],
    .rcuStop 0, .free (.column 0)]

theorem snapshots_safe_shared :
    ∃ s, machine.Reachable KeepsStorage s ∧ s.freed = [0] ∧ s.tree.map s.columnsOf = [[2, 1]] ∧
      Safe s := by
  have start : machine.Reachable KeepsStorage .init := .initial rfl
  obtain ⟨s, reachable, freed⟩ := start.exists_run sharedRun
    (fun s => s.freed = [0] ∧ s.tree.map s.columnsOf = [[2, 1]]) (by decide)
  simp only [decide_eq_true_eq] at freed
  exact ⟨s, reachable, freed.1, freed.2, (snapshots_safe reachable).1⟩

/-- A query takes a snapshot of a row with one column and then of a row with two. -/
def growingRun : List Call :=
  [.rcuStart 0, .applyPut none false [(0, [1])], .applyPut none false [(0, [2]), (1, [3])],
    .emitFields 0 0 0 [], .emitFields 0 0 1 []]

theorem shared_column_freed : ¬ ∀ s, machine.Reachable Machine.anyStep s → Safe s := by
  intro claim
  have start : machine.Reachable Machine.anyStep .init := .initial rfl
  obtain ⟨s, reachable, freed⟩ := start.exists_run growingRun
    (fun s => s.freed = [0] ∧ 0 ∈ s.tree ∧ 0 ∈ s.columnsOf 0) (by decide)
  simp only [decide_eq_true_eq] at freed
  obtain ⟨freed, inTree, column⟩ := freed
  exact (claim s reachable).tree 0 (by simp [freed]) 0 inTree column

end Incll.Proof.RowBlocks
