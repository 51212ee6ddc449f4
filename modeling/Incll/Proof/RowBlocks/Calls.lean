import Incll.Proof.RowBlocks.Ownership

/-! # What the calls of `query` move -/

namespace Incll.Proof.RowBlocks
open Incll.Lib
open Incll.Model.RowBlocks
open Incll.Model.Kvrow (Change lastColumn)

variable {s s' : State} {r : Nat}

theorem count_columnsIn_cons (rows : Nat → Row) (r : Nat) (tree : List Nat) (b : Nat) :
    (columnsIn rows (r :: tree)).count b =
      (rows r).columns.count b + (columnsIn rows tree).count b := by
  rw [columnsIn, List.flatMap_cons, List.count_append, columnsIn]

theorem count_columnsIn_erase (rows : Nat → Row) {tree : List Nat} (member : r ∈ tree) (b : Nat) :
    (columnsIn rows tree).count b =
      (rows r).columns.count b + (columnsIn rows (tree.erase r)).count b := by
  rw [← count_columnsIn_cons]
  exact ((List.perm_cons_erase member).flatMap_right _).count_eq b

theorem columnsIn_update {rows : Nat → Row} {tree : List Nat} (other : r ∉ tree) (row : Row) :
    columnsIn (Function.update rows r row) tree = columnsIn rows tree :=
  List.flatMap_congr fun i member => by
    rw [Function.update_of_ne (ne_of_mem_of_not_mem member other)]

theorem nextRow_fresh (owned : Ownership s) : s.nextRow ∉ s.tree :=
  fun member => lt_irrefl _ (owned.linked _ member)

theorem full_update {rows : Nat → Row} {tree : List Nat} {row : Row} (full : Full row)
    (others : ∀ i ∈ tree, i ≠ r → Full (rows i)) :
    ∀ i ∈ tree, Full (Function.update rows r row i) := by
  intro i member
  by_cases eq : i = r
  · rwa [eq, Function.update_self]
  · rw [Function.update_of_ne eq]
    exact others i member eq

/-- A new row is linked. -/
theorem link_moves (owned : Ownership s) {row : Row} {next : Nat} {retired : List Nat}
    (full : Full row) (later : s.nextColumn ≤ next)
    (kept : ∀ b, row.columns.count b + retired.count b = fresh s.nextColumn next b) :
    Moves s ((s.retire (retired.map .column)).link row next) (retired.map .column) where
  inside := rfl
  taken := rfl
  snapshot := rfl
  freed := rfl
  limbo := rfl
  nextColumn := later
  nextRow := Nat.le_succ _
  kept b := by
    have new := kept b
    change (columnsIn (Function.update s.rows s.nextRow row) (s.nextRow :: s.tree)).count b + _ =
      (columnsIn s.rows s.tree).count b + fresh s.nextColumn next b
    rw [count_columnsIn_cons, Function.update_self, columnsIn_update (nextRow_fresh owned),
      filterMap_columnOf]
    omega
  full := full_update full fun i member other =>
    owned.full i ((List.mem_cons.mp member).resolve_left other)
  distinct := (List.nodup_cons.mpr ⟨nextRow_fresh owned, owned.distinct⟩ :
    (s.nextRow :: s.tree).Nodup)
  linked i member := by
    rcases List.mem_cons.mp member with rfl | member
    · exact .inr ⟨le_rfl, Nat.lt_succ_self _⟩
    · exact .inl member
  unlinked i member := by simp at member
  others i old _ := Function.update_of_ne old.ne ..

theorem deallocateRcu_moves (owned : Ownership s) (member : r ∈ s.tree) :
    Moves s (s.deallocateRcu r) (.row r :: (s.columnsOf r).map .column) where
  inside := rfl
  taken := rfl
  snapshot := rfl
  freed := rfl
  limbo := rfl
  nextColumn := le_rfl
  nextRow := le_rfl
  kept b := by
    have split := count_columnsIn_erase s.rows member b
    change (columnsIn s.rows (s.tree.erase r)).count b + _ =
      (columnsIn s.rows s.tree).count b + fresh s.nextColumn s.nextColumn b
    rw [List.filterMap_cons_none rfl, filterMap_columnOf, split, fresh_self, State.columnsOf]
    omega
  full i rest := owned.full i (List.mem_of_mem_erase rest)
  distinct := owned.distinct.erase r
  linked i rest := .inl (List.mem_of_mem_erase rest)
  unlinked i passed := by
    obtain rfl : i = r := by simpa using passed
    exact ⟨member, owned.distinct.not_mem_erase, rfl⟩
  others _ _ _ := rfl

section Update
variable (owned : Ownership s) (member : r ∈ s.tree) {row : Row} {next : Nat} {retired : List Nat}
  (full : Full row) (later : s.nextColumn ≤ next)
  (kept : ∀ b, row.columns.count b + retired.count b =
    (s.rows r).columns.count b + fresh s.nextColumn next b)
include owned member full later kept

theorem store_moves :
    Moves s ((s.retire (retired.map .column)).store r row next) (retired.map .column) where
  inside := rfl
  taken := rfl
  snapshot := rfl
  freed := rfl
  limbo := rfl
  nextColumn := later
  nextRow := le_rfl
  kept b := by
    have new := kept b
    change (columnsIn (Function.update s.rows r row) s.tree).count b + _ =
      (columnsIn s.rows s.tree).count b + fresh s.nextColumn next b
    rw [count_columnsIn_erase _ member, count_columnsIn_erase s.rows member, Function.update_self,
      columnsIn_update owned.distinct.not_mem_erase, filterMap_columnOf]
    omega
  full := full_update full fun i inTree _ => owned.full i inTree
  distinct := owned.distinct
  linked _ inTree := .inl inTree
  unlinked _ passed := by simp at passed
  others _ _ gone := Function.update_of_ne (ne_of_mem_of_not_mem member gone).symm ..

/-- The row is replaced by a copy. -/
theorem replace_moves :
    Moves s (((s.retire (.row r :: retired.map .column)).unlink r).link row next)
      (.row r :: retired.map .column) where
  inside := rfl
  taken := rfl
  snapshot := rfl
  freed := rfl
  limbo := rfl
  nextColumn := later
  nextRow := Nat.le_succ _
  kept b := by
    have new := kept b
    change (columnsIn (Function.update s.rows s.nextRow row)
        (s.nextRow :: s.tree.erase r)).count b + _ =
      (columnsIn s.rows s.tree).count b + fresh s.nextColumn next b
    have newer : s.nextRow ∉ s.tree.erase r :=
      fun rest => nextRow_fresh owned (List.mem_of_mem_erase rest)
    rw [count_columnsIn_cons, count_columnsIn_erase s.rows member, Function.update_self,
      columnsIn_update newer, List.filterMap_cons_none rfl, filterMap_columnOf]
    omega
  full := full_update full fun i inTree other =>
    owned.full i (List.mem_of_mem_erase ((List.mem_cons.mp inTree).resolve_left other))
  distinct := List.nodup_cons.mpr
    ⟨fun rest => nextRow_fresh owned (List.mem_of_mem_erase rest), owned.distinct.erase r⟩
  linked i inTree := by
    rcases List.mem_cons.mp inTree with rfl | rest
    · exact .inr ⟨le_rfl, Nat.lt_succ_self _⟩
    · exact .inl (List.mem_of_mem_erase rest)
  unlinked i passed := by
    obtain rfl : i = r := by simpa using passed
    refine ⟨member, fun inTree => ?_, Function.update_of_ne (owned.linked i member).ne ..⟩
    rcases List.mem_cons.mp inTree with eq | rest
    · exact (owned.linked i member).ne eq
    · exact owned.distinct.not_mem_erase rest
  others i old _ := Function.update_of_ne old.ne ..

end Update

theorem create_moves (owned : Ownership s) {changes : List Change}
    (created : s.create changes = some s') : ∃ retired, Moves s s' retired := by
  obtain ⟨u, made, rfl⟩ := Option.map_eq_some_iff.mp created
  obtain ⟨full, later, kept⟩ := update_kept empty_full made
  exact ⟨_, link_moves owned full later fun b => (kept b).trans (Nat.zero_add _)⟩

theorem create1_moves (owned : Ownership s) (value : List UInt8) :
    Moves s (s.create1 value) [] := by
  obtain ⟨full, later, kept⟩ := create1_kept value s.nextColumn
  exact @link_moves s owned _ _ [] full later kept

theorem update_moves (owned : Ownership s) (member : r ∈ s.tree) {changes : List Change}
    (updated : s.update r changes = some s') : ∃ retired, Moves s s' retired := by
  obtain ⟨u, made, rfl⟩ := Option.map_eq_some_iff.mp updated
  obtain ⟨full, later, kept⟩ := update_kept (owned.full r member) made
  split_ifs with isCopy
  · exact ⟨_, replace_moves owned member full later kept⟩
  · exact ⟨_, store_moves owned member full later kept⟩

end Incll.Proof.RowBlocks
