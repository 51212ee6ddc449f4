import Incll.Model.Session
import Incll.Proof.Table.Forest

/-! # A new table

It has one layer of one leaf. -/

namespace Incll.Proof.Layers
open Incll.Lib Incll.Model Incll.Model.Layers

variable {m : Mem} {a : Addr} {e : Entry} {d : LeafBody}

/-- A layer of one leaf. -/
def lone (a : Addr) : Part := ⟨a, single a⟩

theorem has_single (body : m.body a = some d) : Has m (single a) e ↔ e ∈ entries d := by
  constructor
  · rintro ⟨x, t, d', known, body', member⟩
    obtain ⟨rfl, -⟩ := single_eq known
    obtain rfl := Option.some.inj (body.symm.trans body')
    exact member
  · exact fun member => ⟨a, _, d, single_self, body, member⟩

theorem sound_lone (layer : Layer m (single a) a ∅) (body : m.body a = some d)
    (live : d.modstate ≠ .deletedLayer) : Sound m (lone a) ∅ := by
  refine ⟨layer, fun x t e known body' pos => ?_, fun x t e known body' => ?_⟩
  · obtain ⟨-, rfl⟩ := single_eq known
    exact absurd rfl pos
  · obtain ⟨rfl, -⟩ := single_eq known
    obtain rfl := Option.some.inj (body.symm.trans body')
    exact live

/-- The memory after `initialize`. -/
def started : Mem :=
  { Mem.blank.alloc { Nodeversion.make with root := true } (.leaf ⟨.make 0, .make 0⟩) with root := nodeSize }

/-- The first layer, which is an empty leaf. -/
def startedForest : Forest := fun p => if p = [] then some (lone nodeSize) else none

theorem started_kind (a : Addr) : started.kind a = if a = nodeSize then some (.leaf ⟨.make 0, .make 0⟩) else none :=
  Function.update_apply ..

theorem started_body : started.body nodeSize = some (.make 0) := by
  rw [Mem.body, started_kind]
  rfl

theorem started_up {a p : Addr} (known : started.up a = some p) : a = nodeSize ∧ p = 0 := by
  rw [Mem.up, started_kind] at known
  split at known
  · next here => exact ⟨here, (Option.some.inj known).symm⟩
  · cases known

theorem started_empty : entries (.make 0) = [] := rfl

theorem started_nodes : Nodes started := by
  refine ⟨fun a p known => ?_, by decide, by decide, by decide⟩
  obtain ⟨rfl, -⟩ := started_up known
  decide

theorem started_sound : Sound started (lone nodeSize) ∅ := by
  have version : settled started ∅ nodeSize = { Nodeversion.make with root := true } := by
    rw [settled_empty]
    exact Function.update_self nodeSize _ fun _ : Addr => Nodeversion.make
  have above : started.up nodeSize = some 0 := by
    rw [Mem.up, started_kind]
    rfl
  have none (e : Entry) : e ∉ entries (.make 0) := by
    rw [started_empty]
    exact List.not_mem_nil
  have ok : EntriesOk (.make 0) := by
    refine ⟨leafValid_make 0, ?_, fun e member => absurd member (none e)⟩
    rw [started_empty]
    exact List.Pairwise.nil
  refine sound_lone (layer_single started_body above (by decide) (by decide) ok (fun e member => absurd member (none e))
    rfl rfl ?_ ?_ fun x member => absurd member (Finset.notMem_empty x)) started_body ?_
  · rw [version]
    exact ⟨rfl, rfl, rfl, rfl⟩
  · rw [version]
  · exact Modstate.noConfusion

theorem started_has (e : Entry) : ¬ Has started (single nodeSize) e := by
  rw [has_single started_body, started_empty]
  exact List.not_mem_nil

theorem startedForest_eq {p : List UInt8} {T : Part} (known : startedForest p = some T) : p = [] ∧ T = lone nodeSize := by
  rw [startedForest] at known
  split at known
  · next here => exact ⟨here, (Option.some.inj known).symm⟩
  · cases known

theorem started_table : Table started startedForest ∅ := by
  refine ⟨⟨started_nodes, fun p T known => ?_, fun p q T U a s t known known' _ _ => ?_⟩,
    ⟨⟨lone nodeSize, if_pos rfl, .here (single_self (a := nodeSize)) rfl, fun cb member => absurd member List.not_mem_nil⟩,
      fun p T e known has _ => ?_, fun q U known => .inl (startedForest_eq known).1, fun p T e known more _ => ?_⟩⟩
  · obtain ⟨rfl, rfl⟩ := startedForest_eq known
    exact started_sound
  · rw [(startedForest_eq known).1, (startedForest_eq known').1]
  · obtain ⟨rfl, rfl⟩ := startedForest_eq known
    exact absurd has (started_has e)
  · exact absurd (startedForest_eq known).1 more

end Incll.Proof.Layers
