import Incll.Model.Session
import Incll.Proof.Table.Collect

/-! # A table is a map

From the first call on, a table answers as a map from keys to values does. -/

namespace Incll.Proof.Layers
open Incll.Lib Incll.Model Incll.Model.Layers

/-- What a table is for. -/
def map : Object Call (List UInt8 → Option Leafvalue) (Option Leafvalue) where
  answer
    | .get s, f => f s
    | _, _ => none
  effect
    | .put s v, f => Function.update f s (some v)
    | .remove s, f => Function.update f s none
    | _, f => f

/-- The memory holds a table with these keys. -/
def Stores (f : List UInt8 → Option Leafvalue) (m : Mem) : Prop :=
  ∃ F, Table m F ∅ ∧ ∀ s v, Bound m F s v ↔ f s = some v

variable {m m' : Mem} {F : Forest} {f : List UInt8 → Option Leafvalue} {s : List UInt8} {v : Leafvalue} {i : Nat}

/-! The calls. -/

theorem Puts.stores (bound : ∀ s v, Bound m F s v ↔ f s = some v) (puts : Puts m F s v m') :
    Stores (Function.update f s (some v)) m' := by
  obtain ⟨F', table, -, bound'⟩ := puts
  refine ⟨F', table, fun x w => ?_⟩
  rw [bound', bound]
  by_cases same : x = s
  · subst same
    rw [if_pos rfl, Function.update_self, Option.some_inj]
    exact eq_comm
  · rw [if_neg same, Function.update_of_ne same]

theorem Removes.stores (bound : ∀ s v, Bound m F s v ↔ f s = some v) (removes : Removes m F s m') :
    Stores (Function.update f s none) m' := by
  obtain ⟨F', table, bound'⟩ := removes
  refine ⟨F', table, fun x w => ?_⟩
  rw [bound', bound]
  by_cases same : x = s
  · subst same
    simp
  · rw [Function.update_of_ne same]
    simp [same]

/-- A callback that is registered can be taken off the list. -/
theorem Table.dropCallback (table : Table m F ∅) :
    Table { m with callbacks := m.callbacks.eraseIdx i } F ∅ := by
  obtain ⟨R, base, root, callbacks⟩ := table.root
  exact (sameTree_callbacks m _).table table base root fun cb member => callbacks cb (List.mem_of_mem_eraseIdx member)

theorem callback_ok (table : Table m F ∅) (i : Nat) : Runs (callback i) m fun _ m' =>
    ∃ F', Table m' F' ∅ ∧ ∀ s v, Bound m' F' s v ↔ Bound m F s v := by
  rw [callback]
  refine Wp.step (show (get : Layers.T Mem) m = .ok (m, m) from rfl) ?_
  cases pending : m.callbacks[i]? with
  | none => exact Wp.pure ⟨F, table, fun _ _ => .rfl⟩
  | some cb =>
      obtain ⟨R, base, -, callbacks⟩ := table.root
      have tree := sameTree_callbacks m (m.callbacks.eraseIdx i)
      have leads := tree.leads (callbacks cb (List.mem_of_getElem? pending))
      refine Wp.step rfl ((runCallback_ok table.dropCallback base leads).mono fun _ m' post => ?_)
      obtain ⟨F', table', bound⟩ := post
      exact ⟨F', table', fun s v => by rw [bound, tree.bound]⟩

/-- Each call refines the call of the map. -/
theorem call_ok (c : Call) (f : List UInt8 → Option Leafvalue) (m : Mem) (stores : Stores f m) :
    Runs (call c) m fun x m' => x = map.answer c f ∧ Stores (map.effect c f) m' := by
  obtain ⟨F, table, bound⟩ := stores
  cases c with
  | get s =>
      obtain ⟨x, run, found⟩ := findUnlocked_ok table s
      refine Wp.of_ok run ⟨Option.ext fun v => ?_, F, table, bound⟩
      rw [found, bound]
      rfl
  | put s v => exact Wp.call (put_ok table s v) fun _ m' puts => Wp.pure ⟨rfl, puts.stores bound⟩
  | remove s => exact Wp.call (remove_ok table s) fun _ m' removes => Wp.pure ⟨rfl, removes.stores bound⟩
  | callback i =>
      refine Wp.call (callback_ok table i) fun _ m' post => Wp.pure ⟨rfl, ?_⟩
      obtain ⟨F', table', bound'⟩ := post
      exact ⟨F', table', fun s v => (bound' s v).trans (bound s v)⟩

/-! A new table. -/

theorem started_stores : Stores (fun _ => none) started := by
  refine ⟨startedForest, started_table, fun s v => ⟨?_, fun absurd => ?_⟩⟩
  · rintro ⟨p, r, T, -, known, has⟩
    obtain ⟨-, rfl⟩ := startedForest_eq known
    exact absurd has (started_has _)
  · cases absurd

end Incll.Proof.Layers
