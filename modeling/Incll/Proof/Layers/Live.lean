import Incll.Lib.Keeps
import Incll.Proof.Layers.Confined

/-! # No new leaf is in a deleted layer -/

namespace Incll.Proof.Layers
open Incll.Lib Incll.Model Incll.Model.Layers

def Live (m : Mem) : Prop := ∀ a b, m.body a = some b → b.modstate ≠ .deletedLayer

variable {α : Type} {m m' : Mem} {a : Addr}

namespace Live

theorem stuck : Keeps Live (Layers.stuck : T α) := Keeps.throw _

theorem kind (a : Addr) : Keeps Live (Layers.kind a) := by
  intro m k m' live run
  cases known : m.kind a with
  | none =>
      rw [kind_error known] at run
      cases run
  | some k' =>
      rw [kind_ok known] at run
      cases run
      exact live

theorem leaf (a : Addr) : Keeps Live (Layers.leaf a) := by
  refine .bind (kind a) fun k => ?_
  cases k with
  | leaf l => exact .pure _
  | internode i => exact stuck

theorem setVersion (a : Addr) (v : Nodeversion) : Keeps Live (Layers.setVersion a v) := by
  intro m x m' live run
  rw [setVersion_ok] at run
  cases run
  exact live

theorem version (a : Addr) : Keeps Live (Layers.version a) := by
  refine .bind (kind a) fun _ => ?_
  intro m v m' live run
  have same : (m.version a, m) = (v, m') := Except.ok.inj run
  cases same
  exact live

/-- The state of a leaf stays. -/
theorem modifyBody (a : Addr) (f : LeafBody → LeafBody) (same : ∀ b, (f b).modstate = b.modstate)
    (bare : ∀ b, (f b).bare = f b.bare) : Keeps Live (Layers.modifyBody a f) := by
  intro m x m' live run
  cases here : m.body a with
  | none =>
      exfalso
      cases known : m.kind a with
      | none =>
          rw [Layers.modifyBody, Layers.leaf, Local.bind_error (Local.bind_error (kind_error known))] at run
          cases run
      | some k =>
          cases k with
          | leaf l =>
              rw [Mem.body, known] at here
              cases here
          | internode i =>
              rw [Layers.modifyBody, Layers.leaf] at run
              rw [Local.bind_error (e := Stop.stuck)] at run
              · cases run
              · rw [bind_ok (kind_ok known)]
                rfl
  | some b =>
      rw [modifyBody_ok f here] at run
      cases run
      intro c d body
      rw [Mem.body_mapBody _ _ _ bare, here] at body
      by_cases equal : c = a
      · rw [equal, Function.update_self] at body
        obtain rfl := Option.some.inj body
        rw [same]
        exact live a b here
      · rw [Function.update_of_ne equal] at body
        exact live c d body

theorem unlock (a : Addr) : Keeps Live (Layers.unlock a) := .bind (version a) fun _ => setVersion a _

theorem markInsert (a : Addr) : Keeps Live (Layers.markInsert a) := .bind (version a) fun _ => setVersion a _

theorem lock (a : Addr) : Keeps Live (Layers.lock a) := .bind (version a) fun _ => .ite stuck (setVersion a _)

theorem makeRoot (b : LeafBody) (new : b.modstate ≠ .deletedLayer) : Keeps Live (Layers.makeRoot b) := by
  intro m x m' live run
  rw [Layers.makeRoot, alloc_eq] at run
  split at run
  · cases run
    intro c d body
    rw [Mem.body_alloc] at body
    by_cases equal : c = m.fresh
    · rw [equal, Function.update_self] at body
      obtain rfl := Option.some.inj body
      exact new
    · rw [Function.update_of_ne equal] at body
      exact live c d body
  · cases run

theorem makeTwig (n : Addr) (fuel : Nat) (t : Twig) : Keeps Live (Layers.makeTwig n fuel t) := by
  induction fuel generalizing t with
  | zero => exact stuck
  | succ fuel ih =>
      refine .ite (.bind (makeRoot _ ?_) fun nl => ?_) (.pure _)
      · simp [LeafBody.assignInitializeForLayer, LeafBody.make]
      · exact .ite (.bind (modifyBody _ _ (fun _ => rfl) fun _ => rfl) fun _ => ih _) (ih _)

theorem modstate_assignKsuf {b b' : LeafBody} {p : Nat} {s : List UInt8} {initializing : Bool}
    (assign : b.assignKsuf p s initializing = some b') : b'.modstate = b.modstate := by
  rw [LeafBody.assignKsuf] at assign
  split at assign
  · cases assign
    rfl
  · split at assign
    · cases assign
      rfl
    · obtain ⟨bag, -, rfl⟩ := Option.map_eq_some_iff.mp assign
      rfl

theorem modstate_assign {b b' : LeafBody} {p : Nat} {k : Key} {initializing : Bool}
    (assign : b.assign p k initializing = some b') : b'.modstate = b.modstate := by
  rw [LeafBody.assign] at assign
  split at assign
  · have same := modstate_assignKsuf assign
    exact same
  · cases assign
    rfl

theorem modstate_newLayerBody {oka ka : Key} {lv : Leafvalue} {nb : LeafBody}
    (made : newLayerBody oka ka lv = some nb) : nb.modstate ≠ .deletedLayer := by
  rw [newLayerBody] at made
  obtain ⟨b₁, assign₁, made⟩ := Option.bind_eq_some_iff.mp made
  obtain ⟨b₂, assign₂, made⟩ := Option.bind_eq_some_iff.mp made
  cases made
  change b₂.modstate ≠ _
  rw [modstate_assign assign₂, modstate_assign assign₁]
  simp [LeafBody.make]

theorem makeNewLayer (c : Layers.Tcursor) (p : Nat) : Keeps Live (Layers.makeNewLayer c p) := by
  refine .bind (leaf c.n) fun b => .bind (makeTwig _ _ _) fun t => ?_
  cases made : newLayerBody (Key.ofBytes t.oka) (Key.ofBytes t.ka) (b.lv p) with
  | none => exact stuck
  | some nb =>
      refine .bind (makeRoot _ (modstate_newLayerBody made)) fun nl => .bind (lock nl) fun _ =>
        .bind (markInsert c.n) fun _ => ?_
      have rest (v : Leafvalue) (c' : Layers.Tcursor) : Keeps Live (do
          Layers.modifyBody c.n (.setValue p v)
          Layers.modifyBody c.n fun b => { b with keylenx := Function.update b.keylenx p layerKeylenx }
          Layers.unlock c.n
          return c') :=
        .bind (modifyBody _ _ (fun _ => rfl) fun _ => rfl) fun _ => .bind (modifyBody _ _ (fun _ => rfl) fun _ => rfl)
          fun _ => .bind (unlock c.n) fun _ => .pure _
      exact .ite (.bind (modifyBody _ _ (fun _ => rfl) fun _ => rfl) fun _ => rest _ _) (rest _ _)

theorem insertLayer (c : Layers.Tcursor) (p : Nat) (v : Leafvalue) : Keeps Live (Layers.insertLayer c p v) := by
  refine .bind (makeNewLayer c p) fun c' => .bind (modifyBody _ _ (fun _ => rfl) fun _ => rfl) fun _ => ?_
  exact .ite (.bind (modifyBody _ _ (fun _ => rfl) fun _ => rfl) fun _ => unlock _) (unlock _)

end Live
end Incll.Proof.Layers
