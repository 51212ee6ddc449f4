import Incll.Lib.Local
import Incll.Proof.Layers.Leads
import Incll.Proof.Layers.MakeLayer

/-! # Operations that stay inside their layer

An operation that runs without the nodes in a set does the same when they are there, and it leaves them as they
are. -/

namespace Incll.Proof.Layers
open Incll.Lib Incll.Model Incll.Model.Layers

/-- `t` is `s` with the nodes in `X`, the root and the callbacks as they are in `m`. -/
structure Beside (m : Mem) (X : Addr → Prop) (s t : Mem) : Prop where
  kind : ∀ a, ¬ X a → t.kind a = s.kind a
  version : ∀ a, ¬ X a → t.version a = s.version a
  none : ∀ a, X a → s.kind a = none
  kept : ∀ a, X a → t.kind a = m.kind a ∧ t.version a = m.version a
  fresh : t.fresh = s.fresh
  grown : m.fresh ≤ t.fresh
  small : ∀ a, X a → a < m.fresh
  root : t.root = m.root
  callbacks : t.callbacks = m.callbacks
  nodes : Nodes t

abbrev Confined {α : Type} (m : Mem) (X : Addr → Prop) (f : T α) : Prop := Local (· = Stop.memory) (Beside m X) f

variable {α : Type} {m s t : Mem} {X : Addr → Prop} {a : Addr} {k : Kind}

namespace Beside
variable (beside : Beside m X s t)
include beside

theorem outside (known : s.kind a = some k) : ¬ X a := by
  intro inside
  rw [beside.none a inside] at known
  cases known

theorem known (known : s.kind a = some k) : t.kind a = some k := by
  rw [beside.kind a (beside.outside known), known]

theorem setVersion (known : s.kind a = some k) (v : Nodeversion) :
    Beside m X (s.setVersion a v) (t.setVersion a v) := by
  have off := beside.outside known
  refine ⟨beside.kind, fun c out => ?_, beside.none, fun c inside => ⟨(beside.kept c inside).1, ?_⟩, beside.fresh,
    beside.grown, beside.small, beside.root, beside.callbacks, ⟨beside.nodes.each, beside.nodes.positive,
    beside.nodes.aligned, beside.nodes.limit⟩⟩
  · rw [Mem.version_setVersion, Mem.version_setVersion, Function.update_apply, Function.update_apply,
      beside.version c out]
  · have ne : c ≠ a := fun same => off (same ▸ inside)
    rw [Mem.version_setVersion, Function.update_of_ne ne, (beside.kept c inside).2]

theorem setKind (known : s.kind a = some k) (k' : Kind) : Beside m X
    { s with kind := Function.update s.kind a (some k') } { t with kind := Function.update t.kind a (some k') } := by
  have off := beside.outside known
  have known_t := beside.known known
  refine ⟨fun c out => ?_, beside.version, fun c inside => ?_, fun c inside => ⟨?_, (beside.kept c inside).2⟩,
    beside.fresh, beside.grown, beside.small, beside.root, beside.callbacks,
    ⟨fun c p above => ?_, beside.nodes.positive, beside.nodes.aligned, beside.nodes.limit⟩⟩
  · dsimp only
    rw [Function.update_apply, Function.update_apply, beside.kind c out]
  · have ne : c ≠ a := fun same => off (same ▸ inside)
    dsimp only
    rw [Function.update_of_ne ne, beside.none c inside]
  · have ne : c ≠ a := fun same => off (same ▸ inside)
    dsimp only
    rw [Function.update_of_ne ne, (beside.kept c inside).1]
  · by_cases same : c = a
    · refine beside.nodes.each c k.parent ?_
      rw [same, Mem.up, known_t]
      rfl
    · refine beside.nodes.each c p ?_
      rw [Mem.up] at above
      dsimp only at above
      rwa [Function.update_of_ne same] at above

theorem alloc (v : Nodeversion) (k : Kind) (room : t.fresh + nodeSize ≤ memoryLimit) :
    Beside m X (s.alloc v k) (t.alloc v k) := by
  have new {c : Addr} (inside : X c) : c ≠ s.fresh :=
    Nat.ne_of_lt ((beside.small c inside).trans_le (beside.fresh ▸ beside.grown))
  have pos : (0 : Nat) < t.fresh := beside.nodes.positive
  have more : t.fresh < t.fresh + nodeSize := Nat.lt_add_of_pos_right (by decide)
  refine ⟨fun c out => ?_, fun c out => ?_, fun c inside => ?_, fun c inside => ⟨?_, ?_⟩, ?_, ?_, beside.small,
    beside.root, beside.callbacks, ⟨fun c p above => ?_, ?_, ?_, room⟩⟩
  · rw [Mem.alloc, Mem.alloc, beside.fresh]
    dsimp only
    rw [Function.update_apply, Function.update_apply, beside.kind c out]
  · rw [Mem.version_alloc, Mem.version_alloc, beside.fresh, Function.update_apply, Function.update_apply,
      beside.version c out]
  · rw [Mem.alloc]
    dsimp only
    rw [Function.update_of_ne (new inside), beside.none c inside]
  · rw [Mem.alloc]
    dsimp only
    rw [beside.fresh, Function.update_of_ne (new inside), (beside.kept c inside).1]
  · rw [Mem.version_alloc, beside.fresh, Function.update_of_ne (new inside), (beside.kept c inside).2]
  · rw [Mem.fresh_alloc, Mem.fresh_alloc, beside.fresh]
  · rw [Mem.fresh_alloc]
    exact beside.grown.trans more.le
  · rw [Mem.fresh_alloc]
    by_cases same : c = t.fresh
    · rw [same]
      exact ⟨pos.ne', more, beside.nodes.aligned⟩
    · rw [Mem.up_alloc, Function.update_of_ne same] at above
      obtain ⟨ne, small, aligned⟩ := beside.nodes.each c p above
      exact ⟨ne, small.trans more, aligned⟩
  · rw [Mem.fresh_alloc]
    exact pos.trans more
  · rw [Mem.fresh_alloc]
    exact Nat.dvd_add beside.nodes.aligned ⟨64, rfl⟩

end Beside

/-! The operations on single nodes. -/

theorem kind_error (missing : s.kind a = none) : Layers.kind a s = .error .stuck := by
  simp [Layers.kind, missing, stuck, bind, StateT.bind, Except.bind, get, getThe, MonadStateOf.get, StateT.get,
    Pure.pure, Except.pure, throw, throwThe, MonadExceptOf.throw, StateT.lift]

namespace Confined

theorem stuck : Confined m X (Layers.stuck : T α) := Local.throw (by simp)

theorem kind (a : Addr) : Confined m X (Layers.kind a) := by
  constructor
  · intro s t s' k beside run
    cases known : s.kind a with
    | none =>
        rw [kind_error known] at run
        cases run
    | some k' =>
        rw [kind_ok known] at run
        cases run
        exact ⟨t, kind_ok (beside.known known), beside⟩
  · intro s t e beside run fine
    cases known : s.kind a with
    | none =>
        rw [kind_error known] at run
        cases run
        cases fine
    | some k' =>
        rw [kind_ok known] at run
        cases run

/-- A node that is read can be written. -/
theorem known {f : T α} (a : Addr) (run : ∀ s k, s.kind a = some k → ∃ x s', f s = .ok (x, s') ∧
      ∀ t, Beside m X s t → ∃ t', f t = .ok (x, t') ∧ Beside m X s' t')
    (missing : ∀ s, s.kind a = none → f s = .error .stuck) : Confined m X f := by
  constructor
  · intro s t s' x beside here
    cases known : s.kind a with
    | none =>
        rw [missing s known] at here
        cases here
    | some k =>
        obtain ⟨x', s'', here', rest⟩ := run s k known
        rw [here'] at here
        cases here
        exact rest t beside
  · intro s t e beside here fine
    cases known : s.kind a with
    | none =>
        rw [missing s known] at here
        cases here
        cases fine
    | some k =>
        obtain ⟨x', s'', here', rest⟩ := run s k known
        rw [here'] at here
        cases here

theorem version_error (missing : s.kind a = none) : Layers.version a s = .error .stuck :=
  Local.bind_error (kind_error missing)

theorem version (a : Addr) : Confined m X (Layers.version a) := by
  refine known a (fun s k here => ⟨s.version a, s, ?_, fun t beside => ⟨t, ?_, beside⟩⟩) fun s missing => ?_
  · rw [Layers.version, bind_ok (kind_ok here)]
    rfl
  · rw [Layers.version, bind_ok (kind_ok (beside.known here)), ← beside.version a (beside.outside here)]
    rfl
  · exact version_error missing

/-- The version is changed. -/
theorem modifyVersion (a : Addr) (f : Nodeversion → Nodeversion) :
    Confined m X (Layers.version a >>= fun v => Layers.setVersion a (f v)) := by
  refine known a (fun s k here => ⟨(), s.setVersion a (f (s.version a)), ?_, fun t beside =>
    ⟨t.setVersion a (f (s.version a)), ?_, beside.setVersion here _⟩⟩) fun s missing => ?_
  · refine bind_ok ?_
    rw [Layers.version, bind_ok (kind_ok here)]
    rfl
  · rw [← beside.version a (beside.outside here)]
    refine bind_ok ?_
    rw [Layers.version, bind_ok (kind_ok (beside.known here))]
    rfl
  · exact Local.bind_error (version_error missing)

theorem modifyKind (a : Addr) (f : Kind → Kind) :
    Confined m X (Layers.kind a >>= fun k => Layers.setKind a (f k)) := by
  refine known a (fun s k here => ⟨(), { s with kind := Function.update s.kind a (some (f k)) }, ?_, fun t beside =>
    ⟨{ t with kind := Function.update t.kind a (some (f k)) }, ?_, beside.setKind here _⟩⟩) fun s missing => ?_
  · exact bind_ok (kind_ok here)
  · exact bind_ok (kind_ok (beside.known here))
  · exact Local.bind_error (kind_error missing)

theorem alloc (v : Nodeversion) (k : Kind) : Confined m X (Layers.alloc v k) := by
  constructor
  · intro s t s' a beside run
    rw [alloc_eq] at run
    split at run
    · next room =>
        cases run
        have room' : t.fresh + nodeSize ≤ memoryLimit := by rwa [beside.fresh]
        refine ⟨_, ?_, beside.alloc v k room'⟩
        rw [alloc_eq, if_pos room', beside.fresh]
    · cases run
  · intro s t e beside run fine
    rw [alloc_eq] at run ⊢
    rw [beside.fresh]
    split at run
    · cases run
    · next full =>
        rw [if_neg full]
        exact run

theorem fuel : Confined m X Layers.fuel := by
  constructor
  · intro s t s' n beside run
    rw [fuel_ok] at run
    cases run
    exact ⟨t, by rw [fuel_ok, beside.fresh], beside⟩
  · intro s t e beside run
    rw [fuel_ok] at run
    cases run

/-! What follows. -/

theorem leaf (a : Addr) : Confined m X (Layers.leaf a) := by
  refine .bind (kind a) fun k => ?_
  cases k with
  | leaf l => exact .pure _
  | internode i => exact stuck

theorem internode (a : Addr) : Confined m X (Layers.internode a) := by
  refine .bind (kind a) fun k => ?_
  cases k with
  | leaf l => exact stuck
  | internode i => exact .pure _

theorem modifyBody (a : Addr) (f : LeafBody → LeafBody) : Confined m X (Layers.modifyBody a f) :=
  .bind (leaf a) fun _ => modifyKind a _

theorem modifyInternode (a : Addr) (f : Internode → Internode) : Confined m X (Layers.modifyInternode a f) :=
  .bind (internode a) fun _ => modifyKind a _

theorem setParent (a p : Addr) : Confined m X (Layers.setParent a p) := modifyKind a _

theorem parent (a : Addr) : Confined m X (Layers.parent a) := .bind (kind a) fun _ => .pure _

theorem unlock (a : Addr) : Confined m X (Layers.unlock a) := modifyVersion a _

theorem markInsert (a : Addr) : Confined m X (Layers.markInsert a) := modifyVersion a _

theorem markSplit (a : Addr) : Confined m X (Layers.markSplit a) := modifyVersion a _

theorem lock (a : Addr) : Confined m X (Layers.lock a) := by
  have version_ok {s : Mem} {k : Kind} (here : s.kind a = some k) : Layers.version a s = .ok (s.version a, s) := by
    rw [Layers.version, bind_ok (kind_ok here)]
    rfl
  constructor
  · intro s t s' x beside run
    cases known : s.kind a with
    | none =>
        rw [Layers.lock, Local.bind_error (version_error known)] at run
        cases run
    | some k =>
        rw [Layers.lock, bind_ok (version_ok known)] at run
        rw [Layers.lock, bind_ok (version_ok (beside.known known)), beside.version a (beside.outside known)]
        by_cases busy : ((s.version a).locked || (s.version a).dirty) = true
        · rw [if_pos busy] at run
          cases run
        · rw [if_neg busy, setVersion_ok] at run
          cases run
          rw [if_neg busy]
          exact ⟨_, setVersion_ok _, beside.setVersion known _⟩
  · intro s t e beside run fine
    cases known : s.kind a with
    | none =>
        rw [Layers.lock, Local.bind_error (version_error known)] at run
        cases run
        cases fine
    | some k =>
        rw [Layers.lock, bind_ok (version_ok known)] at run
        by_cases busy : ((s.version a).locked || (s.version a).dirty) = true
        · rw [if_pos busy] at run
          cases run
          cases fine
        · rw [if_neg busy, setVersion_ok] at run
          cases run

theorem makeLayerRoot (a : Addr) : Confined m X (Layers.makeLayerRoot a) :=
  .bind (setParent a 0) fun _ => modifyVersion a _

/-! Splitting. -/

theorem assign (a : Addr) (p : Nat) (k : Key) : Confined m X (Layers.assign a p k) := by
  refine .bind (leaf a) fun b => ?_
  cases b.assign p k false with
  | none => exact stuck
  | some b => exact modifyBody a _

theorem lockedParent (a : Addr) : Confined m X (Layers.lockedParent a) := by
  refine .bind (parent a) fun p => ?_
  by_cases zero : p = 0
  · rw [if_pos zero]
    exact .pure _
  · rw [if_neg zero]
    exact .bind (internode p) fun _ => .bind (lock p) fun _ => .pure _

theorem linkSplit (a nr : Addr) : Confined m X (Layers.linkSplit a nr) := by
  refine .bind (leaf a) fun b => .bind (modifyBody nr _) fun _ => ?_
  exact .ite (.bind (modifyBody b.next _) fun _ => modifyBody a _) (modifyBody a _)

theorem moveChildren (nr : Addr) (cs : List Addr) : Confined m X (Layers.moveChildren nr cs) := by
  induction cs with
  | nil => exact .pure _
  | cons c cs ih =>
      have rest : Confined m X (do Layers.setParent c nr; Layers.moveChildren nr cs) :=
        .bind (setParent c nr) fun _ => ih
      exact .bind (version c) fun v => .ite (.bind (lock c) fun _ => .bind (unlock c) fun _ => rest) rest

theorem splitInto (a nr : Addr) (p ka : Nat) (value : Addr) (splitType : Nat) :
    Confined m X (Layers.splitInto a nr p ka value splitType) := by
  refine .bind (internode a) fun i => .bind (internode nr) fun r => ?_
  have rest (right : Internode) (key : Nat) (more : Option Nat) (f : Internode → Internode) : Confined m X (do
      Layers.modifyInternode nr fun _ => right
      Layers.moveChildren nr ((List.range (right.nkeys + 1)).map right.child)
      Layers.markSplit a
      Layers.modifyInternode a f
      return (key, more)) :=
    .bind (modifyInternode nr _) fun _ => .bind (moveChildren nr _) fun _ => .bind (markSplit a) fun _ =>
      .bind (modifyInternode a f) fun _ => .pure _
  exact .ite (.bind (setParent value nr) fun _ => rest _ _ _ _) (rest _ _ _ _)

theorem makeParent (n child : Addr) (key height p kp : Nat) :
    Confined m X (Layers.makeParent n child key height p kp) := by
  refine .bind (alloc _ _) fun nn => .bind (setParent child nn) fun _ => ?_
  exact .ite (.bind (makeLayerRoot nn) fun _ => setParent n nn)
    (.bind (setParent nn p) fun _ => .bind (modifyInternode p _) fun _ => setParent n nn)

theorem insertChild (p kp key : Nat) (child : Addr) : Confined m X (Layers.insertChild p kp key child) :=
  .bind (setParent child p) fun _ => modifyInternode p _

theorem hang (n child : Addr) (key height splitType : Nat) : Confined m X (Layers.hang n child key height splitType) := by
  refine .bind (lockedParent n) fun p => .ite (.bind (makeParent ..) fun _ => .pure _) ?_
  refine .bind (internode p) fun i => .bind (markInsert p) fun _ => ?_
  refine .ite (.bind (makeParent ..) fun _ => .pure _) (.ite ?_ (.bind (insertChild ..) fun _ => .pure _))
  refine .bind (version p) fun v => .bind (alloc _ _) fun next => .bind (splitInto ..) fun x => ?_
  obtain ⟨nextKey, rest⟩ := x
  cases rest with
  | none => exact .pure _
  | some kp => exact .bind (insertChild ..) fun _ => .pure _

theorem finishLeafSplit (a nr : Addr) (c : Layers.Tcursor) (splitType : Nat) :
    Confined m X (Layers.finishLeafSplit a nr c splitType) := by
  refine .bind (leaf a) fun b => .bind (leaf nr) fun r => .bind (markSplit a) fun _ => .bind (modifyBody a _) fun _ => ?_
  exact .ite (.bind (assign ..) fun _ => .pure _) (.pure _)

theorem splitUp (fuel : Nat) (n child : Addr) (key height splitType : Nat) :
    Confined m X (Layers.splitUp fuel n child key height splitType) := by
  induction fuel generalizing n child key height with
  | zero => exact stuck
  | succ fuel ih =>
      refine .bind (hang ..) fun x => ?_
      obtain ⟨p, more⟩ := x
      refine .bind (unlock n) fun _ => .bind (unlock child) fun _ => ?_
      cases more with
      | none => exact .ite (.pure _) (unlock _)
      | some next => exact ih ..

theorem exchangeSlot (c : Layers.Tcursor) : Confined m X (Layers.exchangeSlot c) := by
  refine .bind (leaf c.n) fun b => .ite (.ite ?_ (.pure _)) (.pure _)
  exact .bind (modifyBody c.n _) fun _ => .bind (assign ..) fun _ => .pure _

theorem makeSplit (c : Layers.Tcursor) : Confined m X (Layers.makeSplit c) := by
  refine .bind (exchangeSlot c) fun c' => ?_
  cases c' with
  | some c' => exact .pure _
  | none =>
      refine .bind (version c.n) fun v => .bind (leaf c.n) fun b => ?_
      cases b.splitInto (.make b.ksufUsedCapacity) c.i c.key with
      | none => exact stuck
      | some x =>
          refine .bind (alloc _ _) fun child => .bind (linkSplit ..) fun _ => .bind (hang ..) fun y => ?_
          obtain ⟨p, more⟩ := y
          refine .bind (finishLeafSplit ..) fun c' => .bind (unlock _) fun _ => ?_
          cases more with
          | none => exact .ite (.pure _) (.bind (unlock _) fun _ => .pure _)
          | some next => exact .bind fuel fun _ => .bind (splitUp ..) fun _ => .pure _

/-! New layers. -/

theorem makeTwig (n : Addr) (fuel : Nat) (t : Twig) : Confined m X (Layers.makeTwig n fuel t) := by
  induction fuel generalizing t with
  | zero => exact stuck
  | succ fuel ih =>
      refine .ite (.bind (alloc _ _) fun nl => ?_) (.pure _)
      exact .ite (.bind (modifyBody ..) fun _ => ih _) (ih _)

theorem makeNewLayer (c : Layers.Tcursor) (p : Nat) : Confined m X (Layers.makeNewLayer c p) := by
  refine .bind (leaf c.n) fun b => .bind (makeTwig ..) fun t => ?_
  cases newLayerBody (Key.ofBytes t.oka) (Key.ofBytes t.ka) (b.lv p) with
  | none => exact stuck
  | some nb =>
      refine .bind (alloc _ _) fun nl => .bind (lock nl) fun _ => .bind (markInsert c.n) fun _ => ?_
      have rest (f g : LeafBody → LeafBody) (c' : Layers.Tcursor) : Confined m X (do
          Layers.modifyBody c.n f
          Layers.modifyBody c.n g
          Layers.unlock c.n
          return c') :=
        .bind (modifyBody c.n f) fun _ => .bind (modifyBody c.n g) fun _ => .bind (unlock c.n) fun _ => .pure _
      exact .ite (.bind (modifyBody t.tail _) fun _ => rest _ _ _) (rest _ _ _)

theorem insertLayer (c : Layers.Tcursor) (p : Nat) (v : Leafvalue) : Confined m X (Layers.insertLayer c p v) := by
  refine .bind (makeNewLayer c p) fun c' => .bind (modifyBody ..) fun _ => ?_
  exact .ite (.bind (modifyBody ..) fun _ => unlock _) (unlock _)

end Confined

end Incll.Proof.Layers
