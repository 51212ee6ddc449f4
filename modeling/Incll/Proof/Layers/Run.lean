import Incll.Lib.Wp
import Incll.Model.Layers

/-! # Runs of the table operations

A node has a parent, keys and children if it is an internode, and a body if it is a leaf. Each write
changes one of the three. -/

namespace Incll.Model

def Internode.bare (i : Internode) : Internode := { i with parent := 0 }

def LeafBody.bare (b : LeafBody) : LeafBody := { b with parent := 0 }

namespace Kind

def inner : Kind → Option Internode
  | .leaf _ => none
  | .internode i => some i.bare

def body : Kind → Option LeafBody
  | .leaf l => some l.body.bare
  | .internode _ => none

end Kind

namespace Layers.Mem

/-- The parent of a node. -/
def up (s : Mem) (a : Addr) : Option Addr := (s.kind a).map Kind.parent

def inner (s : Mem) (a : Addr) : Option Internode := (s.kind a).bind Kind.inner

def body (s : Mem) (a : Addr) : Option LeafBody := (s.kind a).bind Kind.body

def setVersion (s : Mem) (a : Addr) (v : Nodeversion) : Mem :=
  { s with version := Function.update s.version a v }

def mapKind (s : Mem) (a : Addr) (f : Kind → Kind) : Mem :=
  { s with kind := Function.update s.kind a ((s.kind a).map f) }

def setParent (s : Mem) (a p : Addr) : Mem := s.mapKind a (·.setParent p)

def mapBody (s : Mem) (a : Addr) (f : LeafBody → LeafBody) : Mem := s.mapKind a (·.mapBody f)

def mapInternode (s : Mem) (a : Addr) (f : Internode → Internode) : Mem :=
  s.mapKind a (·.mapInternode f)

/-- The state after an allocation. -/
def alloc (s : Mem) (v : Nodeversion) (k : Kind) : Mem :=
  { s with
    kind := Function.update s.kind s.fresh (some k)
    version := Function.update s.version s.fresh v
    fresh := s.fresh + nodeSize }

section
variable (s : Mem) (a : Addr)

@[simp] theorem version_setVersion (v : Nodeversion) :
    (s.setVersion a v).version = Function.update s.version a v := rfl
@[simp] theorem up_setVersion (v : Nodeversion) : (s.setVersion a v).up = s.up := rfl
@[simp] theorem inner_setVersion (v : Nodeversion) : (s.setVersion a v).inner = s.inner := rfl
@[simp] theorem body_setVersion (v : Nodeversion) : (s.setVersion a v).body = s.body := rfl
@[simp] theorem fresh_setVersion (v : Nodeversion) : (s.setVersion a v).fresh = s.fresh := rfl

/-- A write that does not change what `f` reads. -/
theorem bind_mapKind {β : Type} {f : Kind → Option β} {g : Kind → Kind} (same : ∀ k, f (g k) = f k)
    (b : Addr) : ((s.mapKind a g).kind b).bind f = (s.kind b).bind f := by
  by_cases here : b = a
  · subst here
    simp only [mapKind, Function.update_self, Option.bind_map]
    congr 1
    funext k
    exact same k
  · simp only [mapKind, Function.update_of_ne here]

/-- A write that changes what `f` reads by `h`. -/
theorem bind_mapKind_update {β : Type} {f : Kind → Option β} {g : Kind → Kind} {h : β → β}
    (same : ∀ k, f (g k) = (f k).map h) : (fun b => ((s.mapKind a g).kind b).bind f) =
      Function.update (fun b => (s.kind b).bind f) a (((s.kind a).bind f).map h) := by
  funext b
  by_cases here : b = a
  · subst here
    simp only [mapKind, Function.update_self, Option.bind_map]
    cases s.kind b with
    | none => rfl
    | some k => exact same k
  · simp only [mapKind, Function.update_of_ne here]

theorem up_eq (b : Addr) : s.up b = (s.kind b).bind fun k => some k.parent := by
  rw [up]
  cases s.kind b <;> rfl

@[simp] theorem version_setParent (p : Addr) : (s.setParent a p).version = s.version := rfl
@[simp] theorem fresh_setParent (p : Addr) : (s.setParent a p).fresh = s.fresh := rfl

@[simp] theorem up_setParent (p : Addr) : (s.setParent a p).up =
    Function.update s.up a ((s.up a).map fun _ => p) := by
  have step := bind_mapKind_update (f := fun k => some k.parent) (g := (·.setParent p))
    (h := fun _ => p) s a (fun k => by cases k <;> rfl)
  have left : (s.setParent a p).up = fun b => ((s.setParent a p).kind b).bind fun k => some k.parent :=
    funext fun b => up_eq _ b
  have right : s.up = fun b => (s.kind b).bind fun k => some k.parent := funext fun b => up_eq s b
  rw [left, right]
  exact step

@[simp] theorem inner_setParent (p : Addr) : (s.setParent a p).inner = s.inner :=
  funext fun b => bind_mapKind s a (fun k => by cases k <;> rfl) b

@[simp] theorem body_setParent (p : Addr) : (s.setParent a p).body = s.body :=
  funext fun b => bind_mapKind s a (fun k => by cases k <;> rfl) b

variable (f : LeafBody → LeafBody)

@[simp] theorem version_mapBody : (s.mapBody a f).version = s.version := rfl
@[simp] theorem fresh_mapBody : (s.mapBody a f).fresh = s.fresh := rfl

@[simp] theorem inner_mapBody : (s.mapBody a f).inner = s.inner :=
  funext fun b => bind_mapKind s a (fun k => by cases k <;> rfl) b

theorem up_mapBody (plain : ∀ b, (f b).parent = b.parent) : (s.mapBody a f).up = s.up := by
  funext b
  rw [up_eq, up_eq]
  refine bind_mapKind s a (fun k => ?_) b
  cases k with
  | leaf l => exact congrArg some (plain l.body)
  | internode i => rfl

theorem body_mapBody (plain : ∀ b : LeafBody, (f b).bare = f b.bare) :
    (s.mapBody a f).body = Function.update s.body a ((s.body a).map f) := by
  refine bind_mapKind_update s a fun k => ?_
  cases k with
  | leaf l => exact congrArg some (plain l.body)
  | internode i => rfl

/-- All fields of a leaf are written. -/
theorem up_setBody (b : LeafBody) (parent : s.up a = some b.parent) : (s.mapBody a fun _ => b).up = s.up := by
  funext c
  by_cases same : c = a
  · subst same
    simp only [up, mapBody, mapKind, Function.update_self]
    obtain ⟨k, here, above⟩ := Option.map_eq_some_iff.mp parent
    rw [here]
    cases k with
    | leaf l => exact congrArg some above.symm
    | internode j => rfl
  · simp only [up, mapBody, mapKind, Function.update_of_ne same]

theorem body_setBody (b : LeafBody) : (s.mapBody a fun _ => b).body =
    Function.update s.body a ((s.body a).map fun _ => b.bare) := by
  refine bind_mapKind_update s a fun k => ?_
  cases k <;> rfl

variable (g : Internode → Internode)

@[simp] theorem version_mapInternode : (s.mapInternode a g).version = s.version := rfl
@[simp] theorem fresh_mapInternode : (s.mapInternode a g).fresh = s.fresh := rfl

@[simp] theorem body_mapInternode : (s.mapInternode a g).body = s.body :=
  funext fun b => bind_mapKind s a (fun k => by cases k <;> rfl) b

/-- All fields of an internode are written. -/
theorem up_setInternode (i : Internode) (parent : s.up a = some i.parent) :
    (s.mapInternode a fun _ => i).up = s.up := by
  funext b
  by_cases same : b = a
  · subst same
    simp only [up, mapInternode, mapKind, Function.update_self]
    obtain ⟨k, here, above⟩ := Option.map_eq_some_iff.mp parent
    rw [here]
    cases k with
    | leaf l => rfl
    | internode j => exact congrArg some above.symm
  · simp only [up, mapInternode, mapKind, Function.update_of_ne same]

theorem inner_setInternode (i : Internode) : (s.mapInternode a fun _ => i).inner =
    Function.update s.inner a ((s.inner a).map fun _ => i.bare) := by
  refine bind_mapKind_update s a fun k => ?_
  cases k <;> rfl

theorem up_mapInternode (plain : ∀ i, (g i).parent = i.parent) : (s.mapInternode a g).up = s.up := by
  funext b
  rw [up_eq, up_eq]
  refine bind_mapKind s a (fun k => ?_) b
  cases k with
  | leaf l => rfl
  | internode i => exact congrArg some (plain i)

theorem inner_mapInternode (plain : ∀ i : Internode, (g i).bare = g i.bare) :
    (s.mapInternode a g).inner = Function.update s.inner a ((s.inner a).map g) := by
  refine bind_mapKind_update s a fun k => ?_
  cases k with
  | leaf l => rfl
  | internode i => exact congrArg some (plain i)

variable (v : Nodeversion) (k : Kind)

@[simp] theorem version_alloc :
    (s.alloc v k).version = Function.update s.version s.fresh v := rfl
@[simp] theorem fresh_alloc : (s.alloc v k).fresh = s.fresh + nodeSize := rfl

theorem bind_alloc {β : Type} (f : Kind → Option β) : (fun b => ((s.alloc v k).kind b).bind f) =
    Function.update (fun b => (s.kind b).bind f) s.fresh (f k) := by
  funext b
  by_cases same : b = s.fresh
  · subst same
    simp [alloc]
  · simp [alloc, same]

@[simp] theorem up_alloc : (s.alloc v k).up = Function.update s.up s.fresh (some k.parent) := by
  have left : (s.alloc v k).up = fun b => ((s.alloc v k).kind b).bind fun k => some k.parent :=
    funext fun b => up_eq _ b
  have right : s.up = fun b => (s.kind b).bind fun k => some k.parent := funext fun b => up_eq s b
  rw [left, right]
  exact bind_alloc s v k _

@[simp] theorem inner_alloc : (s.alloc v k).inner = Function.update s.inner s.fresh k.inner :=
  bind_alloc s v k _

@[simp] theorem body_alloc : (s.alloc v k).body = Function.update s.body s.fresh k.body :=
  bind_alloc s v k _

end
end Layers.Mem
end Incll.Model

namespace Incll.Proof.Layers
open Incll.Lib Incll.Model Incll.Model.Layers

variable {s : Mem} {a p : Addr} {b : LeafBody} {i : Internode}

/-- The operation returns with `Q`, unless no memory is left. -/
abbrev Runs {α : Type} (m : T α) (s : Mem) (Q : α → Mem → Prop) : Prop := Wp (· = Stop.memory) m s Q

theorem exists_kind (h : s.up a = some p) : ∃ k, s.kind a = some k ∧ k.parent = p :=
  Option.map_eq_some_iff.mp h

theorem exists_leaf (h : s.body a = some b) : ∃ l, s.kind a = some (.leaf l) ∧ l.body.bare = b := by
  obtain ⟨k, here, bare⟩ := Option.bind_eq_some_iff.mp h
  cases k with
  | leaf l => exact ⟨l, here, Option.some.inj bare⟩
  | internode i => cases bare

theorem exists_internode (h : s.inner a = some i) :
    ∃ j, s.kind a = some (.internode j) ∧ j.bare = i := by
  obtain ⟨k, here, bare⟩ := Option.bind_eq_some_iff.mp h
  cases k with
  | leaf l => cases bare
  | internode j => exact ⟨j, here, Option.some.inj bare⟩

/-- A node is a leaf or an internode. -/
theorem exists_body (h : s.up a = some p) (leaf : s.inner a = none) : ∃ b, s.body a = some b := by
  obtain ⟨k, here, -⟩ := exists_kind h
  rw [Mem.inner, here] at leaf
  cases k with
  | leaf l => exact ⟨l.body.bare, by rw [Mem.body, here]; rfl⟩
  | internode i => cases leaf

theorem inner_of_body (h : s.body a = some b) : s.inner a = none := by
  obtain ⟨l, here, -⟩ := exists_leaf h
  rw [Mem.inner, here]
  rfl

theorem body_of_inner (h : s.inner a = some i) : s.body a = none := by
  obtain ⟨j, here, -⟩ := exists_internode h
  rw [Mem.body, here]
  rfl

theorem up_of_body (h : s.body a = some b) : ∃ p, s.up a = some p := by
  obtain ⟨l, here, -⟩ := exists_leaf h
  exact ⟨l.body.parent, by rw [Mem.up, here]; rfl⟩

theorem up_of_inner (h : s.inner a = some i) : ∃ p, s.up a = some p := by
  obtain ⟨j, here, -⟩ := exists_internode h
  exact ⟨j.parent, by rw [Mem.up, here]; rfl⟩

/-! Reading. -/

theorem kind_ok {k : Kind} (h : s.kind a = some k) : Layers.kind a s = .ok (k, s) := by
  simp only [Layers.kind]
  rw [bind_ok (show (get : T Mem) s = .ok (s, s) from rfl), h]
  rfl

theorem leaf_ok (h : s.body a = some b) (above : s.up a = some p) :
    Layers.leaf a s = .ok ({ b with parent := p }, s) := by
  obtain ⟨l, here, rfl⟩ := exists_leaf h
  obtain ⟨k, here', rfl⟩ := exists_kind above
  obtain rfl := Option.some.inj (here'.symm.trans here)
  rw [Layers.leaf, bind_ok (kind_ok here)]
  rfl

theorem internode_ok (h : s.inner a = some i) (above : s.up a = some p) :
    Layers.internode a s = .ok ({ i with parent := p }, s) := by
  obtain ⟨j, here, rfl⟩ := exists_internode h
  obtain ⟨k, here', rfl⟩ := exists_kind above
  obtain rfl := Option.some.inj (here'.symm.trans here)
  rw [Layers.internode, bind_ok (kind_ok here)]
  rfl

theorem version_ok (h : s.up a = some p) : Layers.version a s = .ok (s.version a, s) := by
  obtain ⟨k, here, -⟩ := exists_kind h
  rw [Layers.version, bind_ok (kind_ok here)]
  rfl

theorem parent_ok (h : s.up a = some p) : parent a s = .ok (p, s) := by
  obtain ⟨k, here, rfl⟩ := exists_kind h
  rw [parent, bind_ok (kind_ok here)]
  rfl

theorem maybeParent_ok (h : s.up a = some p) : maybeParent a s = .ok (if p = 0 then a else p, s) := by
  rw [maybeParent, bind_ok (parent_ok h)]
  rfl

theorem stable_ok (h : s.up a = some p) (clean : (s.version a).dirty = false) :
    stable a s = .ok (s.version a, s) := by
  rw [stable, bind_ok (version_ok h), clean]
  rfl

theorem fuel_ok : fuel s = .ok (s.fresh, s) := rfl

/-! Writing. -/

theorem setVersion_ok (v : Nodeversion) : Layers.setVersion a v s = .ok ((), s.setVersion a v) := rfl

theorem modifyBody_ok (f : LeafBody → LeafBody) (h : s.body a = some b) :
    modifyBody a f s = .ok ((), s.mapBody a f) := by
  obtain ⟨l, here, -⟩ := exists_leaf h
  obtain ⟨p, above⟩ := up_of_body h
  rw [modifyBody, bind_ok (leaf_ok h above), bind_ok (kind_ok here)]
  simp only [Layers.setKind, Mem.mapBody, Mem.mapKind, here]
  rfl

theorem modifyInternode_ok (g : Internode → Internode) (h : s.inner a = some i) :
    modifyInternode a g s = .ok ((), s.mapInternode a g) := by
  obtain ⟨j, here, -⟩ := exists_internode h
  obtain ⟨p, above⟩ := up_of_inner h
  rw [modifyInternode, bind_ok (internode_ok h above), bind_ok (kind_ok here)]
  simp only [Layers.setKind, Mem.mapInternode, Mem.mapKind, here]
  rfl

theorem setParent_ok (q : Addr) (h : s.up a = some p) :
    Layers.setParent a q s = .ok ((), s.setParent a q) := by
  obtain ⟨k, here, -⟩ := exists_kind h
  rw [Layers.setParent, bind_ok (kind_ok here)]
  simp only [Layers.setKind, Mem.setParent, Mem.mapKind, here]
  rfl

theorem lock_ok (h : s.up a = some p) (free : (s.version a).locked = false)
    (clean : (s.version a).dirty = false) :
    lock a s = .ok ((), s.setVersion a { s.version a with locked := true }) := by
  rw [lock, bind_ok (version_ok h), free, clean]
  rfl

theorem unlock_ok (h : s.up a = some p) :
    unlock a s = .ok ((), s.setVersion a (s.version a).unlock) := by
  rw [unlock, bind_ok (version_ok h)]
  rfl

theorem markInsert_ok (h : s.up a = some p) :
    markInsert a s = .ok ((), s.setVersion a { s.version a with inserting := true }) := by
  rw [markInsert, bind_ok (version_ok h)]
  rfl

theorem markSplit_ok (h : s.up a = some p) :
    markSplit a s = .ok ((), s.setVersion a { s.version a with splitting := true }) := by
  rw [markSplit, bind_ok (version_ok h)]
  rfl

theorem markDeleted_ok (h : s.up a = some p) :
    markDeleted a s =
      .ok ((), s.setVersion a { s.version a with deleted := true, splitting := true }) := by
  rw [markDeleted, bind_ok (version_ok h)]
  rfl

theorem alloc_eq (v : Nodeversion) (k : Kind) : alloc v k s =
    if s.fresh + nodeSize ≤ memoryLimit then .ok (s.fresh, s.alloc v k)
    else .error .memory := by
  unfold alloc
  rw [bind_ok (show (get : T Mem) s = .ok (s, s) from rfl)]
  split <;> rfl

theorem runs_alloc {α : Type} {v : Nodeversion} {k : Kind} {f : Addr → T α} {Q : α → Mem → Prop}
    (post : Runs (f s.fresh) (s.alloc v k) Q) : Runs (alloc v k >>= f) s Q := by
  refine Wp.bind ?_
  rw [Wp, alloc_eq]
  split
  · next result =>
      split at result
      · cases result
        exact post
      · cases result
  · next result =>
      split at result
      · cases result
      · cases result
        rfl

end Incll.Proof.Layers
