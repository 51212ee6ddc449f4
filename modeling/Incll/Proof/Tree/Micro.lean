import Incll.Lib.Wlp
import Incll.Model.Recovery
import Incll.Proof.Leaf.Crash
import Incll.Proof.Leaf.Suffix

/-! # What an operation can do to the memory

Every tree operation is a sequence of the changes listed in `Micro`. -/

namespace Incll.Proof.Tree
open Incll.Lib Incll.Model

variable {W : Type}

/-- A change that leaves the entries, the parent and the permutation alone. -/
def Harmless (f : LeafBody → LeafBody) : Prop :=
  ∀ b, f b = { b with
    modstate := (f b).modstate
    next := (f b).next
    nextMark := (f b).nextMark
    prev := (f b).prev }

/-- A store to the node at `a` that does not come with a record; the last argument is the same
change of the committed content. -/
inductive KindStep (s : St W) (a : Addr) : Kind → Kind → (Kind → Kind) → Prop
  | visit {l : Leaf} :
      KindStep s a (.leaf l) (.leaf (l.lazyRecovery s.globalepoch s.failedepoch)) id
  | saveInsert {l : Leaf} (first : l.incll.loggedepoch ≠ s.globalepoch)
      (visited : l.pending s.failedepoch = false) :
      KindStep s a (.leaf l) (.leaf (l.saveCl0Insert s.globalepoch).1) id
  | saveUpdate {l : Leaf} {p : Nat} (first : l.incll.loggedepoch ≠ s.globalepoch)
      (visited : l.pending s.failedepoch = false) (slot : p ∈ l.body.permutation.live)
      (stale : Shadowed l.incll p → .staleEntry ∈ s.hazards) :
      KindStep s a (.leaf l) (.leaf (l.saveCl12Update s.globalepoch p).1) id
  | entry {l : Leaf} {k : Key} {b : LeafBody} (ready : InsertReady s.globalepoch l)
      (assign : l.body.assign l.body.permutation.back k false = some b) :
      KindStep s a (.leaf l)
        (.leaf { l with body := b.copyEntry l.body.permutation.back l.body })
        (.mapBody (b.copyEntry l.body.permutation.back))
  | value {l : Leaf} {p : Nat} (v : Leafvalue)
      (ready : InsertReady s.globalepoch l ∧ p = l.body.permutation.back ∨
        UpdateReady s.globalepoch l p ∧ (Shadowed l.incll p → .staleEntry ∈ s.hazards)) :
      KindStep s a (.leaf l) (.leaf { l with body := l.body.setValue p v }) (.mapBody (.setValue p v))
  | insert {l : Leaf} {i : Nat} (ready : InsertReady s.globalepoch l) (place : i ≤ l.body.size) :
      KindStep s a (.leaf l) (.leaf { l with body := l.body.publish i l.body })
        (.mapBody (l.body.publish i))
  | links {l : Leaf} {f : LeafBody → LeafBody} (harmless : Harmless f) :
      KindStep s a (.leaf l) (.leaf { l with body := f l.body }) (.mapBody f)
  | body {l : Leaf} {f : LeafBody → LeafBody} (logged : s.isLogged a = true)
      (visited : l.pending s.failedepoch = false)
      (valid : BodyValid l.body → BodyValid (f l.body))
      (agrees : ∀ c, BodyValid l.body → Agrees l.body c → Agrees (f l.body) (f c)) :
      KindStep s a (.leaf l) (.leaf { l with body := f l.body }) (.mapBody f)
  | internode {i : Internode} {f : Internode → Internode} (logged : s.isLogged a = true)
      (same : (f i).loggedepoch = i.loggedepoch) :
      KindStep s a (.internode i) (.internode (f i)) (.mapInternode f)
  | parent {k : Kind} (p : Addr)
      (logged : s.isLogged a = true ∨ .collapse ∈ s.hazards ∨ .lockedChild ∈ s.hazards) :
      KindStep s a k (k.setParent p) (.setParent p)

/-- A record of a node: the node, its image in the log and the node after it. -/
inductive LogStep (s : St W) : Kind → Kind → Kind → (Kind → Kind) → Prop
  | leaf {l : Leaf} (due : l.incll.loggedepoch ≠ s.globalepoch ∨ l.incll.notLogged = true)
      (visited : l.pending s.failedepoch = false ∨ .pendingChild ∈ s.hazards) :
      LogStep s (.leaf l) (.leaf (loggedImage l)) (.leaf (afterLog s.globalepoch l)) id
  | internode {i : Internode} (due : i.loggedepoch ≠ s.globalepoch) :
      LogStep s (.internode i) (.internode i) (.internode { i with loggedepoch := s.globalepoch })
        (.mapInternode fun i => { i with loggedepoch := s.globalepoch })

inductive NewNode (s : St W) : Kind → Prop
  | leaf {b : LeafBody} (valid : BodyValid b) : NewNode s (.leaf ⟨.make s.globalepoch, b⟩)
  | internode {i : Internode} (epoch : i.loggedepoch = s.globalepoch) : NewNode s (.internode i)

variable [NodeImage W]

def entryOf (a : Addr) (n : Node) : LogEntry W := ⟨a, NodeImage.encode n⟩

/-- The state after the image `n` of node `a` was appended. -/
def appended (s : St W) (log : PExtNodeLogger W) (a : Addr) (n : Node) : St W :=
  (s.noteRecord (entryOf a n)).append log a n

inductive Micro : St W → St W → Prop
  | version {s : St W} {a : Addr} {n : Node} (v : Nodeversion) (here : s.heap a = some n) :
      Micro s (s.setNode a { n with version := v })
  | root {s : St W} (r : Addr) : Micro s { s with root := r }
  | note {s : St W} (h : Hazard) (cond : Bool) : Micro s (s.note h cond)
  | observe {s : St W} {a : Addr} {n : Node} {l : Leaf} (here : s.heap a = some n)
      (leaf : n.kind = .leaf l) (visited : l.pending s.failedepoch = false) :
      Micro s (s.observe a l.body)
  | alloc {s : St W} {n : Node} (space : s.fresh < 2 ^ 64) (new : NewNode s n.kind) :
      Micro s (s.alloc n)
  | write {s : St W} {a : Addr} {n : Node} {k : Kind} {f : Kind → Kind} (here : s.heap a = some n)
      (step : KindStep s a n.kind k f) : Micro s (s.write a n k f)
  | log {s : St W} {a : Addr} {n : Node} {image k : Kind} {f : Kind → Kind}
      {log : PExtNodeLogger W} (here : s.heap a = some n) (step : LogStep s n.kind image k f)
      (record : s.log.record (entryOf a { n with kind := image }) = some log) :
      Micro s ((appended s log a { n with kind := image }).write a n k f)

abbrev Steps : St W → St W → Prop := Relation.ReflTransGen Micro

/-! Fields of the changed states. -/

omit [NodeImage W]

def kindAt (s : St W) (a : Addr) : Option Kind := (s.heap a).map (·.kind)

section fields
variable (s : St W) (a : Addr) (n : Node) (k : Kind) (f : Kind → Kind)

theorem kindAt_of_heap {s : St W} {a : Addr} {n : Node} (here : s.heap a = some n) :
    kindAt s a = some n.kind := by
  simp [kindAt, here]

theorem kindAt_version {s : St W} {a : Addr} {n : Node} (v : Nodeversion)
    (here : s.heap a = some n) : kindAt (s.setNode a { n with version := v }) = kindAt s := by
  funext b
  by_cases same : b = a
  · subst same
    simp [kindAt, St.setNode, here]
  · simp [kindAt, St.setNode, same]

@[simp] theorem kindAt_write : kindAt (s.write a n k f) = Function.update (kindAt s) a (some k) := by
  funext b
  by_cases same : b = a
  · subst same
    simp [kindAt, St.write, St.setNode]
  · simp [kindAt, St.write, St.setNode, same]

@[simp] theorem kindAt_alloc :
    kindAt (s.alloc n) = Function.update (kindAt s) s.fresh (some n.kind) := by
  funext b
  by_cases same : b = s.fresh
  · subst same
    simp [kindAt, St.alloc, St.setNode]
  · simp [kindAt, St.alloc, St.setNode, same]

@[simp] theorem kindAt_note (h : Hazard) (c : Bool) : kindAt (s.note h c) = kindAt s := rfl

@[simp] theorem kindAt_observe (b : LeafBody) : kindAt (s.observe a b) = kindAt s := rfl

@[simp] theorem kindAt_root (r : Addr) : kindAt { s with root := r } = kindAt s := rfl

@[simp] theorem kindAt_appended [NodeImage W] (log : PExtNodeLogger W) :
    kindAt (appended s log a n) = kindAt s := rfl

theorem heap_write : (s.write a n k f).heap a = some { n with kind := k } := by
  simp [St.write, St.setNode]

@[simp] theorem clean_write :
    (s.write a n k f).clean = Function.update s.clean a ((s.clean a).map f) := rfl

@[simp] theorem clean_appended [NodeImage W] (log : PExtNodeLogger W) :
    (appended s log a n).clean = s.clean := rfl

@[simp] theorem clean_alloc :
    (s.alloc n).clean = Function.update s.clean s.fresh (some n.kind) := rfl

@[simp] theorem isRecorded_write (b : Addr) :
    (s.write a n k f).isRecorded b = s.isRecorded b := rfl

@[simp] theorem isRecorded_appended [NodeImage W] (log : PExtNodeLogger W) (b : Addr) :
    (appended s log a n).isRecorded b = (s.isRecorded b || a == b) := by
  simp [St.isRecorded, appended, St.append, St.noteRecord, St.note]

end fields

/-- What never changes between two checkpoints, and what only grows. -/
structure Grows (s s' : St W) : Prop where
  globalepoch : s'.globalepoch = s.globalepoch
  failedepoch : s'.failedepoch = s.failedepoch
  saved : s'.saved = s.saved
  committed : s'.committed = s.committed
  fresh : s.fresh ≤ s'.fresh
  recorded : s.recorded <+: s'.recorded
  writes : s.writes <+: s'.writes
  observed : s.observed <+: s'.observed
  hazards : s.hazards <+: s'.hazards

theorem Grows.refl (s : St W) : Grows s s :=
  ⟨rfl, rfl, rfl, rfl, le_rfl, List.prefix_refl _, List.prefix_refl _, List.prefix_refl _,
    List.prefix_refl _⟩

theorem Grows.trans {s t u : St W} (h : Grows s t) (h' : Grows t u) : Grows s u :=
  ⟨h'.globalepoch.trans h.globalepoch, h'.failedepoch.trans h.failedepoch, h'.saved.trans h.saved,
    h'.committed.trans h.committed, h.fresh.trans h'.fresh, h.recorded.trans h'.recorded,
    h.writes.trans h'.writes, h.observed.trans h'.observed, h.hazards.trans h'.hazards⟩

theorem Grows.isRecorded {s s' : St W} (h : Grows s s') {a : Addr}
    (recorded : s.isRecorded a = true) : s'.isRecorded a = true := by
  simp only [St.isRecorded, List.any_eq_true] at *
  obtain ⟨r, member, here⟩ := recorded
  exact ⟨r, h.recorded.subset member, here⟩

theorem Grows.isLogged {s s' : St W} (h : Grows s s') {a : Addr} (logged : s.isLogged a = true) :
    s'.isLogged a = true := by
  simp only [St.isLogged, Bool.or_eq_true, h.saved] at *
  exact logged.imp_right h.isRecorded

variable [NodeImage W]

theorem Micro.grows {s s' : St W} (h : Micro s s') : Grows s s' := by
  cases h
  all_goals constructor
  all_goals first
    | rfl
    | simp [St.alloc, St.write, St.setNode, appended, St.append, St.noteRecord, St.note, St.observe]

theorem steps_grows {s s' : St W} (h : Steps s s') : Grows s s' := by
  induction h with
  | refl => exact .refl s
  | tail _ micro ih => exact ih.trans micro.grows

/-- What one change does at one address. -/
inductive At (s s' : St W) (a : Addr) (k' : Kind) : Prop
  | same (here : kindAt s a = some k') (clean : s'.clean a = s.clean a)
      (recorded : s'.isRecorded a = s.isRecorded a)
  | new (here : a = s.fresh) (node : NewNode s k') (clean : s'.clean a = some k')
      (recorded : s'.isRecorded a = s.isRecorded a) (fresh : s'.fresh = s.fresh + 1)
  | write {k : Kind} {f : Kind → Kind} (here : kindAt s a = some k) (step : KindStep s a k k' f)
      (clean : s'.clean a = (s.clean a).map f) (recorded : s'.isRecorded a = s.isRecorded a)
  | log {k image : Kind} {f : Kind → Kind} (here : kindAt s a = some k)
      (step : LogStep s k image k' f) (clean : s'.clean a = (s.clean a).map f)
      (recorded : s'.isRecorded a = true)

theorem Micro.at {s s' : St W} (h : Micro s s') {a : Addr} {k' : Kind}
    (here : kindAt s' a = some k') : At s s' a k' := by
  cases h with
  | version v at_b => exact .same (kindAt_version v at_b ▸ here) rfl rfl
  | root r => exact .same here rfl rfl
  | note h c => exact .same here rfl rfl
  | observe _ _ _ => exact .same here rfl rfl
  | alloc space new =>
      rw [kindAt_alloc] at here
      by_cases same : a = s.fresh
      · subst same
        rw [Function.update_self] at here
        cases here
        exact .new rfl new (by simp) rfl rfl
      · rw [Function.update_of_ne same] at here
        exact .same here (by simp [same]) rfl
  | @write b n k f at_b step =>
      rw [kindAt_write] at here
      by_cases same : a = b
      · subst same
        rw [Function.update_self] at here
        cases here
        exact .write (kindAt_of_heap at_b) step (by simp) rfl
      · rw [Function.update_of_ne same] at here
        exact .same here (by simp [same]) rfl
  | @log b n image k f log at_b step record =>
      rw [kindAt_write, kindAt_appended] at here
      by_cases same : a = b
      · subst same
        rw [Function.update_self] at here
        cases here
        exact .log (kindAt_of_heap at_b) step (by simp) (by simp)
      · rw [Function.update_of_ne same] at here
        refine .same here (by simp [same]) ?_
        have other : (b == a) = false := beq_eq_false_iff_ne.mpr fun eq => same eq.symm
        simp [other]

/-- The entries of `writes`. -/
theorem Micro.writes {s s' : St W} (h : Micro s s') {w : Write} (member : w ∈ s'.writes) :
    w ∈ s.writes ∨ ∃ a k k' f, kindAt s a = some k ∧ kindAt s' a = some k' ∧
      (KindStep s a k k' f ∧
          w = ⟨a, k, k', s.saved a, s.isRecorded a, s.globalepoch, s.failedepoch⟩ ∨
        ∃ image, LogStep s k image k' f ∧
          w = ⟨a, k, k', s.saved a, true, s.globalepoch, s.failedepoch⟩) := by
  cases h with
  | version v at_b => exact .inl member
  | root r => exact .inl member
  | note h c => exact .inl member
  | observe _ _ _ => exact .inl member
  | alloc space new => exact .inl member
  | @write b n k f at_b step =>
      rcases List.mem_append.mp member with old | new
      · exact .inl old
      · rw [List.mem_singleton] at new
        exact .inr ⟨b, n.kind, k, f, kindAt_of_heap at_b, by simp, .inl ⟨step, new⟩⟩
  | @log b n image k f log at_b step record =>
      rcases List.mem_append.mp member with old | new
      · exact .inl old
      · rw [List.mem_singleton, isRecorded_appended, beq_self_eq_true, Bool.or_true] at new
        exact .inr ⟨b, n.kind, k, f, kindAt_of_heap at_b, by simp, .inr ⟨image, step, new⟩⟩

/-- The entries of `recorded`. -/
theorem Micro.recorded {s s' : St W} (h : Micro s s') {r : Addr × Node}
    (member : r ∈ s'.recorded) :
    r ∈ s.recorded ∨ ∃ k image k' f, kindAt s r.1 = some k ∧ LogStep s k image k' f ∧
      r.2.kind = image := by
  cases h with
  | @log b n image k f log at_b step record =>
      rcases List.mem_append.mp member with old | new
      · exact .inl old
      · rw [List.mem_singleton] at new
        subst new
        exact .inr ⟨n.kind, image, k, f, kindAt_of_heap at_b, step, rfl⟩
  | version v at_b => exact .inl member
  | root r => exact .inl member
  | note h c => exact .inl member
  | observe _ _ _ => exact .inl member
  | alloc space new => exact .inl member
  | write at_b step => exact .inl member

/-- A node never goes away. -/
theorem Micro.persists {s s' : St W} (h : Micro s s') {a : Addr} (here : (kindAt s a).isSome) :
    (kindAt s' a).isSome := by
  cases h with
  | version v at_b => exact kindAt_version v at_b ▸ here
  | root r => exact here
  | note h c => exact here
  | observe _ _ _ => exact here
  | alloc space new =>
      rw [kindAt_alloc]
      by_cases same : a = s.fresh
      · simp [same]
      · rwa [Function.update_of_ne same]
  | @write b n k f at_b step =>
      rw [kindAt_write]
      by_cases same : a = b
      · simp [same]
      · rwa [Function.update_of_ne same]
  | @log b n image k f log at_b step record =>
      rw [kindAt_write, kindAt_appended]
      by_cases same : a = b
      · simp [same]
      · rwa [Function.update_of_ne same]

end Incll.Proof.Tree
