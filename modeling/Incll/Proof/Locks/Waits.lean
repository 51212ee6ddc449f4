import Incll.Proof.Locks.Links
import Mathlib.Logic.Relation

/-! # The waits for node locks form no cycle

A thread that waits in `locked_parent` holds only nodes below the one it waits for. The loop of
`internode::split_into` locks downwards, after a test that the child is not locked. -/

namespace Incll.Proof.Locks
open Incll.Lib Incll.Model Incll.Model.Locks

variable {n : Nat} {s s' s'' : State n} {t : Fin n} {a b p : Addr}

/-! What a thread knows of the nodes it works on. -/

def Call.held : Call → List Addr
  | .split c => [c.leaf, c.n, c.child]
  | .remove c => [c.n]
  | .redirect c => [c.below, c.p, c.n]

/-- The node whose parent is sought is the highest one that the thread holds. -/
structure CallOk (s : State n) (c : Call) (k : Nat) : Prop where
  node : heightAt s c.n = some k
  held : ∀ a ∈ Call.held c, Below s (k + 1) a
  split : ∀ d, c = .split d → d.height = k ∧ heightAt s d.child = some k ∧ (k = 0 → d.leaf = d.n)
  remove : ∀ d, c = .remove d → Child s k d.replacement
  redirect : ∀ d, c = .redirect d → d.held = false → d.n = d.p

structure MoveOk (s : State n) (c : Split) (m : Move) (cs : List Addr) : Prop where
  call : CallOk s (.split c) c.height
  parent : heightAt s m.p = some (c.height + 1)
  right : heightAt s m.nr = some (c.height + 1)
  children : ∀ x ∈ cs, Child s (c.height + 1) x

def Local (s : State n) : Pc → Prop
  | .lockLeaf a | .found a => heightAt s a = some 0
  | .readParent c => ∃ k, CallOk s c k
  | .lockParent c p | .checkParent c p => ∃ k, CallOk s c k ∧ ∃ k', heightAt s p = some k' ∧ k < k'
  | .atParent c p => ∃ k, CallOk s c k ∧ (p = 0 ∨ ∃ k', heightAt s p = some k' ∧ k < k')
  | .testChild c m cs => MoveOk s c m cs
  | .lockChild c m x cs | .unlockChild c m x cs | .moveChild c m x cs => MoveOk s c m (x :: cs)
  | .hung c p more => CallOk s (.split c) c.height ∧ ∀ next ∈ more,
      heightAt s p = some (c.height + 1) ∧ heightAt s next.1 = some (c.height + 1)
  | _ => True

/-- The nodes that a thread may hold. -/
def held : Pc → List Addr
  | .found a | .finish a => [a]
  | .readParent c | .lockParent c _ => Call.held c
  | .checkParent c p | .atParent c p => p :: Call.held c
  | .testChild c m _ | .lockChild c m _ _ | .moveChild c m _ _ =>
      m.p :: m.nr :: Call.held (.split c)
  | .unlockChild c m x _ => x :: m.p :: m.nr :: Call.held (.split c)
  | .hung c p more => p :: more.toList.map Prod.fst ++ Call.held (.split c)
  | .removed n p _ => [n, p]
  | .idle | .lockLeaf _ => []

theorem CallOk.mono {c : Call} {k : Nat} (ok : CallOk s c k) (heights : Extends s s') :
    CallOk s' c k := by
  refine ⟨heights _ _ ok.node, fun a here => below_mono (ok.held a here) heights, ?_, ?_,
    ok.redirect⟩
  · intro d same
    obtain ⟨height, child, first⟩ := ok.split d same
    exact ⟨height, heights _ _ child, first⟩
  · exact fun d same => (ok.remove d same).mono heights

theorem MoveOk.mono {c : Split} {m : Move} {cs : List Addr} (ok : MoveOk s c m cs)
    (heights : Extends s s') : MoveOk s' c m cs :=
  ⟨ok.call.mono heights, heights _ _ ok.parent, heights _ _ ok.right,
    fun x here => (ok.children x here).mono heights⟩

theorem local_mono {pc : Pc} (here : Local s pc) (heights : Extends s s') : Local s' pc := by
  cases pc with
  | lockLeaf a | found a => exact heights _ _ here
  | readParent c =>
      obtain ⟨k, ok⟩ := here
      exact ⟨k, ok.mono heights⟩
  | lockParent c p | checkParent c p =>
      obtain ⟨k, ok, k', height, less⟩ := here
      exact ⟨k, ok.mono heights, k', heights _ _ height, less⟩
  | atParent c p =>
      obtain ⟨k, ok, above⟩ := here
      refine ⟨k, ok.mono heights, above.imp_right ?_⟩
      rintro ⟨k', height, less⟩
      exact ⟨k', heights _ _ height, less⟩
  | testChild c m cs => exact MoveOk.mono here heights
  | lockChild c m x cs | unlockChild c m x cs | moveChild c m x cs => exact MoveOk.mono here heights
  | hung c p more =>
      refine ⟨here.1.mono heights, fun next member => ?_⟩
      obtain ⟨parent, right⟩ := here.2 next member
      exact ⟨heights _ _ parent, heights _ _ right⟩
  | idle | removed c p ikey | finish a => trivial

/-! The invariant. -/

/-- The lock that the step takes. -/
def locked (s : State n) (l : Label n) : Option Addr :=
  match l.act with
  | .go => wants (s.pc l.thread)
  | _ => none

/-- The child that a thread has found unlocked and is about to lock. -/
def childWanted : Pc → Option Addr
  | .lockChild _ _ x _ => some x
  | _ => none

/-- No thread takes the lock of a node that another one has found unlocked in `split_into` and not
yet locked. -/
def Unraced (s : State n) (l : Label n) : Prop :=
  ∀ a ∈ locked s l, ∀ u, u ≠ l.thread → childWanted (s.pc u) ≠ some a

instance (s : State n) (l : Label n) : Decidable (Unraced s l) :=
  inferInstanceAs (Decidable (∀ a ∈ locked s l, _))

structure Inv (s : State n) : Prop where
  links : Links s
  here : ∀ t, Local s (s.pc t)
  held : ∀ a t, s.lock a = some t → a ∈ held (s.pc t)
  owned : ∀ a t, s.lock a = some t → a ≠ 0
  free : ∀ t a, childWanted (s.pc t) = some a → s.lock a = none

/-- The addresses in use are below `fresh`. -/
theorem childWanted_lt {pc : Pc} (inv : Inv s) (here : Local s pc) (wanted : childWanted pc = some a) :
    a < s.fresh := by
  cases pc <;> cases wanted
  rcases here.children a (by simp) with rfl | ⟨k, height, -⟩
  · exact inv.links.positive
  · obtain ⟨shape, there, -⟩ := Option.map_eq_some_iff.mp height
    exact inv.links.below a (by simp [there])

/-- A step of thread `t` to `pc`. -/
theorem Inv.next {pc : Pc} (inv : Inv s) (grows : Grows s s')
    (place : s'.pc = Function.update s.pc t pc) (here : Local s' pc)
    (locks : ∀ a u, s'.lock a = some u →
      s.lock a = some u ∨ u = t ∧ a ≠ 0 ∧ ∀ v, v ≠ t → childWanted (s.pc v) ≠ some a)
    (kept : ∀ a, s'.lock a = some t → a ∈ Locks.held pc)
    (free : ∀ a, childWanted pc = some a → s'.lock a = none) : Inv s' := by
  refine ⟨grows.links, fun u => ?_, fun a u holds => ?_, fun a u holds => ?_, fun u a wanted => ?_⟩
  · rw [place]
    by_cases same : u = t
    · rw [same, Function.update_self]
      exact here
    · rw [Function.update_of_ne same]
      exact local_mono (inv.here u) grows.heights
  · rw [place]
    by_cases same : u = t
    · rw [same, Function.update_self]
      exact kept a (same ▸ holds)
    · rw [Function.update_of_ne same]
      rcases locks a u holds with old | ⟨mine, -⟩
      · exact inv.held a u old
      · exact absurd mine same
  · rcases locks a u holds with old | ⟨-, some, -⟩
    · exact inv.owned a u old
    · exact some
  · rw [place] at wanted
    by_cases same : u = t
    · rw [same, Function.update_self] at wanted
      exact free a wanted
    · rw [Function.update_of_ne same] at wanted
      by_contra some
      obtain ⟨v, holds⟩ := Option.ne_none_iff_exists'.mp some
      rcases locks a v holds with old | ⟨-, -, clear⟩
      · rw [inv.free u a wanted] at old
        cases old
      · exact clear u same wanted

/-- A step that takes no lock. -/
theorem Inv.keep {pc : Pc} (inv : Inv s) (grows : Grows s s')
    (place : s'.pc = Function.update s.pc t pc) (here : Local s' pc)
    (locks : ∀ a u, s'.lock a = some u → s.lock a = some u)
    (kept : ∀ a, s'.lock a = some t → a ∈ Locks.held (s.pc t) → a ∈ Locks.held pc)
    (free : ∀ a, childWanted pc = some a → s'.lock a = none) : Inv s' :=
  inv.next grows place here (fun a u holds => .inl (locks a u holds))
    (fun a holds => kept a holds (inv.held a t (locks a t holds))) free

theorem Inv.went {pc : Pc} (inv : Inv s) (grows : Grows s s') (place : s'.pc = s.pc)
    (here : Local s' pc) (locks : ∀ a u, s'.lock a = some u → s.lock a = some u)
    (kept : ∀ a, s'.lock a = some t → a ∈ Locks.held (s.pc t) → a ∈ Locks.held pc)
    (plain : childWanted pc = none) : Inv (s'.goto t pc) := by
  have moved : Grows s' (s'.goto t pc) := .of_heap grows.links rfl rfl
  refine inv.keep (grows.trans moved) ?_ (local_mono here moved.heights) locks kept (by simp [plain])
  rw [State.goto, place]

/-- A step that moves thread `t` and nothing else. -/
theorem Inv.moved {pc : Pc} (inv : Inv s) (here : Local s pc)
    (kept : ∀ a ∈ Locks.held (s.pc t), a ∈ Locks.held pc)
    (free : ∀ a, childWanted pc = some a → s.lock a = none) : Inv (s.goto t pc) :=
  have grows : Grows s (s.goto t pc) := .of_heap inv.links rfl rfl
  inv.keep grows rfl (local_mono here grows.heights) (fun _ _ holds => holds)
    (fun a _ member => kept a member) free

theorem lock_unlock {u : Fin n} :
    (s.unlock a).lock b = some u ↔ b ≠ a ∧ s.lock b = some u := by
  by_cases same : b = a
  · simp [State.unlock, same]
  · simp [State.unlock, same]

theorem lock_acquire {u : Fin n} (holds : (s.acquire t a).lock b = some u) :
    s.lock b = some u ∨ u = t ∧ b = a := by
  simp only [State.acquire] at holds
  by_cases same : b = a
  · rw [same, Function.update_self] at holds
    exact .inr ⟨(Option.some.inj holds).symm, same⟩
  · rw [Function.update_of_ne same] at holds
    exact .inl holds

theorem inv_lockNode {pc : Pc} (inv : Inv s) (ok : Unraced s ⟨t, .go⟩)
    (wanted : wants (s.pc t) = some a) (h : s.lockNode t a pc = some s') (here : Local s pc)
    (kept : ∀ b ∈ held (s.pc t), b ∈ held pc) (mine : a ∈ held pc)
    (plain : childWanted pc = none) : Inv s' := by
  simp only [State.lockNode, Option.ite_none_right_eq_some, Option.some.injEq] at h
  obtain ⟨⟨some, -⟩, rfl⟩ := h
  have grows : Grows s ((s.acquire t a).goto t pc) := .of_heap inv.links rfl rfl
  refine inv.next grows rfl (local_mono here grows.heights) ?_ ?_ (by simp [plain])
  · intro b u holds
    refine (lock_acquire holds).imp_right ?_
    rintro ⟨rfl, rfl⟩
    refine ⟨rfl, ?_, ok b wanted⟩
    rintro rfl
    rw [inv.links.null] at some
    cases some
  · intro b holds
    rcases lock_acquire holds with old | ⟨-, rfl⟩
    · exact kept b (inv.held b t old)
    · exact mine

/-- The lock of a new node. -/
theorem lock_alloc {u : Fin n} {shape : Shape} (inv : Inv s)
    (holds : ((s.alloc shape).acquire t s.fresh).lock b = some u) :
    s.lock b = some u ∨ u = t ∧ b ≠ 0 ∧ ∀ v, v ≠ t → childWanted (s.pc v) ≠ some b := by
  refine (lock_acquire holds).imp_right ?_
  rintro ⟨rfl, rfl⟩
  refine ⟨rfl, inv.links.positive.ne', fun v _ wanted => ?_⟩
  exact absurd (childWanted_lt inv (inv.here v) wanted) (Nat.lt_irrefl _)

theorem grows_moveChild {k : Nat} (links : Links s) (parent : heightAt s p = some k)
    (child : Child s k a) : Grows s (s.setParent a p) := by
  rcases child with rfl | below
  · refine .modify links fun shape here => ?_
    rw [links.null] at here
    cases here
  · exact grows_setParent links parent below

/-! `locked_parent`. -/

theorem heightAt_of_heap {shape : Shape} (here : s.heap a = some shape) :
    heightAt s a = some shape.height := by
  rw [heightAt, here, Option.map_some]

theorem heap_of_internode {i : Internode} (here : s.internode a = some i) :
    s.heap a = some (.internode i) := by
  obtain ⟨shape, there, kind⟩ := Option.bind_eq_some_iff.mp here
  cases shape <;> cases kind
  exact there

theorem inv_readParent {c : Call} {shape : Shape} (inv : Inv s) (at_t : s.pc t = .readParent c)
    (node : s.heap c.n = some shape) :
    Inv (s.goto t (if shape.parent = 0 then .atParent c 0 else .lockParent c shape.parent)) := by
  have here := inv.here t
  rw [at_t] at here
  obtain ⟨k, ok⟩ := here
  have height := ok.node
  rw [heightAt_of_heap node] at height
  split
  · refine inv.moved ⟨k, ok, .inl rfl⟩ (fun a member => ?_) nofun
    rw [at_t] at member
    exact List.mem_cons_of_mem _ member
  · next some =>
    obtain ⟨k', above, less⟩ := (inv.links.linked _ _ node).parent.resolve_left some
    refine inv.moved ⟨k, ok, k', above, ?_⟩ (fun a member => ?_) nofun
    · exact Option.some.inj height ▸ less
    · rw [at_t] at member
      exact member

theorem inv_checkParent {c : Call} {shape : Shape} (inv : Inv s) (at_t : s.pc t = .checkParent c p) :
    Inv (if p = shape.parent then s.goto t (.atParent c p)
      else (s.unlock p).goto t (.readParent c)) := by
  have here := inv.here t
  rw [at_t] at here
  obtain ⟨k, ok, above⟩ := here
  split
  · refine inv.moved ⟨k, ok, .inr above⟩ (fun a member => ?_) nofun
    rw [at_t] at member
    exact member
  · have grows : Grows s (s.unlock p) := .of_heap inv.links rfl rfl
    refine inv.went grows rfl ⟨k, ok.mono grows.heights⟩ ?_ ?_ rfl
    · exact fun a u holds => (lock_unlock.mp holds).2
    · intro a holds member
      rw [at_t] at member
      exact List.mem_of_ne_of_mem (lock_unlock.mp holds).1 member

/-! `make_split`. -/

/-- The locks and the places of the threads are the same. -/
def SameLocks (s s' : State n) : Prop := s'.lock = s.lock ∧ s'.pc = s.pc

theorem sameLocks_makeParent (c : Split) (p kp : Nat) : SameLocks s (s.makeParent c p kp) := by
  simp only [State.makeParent]
  split <;> exact ⟨rfl, rfl⟩

theorem sameLocks_endSplit (c : Split) (m : Move) : SameLocks s (s.endSplit c m) := by
  simp only [State.endSplit]
  cases m.rest <;> exact ⟨rfl, rfl⟩

theorem sameLocks_replaceChild (p kp : Nat) (r : Addr) : SameLocks s (s.replaceChild p kp r) := by
  simp only [State.replaceChild]
  split
  · exact ⟨rfl, rfl⟩
  · split <;> exact ⟨rfl, rfl⟩

/-- A step of the stores of `s'`, with no lock taken or released. -/
theorem Inv.stored {pc : Pc} (inv : Inv s) (grows : Grows s s') (same : SameLocks s s')
    (here : Local s' pc) (kept : ∀ a ∈ Locks.held (s.pc t), a ∈ Locks.held pc)
    (plain : childWanted pc = none) : Inv (s'.goto t pc) :=
  inv.went grows same.2 here (fun _ _ holds => same.1 ▸ holds) (fun a _ member => kept a member) plain

/-- The same, with a new node that is locked. -/
theorem Inv.made {pc : Pc} {shape : Shape} (inv : Inv s) (grows : Grows s s')
    (same : SameLocks ((s.alloc shape).acquire t s.fresh) s') (here : Local s' pc)
    (kept : ∀ a ∈ Locks.held (s.pc t), a ∈ Locks.held pc) (new : s.fresh ∈ Locks.held pc)
    (plain : childWanted pc = none) : Inv (s'.goto t pc) := by
  have moved : Grows s' (s'.goto t pc) := .of_heap grows.links rfl rfl
  refine inv.next (t := t) (grows.trans moved) ?_ (local_mono here moved.heights) ?_ ?_
    (by simp [plain])
  · rw [State.goto, same.2]
    rfl
  · intro b u holds
    rw [State.goto, same.1] at holds
    exact lock_alloc inv holds
  · intro b holds
    rw [State.goto, same.1] at holds
    rcases lock_acquire holds with old | ⟨-, rfl⟩
    · exact kept b (inv.held b t old)
    · exact new

theorem hung_none {c : Split} (ok : CallOk s (.split c) c.height) : Local s (.hung c p none) :=
  ⟨ok, nofun⟩

theorem grows_addRight {right : Internode} {k : Nat} (links : Links s) (height : right.height = k)
    (parent : right.parent = 0) (children : ∀ j, Child s k (right.child j)) (child : Below s k a)
    (assigned : Bool) : Grows s (s.addRight t right a assigned) ∧
      heightAt (s.addRight t right a assigned) s.fresh = some k := by
  have made : Grows s (s.alloc (.internode right)) := by
    refine .alloc links ⟨.inl parent, ?_⟩
    rintro _ ⟨⟩
    rw [height]
    exact children
  have taken : Grows (s.alloc (.internode right)) ((s.alloc (.internode right)).acquire t s.fresh) :=
    .of_heap made.links rfl rfl
  have grown := made.trans taken
  have top := taken.heights _ _ (heightAt_alloc.trans (congrArg some height))
  simp only [State.addRight]
  split
  · have hung := grows_setParent grown.links top (below_mono child grown.heights)
    exact ⟨grown.trans hung, hung.heights _ _ top⟩
  · exact ⟨grown, top⟩

theorem sameLocks_addRight (right : Internode) (child : Addr) (assigned : Bool) :
    SameLocks ((s.alloc (.internode right)).acquire t s.fresh) (s.addRight t right child assigned) := by
  simp only [State.addRight]
  split <;> exact ⟨rfl, rfl⟩

theorem inv_splitInto {c : Split} {i : Internode} (inv : Inv s)
    (at_t : s.pc t = .atParent (.split c) p) (ok : CallOk s (.split c) c.height)
    (there : s.heap p = some (.internode i)) (height : i.height = c.height + 1) (kp : Nat) :
    Inv (s.splitInto t c p kp i) := by
  have parent : heightAt s p = some (c.height + 1) := by
    rw [heightAt_of_heap there, Shape.height, height]
  have child : Below s (c.height + 1) c.child :=
    ⟨c.height, (ok.split c rfl).2.1, Nat.lt_succ_self _⟩
  have none (j : Nat) : Child s (c.height + 1) ((Internode.make 0 (c.height + 1)).child j) := .inl rfl
  simp only [State.splitInto]
  generalize (if c.splitType = 2 then internodeWidth else (internodeWidth + 1) / 2) = mid
  have links := splitRight_links i (.make 0 (c.height + 1)) mid kp c.key c.child
  have children := child_splitRight (fun j => height ▸ inv.links.child there j) none (.inr child)
    mid kp c.key
  generalize i.splitRight (.make 0 (c.height + 1)) mid kp c.key c.child = split at links children
  obtain ⟨right, key⟩ := split
  dsimp only at links children ⊢
  obtain ⟨grows, top⟩ := grows_addRight (t := t) inv.links links.1 links.2 children child (mid < kp)
  have same := sameLocks_addRight (s := s) (t := t) right c.child (mid < kp)
  generalize s.addRight t right c.child (mid < kp) = s₁ at grows top same
  refine inv.made grows same ⟨ok.mono grows.heights, grows.heights _ _ parent, top, ?_⟩ ?_ ?_ rfl
  · intro x member
    obtain ⟨j, -, rfl⟩ := List.mem_map.mp member
    exact (children j).mono grows.heights
  · intro b member
    rw [at_t] at member
    simp only [held, List.mem_cons] at member ⊢
    tauto
  · simp [held]

theorem inv_hang {c : Split} (inv : Inv s) (at_t : s.pc t = .atParent (.split c) p)
    (h : s.hang t c p = some s') : Inv s' := by
  have here := inv.here t
  rw [at_t] at here
  obtain ⟨k, ok, above⟩ := here
  obtain ⟨rfl, child, -⟩ := ok.split c rfl
  have kept (a : Addr) (member : a ∈ held (s.pc t)) : a ∈ held (.hung c p none) := by
    rw [at_t] at member
    exact member
  simp only [State.hang] at h
  split at h
  · next root =>
    subst root
    cases h
    have grows := grows_makeParent inv.links ok.node child (.inl rfl) 0
    exact inv.stored grows (sameLocks_makeParent c 0 0) (hung_none (ok.mono grows.heights)) kept rfl
  · next some =>
    obtain ⟨i, there, moved⟩ := Option.map_eq_some_iff.mp h
    have there := heap_of_internode there
    have height := heightAt_of_heap there
    obtain ⟨k', height', less⟩ := above.resolve_left some
    rw [height] at height'
    cases height'
    split at moved
    · next high =>
      subst moved
      have grows := grows_makeParent inv.links ok.node child (.inr ⟨_, height, high⟩) (i.upper c.key)
      exact inv.stored grows (sameLocks_makeParent ..) (hung_none (ok.mono grows.heights)) kept rfl
    · next low =>
      split at moved
      · subst moved
        exact inv_splitInto inv at_t ok there (Nat.le_antisymm (Nat.le_of_not_lt low) less) _
      · subst moved
        have grows := grows_insertChild inv.links height ⟨_, child, less⟩ (i.upper c.key) c.key
        exact inv.stored grows ⟨rfl, rfl⟩ (hung_none (ok.mono grows.heights)) kept rfl

theorem inv_endSplit {c : Split} {m : Move} (inv : Inv s) (at_t : s.pc t = .testChild c m []) :
    Inv ((s.endSplit c m).goto t (.hung c m.p (some (m.nr, m.key)))) := by
  have here := inv.here t
  rw [at_t] at here
  have grows := grows_endSplit inv.links here.parent (here.call.split c rfl).2.1
  refine inv.stored grows (sameLocks_endSplit c m) ⟨here.call.mono grows.heights, ?_⟩ ?_ rfl
  · rintro next ⟨⟩
    exact ⟨grows.heights _ _ here.parent, grows.heights _ _ here.right⟩
  · intro a member
    rw [at_t] at member
    exact member

theorem inv_testChild {c : Split} {m : Move} {x : Addr} {cs : List Addr} (inv : Inv s)
    (at_t : s.pc t = .testChild c m (x :: cs)) :
    Inv (s.goto t (if (s.lock x).isSome then .moveChild c m x cs else .lockChild c m x cs)) := by
  have here := inv.here t
  rw [at_t] at here
  split
  · refine inv.moved here (fun a member => ?_) nofun
    rw [at_t] at member
    exact member
  · next unlocked =>
    refine inv.moved here (fun a member => ?_) ?_
    · rw [at_t] at member
      exact member
    · rintro a ⟨⟩
      exact Option.not_isSome_iff_eq_none.mp unlocked

theorem inv_unlockChild {c : Split} {m : Move} {x : Addr} {cs : List Addr} (inv : Inv s)
    (at_t : s.pc t = .unlockChild c m x cs) :
    Inv ((s.unlock x).goto t (.moveChild c m x cs)) := by
  have here := inv.here t
  rw [at_t] at here
  have grows : Grows s (s.unlock x) := .of_heap inv.links rfl rfl
  refine inv.went grows rfl (MoveOk.mono here grows.heights) ?_ ?_ rfl
  · exact fun a u holds => (lock_unlock.mp holds).2
  · intro a holds member
    rw [at_t] at member
    exact List.mem_of_ne_of_mem (lock_unlock.mp holds).1 member

theorem inv_moveChild {c : Split} {m : Move} {x : Addr} {cs : List Addr} (inv : Inv s)
    (at_t : s.pc t = .moveChild c m x cs) :
    Inv ((s.setParent x m.nr).goto t (.testChild c m cs)) := by
  have here := inv.here t
  rw [at_t] at here
  have grows := grows_moveChild inv.links here.right (here.children x (by simp))
  have moved := MoveOk.mono here grows.heights
  refine inv.stored grows ⟨rfl, rfl⟩ ?_ (fun a member => ?_) rfl
  · exact ⟨moved.call, moved.parent, moved.right,
      fun y member => moved.children y (List.mem_cons_of_mem x member)⟩
  · rw [at_t] at member
    exact member

theorem lock_release {c : Split} {u : Fin n} (holds : (s.release c).lock a = some u) :
    s.lock a = some u ∧ (a = c.n → a = c.leaf) ∧ (a = c.child → a = c.leaf) := by
  simp only [State.release] at holds
  by_cases node : c.n = c.leaf
  · by_cases child : c.child = c.leaf
    · rw [if_pos node, if_pos child] at holds
      exact ⟨holds, (·.trans node), (·.trans child)⟩
    · rw [if_pos node, if_neg child] at holds
      obtain ⟨other, holds⟩ := lock_unlock.mp holds
      exact ⟨holds, (·.trans node), fun same => absurd same other⟩
  · by_cases child : c.child = c.leaf
    · rw [if_neg node, if_pos child] at holds
      obtain ⟨other, holds⟩ := lock_unlock.mp holds
      exact ⟨holds, fun same => absurd same other, (·.trans child)⟩
    · rw [if_neg node, if_neg child] at holds
      obtain ⟨other, holds⟩ := lock_unlock.mp holds
      obtain ⟨other', holds⟩ := lock_unlock.mp holds
      exact ⟨holds, fun same => absurd same other', fun same => absurd same other⟩

theorem grows_release (links : Links s) (c : Split) : Grows s (s.release c) := by
  simp only [State.release]
  split <;> split <;> exact .of_heap links rfl rfl

theorem pc_release (c : Split) : (s.release c).pc = s.pc := by
  simp only [State.release]
  split <;> split <;> rfl

theorem inv_hung {c : Split} {more : Option (Addr × Nat)} (inv : Inv s)
    (at_t : s.pc t = .hung c p more) (h : go s t (.hung c p more) = some s') : Inv s' := by
  have here := inv.here t
  rw [at_t] at here
  obtain ⟨ok, above⟩ := here
  obtain ⟨-, -, first⟩ := ok.split c rfl
  simp only [go] at h
  have low : Below s (c.height + 1)
      (if c.height = 0 ∧ c.splitType ≠ 0 then c.child else c.leaf) := by
    split
    · exact ok.held c.child (by simp [Call.held])
    · exact ok.held c.leaf (by simp [Call.held])
  have only : c.leaf = (if c.height = 0 ∧ c.splitType ≠ 0 then c.child else c.leaf) ∨
      c.leaf = c.n := by
    split
    · next leaf => exact .inr (first leaf.1)
    · exact .inl rfl
  generalize (if c.height = 0 ∧ c.splitType ≠ 0 then c.child else c.leaf) = leaf at h low only
  have grows := grows_release inv.links { c with leaf := leaf }
  -- what the thread still holds of the nodes below the parent is the leaf it goes back to
  have kept (a : Addr) (holds : (s.release { c with leaf := leaf }).lock a = some t)
      (member : a ∈ Call.held (.split c)) : a = leaf := by
    obtain ⟨-, node, child⟩ := lock_release holds
    simp only [Call.held, List.mem_cons, List.not_mem_nil, or_false] at member
    rcases member with rfl | rfl | rfl
    · exact only.elim id node
    · exact node rfl
    · exact child rfl
  have old (a : Addr) (u : Fin n) (holds : (s.release { c with leaf := leaf }).lock a = some u) :
      s.lock a = some u := (lock_release holds).1
  have place := pc_release (s := s) { c with leaf := leaf }
  generalize s.release { c with leaf := leaf } = s₁ at h grows kept old place
  cases more with
  | some next =>
      obtain ⟨parent, right⟩ := above next rfl
      cases h
      have top {x : Addr} (height : heightAt s₁ x = some (c.height + 1)) :
          Below s₁ (c.height + 1 + 1) x := ⟨_, height, Nat.lt_succ_self _⟩
      have parent' := grows.heights _ _ parent
      have right' := grows.heights _ _ right
      refine inv.went grows place ⟨c.height + 1, parent', ?_, ?_, nofun, nofun⟩ old ?_ rfl
      · intro a member
        simp only [Call.held, List.mem_cons, List.not_mem_nil, or_false] at member
        rcases member with rfl | rfl | rfl
        · obtain ⟨j, height, less⟩ := low
          exact ⟨j, grows.heights _ _ height, Nat.lt_succ_of_lt less⟩
        · exact top parent'
        · exact top right'
      · rintro d ⟨⟩
        exact ⟨rfl, right', nofun⟩
      · intro a holds member
        rw [at_t] at member
        simp only [held, Option.toList_some, List.map_cons, List.map_nil, List.cons_append,
          List.nil_append, List.mem_cons] at member
        rcases member with rfl | rfl | member
        · simp [held, Call.held]
        · simp [held, Call.held]
        · simp [held, Call.held, kept a holds member]
  | none =>
      cases h
      have last (a : Addr) (u : Fin n)
          (holds : (if p = 0 then s₁ else s₁.unlock p).lock a = some u) :
          s₁.lock a = some u ∧ a ≠ p := by
        split at holds
        · next root => exact ⟨holds, root ▸ inv.owned a u (old a u holds)⟩
        · exact (lock_unlock.mp holds).symm
      have grows' : Grows s (if p = 0 then s₁ else s₁.unlock p) := by
        split
        · exact grows
        · exact grows.trans (.of_heap grows.links rfl rfl)
      have place' : (if p = 0 then s₁ else s₁.unlock p).pc = s.pc := by split <;> exact place
      refine inv.went grows' place' trivial (fun a u holds => old a u (last a u holds).1) ?_ rfl
      intro a holds member
      rw [at_t] at member
      obtain ⟨holds, other⟩ := last a t holds
      exact List.mem_singleton.mpr (kept a holds (List.mem_of_ne_of_mem other member))

/-! `remove_leaf`. -/

theorem inv_removeChild {c : Remove} (inv : Inv s) (at_t : s.pc t = .atParent (.remove c) p)
    (h : s.removeChild t c p = some s') : Inv s' := by
  have here := inv.here t
  rw [at_t] at here
  obtain ⟨k, ok, above⟩ := here
  simp only [State.removeChild, bind, Option.bind_eq_some_iff] at h
  obtain ⟨i, there, i', there', h⟩ := h
  have there := heap_of_internode there
  have height := heightAt_of_heap there
  have some : p ≠ 0 := by
    rintro rfl
    rw [inv.links.null] at there
    cases there
  obtain ⟨k', height', less⟩ := above.resolve_left some
  have replacement : Child s k' c.replacement := by
    refine (ok.remove c rfl).imp_right ?_
    rintro ⟨j, low, under⟩
    exact ⟨j, low, under.trans less⟩
  have grows := grows_replaceChild inv.links height' replacement (i.upper c.ikey)
  have parent := grows.heights _ _ height'
  split at h
  · cases h
    refine inv.stored grows (sameLocks_replaceChild ..) ⟨k', parent, ?_, nofun, nofun, ?_⟩ ?_ rfl
    · intro a member
      simp only [Call.held, List.mem_cons, List.not_mem_nil, or_false] at member
      rcases member with rfl | rfl | rfl
      · exact ⟨k, grows.heights _ _ ok.node, Nat.lt_succ_of_lt less⟩
      · exact ⟨k', parent, Nat.lt_succ_self _⟩
      · exact ⟨k', parent, Nat.lt_succ_self _⟩
    · rintro d ⟨⟩ -
      rfl
    · intro a member
      rw [at_t] at member
      simp only [held, Call.held, List.mem_cons, List.not_mem_nil, or_false] at member ⊢
      tauto
  · cases h
    refine inv.stored grows (sameLocks_replaceChild ..) trivial (fun a member => ?_) rfl
    rw [at_t] at member
    simp only [held, Call.held, List.mem_cons, List.not_mem_nil, or_false] at member ⊢
    tauto

theorem grows_setKey (links : Links s) (kp ikey : Nat) :
    Grows s (s.modifyInternode p (·.setKey kp ikey)) :=
  .modifyInternode links (fun _ => ⟨rfl, rfl⟩) fun i here =>
    (links.child here : ∀ j, Child s i.height (i.child j))

theorem inv_redirectAt {c : Redirect} (inv : Inv s) (at_t : s.pc t = .atParent (.redirect c) p)
    (h : s.redirectAt t c p = some s') : Inv s' := by
  have here := inv.here t
  rw [at_t] at here
  obtain ⟨k, ok, above⟩ := here
  simp only [State.redirectAt] at h
  obtain ⟨i, there, moved⟩ := Option.map_eq_some_iff.mp h
  have real : p ≠ 0 := by
    rintro rfl
    have there := heap_of_internode there
    rw [inv.links.null] at there
    cases there
  obtain ⟨k', height, less⟩ := above.resolve_left real
  have first : Grows s (if c.held then s.unlock c.n else s) := by
    split <;> exact .of_heap inv.links rfl rfl
  have locks (a : Addr) (u : Fin n) (holds : (if c.held then s.unlock c.n else s).lock a = some u) :
      s.lock a = some u ∧ (a = c.n → a = c.p) := by
    split at holds
    · exact (lock_unlock.mp holds).symm.imp_right fun other same => absurd same other
    · next stays => exact ⟨holds, (·.trans (ok.redirect c rfl (eq_false_of_ne_true stays)))⟩
  have place : (if c.held then s.unlock c.n else s).pc = s.pc := by split <;> rfl
  generalize (if c.held then s.unlock c.n else s) = s₁ at moved first locks place
  have keyed : Grows s₁ (if 0 < i.upper c.ikey then
      s₁.modifyInternode p (·.setKey (i.upper c.ikey - 1) c.replacement) else s₁) := by
    split
    · exact grows_setKey first.links ..
    · exact .of_heap first.links rfl rfl
  have same : SameLocks s₁ (if 0 < i.upper c.ikey then
      s₁.modifyInternode p (·.setKey (i.upper c.ikey - 1) c.replacement) else s₁) := by
    split <;> exact ⟨rfl, rfl⟩
  generalize (if 0 < i.upper c.ikey then
    s₁.modifyInternode p (·.setKey (i.upper c.ikey - 1) c.replacement) else s₁) = s₂
    at moved keyed same
  have grows := first.trans keyed
  have kept (a : Addr) (u : Fin n) (holds : s₂.lock a = some u) := locks a u (same.1 ▸ holds)
  have place' := same.2.trans place
  split at moved
  · subst moved
    have top : Below s₂ (k' + 1) p := ⟨k', grows.heights _ _ height, Nat.lt_succ_self _⟩
    refine inv.went grows place' ⟨k', grows.heights _ _ height, ?_, nofun, nofun, nofun⟩
      (fun a u holds => (kept a u holds).1) ?_ rfl
    · have lower (a : Addr) (member : a ∈ Call.held (.redirect c)) : Below s₂ (k' + 1) a := by
        obtain ⟨j, low, under⟩ := ok.held a member
        exact ⟨j, grows.heights _ _ low, by omega⟩
      intro a member
      simp only [Call.held, List.mem_cons, List.not_mem_nil, or_false] at member
      rcases member with rfl | rfl | rfl
      · exact lower _ (by simp [Call.held])
      · exact lower _ (by simp [Call.held])
      · exact top
    · intro a holds member
      have mine := (kept a t holds).2
      rw [at_t] at member
      simp only [held, Call.held, List.mem_cons, List.not_mem_nil, or_false] at member ⊢
      tauto
  · subst moved
    refine inv.went (grows.trans (.of_heap grows.links rfl rfl)) place' trivial
      (fun a u holds => (kept a u (lock_unlock.mp holds).2).1) ?_ rfl
    intro a holds member
    obtain ⟨other, holds⟩ := lock_unlock.mp holds
    have mine := (kept a t holds).2
    rw [at_t] at member
    simp only [held, Call.held, List.mem_cons, List.not_mem_nil, or_false] at member ⊢
    tauto

theorem inv_endRemove {c : Addr} {ikey : Nat} (inv : Inv s) (at_t : s.pc t = .removed c p ikey)
    (h : s.endRemove t c p ikey = some s') : Inv s' := by
  simp only [State.endRemove] at h
  obtain ⟨i, there, moved⟩ := Option.map_eq_some_iff.mp h
  have there := heap_of_internode there
  have grows : Grows s (s.unlock c) := .of_heap inv.links rfl rfl
  generalize (if i.child 0 = 0 then 1 else 0) = few at moved
  split at moved
  · subst moved
    have grows' : Grows s ((s.unlock c).unlock p) := grows.trans (.of_heap grows.links rfl rfl)
    refine inv.went grows' rfl trivial ?_ ?_ rfl
    · exact fun a u holds => (lock_unlock.mp (lock_unlock.mp holds).2).2
    · intro a holds member
      obtain ⟨other, holds⟩ := lock_unlock.mp holds
      rw [at_t] at member
      simp only [held, List.mem_cons, List.not_mem_nil, or_false] at member
      exact absurd member (not_or.mpr ⟨(lock_unlock.mp holds).1, other⟩)
  · subst moved
    have height := grows.heights _ _ (heightAt_of_heap there)
    have emptied := grows_setChild grows.links height (.inl rfl) i.nkeys
    have grown := grows.trans emptied
    have height' := emptied.heights _ _ height
    refine inv.went grown rfl ⟨i.height, height', ?_, nofun, ?_, nofun⟩ ?_ ?_ rfl
    · intro a member
      rw [Call.held, List.mem_singleton] at member
      exact member ▸ ⟨i.height, height', Nat.lt_succ_self _⟩
    · rintro d ⟨⟩
      exact Child.mono (inv.links.child there i.nkeys) grown.heights
    · exact fun a u holds => (lock_unlock.mp holds).2
    · intro a holds member
      rw [at_t] at member
      exact List.mem_of_ne_of_mem (lock_unlock.mp holds).1 member

/-! Every step. -/

theorem inv_go (inv : Inv s) (ok : Unraced s ⟨t, .go⟩) (h : go s t (s.pc t) = some s') : Inv s' := by
  have here := inv.here t
  cases at_t : s.pc t <;> rw [at_t] at h here <;> try simp only [go] at h
  case lockLeaf a =>
    exact inv_lockNode inv ok (by rw [at_t]; rfl) h here (by simp [at_t, held]) (by simp [held]) rfl
  case readParent c =>
    obtain ⟨shape, node, rfl⟩ := Option.map_eq_some_iff.mp h
    exact inv_readParent inv at_t node
  case lockParent c p =>
    refine inv_lockNode inv ok (by rw [at_t]; rfl) h here (fun b member => ?_) (by simp [held]) rfl
    rw [at_t] at member
    exact List.mem_cons_of_mem p member
  case checkParent c p =>
    obtain ⟨shape, -, rfl⟩ := Option.map_eq_some_iff.mp h
    exact inv_checkParent inv at_t
  case atParent c p =>
    cases c with
    | split c => exact inv_hang inv at_t h
    | remove c => exact inv_removeChild inv at_t h
    | redirect c => exact inv_redirectAt inv at_t h
  case testChild c m cs =>
    cases cs with
    | nil =>
        cases h
        exact inv_endSplit inv at_t
    | cons x cs =>
        cases h
        exact inv_testChild inv at_t
  case lockChild c m x cs =>
    refine inv_lockNode inv ok (by rw [at_t]; rfl) h here (fun b member => ?_) (by simp [held]) rfl
    rw [at_t] at member
    exact List.mem_cons_of_mem x member
  case unlockChild c m x cs =>
    cases h
    exact inv_unlockChild inv at_t
  case moveChild c m x cs =>
    cases h
    exact inv_moveChild inv at_t
  case hung c p more => exact inv_hung inv at_t h
  case removed c p ikey => exact inv_endRemove inv at_t h
  case finish a =>
    cases h
    refine inv.went (.of_heap inv.links rfl rfl) rfl trivial ?_ ?_ rfl
    · exact fun b u holds => (lock_unlock.mp holds).2
    · intro b holds member
      rw [at_t] at member
      exact absurd (List.mem_singleton.mp member) (lock_unlock.mp holds).1
  all_goals cases h

theorem inv_split {key splitType : Nat} (inv : Inv s) (at_t : s.pc t = .found a) :
    Inv (((s.alloc (.leaf 0)).acquire t s.fresh).goto t
      (.readParent (.split ⟨a, a, s.fresh, key, 0, splitType⟩))) := by
  have here := inv.here t
  rw [at_t] at here
  have made : Grows s (s.alloc (.leaf 0)) := .alloc inv.links ⟨.inl rfl, nofun⟩
  have grows : Grows s ((s.alloc (.leaf 0)).acquire t s.fresh) :=
    made.trans (.of_heap made.links rfl rfl)
  have node := grows.heights _ _ here
  have child : heightAt ((s.alloc (.leaf 0)).acquire t s.fresh) s.fresh = some 0 := heightAt_alloc
  have same : SameLocks ((s.alloc (.leaf 0)).acquire t s.fresh)
      ((s.alloc (.leaf 0)).acquire t s.fresh) := ⟨rfl, rfl⟩
  refine inv.made grows same ⟨0, node, ?_, ?_, nofun, nofun⟩ ?_ ?_ rfl
  · intro b member
    simp only [Call.held, List.mem_cons, List.not_mem_nil, or_false] at member
    rcases member with rfl | rfl | rfl
    · exact ⟨0, node, Nat.lt_succ_self _⟩
    · exact ⟨0, node, Nat.lt_succ_self _⟩
    · exact ⟨0, child, Nat.lt_succ_self _⟩
  · rintro d ⟨⟩
    exact ⟨rfl, child, fun _ => rfl⟩
  · intro b member
    rw [at_t] at member
    simp [held, Call.held, List.mem_singleton.mp member]
  · simp [held, Call.held]

theorem inv_step {l : Label n} (inv : Inv s) (ok : Unraced s l) (h : step s l = some s') :
    Inv s' := by
  obtain ⟨t, act⟩ := l
  simp only [step] at h
  split at h
  · next a at_t =>
    split at h
    · next parent leaf =>
      cases h
      refine inv.moved (heightAt_of_heap leaf) ?_ nofun
      simp [at_t, held]
    · cases h
  · next a at_t =>
    cases h
    refine inv.moved trivial (fun b member => ?_) nofun
    rw [at_t] at member
    exact member
  · next a key splitType at_t =>
    cases h
    exact inv_split inv at_t
  · next a ikey at_t =>
    cases h
    have here := inv.here t
    rw [at_t] at here
    refine inv.moved ⟨0, here, ?_, nofun, ?_, nofun⟩ (fun b member => ?_) nofun
    · intro b member
      rw [Call.held, List.mem_singleton] at member
      exact member ▸ ⟨0, here, Nat.lt_succ_self _⟩
    · rintro d ⟨⟩
      exact .inl rfl
    · rw [at_t] at member
      exact member
  · exact inv_go inv ok h
  · cases h

theorem inv_initial (h : Initial s) : Inv s := by
  refine ⟨⟨h.null.1, h.null.2, h.below, h.linked⟩, ?_, ?_, ?_, ?_⟩
  · simp [h.pc, Local]
  · simp [h.lock]
  · simp [h.lock]
  · simp [h.lock]

/-! Waiting. -/

/-- A relation whose chains of two climb has no cycle. -/
theorem not_transGen_self {α : Type} {r : α → α → Prop} (rank : α → Nat)
    (climbs : ∀ x y z, r x y → r y z → rank x < rank y) (x : α) : ¬ Relation.TransGen r x x := by
  intro cycle
  have up (y : α) (path : Relation.TransGen r y x) : rank y < rank x := by
    obtain ⟨z, next, -⟩ := Relation.TransGen.head'_iff.mp cycle
    induction path using Relation.TransGen.head_induction_on with
    | single last => exact climbs _ _ _ last next
    | head first rest ih =>
        obtain ⟨w, second, -⟩ := Relation.TransGen.head'_iff.mp rest
        exact (climbs _ _ _ first second).trans ih
  exact absurd (up x cycle) (Nat.lt_irrefl _)

/-- The height of the node that a thread waits for. -/
def rank (s : State n) (t : Fin n) : Nat := ((wants (s.pc t)).bind (heightAt s)).getD 0

theorem waits_climbs (inv : Inv s) (t u v : Fin n) (first : Waits s t u) (second : Waits s u v) :
    rank s t < rank s u := by
  obtain ⟨a, wanted, mine⟩ := first
  obtain ⟨b, wanted', taken⟩ := second
  have member := inv.held a u mine
  have here := inv.here u
  cases at_u : s.pc u <;> rw [at_u] at wanted' member here <;> cases wanted'
  case lockLeaf => cases member
  case lockParent c =>
    obtain ⟨k, ok, k', height, less⟩ := here
    obtain ⟨j, low, under⟩ := ok.held a member
    have left : rank s t = j := by rw [rank, wanted, Option.bind_some, low, Option.getD_some]
    have right : rank s u = k' := by
      rw [rank, at_u, wants, Option.bind_some, height, Option.getD_some]
    omega
  case lockChild c m cs =>
    rw [inv.free u b (by rw [at_u]; rfl)] at taken
    cases taken

theorem no_wait_cycle (reachable : (machine n).Reachable Unraced s) :
    ∀ t, ¬ Relation.TransGen (Waits s) t t := by
  have inv : Inv s := reachable.invariant (fun s h => inv_initial h)
    fun s l s' inv ok h => inv_step inv ok h
  exact not_transGen_self (rank s) (waits_climbs inv)

/-! A full root at address 1, above leaves at the addresses 2 to 17. -/

def fullRoot : Internode :=
  { Internode.make 0 1 with
    nkeys := internodeWidth
    ikey0 := fun j => 10 * (j + 1)
    child := fun j => if j ≤ internodeWidth then j + 2 else 0 }

def fullLayer (n : Nat) : State n where
  heap := fun a =>
    if a = 1 then some (.internode fullRoot)
    else if 2 ≤ a ∧ a ≤ 17 then some (.leaf 1)
    else none
  fresh := 18
  root := (· == 1)
  lock := fun _ => none
  pc := fun _ => .idle

theorem initial_fullLayer (n : Nat) : Initial (fullLayer n) := by
  have top : heightAt (fullLayer n) 1 = some 1 := rfl
  have leaf (a : Nat) (low : 2 ≤ a) (high : a ≤ 17) : (fullLayer n).heap a = some (.leaf 1) := by
    simp only [fullLayer]
    rw [if_neg (Nat.ne_of_gt low), if_pos ⟨low, high⟩]
  refine ⟨rfl, rfl, ⟨rfl, Nat.succ_pos 17⟩, fun a some => ?_, fun a shape here => ?_⟩
  · simp only [fullLayer] at some ⊢
    split at some
    · next same =>
      rw [same]
      exact Nat.lt_of_sub_eq_succ rfl
    · split at some
      · next inside => exact Nat.lt_succ_of_le inside.2
      · cases some
  · simp only [fullLayer] at here
    split at here
    · cases here
      refine ⟨.inl rfl, ?_⟩
      rintro _ ⟨⟩ j
      by_cases inside : j ≤ internodeWidth
      · refine .inr ⟨0, ?_, Nat.one_pos⟩
        have bound : j ≤ 15 := inside
        simp only [fullRoot, if_pos inside]
        exact heightAt_of_heap (leaf (j + 2) (Nat.le_add_left 2 j) (by omega))
      · exact .inl (if_neg inside)
    · split at here
      · cases here
        exact ⟨.inr ⟨1, top, Nat.one_pos⟩, nofun⟩
      · cases here

def run (t : Fin n) (k : Nat) : List (Label n) := .replicate k ⟨t, .go⟩

/-- The insertion of `key` into a full leaf `a`, up to the search for its parent. -/
def splitLeaf (t : Fin n) (a key : Nat) : List (Label n) :=
  [⟨t, .find a⟩, ⟨t, .go⟩, ⟨t, .split key 0⟩]

theorem no_wait_cycle_full : ∃ s : State 2, (machine 2).Reachable Unraced s ∧ Waits s 1 0 ∧
    ∀ t, ¬ Relation.TransGen (Waits s) t t := by
  have start : (machine 2).Reachable Unraced (fullLayer 2) := .initial (initial_fullLayer 2)
  obtain ⟨s, reachable, h⟩ := start.exists_run (splitLeaf 0 2 5 ++ run 0 2 ++ splitLeaf 1 10 85 ++ run 1 1)
    (fun s => wants (s.pc 1) == some 1 && s.lock 1 == some 0) (by decide +kernel)
  simp only [Bool.and_eq_true, beq_iff_eq] at h
  exact ⟨s, reachable, ⟨1, h⟩, no_wait_cycle reachable⟩

/-- Thread 0 splits the root and finds leaf 10 unlocked; thread 1 locks it and wants the root. -/
theorem wait_cycle :
    ¬ ∀ (n : Nat) (s : State n), (machine n).Reachable Machine.anyStep s →
      ∀ t, ¬ Relation.TransGen (Waits s) t t := by
  intro claim
  have start : (machine 2).Reachable Machine.anyStep (fullLayer 2) := .initial (initial_fullLayer 2)
  obtain ⟨s, reachable, h⟩ := start.exists_run
    (⟨1, .find 10⟩ :: splitLeaf 0 2 5 ++ run 0 5 ++ [⟨1, .go⟩, ⟨1, .split 85 0⟩] ++ run 1 1)
    (fun s => wants (s.pc 0) == some 10 && s.lock 10 == some 1 && wants (s.pc 1) == some 1 &&
      s.lock 1 == some 0) (by decide +kernel)
  simp only [Bool.and_eq_true, beq_iff_eq] at h
  obtain ⟨⟨⟨wants0, lock10⟩, wants1⟩, lock1⟩ := h
  have there : Waits s 0 1 := ⟨10, wants0, lock10⟩
  have back : Waits s 1 0 := ⟨1, wants1, lock1⟩
  exact claim 2 s reachable 0 (.tail (.single there) back)

end Incll.Proof.Locks
