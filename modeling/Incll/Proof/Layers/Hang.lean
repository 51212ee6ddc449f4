import Incll.Proof.Layers.Grow
import Incll.Proof.Layers.Layer

/-! # One iteration of `make_split` -/

namespace Incll.Proof.Layers
open Incll.Lib Incll.Model Incll.Model.Layers

variable {m m' : Mem} {span span' : Addr → Option Span} {top n child p a : Addr} {s t sp : Span}
  {held : Finset Addr} {i : Internode}

/-- What `moveChildren` does. -/
structure Moved (m m' : Mem) (nr : Addr) (cs : List Addr) : Prop where
  up : m'.up = fun a => if a ∈ cs then some nr else m.up a
  inner : m'.inner = m.inner
  body : m'.body = m.body
  fresh : m'.fresh = m.fresh
  flags : ∀ a, flags (m'.version a) = flags (m.version a)
  locked : ∀ a, (m.version a).locked = true → m'.version a = m.version a

theorem Moved.step {m₁ m₂ : Mem} {nr c : Addr} {cs : List Addr} (first : Moved m m₁ nr [c])
    (rest : Moved m₁ m₂ nr cs) : Moved m m₂ nr (c :: cs) := by
  refine ⟨?_, rest.inner.trans first.inner, rest.body.trans first.body, rest.fresh.trans first.fresh,
    fun a => (rest.flags a).trans (first.flags a), fun a locked => ?_⟩
  · rw [rest.up, first.up]
    funext a
    by_cases here : a = c <;> by_cases there : a ∈ cs <;> simp [here, there]
  · rw [rest.locked a, first.locked a locked]
    rw [first.locked a locked]
    exact locked

theorem moveChildren_ok (nr : Addr) (cs : List Addr) (known : ∀ c ∈ cs, ∃ q, m.up c = some q)
    (free : ∀ c ∈ cs, (m.version c).locked = true ∨ Free (m.version c)) :
    ∃ m', moveChildren nr cs m = .ok ((), m') ∧ Moved m m' nr cs := by
  induction cs generalizing m with
  | nil => exact ⟨m, rfl, by simp, rfl, rfl, rfl, fun _ => rfl, fun _ _ => rfl⟩
  | cons c cs ih =>
      obtain ⟨q, above⟩ := known c (by simp)
      have parent : (m.setParent c nr).up = fun a => if a ∈ [c] then some nr else m.up a := by
        funext a
        by_cases same : a = c
        · subst same
          simp [above]
        · simp [same]
      suffices ∃ m₁, Moved m m₁ nr [c] ∧ moveChildren nr (c :: cs) m = moveChildren nr cs m₁ by
        obtain ⟨m₁, first, run⟩ := this
        obtain ⟨m₂, run', rest⟩ := @ih m₁
          (fun d member => by
            obtain ⟨q', above'⟩ := known d (by simp [member])
            rw [first.up]
            by_cases same : d ∈ [c]
            · exact ⟨nr, if_pos same⟩
            · exact ⟨q', by simp only [if_neg same, above']⟩)
          (fun d member => by
            rcases free d (by simp [member]) with locked | calm
            · left
              rw [first.locked d locked]
              exact locked
            · exact .inr (calm.of_flags (first.flags d)))
        exact ⟨m₂, run.trans run', first.step rest⟩
      rw [moveChildren, bind_ok (version_ok above)]
      rcases free c (by simp) with locked | calm
      · refine ⟨m.setParent c nr, ⟨parent, Mem.inner_setParent .., Mem.body_setParent .., rfl, fun _ => rfl,
          fun _ _ => rfl⟩, ?_⟩
        simp only [locked, Bool.not_true, Bool.false_eq_true, if_false]
        rw [bind_ok (setParent_ok nr above)]
      · let m₀ := m.setVersion c { m.version c with locked := true }
        have version (v : Nodeversion) (a : Addr) (ne : a ≠ c) : (m₀.setVersion c v).version a = m.version a := by
          simp [m₀, ne]
        refine ⟨(m₀.setVersion c (m₀.version c).unlock).setParent c nr, ⟨?_, ?_, ?_, rfl, fun a => ?_,
          fun a locked => ?_⟩, ?_⟩
        · simpa [m₀] using parent
        · simp [m₀]
        · simp [m₀]
        · by_cases same : a = c
          · subst same
            simpa [m₀] using flags_unlock_lock calm
          · rw [Mem.version_setParent, version _ a same]
        · rw [Mem.version_setParent, version]
          rintro rfl
          rw [calm.locked] at locked
          cases locked
        · simp only [calm.locked, Bool.not_false, if_true]
          rw [bind_ok (lock_ok above calm.locked calm.clean), bind_ok (unlock_ok (s := m₀) above),
            bind_ok (setParent_ok (s := m₀.setVersion c (m₀.version c).unlock) nr above)]

/-- `child` has been split off from `n`. Both are locked, and so are the nodes in `held`. -/
structure Splitting (m : Mem) (span : Addr → Option Span) (top : Addr) (held : Finset Addr)
    (split : Addr → Prop) (n child : Addr) (s t : Span) : Prop where
  half : Half m.up m.inner m.fresh span top n child s t
  calm : Calm m span top held split
  splits : split n
  left : n ∈ held
  right : child ∈ held
  known : ∀ a ∈ held, ∃ r, span a = some r

/-- What becomes of the nodes: none is lost, leaves stay as they are, and only internodes are added. -/
structure Grown (m : Mem) (span : Addr → Option Span) (m' : Mem) (span' : Addr → Option Span) : Prop where
  fresh : m.fresh ≤ m'.fresh
  body : ∀ a s, span a = some s → m'.body a = m.body a
  inner : ∀ a s, span a = some s → (m'.inner a).isSome = (m.inner a).isSome
  old : ∀ a s, span a = some s → ∃ s', span' a = some s' ∧ s'.lo = s.lo ∧ (m.inner a = none → s' = s)
  new : ∀ a s, span' a = some s → (span a).isSome ∨ m.fresh ≤ a ∧ (m'.inner a).isSome

theorem Grown.trans {m₁ m₂ : Mem} {span₁ span₂ : Addr → Option Span} (first : Grown m span m₁ span₁)
    (second : Grown m₁ span₁ m₂ span₂) : Grown m span m₂ span₂ := by
  refine ⟨first.fresh.trans second.fresh, fun a s here => ?_, fun a s here => ?_, fun a s here => ?_,
    fun a s here => ?_⟩
  · obtain ⟨s', here', -⟩ := first.old a s here
    rw [second.body a s' here', first.body a s here]
  · obtain ⟨s', here', -⟩ := first.old a s here
    rw [second.inner a s' here', first.inner a s here]
  · obtain ⟨s₁, here₁, low₁, same₁⟩ := first.old a s here
    obtain ⟨s₂, here₂, low₂, same₂⟩ := second.old a s₁ here₁
    refine ⟨s₂, here₂, low₂.trans low₁, fun leaf => ?_⟩
    have kept := first.inner a s here
    rw [leaf] at kept
    rw [same₂ (Option.not_isSome_iff_eq_none.mp (by rw [kept]; simp)), same₁ leaf]
  · rcases second.new a s here with known | ⟨fresh, inner⟩
    · obtain ⟨s₁, here₁⟩ := Option.isSome_iff_exists.mp known
      rcases first.new a s₁ here₁ with known | ⟨fresh, inner⟩
      · exact .inl known
      · exact .inr ⟨fresh, by rw [second.inner a s₁ here₁]; exact inner⟩
    · exact .inr ⟨first.fresh.trans fresh, inner⟩

/-- The parents of nodes that are not in `held` are free. -/
theorem Calm.version_free {split : Addr → Prop} (calm : Calm m span top held split) (here : span a = some s)
    (out : a ∉ held) : Free (m.version a) := by
  have free := calm.free a s here
  rwa [settled, if_neg out] at free

theorem lockedParent_root (above : m.up n = some 0) : lockedParent n m = .ok (0, m) := by
  rw [lockedParent, bind_ok (parent_ok above)]
  rfl

theorem lockedParent_ok {q : Addr} (above : m.up n = some p) (ne : p ≠ 0) (inner : m.inner p = some i)
    (above' : m.up p = some q) (free : Free (m.version p)) :
    lockedParent n m = .ok (p, m.setVersion p { m.version p with locked := true }) := by
  rw [lockedParent, bind_ok (parent_ok above), if_neg ne, bind_ok (internode_ok inner above'),
    bind_ok (lock_ok above' free.locked free.clean)]
  rfl

theorem makeLayerRoot_ok {q : Addr} (above : m.up a = some q) : makeLayerRoot a m =
    .ok ((), (m.setParent a 0).setVersion a { m.version a with root := true }) := by
  have up : (m.setParent a 0).up a = some 0 := by simp [above]
  rw [makeLayerRoot, bind_ok (setParent_ok 0 above), bind_ok (version_ok up)]
  rfl

/-! A new internode above the two nodes. -/

variable {split : Addr → Prop} {top' : Addr}

namespace Splitting
variable (st : Splitting m span top held split n child s t)
include st

theorem new_ne {r : Span} (here : span a = some r) : a ≠ m.fresh := (st.half.tree.small a r here).ne

theorem fresh_not_held : m.fresh ∉ held := by
  intro member
  obtain ⟨r, here⟩ := st.known _ member
  exact st.new_ne here rfl

theorem up_left : ∃ q, m.up n = some q := st.half.tree.known n s st.half.left

/-- The new internode is the only new node. -/
theorem grown_pair {r : Span} (fresh : m'.fresh = m.fresh + nodeSize)
    (body : ∀ a, a ≠ m.fresh → m'.body a = m.body a)
    (inner : ∀ a, a ≠ m.fresh → (m'.inner a).isSome = (m.inner a).isSome)
    (new : (m'.inner m.fresh).isSome) : Grown m span m' (Function.update span m.fresh (some r)) := by
  refine ⟨fresh ▸ Nat.le_add_right .., fun a s here => body a (st.new_ne here), fun a s here => inner a (st.new_ne here),
    fun a s here => ⟨s, ?_, rfl, fun _ => rfl⟩, fun a s here => ?_⟩
  · rw [Function.update_of_ne (st.new_ne here)]
    exact here
  · by_cases same : a = m.fresh
    · subst same
      exact .inr ⟨le_rfl, new⟩
    · rw [Function.update_of_ne same] at here
      exact .inl (by rw [here]; rfl)

theorem makeParent_root (last : n = top) :
    Runs (makeParent n child t.lo (height m.inner n) 0 0) m fun _ m' => ∃ span' top', Grown m span m' span' ∧
      (∀ a ∈ held, m'.version a = m.version a) ∧ Whole m'.up m'.inner m'.fresh span' top' ∧
      Calm m' span' top' held split ∧ n ≠ top' := by
  have half := st.half
  have left_ne := st.new_ne half.left
  have right_ne := st.new_ne half.right
  have ne := half.ne
  have loose := half.loose
  obtain ⟨q, above⟩ := st.up_left
  rw [makeParent]
  refine runs_alloc ?_
  change Runs _ (m.alloc .make (.internode (pair (height m.inner n + 1) n t.lo child))) _
  let m₁ := m.alloc .make (.internode (pair (height m.inner n + 1) n t.lo child))
  let m₂ := m₁.setParent child m.fresh
  let m₃ := (m₂.setParent m.fresh 0).setVersion m.fresh { m₂.version m.fresh with root := true }
  have up₃ : m₃.up = Function.update (Function.update m.up m.fresh (some 0)) child (some m.fresh) := by
    funext a
    by_cases first : a = m.fresh <;> by_cases second : a = child <;>
      simp_all [m₃, m₂, m₁, Kind.parent, pair, Internode.assign, Internode.setChild, Internode.make]
  refine Wp.step (setParent_ok (s := m₁) m.fresh (show m₁.up child = some 0 by simp [m₁, right_ne, loose])) ?_
  rw [if_pos rfl]
  refine Wp.step (makeLayerRoot_ok (m := m₂) (show m₂.up m.fresh = some 0 by
    simp [m₂, m₁, right_ne.symm, Kind.parent, pair, Internode.assign, Internode.setChild, Internode.make])) ?_
  refine Wp.of_ok (setParent_ok (s := m₃) m.fresh (show m₃.up n = some q by
    rw [up₃, Function.update_of_ne ne, Function.update_of_ne left_ne, above])) ?_
  have up' : (m₃.setParent n m.fresh).up = Function.update m₃.up n (some m.fresh) := by
    rw [Mem.up_setParent, up₃, Function.update_of_ne ne, Function.update_of_ne left_ne, above]
    rfl
  have inner' : (m₃.setParent n m.fresh).inner =
      Function.update m.inner m.fresh (some (pair (height m.inner n + 1) n t.lo child)) := by
    simp only [m₃, m₂, m₁, Mem.inner_setParent, Mem.inner_setVersion, Mem.inner_alloc]
    rfl
  have body' : (m₃.setParent n m.fresh).body = Function.update m.body m.fresh none := by
    simp only [m₃, m₂, m₁, Mem.body_setParent, Mem.body_setVersion, Mem.body_alloc]
    rfl
  have version' : (m₃.setParent n m.fresh).version =
      Function.update m.version m.fresh { Nodeversion.make with root := true } := by
    simp [m₃, m₂, m₁]
  have fresh' : (m₃.setParent n m.fresh).fresh = m.fresh + nodeSize := rfl
  generalize m₃.setParent n m.fresh = m' at up' inner' body' version' fresh'
  have others (a : Addr) (first : a ≠ n) (second : a ≠ child) (third : a ≠ m.fresh) : m'.up a = m.up a := by
    rw [up', up₃, Function.update_of_ne first, Function.update_of_ne second, Function.update_of_ne third]
  have paired : Paired m.up m'.up m'.inner m.fresh n child m.fresh (height m.inner n) t.lo := by
    refine ⟨rfl, by rw [inner', Function.update_self], by rw [up', Function.update_self], ?_, others⟩
    rw [up', Function.update_of_ne ne.symm, up₃, Function.update_self]
  have root : m'.up m.fresh = some 0 := by
    rw [up', up₃, Function.update_of_ne left_ne.symm, Function.update_of_ne right_ne.symm,
      Function.update_self]
  have keep (a : Addr) (other : a ≠ m.fresh) : m'.inner a = m.inner a := by
    rw [inner', Function.update_of_ne other]
  have version (a : Addr) (other : a ≠ m.fresh) : m'.version a = m.version a := by
    rw [version', Function.update_of_ne other]
  have new : m'.version m.fresh = { Nodeversion.make with root := true } := by
    rw [version', Function.update_self]
  refine ⟨Function.update span m.fresh (some ⟨s.lo, t.hi⟩), m.fresh, st.grown_pair fresh' (fun a other => by rw [body', Function.update_of_ne other])
    (fun a other => by rw [keep a other]) (by rw [inner', Function.update_self]; rfl),
    fun a member => version a ?_, ?_, ?_, left_ne⟩
  · rintro rfl
    exact st.fresh_not_held member
  · rw [fresh']
    exact half.grow paired last root fun a r here => keep a (st.new_ne here)
  · have settled : settled m' held m.fresh = { Nodeversion.make with root := true } :=
      (if_neg st.fresh_not_held).trans new
    refine st.calm.extend (fun _ _ => .rfl) version (fun a r here => by rw [keep a (st.new_ne here)])
      (fun a r here => st.new_ne here) ?_ (fun member => absurd member st.fresh_not_held)
      (.inl ⟨rfl, last ▸ st.splits, by rw [settled]⟩)
    rw [settled]
    exact ⟨rfl, rfl, rfl, rfl⟩

theorem makeParent_gap {before behind : List (Nat × Addr)} (here : span p = some sp)
    (inner_eq : m.inner p = some i) (ne_top : n ≠ top) (parent : m.up n = some p)
    (slot : Slot m.up m.inner span p n child s t sp i before behind) (gap : height m.inner n + 1 < i.height) :
    Runs (makeParent n child t.lo (height m.inner n) p (i.upper t.lo)) m fun _ m' => ∃ span',
      Grown m span m' span' ∧ (∀ a ∈ held, m'.version a = m.version a) ∧
      Whole m'.up m'.inner m'.fresh span' top ∧ Calm m' span' top held split := by
  have half := st.half
  have left_ne := st.new_ne half.left
  have right_ne := st.new_ne half.right
  have p_ne := st.new_ne here
  have ne := half.ne
  have loose := half.loose
  obtain ⟨ne_p, child_ne_p⟩ := slot.ne
  rw [makeParent]
  refine runs_alloc ?_
  change Runs _ (m.alloc .make (.internode (pair (height m.inner n + 1) n t.lo child))) _
  let m₁ := m.alloc .make (.internode (pair (height m.inner n + 1) n t.lo child))
  let m₂ := m₁.setParent child m.fresh
  let m₃ := m₂.setParent m.fresh p
  let m₄ := m₃.mapInternode p (·.setChild (i.upper t.lo) m.fresh)
  have up₃ : m₃.up = Function.update (Function.update m.up m.fresh (some p)) child (some m.fresh) := by
    funext a
    by_cases first : a = m.fresh <;> by_cases second : a = child <;>
      simp_all [m₃, m₂, m₁]
  have inner₃ : m₃.inner = Function.update m.inner m.fresh
      (some (pair (height m.inner n + 1) n t.lo child)) := by
    simp only [m₃, m₂, m₁, Mem.inner_setParent, Mem.inner_alloc]
    rfl
  have inner_p : m₃.inner p = some i := by rw [inner₃, Function.update_of_ne p_ne, inner_eq]
  have up₄ : m₄.up = m₃.up := Mem.up_mapInternode _ _ _ fun _ => rfl
  have inner₄ : m₄.inner = Function.update m₃.inner p (some (i.setChild (i.upper t.lo) m.fresh)) := by
    rw [show m₄.inner = _ from Mem.inner_mapInternode _ _ _ fun _ => rfl, inner_p]
    rfl
  refine Wp.step (setParent_ok (s := m₁) m.fresh (show m₁.up child = some 0 by simp [m₁, right_ne, loose])) ?_
  rw [if_neg (half.ne_zero here)]
  refine Wp.step (setParent_ok (s := m₂) p (show m₂.up m.fresh = some 0 by
    simp [m₂, m₁, right_ne.symm, Kind.parent, pair, Internode.assign, Internode.setChild, Internode.make])) ?_
  refine Wp.step (modifyInternode_ok (s := m₃) _ inner_p) ?_
  refine Wp.of_ok (setParent_ok (s := m₄) m.fresh (show m₄.up n = some p by
    rw [up₄, up₃, Function.update_of_ne ne, Function.update_of_ne left_ne, parent])) ?_
  have up' : (m₄.setParent n m.fresh).up = Function.update m₃.up n (some m.fresh) := by
    rw [Mem.up_setParent, up₄, up₃, Function.update_of_ne ne, Function.update_of_ne left_ne, parent]
    rfl
  have inner' : (m₄.setParent n m.fresh).inner = m₄.inner := Mem.inner_setParent ..
  have body' : (m₄.setParent n m.fresh).body = Function.update m.body m.fresh none := by
    simp only [m₄, m₃, m₂, m₁, Mem.body_setParent, Mem.body_mapInternode, Mem.body_alloc]
    rfl
  have version' : (m₄.setParent n m.fresh).version = Function.update m.version m.fresh .make := by
    simp [m₄, m₃, m₂, m₁]
  have fresh' : (m₄.setParent n m.fresh).fresh = m.fresh + nodeSize := rfl
  generalize m₄.setParent n m.fresh = m' at up' inner' body' version' fresh'
  rw [inner₄, inner₃] at inner'
  have others (a : Addr) (first : a ≠ n) (second : a ≠ child) (third : a ≠ m.fresh) : m'.up a = m.up a := by
    rw [up', up₃, Function.update_of_ne first, Function.update_of_ne second, Function.update_of_ne third]
  have paired : Paired m.up m'.up m'.inner m.fresh n child m.fresh (height m.inner n) t.lo := by
    refine ⟨rfl, ?_, by rw [up', Function.update_self], ?_, others⟩
    · rw [inner', Function.update_of_ne p_ne.symm, Function.update_self]
    · rw [up', Function.update_of_ne ne.symm, up₃, Function.update_self]
  have root : m'.up m.fresh = some p := by
    rw [up', up₃, Function.update_of_ne left_ne.symm, Function.update_of_ne right_ne.symm,
      Function.update_self]
  have inner_p' : m'.inner p = some (i.setChild (i.upper t.lo) m.fresh) := by
    rw [inner', Function.update_self]
  have keep (a : Addr) (first : a ≠ m.fresh) (second : a ≠ p) : m'.inner a = m.inner a := by
    rw [inner', Function.update_of_ne second, Function.update_of_ne first]
  have isSome (a : Addr) (first : a ≠ m.fresh) : (m'.inner a).isSome = (m.inner a).isSome := by
    by_cases same : a = p
    · rw [same, inner_p', inner_eq]
      rfl
    · rw [keep a first same]
  have version (a : Addr) (other : a ≠ m.fresh) : m'.version a = m.version a := by
    rw [version', Function.update_of_ne other]
  have new : m'.version m.fresh = .make := by
    rw [version', Function.update_self]
  have top_ne : top ≠ m.fresh := by
    have whole := half.tree.whole
    rw [Function.update_of_ne ne_top.symm] at whole
    exact st.new_ne whole
  refine ⟨Function.update span m.fresh (some ⟨s.lo, t.hi⟩), st.grown_pair fresh'
    (fun a other => by rw [body', Function.update_of_ne other]) isSome ?_, fun a member => version a ?_, ?_, ?_⟩
  · rw [inner', Function.update_of_ne p_ne.symm, Function.update_self]
    rfl
  · rintro rfl
    exact st.fresh_not_held member
  · rw [fresh']
    exact half.bridge paired here inner_eq ne_top parent slot gap root inner_p'
      fun a r known => keep a (st.new_ne known)
  · have settled : settled m' held m.fresh = .make := (if_neg st.fresh_not_held).trans new
    refine st.calm.extend (fun _ _ => .rfl) version (fun a r known => isSome a (st.new_ne known))
      (fun a r known => st.new_ne known) ?_ (fun member => absurd member st.fresh_not_held)
      (.inr ⟨rfl, top_ne, fun _ => by rw [settled]; rfl⟩)
    rw [settled]
    exact ⟨rfl, rfl, rfl, rfl⟩

/-- `child` becomes a child of the parent of `n`. -/
theorem insertChild_ok {before behind : List (Nat × Addr)} (here : span p = some sp)
    (inner_eq : m.inner p = some i) (ne_top : n ≠ top) (parent : m.up n = some p)
    (slot : Slot m.up m.inner span p n child s t sp i before behind) (room : i.nkeys < internodeWidth) :
    Runs (insertChild p (i.upper t.lo) t.lo child) m fun _ m' => Grown m span m' span ∧
      (∀ a, m'.version a = m.version a) ∧ Whole m'.up m'.inner m'.fresh span top ∧
      Calm m' span top held split := by
  have half := st.half
  let m₁ := m.setParent child p
  have up₁ : m₁.up = Function.update m.up child (some p) := by simp [m₁, half.loose]
  have inner₁ : m₁.inner = m.inner := Mem.inner_setParent ..
  rw [insertChild]
  refine Wp.step (setParent_ok p half.loose) ?_
  refine Wp.of_ok (modifyInternode_ok (s := m₁) _ (show m₁.inner p = some i by rw [inner₁, inner_eq])) ?_
  let g (j : Internode) := inserted j (i.upper t.lo) t.lo child
  have inner' : (m₁.mapInternode p g).inner = Function.update m.inner p (some (g i)) := by
    rw [Mem.inner_mapInternode m₁ p g fun _ => rfl, inner₁, inner_eq]
    rfl
  have up' : (m₁.mapInternode p g).up = Function.update m.up child (some p) :=
    (Mem.up_mapInternode m₁ p g fun _ => rfl).trans up₁
  have body' : (m₁.mapInternode p g).body = m.body := by simp [m₁]
  have version' : (m₁.mapInternode p g).version = m.version := rfl
  have fresh' : (m₁.mapInternode p g).fresh = m.fresh := rfl
  change Grown m span (m₁.mapInternode p g) span ∧ (∀ a, (m₁.mapInternode p g).version a = m.version a) ∧
    Whole (m₁.mapInternode p g).up (m₁.mapInternode p g).inner (m₁.mapInternode p g).fresh span top ∧
    Calm (m₁.mapInternode p g) span top held split
  generalize m₁.mapInternode p g = m' at up' inner' body' version' fresh'
  have isSome (a : Addr) : (m'.inner a).isSome = (m.inner a).isSome := by
    by_cases same : a = p
    · rw [same, inner', Function.update_self, inner_eq]
      rfl
    · rw [inner', Function.update_of_ne same]
  refine ⟨⟨fresh'.ge, fun a r _ => by rw [body'], fun a r _ => isSome a, fun a r known => ⟨r, known, rfl, fun _ => rfl⟩,
    fun a r known => .inl (by rw [known]; rfl)⟩, fun a => by rw [version'], ?_, ?_⟩
  · rw [fresh']
    refine half.insert here inner_eq ne_top parent slot room ?_ (fun a other => ?_) ?_ fun a other => ?_
    · rw [up', Function.update_self]
    · rw [up', Function.update_of_ne other]
    · rw [inner', Function.update_self]
    · rw [inner', Function.update_of_ne other]
  · have same (a : Addr) : settled m' held a = settled m held a := by rw [settled, settled, version']
    exact st.calm.transfer (fun a _ _ => isSome a) (fun a _ _ => by rw [same]) (by rw [same])
      fun a member => by rw [version']; exact st.calm.locked a member

end Splitting

/-! The split of the parent. -/

def splitMiddle (splitType : Nat) : Nat := if splitType = 2 then internodeWidth else (internodeWidth + 1) / 2

/-- The children of the new internode. -/
def rightChildren (right : Internode) : List Addr := (List.range (right.nkeys + 1)).map right.child

/-- The old internode before the caller inserts into it. -/
def leftPart (i : Internode) (mid kp : Nat) : Internode := { i with nkeys := if kp < mid then mid - 1 else mid }

/-- What `internode::split_into` does to `p` and the new internode `next`. -/
structure Parted (m m' : Mem) (p next : Addr) (left right : Internode) : Prop where
  inner : m'.inner = Function.update (Function.update m.inner next (some right)) p (some left)
  up : m'.up = fun a => if a ∈ rightChildren right then some next else m.up a
  body : m'.body = m.body
  fresh : m'.fresh = m.fresh
  version : m'.version p = { m.version p with splitting := true }
  flags : ∀ a, a ≠ p → flags (m'.version a) = flags (m.version a)
  locked : ∀ a, a ≠ p → (m.version a).locked = true → m'.version a = m.version a

theorem splitInto_ok {next child : Addr} {r : Internode} {q c : Addr} {kp key splitType : Nat}
    (ne : p ≠ next) (inner_p : m.inner p = some i) (up_p : m.up p = some q) (inner_next : m.inner next = some r)
    (up_next : m.up next = some 0) (up_child : m.up child = some c)
    (inside : splitMiddle splitType < kp →
      child ∈ rightChildren (i.splitRight r (splitMiddle splitType) kp key child).1)
    (known : ∀ c ∈ rightChildren (i.splitRight r (splitMiddle splitType) kp key child).1,
      c ≠ next ∧ c ≠ p ∧ (∃ q, m.up c = some q) ∧ ((m.version c).locked = true ∨ Free (m.version c)))
    (locked : (m.version p).locked = true) :
    ∃ m', splitInto p next kp key child splitType m = .ok
        (((i.splitRight r (splitMiddle splitType) kp key child).2,
          if kp < splitMiddle splitType then some kp else none), m') ∧
      Parted m m' p next (leftPart i (splitMiddle splitType) kp)
        (i.splitRight r (splitMiddle splitType) kp key child).1 := by
  let mid := splitMiddle splitType
  let right := (i.splitRight r mid kp key child).1
  change ∃ m', splitInto p next kp key child splitType m =
    .ok (((i.splitRight r mid kp key child).2, if kp < mid then some kp else none), m') ∧
      Parted m m' p next (leftPart i mid kp) right
  have parent : right.parent = 0 := by
    obtain ⟨j, kind, rfl⟩ := exists_internode inner_next
    exact (splitRight_rest _ _ _ _ _).1
  have bare : right.bare = right := by
    rw [Internode.bare, ← parent]
  have same : ({ i with parent := q } : Internode).splitRight { r with parent := 0 }
      (if splitType = 2 then internodeWidth else (internodeWidth + 1) / 2) kp key child =
      i.splitRight r mid kp key child := by
    obtain ⟨j, kind, rfl⟩ := exists_internode inner_next
    rfl
  -- the parent of the new child
  obtain ⟨m₁, first, up₁, inner₁, body₁, fresh₁, version₁⟩ : ∃ m₁, (∀ rest : T (Nat × Option Nat),
      (if mid < kp then setParent child next >>= fun _ => rest else rest) m = rest m₁) ∧
      m₁.up = (fun a => if mid < kp ∧ a = child then some next else m.up a) ∧ m₁.inner = m.inner ∧
      m₁.body = m.body ∧ m₁.fresh = m.fresh ∧ m₁.version = m.version := by
    by_cases behind : mid < kp
    · refine ⟨m.setParent child next, fun rest => ?_, ?_, Mem.inner_setParent .., Mem.body_setParent .., rfl, rfl⟩
      · rw [if_pos behind, bind_ok (setParent_ok next up_child)]
      · funext a
        by_cases here : a = child
        · subst here
          simp [behind, up_child]
        · simp [here]
    · refine ⟨m, fun rest => by rw [if_neg behind], ?_, rfl, rfl, rfl, rfl⟩
      simp [behind]
  rw [splitInto, bind_ok (internode_ok inner_p up_p), bind_ok (internode_ok inner_next up_next)]
  simp only [same]
  let rest : T (Nat × Option Nat) := do
    modifyInternode next fun _ => right
    moveChildren next (rightChildren right)
    markSplit p
    modifyInternode p fun i => leftPart i mid kp
    return ((i.splitRight r mid kp key child).2, if kp < mid then some kp else none)
  change ∃ m', (if mid < kp then setParent child next >>= fun _ => rest else rest) m = _ ∧ _
  rw [first]
  have up_next₁ : m₁.up next = some 0 := by
    rw [up₁]
    by_cases behind : mid < kp ∧ next = child
    · exact absurd behind.2.symm (known child (inside behind.1)).1
    · simp only [if_neg behind, up_next]
  let m₂ := m₁.mapInternode next fun _ => right
  have up₂ : m₂.up = m₁.up := Mem.up_setInternode m₁ next right (by rw [up_next₁, parent])
  have inner₂ : m₂.inner = Function.update m.inner next (some right) := by
    rw [show m₂.inner = _ from Mem.inner_setInternode m₁ next right, inner₁, inner_next, bare]
    rfl
  obtain ⟨m₃, moved, move⟩ := @moveChildren_ok m₂ next (rightChildren right)
    (fun c member => by
      obtain ⟨-, -, ⟨q, above⟩, -⟩ := known c member
      rw [up₂, up₁]
      by_cases here : mid < kp ∧ c = child
      · exact ⟨next, if_pos here⟩
      · exact ⟨q, by simp only [if_neg here, above]⟩)
    (fun c member => by
      obtain ⟨-, -, -, free⟩ := known c member
      rw [show m₂.version = m.version from version₁]
      exact free)
  have up₃ : m₃.up p = some q := by
    rw [move.up, up₂, up₁]
    by_cases here : p ∈ rightChildren right
    · exact absurd rfl (known p here).2.1
    · simp only [if_neg here]
      by_cases there : mid < kp ∧ p = child
      · exact absurd (there.2 ▸ inside there.1) here
      · simp only [if_neg there, up_p]
  let m₄ := m₃.setVersion p { m₃.version p with splitting := true }
  have inner₄ : m₄.inner p = some i := by
    rw [show m₄.inner = m₃.inner from rfl, move.inner, inner₂, Function.update_of_ne ne, inner_p]
  refine ⟨m₄.mapInternode p fun i => leftPart i mid kp, ?_, ?_, ?_, ?_, ?_, ?_, ?_, ?_⟩
  · simp only [rest]
    rw [bind_ok (modifyInternode_ok (s := m₁) _ (by rw [inner₁, inner_next])), bind_ok moved,
      bind_ok (markSplit_ok up₃), bind_ok (modifyInternode_ok (s := m₄) _ inner₄)]
    rfl
  · rw [Mem.inner_mapInternode m₄ p (fun i => leftPart i mid kp) fun _ => rfl, inner₄]
    rw [show m₄.inner = m₃.inner from rfl, move.inner, inner₂]
    rfl
  · rw [Mem.up_mapInternode m₄ p (fun i => leftPart i mid kp) fun _ => rfl]
    rw [show m₄.up = m₃.up from rfl, move.up, up₂, up₁]
    funext a
    by_cases here : a ∈ rightChildren right
    · simp [here]
    · have out : ¬ (mid < kp ∧ a = child) := fun there => here (there.2 ▸ inside there.1)
      simp [here, out]
  · rw [Mem.body_mapInternode, show m₄.body = m₃.body from rfl, move.body, show m₂.body = _ from Mem.body_mapInternode ..,
      body₁]
  · rw [Mem.fresh_mapInternode, show m₄.fresh = m₃.fresh from rfl, move.fresh, show m₂.fresh = m₁.fresh from rfl, fresh₁]
  · rw [Mem.version_mapInternode, Mem.version_setVersion, Function.update_self, move.locked]
    · rw [show m₂.version = m.version from version₁]
    · rw [show m₂.version = m.version from version₁, locked]
  · intro a other
    rw [Mem.version_mapInternode, Mem.version_setVersion, Function.update_of_ne other, move.flags,
      show m₂.version = m.version from version₁]
  · intro a other held
    rw [Mem.version_mapInternode, Mem.version_setVersion, Function.update_of_ne other, move.locked,
      show m₂.version = m.version from version₁]
    rw [show m₂.version = m.version from version₁, held]

/-- The part of `hang` that splits the parent `p`. -/
def splitParent (p child : Addr) (kp key height splitType : Nat) : T (Addr × Option (Addr × Nat)) := do
  let v ← version p
  let next ← alloc { v with root := false } (.internode (.make 0 (height + 1)))
  let (nextKey, rest) ← splitInto p next kp key child splitType
  match rest with
  | some kp => insertChild p kp key child
  | none => pure ()
  return (p, some (next, nextKey))

/-- `insertChild` after `split_into`. -/
theorem finish_parted {m₁ m₂ : Mem} {next : Addr} {right : Internode} {mid kp : Nat} (key : Nat)
    (child : Addr) {α : Type} (parted : Parted m₁ m₂ p next (leftPart i mid kp) right)
    (known : ∃ q, m₁.up child = some q) (value : α) :
    ∃ m', (do
        match (if kp < mid then some kp else none) with
        | some kp => insertChild p kp key child
        | none => pure ()
        return value : T α) m₂ = .ok (value, m') ∧
      m'.inner = Function.update (Function.update m₁.inner next (some right)) p (some (splitLeft i mid kp key child)) ∧
      m'.up = (fun a => if kp < mid ∧ a = child then some p else if a ∈ rightChildren right then some next else
        m₁.up a) ∧ m'.body = m₁.body ∧ m'.fresh = m₁.fresh ∧ m'.version = m₂.version := by
  by_cases left : kp < mid
  · have up : ∃ q, m₂.up child = some q := by
      rw [parted.up]
      obtain ⟨q, above⟩ := known
      by_cases here : child ∈ rightChildren right
      · exact ⟨next, if_pos here⟩
      · exact ⟨q, by simp only [if_neg here, above]⟩
    obtain ⟨q, above⟩ := up
    have inner₃ : (m₂.setParent child p).inner p = some (leftPart i mid kp) := by
      rw [Mem.inner_setParent, parted.inner, Function.update_self]
    let g (j : Internode) := inserted j kp key child
    refine ⟨(m₂.setParent child p).mapInternode p g, ?_, ?_, ?_, ?_, ?_, ?_⟩
    · simp only [if_pos left, insertChild]
      rw [bind_ok (show _ = Except.ok ((), (m₂.setParent child p).mapInternode p g) from by
        rw [bind_ok (setParent_ok p above)]
        exact modifyInternode_ok (s := m₂.setParent child p) g inner₃)]
      rfl
    · rw [Mem.inner_mapInternode _ p g fun _ => rfl, inner₃, Mem.inner_setParent, parted.inner,
        Function.update_idem, splitLeft, if_pos left]
      simp only [leftPart, if_pos left]
      rfl
    · rw [Mem.up_mapInternode _ p g fun _ => rfl, Mem.up_setParent, above, parted.up]
      funext a
      by_cases here : a = child <;> simp [here, left]
    · rw [Mem.body_mapInternode, Mem.body_setParent, parted.body]
    · exact parted.fresh
    · rfl
  · refine ⟨m₂, ?_, ?_, ?_, parted.body, parted.fresh, rfl⟩
    · simp only [if_neg left]
      rfl
    · rw [parted.inner, splitLeft, if_neg left, leftPart, if_neg left]
    · rw [parted.up]
      simp [left]

theorem splitMiddle_bounds (splitType : Nat) : 1 < splitMiddle splitType ∧ splitMiddle splitType ≤ internodeWidth := by
  simp only [splitMiddle, internodeWidth]
  split <;> omega

/-- The state after an iteration that has split the parent `p`. -/
structure Next (m : Mem) (span : Addr → Option Span) (top : Addr) (held : Finset Addr) (split : Addr → Prop)
    (p next : Addr) (key : Nat) (m' : Mem) (span' : Addr → Option Span) (s t : Span) : Prop where
  splitting : Splitting m' span' top (insert next held) (fun a => split a ∨ a = p) p next s t
  grown : Grown m span m' span'
  start : t.lo = key
  same : ∀ a ∈ held, a ≠ p → m'.version a = m.version a
  splits : (m'.version p).splitting = true
  height : ∀ a r, span a = some r → height m'.inner a = height m.inner a
  only : ∀ a r, span' a = some r → a = next ∨ ∃ r', span a = some r'

theorem Splitting.splitParent_ok (st : Splitting m span top held split n child s t)
    {before behind : List (Nat × Addr)} {splitType : Nat} (here : span p = some sp)
    (inner_eq : m.inner p = some i) (ne_top : n ≠ top) (parent : m.up n = some p)
    (slot : Slot m.up m.inner span p n child s t sp i before behind) (locked : p ∈ held)
    (full : i.nkeys = internodeWidth) (level : i.height = height m.inner n + 1) :
    Runs (splitParent p child (i.upper t.lo) t.lo (height m.inner n) splitType) m fun r m' =>
      ∃ key span' s' t', r = (p, some (m.fresh, key)) ∧
        Next m span top held split p m.fresh key m' span' s' t' := by
  have half := st.half
  obtain ⟨low, high⟩ := splitMiddle_bounds splitType
  let h := height m.inner n
  let r := Internode.make 0 (h + 1)
  let key := (i.splitRight r (splitMiddle splitType) (i.upper t.lo) t.lo child).2
  let right := (i.splitRight r (splitMiddle splitType) (i.upper t.lo) t.lo child).1
  let left := splitLeft i (splitMiddle splitType) (i.upper t.lo) t.lo child
  have div : Divided span sp.lo sp.hi key left right (before ++ (s.lo, n) :: (t.lo, child) :: behind) :=
    divided r slot.place (half.joined slot) half.null full low high
  have children : (slots key right).map Prod.snd = rightChildren right := slots_children div.first
  obtain ⟨q, above⟩ := half.tree.known p sp here
  have p_ne := st.new_ne here
  have child_ne := st.new_ne half.right
  have of_right {c : Addr} (member : c ∈ rightChildren right) :
      ∃ x ∈ slots key right, x.2 = c := by
    rw [← children] at member
    exact List.mem_map.mp member
  rw [splitParent]
  refine Wp.step (version_ok above) (runs_alloc ?_)
  let v : Nodeversion := { m.version p with root := false }
  let m₁ := m.alloc v (.internode r)
  have up₁ : m₁.up = Function.update m.up m.fresh (some 0) := Mem.up_alloc ..
  have inner₁ : m₁.inner = Function.update m.inner m.fresh (some r) := Mem.inner_alloc ..
  have version₁ : m₁.version = Function.update m.version m.fresh v := Mem.version_alloc ..
  obtain ⟨m₂, run, parted⟩ := @splitInto_ok m₁ p i m.fresh child r q 0 (i.upper t.lo) t.lo splitType p_ne
    (by rw [inner₁, Function.update_of_ne p_ne, inner_eq]) (by rw [up₁, Function.update_of_ne p_ne, above])
    (by rw [inner₁, Function.update_self]) (by rw [up₁, Function.update_self])
    (by rw [up₁, Function.update_of_ne child_ne, half.loose])
    (fun more => by
      have member := @mem_splitRight i _ _ t.lo child r full (by omega) high slot.place.small more.le
        div.first
      change child ∈ rightChildren right
      rw [← children]
      exact List.mem_map.mpr ⟨_, member, rfl⟩)
    (fun c member => by
      obtain ⟨x, inside, rfl⟩ := of_right member
      have whole := div.mem.mpr (.inr inside)
      obtain ⟨r', known⟩ := tiles_owned (half.joined slot) whole
      obtain ⟨q', above'⟩ := half.tree.known _ r' known
      have ne := st.new_ne known
      refine ⟨ne, (half.joined_child parent slot whole).1, ⟨q', by rw [up₁, Function.update_of_ne ne, above']⟩, ?_⟩
      rw [version₁, Function.update_of_ne ne]
      by_cases inside : x.2 ∈ held
      · exact .inl (st.calm.locked _ inside)
      · exact .inr (st.calm.version_free known inside))
    (by rw [version₁, Function.update_of_ne p_ne]; exact st.calm.locked p locked)
  refine Wp.step run ?_
  obtain ⟨m', run', inner', up', body', fresh', version'⟩ := finish_parted t.lo child
    parted ⟨0, by rw [up₁, Function.update_of_ne child_ne, half.loose]⟩ (p, some (m.fresh, key))
  refine Wp.of_ok run' ⟨key, Function.update (Function.update span p (some ⟨sp.lo, key⟩)) m.fresh
    (some ⟨key, sp.hi⟩), ⟨sp.lo, key⟩, ⟨key, sp.hi⟩, rfl, ?_⟩
  have inner_p : m'.inner p = some left := by rw [inner', Function.update_self]
  have inner_next : m'.inner m.fresh = some right := by
    rw [inner', Function.update_of_ne p_ne.symm, Function.update_self]
  have keep (a : Addr) (first : a ≠ p) (second : a ≠ m.fresh) : m'.inner a = m.inner a := by
    rw [inner', Function.update_of_ne first, Function.update_of_ne second, inner₁,
      Function.update_of_ne second]
  have height_left : left.height = i.height := by
    simp only [left, splitLeft]
    split <;> rfl
  have heights (a : Addr) (r : Span) (known : span a = some r) : height m'.inner a = height m.inner a := by
    by_cases same : a = p
    · rw [same, height_internode inner_p, height_internode inner_eq, height_left]
    · simp only [height, keep a same (st.new_ne known)]
  have isSome (a : Addr) (ne : a ≠ m.fresh) : (m'.inner a).isSome = (m.inner a).isSome := by
    by_cases same : a = p
    · rw [same, inner_p, inner_eq]
      rfl
    · rw [keep a same ne]
  have child_left (less : i.upper t.lo < splitMiddle splitType) : child ∉ rightChildren right := by
    intro member
    obtain ⟨x, inside, same⟩ := of_right member
    have inside' := @mem_splitLeft sp.lo i _ _ t.lo child full (by omega) high
      slot.place.small less
    exact div.apart inside' inside same.symm
  have next_out : m.fresh ∉ rightChildren right := by
    intro member
    obtain ⟨x, inside, same⟩ := of_right member
    obtain ⟨r', known⟩ := tiles_owned (half.joined slot) (div.mem.mpr (.inr inside))
    exact st.new_ne known same
  have ups (a : Addr) : m'.up a = if i.upper t.lo < splitMiddle splitType ∧ a = child then some p else
      if a ∈ rightChildren right then some m.fresh else m₁.up a := congrFun up' a
  have version_p : m'.version p = { m.version p with splitting := true } := by
    rw [version', parted.version, version₁, Function.update_of_ne p_ne]
  have half' : Half m'.up m'.inner m'.fresh (Function.update (Function.update span p (some ⟨sp.lo, key⟩)) m.fresh
      (some ⟨key, sp.hi⟩)) top p m.fresh ⟨sp.lo, key⟩ ⟨key, sp.hi⟩ := by
    rw [show m'.fresh = m.fresh + nodeSize from fresh']
    refine half.split here inner_eq ne_top parent slot div rfl inner_p inner_next keep height_left ?_ ?_ ?_
      (fun zero => ?_) (fun x member => ?_) (fun out => ?_) ?_ (fun a first second out => ?_)
    · exact (splitRight_rest r _ _ _ _).2.trans level.symm
    · rw [nkeys_splitLeft (by omega)]
      exact high
    · rw [nkeys_splitRight]
      exact Nat.sub_le ..
    · have same := @skip_splitLeft i _ _ t.lo child full (by omega) high slot.place.small
      rw [skip_of_eq zero] at same
      by_contra ne
      rw [skip_of_ne ne] at same
      cases same
    · have inside : x.2 ∈ rightChildren right := by
        rw [← children]
        exact List.mem_map.mpr ⟨x, member, rfl⟩
      have out : ¬ (i.upper t.lo < splitMiddle splitType ∧ x.2 = child) :=
        fun both => child_left both.1 (both.2 ▸ inside)
      rw [ups, if_neg out, if_pos inside]
    · by_cases less : i.upper t.lo < splitMiddle splitType
      · rw [ups, if_pos ⟨less, rfl⟩]
      · have member := @mem_splitRight i _ _ t.lo child r full (by omega) high slot.place.small
          (by omega) div.first
        exact absurd (List.mem_map.mpr ⟨_, member, rfl⟩) out
    · have out : ¬ (i.upper t.lo < splitMiddle splitType ∧ m.fresh = child) := fun both => child_ne both.2.symm
      rw [ups, if_neg out, if_neg next_out, up₁, Function.update_self]
    · rw [children] at out
      have other : ¬ (i.upper t.lo < splitMiddle splitType ∧ a = child) := fun both => first both.2
      rw [ups, if_neg other, if_neg out, up₁, Function.update_of_ne second]
  have free_p := st.calm.free p sp here
  rw [settled, if_pos locked] at free_p
  have deleted : (m.version p).deleted = false := by
    have same := congrArg Nodeversion.deleted (flags_unlock (m.version p))
    exact same.symm.trans free_p.deleted
  have settled_next : settled m₁ (insert m.fresh held) m.fresh = v.unlock := by
    rw [settled, if_pos (Finset.mem_insert_self ..), version₁, Function.update_self]
  have flags_v := flags_unlock v
  have calm₁ : Calm m₁ (Function.update span m.fresh (some ⟨key, sp.hi⟩)) top (insert m.fresh held) split := by
    refine st.calm.extend (fun a ne => by simp [ne]) (fun a ne => by rw [version₁, Function.update_of_ne ne])
      (fun a r known => by rw [inner₁, Function.update_of_ne (st.new_ne known)]) (fun a r known => st.new_ne known)
      ?_ (fun _ => ?_) (.inr ⟨rfl, ?_, fun _ => ?_⟩)
    · rw [settled_next]
      refine Free.of_flags (v := { flags v with
        locked := false, inserting := false, splitting := false, root := v.root && !v.splitting }) ?_ flags_v
      exact ⟨rfl, rfl, rfl, deleted⟩
    · rw [version₁, Function.update_self]
      exact st.calm.locked p locked
    · have whole := half.tree.whole
      rw [Function.update_of_ne ne_top.symm] at whole
      exact st.new_ne whole
    · rw [settled_next]
      exact congrArg Nodeversion.root flags_v
  have calm₂ : Calm m₁ (Function.update (Function.update span p (some ⟨sp.lo, key⟩)) m.fresh
      (some ⟨key, sp.hi⟩)) top (insert m.fresh held) fun a => split a ∨ a = p := by
    refine (calm₁.respan fun a r known => ?_).mono fun a => .inl
    by_cases first : a = m.fresh
    · rw [first, Function.update_self] at known
      exact ⟨r, by rw [first, Function.update_self, known], id⟩
    · rw [Function.update_of_ne first] at known ⊢
      by_cases second : a = p
      · rw [second, Function.update_self] at known
        obtain rfl := Option.some.inj known
        exact ⟨sp, second ▸ here, id⟩
      · rw [Function.update_of_ne second] at known
        exact ⟨r, known, id⟩
  have calm₃ := calm₂.markSplit (a := p) (Finset.mem_insert_of_mem locked) (.inr rfl)
  have same_p : m₁.version p = m.version p := by rw [version₁, Function.update_of_ne p_ne]
  have locked_same (a : Addr) (ne : a ≠ p) (member : a ∈ insert m.fresh held) : m'.version a = m₁.version a := by
    rw [version', parted.locked a ne (calm₁.locked a member)]
  have flags_same (a : Addr) : flags (settled m' (insert m.fresh held) a) =
      flags (settled (m₁.setVersion p { m₁.version p with splitting := true }) (insert m.fresh held) a) := by
    by_cases same : a = p
    · rw [same, settled, settled, if_pos (Finset.mem_insert_of_mem locked),
        if_pos (Finset.mem_insert_of_mem locked), Mem.version_setVersion, Function.update_self, version_p, same_p]
    · by_cases member : a ∈ insert m.fresh held
      · rw [settled, settled, if_pos member, if_pos member, Mem.version_setVersion, Function.update_of_ne same,
          locked_same a same member]
      · rw [settled, settled, if_neg member, if_neg member, Mem.version_setVersion, Function.update_of_ne same,
          version', parted.flags a same]
  refine ⟨⟨half', ?_, .inr rfl, Finset.mem_insert_of_mem locked, Finset.mem_insert_self .., ?_⟩, ?_, rfl, ?_,
    by rw [version_p], heights, fun a r known => ?_⟩
  · refine calm₃.transfer (fun a r known => ?_) (fun a _ _ => flags_same a) (flags_same top) fun a member => ?_
    · rw [Mem.inner_setVersion]
      by_cases first : a = m.fresh
      · rw [first, inner_next, inner₁, Function.update_self]
        rfl
      · rw [isSome a first, inner₁, Function.update_of_ne first]
    · by_cases same : a = p
      · rw [same, version_p]
        exact st.calm.locked p locked
      · rw [locked_same a same member]
        exact calm₁.locked a member
  · intro a member
    by_cases first : a = m.fresh
    · exact ⟨_, by rw [first, Function.update_self]⟩
    · by_cases second : a = p
      · exact ⟨_, by rw [second, Function.update_of_ne p_ne, Function.update_self]⟩
      · obtain ⟨r, known⟩ := st.known a (Finset.mem_of_mem_insert_of_ne member first)
        exact ⟨r, by rw [Function.update_of_ne first, Function.update_of_ne second, known]⟩
  · refine ⟨?_, fun a r known => ?_, fun a r known => isSome a (st.new_ne known), fun a r known => ?_,
      fun a r known => ?_⟩
    · rw [fresh']
      exact Nat.le_add_right ..
    · rw [body']
      exact congrFun (Mem.body_alloc ..) a |>.trans (Function.update_of_ne (st.new_ne known) ..)
    · by_cases same : a = p
      · subst same
        obtain rfl := Option.some.inj (here.symm.trans known)
        exact ⟨⟨sp.lo, key⟩, by rw [Function.update_of_ne p_ne, Function.update_self], rfl, fun none => by
          rw [inner_eq] at none
          cases none⟩
      · exact ⟨r, by rw [Function.update_of_ne (st.new_ne known), Function.update_of_ne same, known], rfl,
          fun _ => rfl⟩
    · by_cases first : a = m.fresh
      · exact .inr ⟨first.ge, by rw [first, inner_next]; rfl⟩
      · rw [Function.update_of_ne first] at known
        by_cases second : a = p
        · exact .inl (by rw [second, here]; rfl)
        · rw [Function.update_of_ne second] at known
          exact .inl (by rw [known]; rfl)
  · intro a member ne
    have other : a ≠ m.fresh := fun equal => st.fresh_not_held (equal ▸ member)
    rw [locked_same a ne (Finset.mem_insert_of_mem member), version₁, Function.update_of_ne other]
  · by_cases first : a = m.fresh
    · exact .inl first
    · rw [Function.update_of_ne first] at known
      by_cases second : a = p
      · exact .inr ⟨sp, second ▸ here⟩
      · rw [Function.update_of_ne second] at known
        exact .inr ⟨r, known⟩

/-- The state after an iteration. -/
def Hung (m : Mem) (span : Addr → Option Span) (top : Addr) (held : Finset Addr) (split : Addr → Prop)
    (n : Addr) : Addr × Option (Addr × Nat) → Mem → Prop
  | (p, none), m' => ∃ span' top', Grown m span m' span' ∧ (∀ a ∈ held, m'.version a = m.version a) ∧
      Whole m'.up m'.inner m'.fresh span' top' ∧
      Calm m' span' top' (if p = 0 then held else insert p held) split ∧ n ≠ top' ∧ p ∉ held ∧
      (p ≠ 0 → ∃ sp, span p = some sp)
  | (p, some (next, key)), m' => ∃ span' s' t', Next m span top (insert p held) split p next key m' span' s' t' ∧
      n ≠ top ∧ p ∉ held ∧ height m.inner p = height m.inner n + 1 ∧ ∃ sp, span p = some sp

theorem Grown.refl (m' : Mem) (fresh : m'.fresh = m.fresh) (inner : m'.inner = m.inner) (body : m'.body = m.body) :
    Grown m span m' span :=
  ⟨fresh.ge, fun a _ _ => by rw [body], fun a _ _ => by rw [inner], fun a s here => ⟨s, here, rfl, fun _ => rfl⟩,
    fun a s here => .inl (by rw [here]; rfl)⟩

theorem Splitting.hang_ok (st : Splitting m span top held split n child s t)
    (low : ∀ a ∈ held, height m.inner a ≤ height m.inner n) (splitType : Nat) :
    Runs (hang n child t.lo (height m.inner n) splitType) m (Hung m span top held split n) := by
  have half := st.half
  rw [hang]
  by_cases last : n = top
  · refine Wp.step (lockedParent_root (last ▸ half.tree.root)) ?_
    rw [if_pos rfl]
    refine Wp.call (st.makeParent_root last) fun _ m' ⟨span', top', grown, same, whole, calm, ne⟩ => ?_
    refine Wp.pure ⟨span', top', grown, same, whole, ?_, ne, ?_, fun other => absurd rfl other⟩
    · rwa [if_pos rfl]
    · intro member
      obtain ⟨r, here⟩ := st.known 0 member
      exact half.ne_zero here rfl
  · obtain ⟨p, sp, i, parent, here, inner_eq, ok, member⟩ := half.parent last
    obtain ⟨before, behind, slot⟩ := half.slot here inner_eq member
    obtain ⟨q, above⟩ := half.tree.known p sp here
    have higher : height m.inner n < height m.inner p := by
      rw [height_internode inner_eq]
      exact slot.below
    have out : p ∉ held := fun inside => by
      have := low p inside
      omega
    have nz := half.ne_zero here
    refine Wp.step (lockedParent_ok parent nz inner_eq above (st.calm.version_free here out)) ?_
    rw [if_neg nz]
    let m₀ := m.setVersion p { m.version p with locked := true }
    refine Wp.step (internode_ok (s := m₀) inner_eq above) ?_
    refine Wp.step (markInsert_ok (s := m₀) above) ?_
    let m₁ := m₀.setVersion p { m₀.version p with inserting := true }
    have st₁ : Splitting m₁ span top (insert p held) split n child s t := by
      refine ⟨half, (st.calm.lock here out).markInsert (Finset.mem_insert_self ..), st.splits,
        Finset.mem_insert_of_mem st.left, Finset.mem_insert_of_mem st.right, fun a member => ?_⟩
      rcases Finset.mem_insert.mp member with rfl | member
      · exact ⟨sp, here⟩
      · exact st.known a member
    have same₁ (a : Addr) (member : a ∈ held) : m₁.version a = m.version a := by
      have ne : a ≠ p := fun equal => out (equal ▸ member)
      simp [m₁, m₀, ne]
    have grown₁ : Grown m span m₁ span := Grown.refl m₁ rfl rfl rfl
    change Runs (if height m.inner n + 1 < i.height then _ else _) m₁ _
    split
    · next gap =>
      refine Wp.call (st₁.makeParent_gap (i := i) here inner_eq last parent slot gap)
        fun _ m' ⟨span', grown, same, whole, calm⟩ => ?_
      refine Wp.pure ⟨span', top, grown₁.trans grown, fun a member => ?_, whole, ?_, last, out, fun _ => ⟨sp, here⟩⟩
      · rw [same a (Finset.mem_insert_of_mem member), same₁ a member]
      · rwa [if_neg nz]
    · next level =>
      change Runs (if internodeWidth ≤ i.nkeys then splitParent p child (i.upper t.lo) t.lo (height m.inner n)
        splitType else _) m₁ _
      split
      · next full =>
        have level' : i.height = height m.inner n + 1 := by
          have := slot.below
          omega
        refine (st₁.splitParent_ok (i := i) here inner_eq last parent slot (Finset.mem_insert_self ..)
          (le_antisymm slot.width full) level').mono ?_
        · rintro r m' ⟨key, span', s', t', rfl, next⟩
          refine ⟨span', s', t', ⟨next.splitting, grown₁.trans next.grown, next.start, fun a member ne => ?_,
            next.splits, next.height, next.only⟩, last, out,
            (height_internode inner_eq).trans level', sp, here⟩
          rw [next.same a member ne]
          simp [m₁, m₀, ne]
      · next room =>
        refine Wp.call (st₁.insertChild_ok (i := i) here inner_eq last parent slot (Nat.lt_of_not_le room))
          fun _ m' ⟨grown, same, whole, calm⟩ => ?_
        refine Wp.pure ⟨span, top, grown₁.trans grown, fun a member => ?_, whole, ?_, last, out, fun _ => ⟨sp, here⟩⟩
        · rw [same a, same₁ a member]
        · rwa [if_neg nz]

end Incll.Proof.Layers
