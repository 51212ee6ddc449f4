import Incll.Proof.Layers.Shape

/-! # Well-formed layers -/

namespace Incll.Proof.Layers
open Incll.Lib Incll.Model Incll.Model.Layers

/-- A version without the counter. -/
def flags (v : Nodeversion) : Nodeversion := { v with counter := 0 }

/-- The version of a node that no operation is working on. -/
structure Free (v : Nodeversion) : Prop where
  locked : v.locked = false
  inserting : v.inserting = false
  splitting : v.splitting = false
  deleted : v.deleted = false

/-- The version of a node after the locks in `held` are released. -/
def settled (m : Mem) (held : Finset Addr) (a : Addr) : Nodeversion :=
  if a ∈ held then (m.version a).unlock else m.version a

/-- A leaf other than the first keeps the root bit that it was made with. Nothing is said about the root
bits of nodes that are being split. -/
structure Calm (m : Mem) (span : Addr → Option Span) (top : Addr) (held : Finset Addr)
    (split : Addr → Prop) : Prop where
  free : ∀ a s, span a = some s → Free (settled m held a)
  root : ¬ split top → (settled m held top).root = true
  other : ∀ a s, span a = some s → ¬ split a → a ≠ top → s.lo = 0 ∨ (m.inner a).isSome →
    (settled m held a).root = false
  locked : ∀ a ∈ held, (m.version a).locked = true

structure LeafOk (body : Addr → Option LeafBody) (span : Addr → Option Span) (s : Span) (b : LeafBody) :
    Prop where
  ok : EntriesOk b
  inside : ∀ e ∈ entries b, s.lo ≤ e.ikey ∧ e.ikey < s.hi
  bound : s.lo ≠ 0 → s.lo ≤ b.ikeyBound ∧ b.ikeyBound < s.hi ∧ ∀ e ∈ entries b, b.ikeyBound ≤ e.ikey
  first : s.lo = 0 → b.prev = 0
  prev : s.lo ≠ 0 → ∃ s' b', span b.prev = some s' ∧ s'.hi = s.lo ∧ body b.prev = some b'
  last : s.hi = ikeyLimit → b.next = 0
  next : s.hi ≠ ikeyLimit → ∃ s' b', span b.next = some s' ∧ s'.lo = s.hi ∧ body b.next = some b'

/-- A layer with the root `top`, in which the nodes in `held` are locked. -/
structure Layer (m : Mem) (span : Addr → Option Span) (top : Addr) (held : Finset Addr) : Prop where
  tree : Whole m.up m.inner m.fresh span top
  calm : Calm m span top held fun _ => False
  leaves : ∀ a s b, span a = some s → m.body a = some b → LeafOk m.body span s b

theorem Free.clean {v : Nodeversion} (free : Free v) : v.dirty = false := by
  simp [Nodeversion.dirty, free.inserting, free.splitting]

theorem Free.of_flags {v w : Nodeversion} (free : Free v) (same : flags w = flags v) : Free w := by
  obtain ⟨locked, inserting, splitting, deleted⟩ := free
  cases v
  cases w
  simp only [flags, Nodeversion.mk.injEq] at same
  simp only at locked inserting splitting deleted
  exact ⟨by simp [same, locked], by simp [same, inserting], by simp [same, splitting], by simp [same, deleted]⟩

theorem root_of_flags {v w : Nodeversion} (same : flags w = flags v) : w.root = v.root := by
  change (flags w).root = (flags v).root
  rw [same]

variable {m m' : Mem} {span span' : Addr → Option Span} {top top' a : Addr} {s : Span}
  {held held' : Finset Addr} {split split' : Addr → Prop}

theorem settled_empty : settled m ∅ a = m.version a := if_neg (Finset.notMem_empty a)

/-! Versions of locked nodes. -/

theorem flags_unlock (v : Nodeversion) : flags v.unlock = { flags v with
    locked := false, inserting := false, splitting := false, root := v.root && !v.splitting } := by
  unfold Nodeversion.unlock
  cases splitting : v.splitting <;> simp [flags, splitting]

theorem flags_unlock_lock {v : Nodeversion} (free : Free v) :
    flags ({ v with locked := true } : Nodeversion).unlock = flags v := by
  rw [flags_unlock]
  simp [flags, free.splitting, free.inserting, free.locked]

theorem flags_unlock_insert (v : Nodeversion) :
    flags ({ v with inserting := true } : Nodeversion).unlock = flags v.unlock := by
  rw [flags_unlock, flags_unlock]
  rfl

namespace Calm
variable (calm : Calm m span top held split)
include calm

/-- Versions that are the same after the locks are released. -/
theorem transfer (inner : ∀ a s, span a = some s → (m'.inner a).isSome = (m.inner a).isSome)
    (same : ∀ a s, span a = some s → flags (settled m' held' a) = flags (settled m held a))
    (root : flags (settled m' held' top) = flags (settled m held top))
    (locked : ∀ a ∈ held', (m'.version a).locked = true) : Calm m' span top held' split := by
  refine ⟨fun a s here => (calm.free a s here).of_flags (same a s here), fun ne => ?_,
    fun a s here ne other inside => ?_, locked⟩
  · rw [root_of_flags root]
    exact calm.root ne
  · rw [root_of_flags (same a s here)]
    rw [inner a s here] at inside
    exact calm.other a s here ne other inside

theorem setVersion (v : Nodeversion) (others : ∀ b, b ≠ a → (b ∈ held' ↔ b ∈ held))
    (same : flags (settled (m.setVersion a v) held' a) = flags (settled m held a))
    (locked : a ∈ held' → v.locked = true) : Calm (m.setVersion a v) span top held' split := by
  have rest (b : Addr) : flags (settled (m.setVersion a v) held' b) = flags (settled m held b) := by
    by_cases here : b = a
    · rw [here, same]
    · simp only [settled, others b here, Mem.version_setVersion, Function.update_of_ne here]
  refine calm.transfer (fun _ _ _ => by rw [Mem.inner_setVersion]) (fun b _ _ => rest b) (rest top) fun b member => ?_
  by_cases here : b = a
  · subst here
    rw [Mem.version_setVersion, Function.update_self]
    exact locked member
  · rw [Mem.version_setVersion, Function.update_of_ne here]
    exact calm.locked b ((others b here).mp member)

theorem lock (here : span a = some s) (out : a ∉ held) :
    Calm (m.setVersion a { m.version a with locked := true }) span top (insert a held) split := by
  have free := calm.free a s here
  rw [settled, if_neg out] at free
  refine calm.setVersion _ (fun b ne => by simp [ne]) ?_ fun _ => rfl
  rw [settled, settled, if_pos (Finset.mem_insert_self ..), if_neg out, Mem.version_setVersion,
    Function.update_self]
  exact flags_unlock_lock free

theorem markInsert (inside : a ∈ held) :
    Calm (m.setVersion a { m.version a with inserting := true }) span top held split := by
  refine calm.setVersion _ (fun _ _ => .rfl) ?_ fun _ => calm.locked a inside
  rw [settled, settled, if_pos inside, if_pos inside, Mem.version_setVersion, Function.update_self]
  exact flags_unlock_insert _

theorem unlock (inside : a ∈ held) :
    Calm (m.setVersion a (m.version a).unlock) span top (held.erase a) split := by
  refine calm.setVersion _ (fun b ne => by simp [ne]) ?_ fun member => absurd member (by simp)
  have out : a ∉ held.erase a := by simp
  rw [settled, settled, if_neg out, if_pos inside, Mem.version_setVersion,
    Function.update_self]

/-- The root bit of a node that is split does not matter. -/
theorem markSplit (inside : a ∈ held) (splits : split a) :
    Calm (m.setVersion a { m.version a with splitting := true }) span top held split := by
  have rest (b : Addr) (ne : b ≠ a) :
      settled (m.setVersion a { m.version a with splitting := true }) held b = settled m held b := by
    simp only [settled, Mem.version_setVersion, Function.update_of_ne ne]
  refine ⟨fun b s here => ?_, fun ne => ?_, fun b s here ne other inner => ?_, fun b member => ?_⟩
  · by_cases same : b = a
    · subst same
      have free := calm.free b s here
      simp only [settled, if_pos inside, Mem.version_setVersion, Function.update_self] at free ⊢
      refine ⟨rfl, rfl, rfl, ?_⟩
      have deleted := congrArg Nodeversion.deleted (flags_unlock (m.version b))
      have deleted' := congrArg Nodeversion.deleted
        (flags_unlock ({ m.version b with splitting := true } : Nodeversion))
      exact deleted'.trans (deleted.symm.trans free.deleted)
    · rw [rest b same]
      exact calm.free b s here
  · rw [rest top fun same => ne (same ▸ splits)]
    exact calm.root ne
  · rw [rest b fun same => ne (same ▸ splits)]
    exact calm.other b s here ne other inner
  · by_cases same : b = a
    · subst same
      rw [Mem.version_setVersion, Function.update_self]
      exact calm.locked b member
    · rw [Mem.version_setVersion, Function.update_of_ne same]
      exact calm.locked b member

theorem mono (weaker : ∀ a, split a → split' a) : Calm m span top held split' :=
  ⟨calm.free, fun ne => calm.root fun h => ne (weaker _ h),
    fun a s here ne => calm.other a s here fun h => ne (weaker _ h), calm.locked⟩

theorem respan (same : ∀ a s, span' a = some s → ∃ r, span a = some r ∧ (s.lo = 0 → r.lo = 0)) :
    Calm m span' top held split := by
  refine ⟨fun a s here => ?_, calm.root, fun a s here ne other inside => ?_, calm.locked⟩
  · obtain ⟨r, old, -⟩ := same a s here
    exact calm.free a r old
  · obtain ⟨r, old, low⟩ := same a s here
    exact calm.other a r old ne other (inside.imp low id)

/-- A node that is not being split any more. -/
theorem settle (ne : a ≠ top) (root : (settled m held a).root = false)
    (same : ∀ b, split b → split' b ∨ b = a) : Calm m span top held split' := by
  refine ⟨calm.free, fun out => calm.root fun inside => ?_, fun b s here out other inside => ?_, calm.locked⟩
  · rcases same top inside with inside | equal
    · exact out inside
    · exact ne equal.symm
  · by_cases equal : b = a
    · rw [equal, root]
    · refine calm.other b s here (fun splits => ?_) other inside
      rcases same b splits with splits | equal'
      · exact out splits
      · exact equal equal'

/-- A node that has just been made. -/
theorem extend {nn : Addr} {r : Span} (keep : ∀ a, a ≠ nn → (a ∈ held' ↔ a ∈ held))
    (version : ∀ a, a ≠ nn → m'.version a = m.version a)
    (inner : ∀ a s, span a = some s → (m'.inner a).isSome = (m.inner a).isSome)
    (new : ∀ a s, span a = some s → a ≠ nn) (free : Free (settled m' held' nn))
    (locked : nn ∈ held' → (m'.version nn).locked = true)
    (root : top' = nn ∧ split top ∧ (settled m' held' nn).root = true ∨
      top' = top ∧ top ≠ nn ∧ (r.lo = 0 ∨ (m'.inner nn).isSome → (settled m' held' nn).root = false)) :
    Calm m' (Function.update span nn (some r)) top' held' split := by
  have old (a : Addr) (ne : a ≠ nn) : settled m' held' a = settled m held a := by
    simp only [settled, version a ne, keep a ne]
  refine ⟨fun a s known => ?_, fun ne => ?_, fun a s known ne other inside => ?_, fun a member => ?_⟩
  · by_cases same : a = nn
    · rw [same]
      exact free
    · rw [Function.update_of_ne same] at known
      rw [old a same]
      exact calm.free a s known
  · rcases root with ⟨rfl, -, root⟩ | ⟨rfl, apart, -⟩
    · exact root
    · rw [old _ apart]
      exact calm.root ne
  · by_cases same : a = nn
    · subst same
      rw [Function.update_self] at known
      obtain rfl := Option.some.inj known
      rcases root with ⟨rfl, -⟩ | ⟨-, -, root⟩
      · exact absurd rfl other
      · exact root inside
    · rw [Function.update_of_ne same] at known
      rw [old a same]
      refine calm.other a s known ne ?_ (inside.imp id fun h => inner a s known ▸ h)
      rcases root with ⟨-, splits, -⟩ | ⟨rfl, -⟩
      · exact fun equal => ne (equal ▸ splits)
      · exact other
  · by_cases same : a = nn
    · subst same
      exact locked member
    · rw [version a same]
      exact calm.locked a ((keep a same).mp member)

end Calm

namespace Layer
variable (layer : Layer m span top ∅)
include layer

theorem stable_ok' (here : span a = some s) : stable a m = .ok (m.version a, m) := by
  obtain ⟨p, known⟩ := layer.tree.known a s here
  have free := layer.calm.free a s here
  rw [settled_empty] at free
  exact stable_ok known free.clean

/-- The pointer to a layer leads to the root by way of the parents. -/
theorem climb_ok (fuel : Nat) (here : span a = some s) (first : s.lo = 0)
    (enough : higher m.inner m.fresh span (height m.inner a) < fuel) : climb fuel a m = .ok (top, m) := by
  induction fuel generalizing a s with
  | zero => exact absurd enough (Nat.not_lt_zero _)
  | succ fuel ih =>
      rw [climb, bind_ok (layer.stable_ok' here)]
      by_cases same : a = top
      · subst same
        have root := layer.calm.root not_false
        rw [settled_empty] at root
        rw [root]
        rfl
      · have root := layer.calm.other a s here not_false same (.inl first)
        rw [settled_empty] at root
        rw [root]
        obtain ⟨p, s', i, known, here', -, -, -, low, -, less⟩ := layer.tree.parent here same
        simp only [Bool.false_eq_true, if_false]
        rw [bind_ok (maybeParent_ok known), if_neg (layer.tree.ne_zero here')]
        have step := higher_lt (layer.tree.small _ _ here') here' less
        exact ih here' (by omega) (by omega)

theorem descend_ok (fuel : Nat) {x : Nat} (here : span a = some s) (low : s.lo ≤ x) (high : x < s.hi)
    (enough : lower m.inner m.fresh span (height m.inner a) < fuel) :
    ∃ n t b, descend x fuel a m = .ok ((n, m.version n), m) ∧ span n = some t ∧ m.body n = some b ∧
      t.lo ≤ x ∧ x < t.hi := by
  induction fuel generalizing a s with
  | zero => exact absurd enough (Nat.not_lt_zero _)
  | succ fuel ih =>
      obtain ⟨p, known⟩ := layer.tree.known a s here
      rw [descend, bind_ok (layer.stable_ok' here)]
      cases inner : m.inner a with
      | none =>
          obtain ⟨b, body⟩ := exists_body known inner
          obtain ⟨l, kind, -⟩ := exists_leaf body
          rw [bind_ok (kind_ok kind)]
          exact ⟨a, s, b, rfl, here, body, low, high⟩
      | some i =>
          obtain ⟨s', here', -, -, low', high', less⟩ := layer.tree.step here low high inner
          obtain ⟨j, kind, rfl⟩ := exists_internode inner
          have small := lower_lt (layer.tree.small _ _ here') here' less
          obtain ⟨n, t, b, run, rest⟩ := ih here' low' high' (by omega)
          refine ⟨n, t, b, ?_, rest⟩
          rw [bind_ok (kind_ok kind)]
          have ne : j.child (j.upper x) ≠ 0 := layer.tree.ne_zero here'
          simp only [if_neg ne]
          exact run

theorem leaf_eq {x : Nat} {n : Addr} {t : Span} {b b' : LeafBody} (here : span a = some s)
    (body : m.body a = some b) (low : s.lo ≤ x) (high : x < s.hi) (here' : span n = some t)
    (body' : m.body n = some b') (low' : t.lo ≤ x) (high' : x < t.hi) : a = n :=
  layer.tree.leaf_unique here low high here' low' high' (inner_of_body body) (inner_of_body body')

/-- `reach_leaf` from a node that is or was the root ends at the leaf that is responsible for the key. -/
theorem reachLeaf_ok {r : Addr} {t : Span} {b : LeafBody} {k : Key} (start : span r = some t)
    (first : t.lo = 0) (here : span a = some s) (body : m.body a = some b) (low : s.lo ≤ k.ikey)
    (high : k.ikey < s.hi) (small : k.ikey < ikeyLimit) :
    reachLeaf r k m = .ok ((a, m.version a), m) := by
  have up := layer.climb_ok m.fresh start first (higher_lt_fresh (layer.tree.small _ _ start))
  have whole := layer.tree.whole
  obtain ⟨n, t', b', down, here', body', low', high'⟩ := layer.descend_ok m.fresh whole (Nat.zero_le k.ikey)
    small (lower_lt_fresh (layer.tree.small _ _ whole))
  obtain rfl := layer.leaf_eq here body low high here' body' low' high'
  rw [reachLeaf, bind_ok (show fuel m = .ok (m.fresh, m) from rfl), bind_ok up,
    bind_ok (show fuel m = .ok (m.fresh, m) from rfl)]
  exact down

/-- Every ikey below the limit has a leaf. -/
theorem exists_leaf_for {x : Nat} (small : x < ikeyLimit) :
    ∃ n t b, span n = some t ∧ m.body n = some b ∧ t.lo ≤ x ∧ x < t.hi := by
  have whole := layer.tree.whole
  obtain ⟨n, t, b, -, rest⟩ := layer.descend_ok m.fresh whole (Nat.zero_le x) small
    (lower_lt_fresh (layer.tree.small _ _ whole))
  exact ⟨n, t, b, rest⟩

end Layer
end Incll.Proof.Layers
