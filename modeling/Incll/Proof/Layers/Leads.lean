import Incll.Lib.Walk
import Incll.Proof.Layers.Lookup

/-! # Pointers to layers

A pointer to a layer can be behind: it then points to a node that was the root, and from there the parents lead to
the root. -/

namespace Incll.Proof.Layers
open Incll.Lib Incll.Model Incll.Model.Layers

/-- The parents lead from `a` to the first column of a layer, over nodes that have left the layer. -/
inductive Leads (m : Mem) (span : Addr → Option Span) : Addr → Prop
  | here {a : Addr} {t : Span} : span a = some t → t.lo = 0 → Leads m span a
  | up {a p : Addr} : span a = none → (m.version a).root = false → (m.version a).dirty = false →
      m.up a = some p → p ≠ 0 → Leads m span p → Leads m span a

/-- Nodes are at places that an entry can point to. -/
structure Nodes (m : Mem) : Prop where
  each : ∀ a p, m.up a = some p → a ≠ 0 ∧ a < m.fresh ∧ 8 ∣ a
  positive : 0 < m.fresh
  aligned : 8 ∣ m.fresh
  limit : m.fresh ≤ memoryLimit

/-- What `maybe_parent` makes of a node that is not a root. -/
def above (m : Mem) (a : Addr) : Option Addr := if (m.version a).root then none else m.up a

def Passable (m : Mem) (a : Addr) : Prop := ∃ p, m.up a = some p ∧ (m.version a).dirty = false

variable {m m' : Mem} {span span' : Addr → Option Span} {top top' a : Addr} {s : Span} {b : LeafBody}
  {held : Finset Addr}

theorem Nodes.layer_ofLayer {p : Addr} (nodes : Nodes m) (known : m.up a = some p) :
    (Leafvalue.ofLayer a).layer = a := by
  obtain ⟨-, small, aligned⟩ := nodes.each a p known
  exact Layers.layer_ofLayer (small.trans_le nodes.limit) aligned

/-- A node that is not the root of its layer has a parent in the layer. -/
theorem Layer.parent_of_root (layer : Layer m span top held) (here : span a = some s)
    (root : (m.version a).root = false) : ∃ p t, m.up a = some p ∧ span p = some t ∧ t.lo ≤ s.lo ∧
      height m.inner a < height m.inner p := by
  have ne : a ≠ top := by
    rintro rfl
    have bit := layer.calm.root not_false
    rw [settled] at bit
    split at bit
    · have flags := congrArg Nodeversion.root (flags_unlock (m.version a))
      change (m.version a).unlock.root = ((m.version a).root && _) at flags
      rw [bit, root] at flags
      cases flags
    · rw [root] at bit
      cases bit
  obtain ⟨p, t, i, parent, owns, -, -, -, low, -, less⟩ := layer.tree.parent here ne
  exact ⟨p, t, parent, owns, low, less⟩

namespace Leads

theorem known (leads : Leads m span a) (layer : Layer m span top held) : ∃ p, m.up a = some p := by
  cases leads with
  | here owns first => exact layer.tree.known a _ owns
  | up _ _ _ parent _ _ => exact ⟨_, parent⟩

theorem parent (leads : Leads m span a) (layer : Layer m span top held) (root : (m.version a).root = false) :
    ∃ p, m.up a = some p ∧ p ≠ 0 ∧ Leads m span p := by
  cases leads with
  | here owns first =>
      obtain ⟨p, t, parent, owns', low, -⟩ := layer.parent_of_root owns root
      exact ⟨p, parent, layer.tree.ne_zero owns', .here owns' (by omega)⟩
  | up _ _ _ parent ne rest => exact ⟨_, parent, ne, rest⟩

/-- The layer has changed. -/
theorem follow (leads : Leads m span a) (inside : ∀ c t, span c = some t → t.lo = 0 → Leads m' span' c)
    (outside : ∀ c p, span c = none → m.up c = some p → SameNode m m' c ∧ span' c = none) : Leads m' span' a := by
  induction leads with
  | here owns first => exact inside _ _ owns first
  | up off root clean parent ne _ ih =>
      obtain ⟨same, off'⟩ := outside _ _ off parent
      refine .up off' ?_ ?_ ?_ ne ih
      · rw [same.version, root]
      · rw [same.version, clean]
      · rw [same.up, parent]

/-- The way does not touch another layer. -/
theorem outside (leads : Leads m span a) (layer : Layer m span' top' held)
    (apart : ∀ c t, span c = some t → span' c = none) : span' a = none := by
  induction leads with
  | here owns first => exact apart _ _ owns
  | up off root clean parent ne _ ih =>
      by_contra known
      obtain ⟨t, known⟩ := Option.ne_none_iff_exists'.mp known
      obtain ⟨p, u, parent', owns, -⟩ := layer.parent_of_root known root
      obtain rfl := Option.some.inj (parent.symm.trans parent')
      rw [ih] at owns
      cases owns

/-- Another layer has changed. -/
theorem frame (leads : Leads m span a) (layer : Layer m span' top' held)
    (apart : ∀ c t, span c = some t → span' c = none)
    (same : ∀ c p, span' c = none → m.up c = some p → SameNode m m' c) : Leads m' span a := by
  induction leads with
  | here owns first => exact .here owns first
  | up off root clean parent ne rest ih =>
      have same := same _ _ ((Leads.up off root clean parent ne rest).outside layer apart) parent
      refine .up off ?_ ?_ ?_ ne ih
      · rw [same.version, root]
      · rw [same.version, clean]
      · rw [same.up, parent]

section
variable (layer : Layer m span top ∅)
include layer

theorem passable (leads : Leads m span a) : Passable m a := by
  cases leads with
  | here owns first =>
      obtain ⟨p, known⟩ := layer.tree.known a _ owns
      have free := layer.calm.free a _ owns
      rw [settled_empty] at free
      exact ⟨p, known, free.clean⟩
  | up _ _ clean parent _ _ => exact ⟨_, parent, clean⟩

theorem walk_top : Walk (above m) (Passable m) top 0 top := by
  have whole := layer.tree.whole
  have root := layer.calm.root not_false
  rw [settled_empty] at root
  refine .stop (passable layer (.here whole rfl)) ?_
  rw [above, root]
  rfl

/-- The walk inside the layer. -/
theorem walk_inside (n : Nat) (here : span a = some s) (first : s.lo = 0)
    (enough : higher m.inner m.fresh span (height m.inner a) < n) : ∃ k, Walk (above m) (Passable m) top k a := by
  induction n generalizing a s with
  | zero => exact absurd enough (Nat.not_lt_zero _)
  | succ n ih =>
      by_cases same : a = top
      · rw [same]
        exact ⟨0, walk_top layer⟩
      · have root := layer.calm.other a s here not_false same (.inl first)
        rw [settled_empty] at root
        obtain ⟨p, t, parent, owns, low, less⟩ := layer.parent_of_root here root
        have step := higher_lt (layer.tree.small _ _ owns) owns less
        obtain ⟨k, rest⟩ := ih owns (by omega) (by omega)
        refine ⟨k + 1, .step (passable layer (.here here first)) ?_ rest⟩
        rw [above, root]
        exact parent

/-- Going up from a pointer to the layer ends at the root. -/
theorem walk (leads : Leads m span a) : ∃ k, Walk (above m) (Passable m) top k a := by
  induction leads with
  | here owns first => exact walk_inside layer _ owns first (Nat.lt_succ_self _)
  | up off root clean parent ne rest ih =>
      obtain ⟨k, walk⟩ := ih
      refine ⟨k + 1, .step ⟨_, parent, clean⟩ ?_ walk⟩
      rw [above, root]
      exact parent

end

/-- A walk over the nodes is shorter than the memory. -/
theorem walk_lt {z : Addr} {k : Nat} (nodes : Nodes m) (walk : Walk (above m) (Passable m) z k a) : k < m.fresh := by
  have short := walk.lt_card (Finset.range m.fresh) fun x on => by
    obtain ⟨p, known, -⟩ := on
    exact Finset.mem_range.mpr (nodes.each x p known).2.1
  rwa [Finset.card_range] at short

theorem above_eq {p : Addr} (next : above m a = some p) : (m.version a).root = false ∧ m.up a = some p := by
  rw [above] at next
  cases root : (m.version a).root with
  | false =>
      rw [root] at next
      exact ⟨rfl, next⟩
  | true =>
      rw [root] at next
      cases next

theorem root_of_last {p : Addr} (known : m.up a = some p) (last : above m a = none) : (m.version a).root = true := by
  by_contra root
  rw [above, Bool.not_eq_true] at *
  rw [root] at last
  simp only [Bool.false_eq_true, if_false] at last
  rw [known] at last
  cases last

theorem walk_ne_zero {z : Addr} {k : Nat} (nodes : Nodes m) (walk : Walk (above m) (Passable m) z k a) : a ≠ 0 := by
  have on : Passable m a := by
    cases walk with
    | stop on _ => exact on
    | step on _ _ => exact on
  obtain ⟨p, known, -⟩ := on
  exact (nodes.each a p known).1

theorem climb_walk {z : Addr} {k : Nat} (nodes : Nodes m) (walk : Walk (above m) (Passable m) z k a) (fuel : Nat)
    (enough : k < fuel) : climb fuel a m = .ok (z, m) := by
  induction walk generalizing fuel with
  | stop on last =>
      cases fuel with
      | zero => exact absurd enough (Nat.not_lt_zero _)
      | succ fuel =>
          obtain ⟨p, known, clean⟩ := on
          rw [climb, bind_ok (stable_ok known clean), root_of_last known last]
          rfl
  | step on next rest ih =>
      cases fuel with
      | zero => exact absurd enough (Nat.not_lt_zero _)
      | succ fuel =>
          obtain ⟨p, known, clean⟩ := on
          obtain ⟨root, parent⟩ := above_eq next
          rw [climb, bind_ok (stable_ok known clean), root]
          simp only [Bool.false_eq_true, if_false]
          rw [bind_ok (maybeParent_ok parent), if_neg (walk_ne_zero nodes rest)]
          exact ih fuel (by omega)

theorem findRoot_walk {z : Addr} {k : Nat} (nodes : Nodes m) (walk : Walk (above m) (Passable m) z k a) (fuel : Nat)
    (enough : k < fuel) : findRoot fuel a m = .ok (z, m) := by
  induction walk generalizing fuel with
  | stop on last =>
      cases fuel with
      | zero => exact absurd enough (Nat.not_lt_zero _)
      | succ fuel =>
          obtain ⟨p, known, clean⟩ := on
          rw [findRoot, bind_ok (version_ok known), root_of_last known last]
          rfl
  | step on next rest ih =>
      cases fuel with
      | zero => exact absurd enough (Nat.not_lt_zero _)
      | succ fuel =>
          obtain ⟨p, known, clean⟩ := on
          obtain ⟨root, parent⟩ := above_eq next
          rw [findRoot, bind_ok (version_ok known), root]
          simp only [Bool.false_eq_true, if_false]
          rw [bind_ok (maybeParent_ok parent), if_neg (walk_ne_zero nodes rest)]
          exact ih fuel (by omega)

variable (nodes : Nodes m) (layer : Layer m span top ∅) (leads : Leads m span a)
include nodes layer leads

theorem climb_ok : climb m.fresh a m = .ok (top, m) := by
  obtain ⟨k, walk⟩ := leads.walk layer
  exact climb_walk nodes walk _ (walk_lt nodes walk)

theorem findRoot_ok : findRoot m.fresh a m = .ok (top, m) := by
  obtain ⟨k, walk⟩ := leads.walk layer
  exact findRoot_walk nodes walk _ (walk_lt nodes walk)

/-- `reach_leaf` from any pointer to the layer ends at the leaf that is responsible for the key. -/
theorem reachLeaf_ok {n : Addr} {k : Key} (here : span n = some s) (body : m.body n = some b)
    (low : s.lo ≤ k.ikey) (high : k.ikey < s.hi) (small : k.ikey < ikeyLimit) :
    reachLeaf a k m = .ok ((n, m.version n), m) := by
  have whole := layer.tree.whole
  obtain ⟨n', t', b', down, here', body', low', high'⟩ := layer.descend_ok m.fresh whole (Nat.zero_le k.ikey)
    small (lower_lt_fresh (layer.tree.small _ _ whole))
  obtain rfl := layer.leaf_eq here body low high here' body' low' high'
  rw [reachLeaf, bind_ok fuel_ok, bind_ok (leads.climb_ok nodes layer), bind_ok fuel_ok]
  exact down

end Leads
end Incll.Proof.Layers
