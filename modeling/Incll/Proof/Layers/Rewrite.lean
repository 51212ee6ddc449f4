import Incll.Proof.Layers.Confined
import Incll.Proof.Layers.SplitTree

/-! # Layers after a write

A leaf is locked, its entries are written, and it is unlocked. What is done elsewhere does not matter. -/

namespace Incll.Proof.Layers
open Incll.Lib Incll.Model Incll.Model.Layers

variable {m m' : Mem} {span span' : Addr → Option Span} {top a : Addr} {s : Span} {b b' : LeafBody}
  {held held' : Finset Addr}

/-- The nodes of the layer are the same up to locks. -/
theorem Layer.agree (layer : Layer m span top held) (grown : m.fresh ≤ m'.fresh)
    (same : ∀ a s, span a = some s → m'.up a = m.up a ∧ m'.inner a = m.inner a ∧ m'.body a = m.body a)
    (settles : ∀ a s, span a = some s → flags (settled m' held' a) = flags (settled m held a))
    (locked : ∀ a ∈ held', (m'.version a).locked = true) : Layer m' span top held' := by
  refine ⟨layer.tree.frame grown fun a s known => ⟨(same a s known).1, (same a s known).2.1⟩,
    layer.calm.transfer (fun a s known => by rw [(same a s known).2.1]) settles (settles _ _ layer.tree.whole) locked,
    fun a s b known here => ?_⟩
  rw [(same a s known).2.2] at here
  exact (layer.leaves a s b known here).transfer fun c t d known' here' =>
    ⟨known', by rw [(same c t known').2.2, here']⟩

/-- Other nodes have changed. -/
theorem Layer.elsewhere (layer : Layer m span top held) (grown : m.fresh ≤ m'.fresh)
    (same : ∀ a s, span a = some s → SameNode m m' a) (off : ∀ a s, span a = some s → (a ∈ held' ↔ a ∈ held))
    (locked : ∀ a ∈ held', (m'.version a).locked = true) : Layer m' span top held' := by
  refine layer.agree grown (fun a s known => ?_) (fun a s known => ?_) locked
  · obtain ⟨up, inner, body, -⟩ := same a s known
    exact ⟨up, inner, body⟩
  · rw [settled, settled, (same a s known).version]
    simp only [off a s known]

theorem Layer.lock (layer : Layer m span top held) (here : span a = some s) (out : a ∉ held) :
    Layer (m.setVersion a { m.version a with locked := true }) span top (insert a held) :=
  ⟨layer.tree, layer.calm.lock here out, layer.leaves⟩

theorem Layer.markInsert (layer : Layer m span top held) (inside : a ∈ held) :
    Layer (m.setVersion a { m.version a with inserting := true }) span top held :=
  ⟨layer.tree, layer.calm.markInsert inside, layer.leaves⟩

theorem Layer.unlock (layer : Layer m span top held) (inside : a ∈ held) :
    Layer (m.setVersion a (m.version a).unlock) span top (held.erase a) :=
  ⟨layer.tree, layer.calm.unlock inside, layer.leaves⟩

/-- A leaf is written. -/
theorem Layer.rewrite (layer : Layer m span top held) (wrote : Wrote m m' a b') (known : span a = some s)
    (here : m.body a = some b) (ok : EntriesOk b') (next : b'.next = b.next) (prev : b'.prev = b.prev)
    (inside : ∀ e ∈ entries b', s.lo ≤ e.ikey ∧ e.ikey < s.hi)
    (bound : s.lo ≠ 0 → s.lo ≤ b'.ikeyBound ∧ b'.ikeyBound < s.hi ∧ ∀ e ∈ entries b', b'.ikeyBound ≤ e.ikey) :
    Layer m' span top held := by
  have bodies (x : Addr) (u : Span) (e : LeafBody) (known : span x = some u) (body_x : m.body x = some e) :
      ∃ e', m'.body x = some e' := by
    rw [wrote.body]
    by_cases equal : x = a
    · exact ⟨b', by rw [equal, Function.update_self]⟩
    · exact ⟨e, by rw [Function.update_of_ne equal, body_x]⟩
  have relink {x : Addr} {t : Span} {d d₀ : LeafBody} (leaf : LeafOk m.body span t d₀) (next : d.next = d₀.next)
      (prev : d.prev = d₀.prev) : (t.lo = 0 → d.prev = 0) ∧
      (t.lo ≠ 0 → ∃ s' b', span d.prev = some s' ∧ s'.hi = t.lo ∧ m'.body d.prev = some b') ∧
      (t.hi = ikeyLimit → d.next = 0) ∧
      (t.hi ≠ ikeyLimit → ∃ s' b', span d.next = some s' ∧ s'.lo = t.hi ∧ m'.body d.next = some b') := by
    rw [next, prev]
    refine ⟨leaf.first, fun pos => ?_, leaf.last, fun less => ?_⟩
    · obtain ⟨s', e, here, hi, body⟩ := leaf.prev pos
      obtain ⟨e', body'⟩ := bodies _ _ _ here body
      exact ⟨s', e', here, hi, body'⟩
    · obtain ⟨s', e, here, lo, body⟩ := leaf.next less
      obtain ⟨e', body'⟩ := bodies _ _ _ here body
      exact ⟨s', e', here, lo, body'⟩
  refine ⟨?_, ?_, fun x t d known' body => ?_⟩
  · rw [wrote.up, wrote.inner, wrote.fresh]
    exact layer.tree
  · have settled_eq (x : Addr) : settled m' held x = settled m held x := by simp only [settled, wrote.version]
    refine layer.calm.transfer (fun x _ _ => by rw [wrote.inner]) (fun x _ _ => by rw [settled_eq])
      (by rw [settled_eq]) fun x member => ?_
    rw [wrote.version]
    exact layer.calm.locked x member
  · rw [wrote.body] at body
    by_cases equal : x = a
    · subst equal
      rw [Function.update_self] at body
      obtain rfl := Option.some.inj body
      obtain rfl := Option.some.inj (known.symm.trans known')
      obtain ⟨first, before, last, after⟩ := relink (x := x) (layer.leaves x s b known here) next prev
      exact ⟨ok, inside, bound, first, before, last, after⟩
    · rw [Function.update_of_ne equal] at body
      have leaf := layer.leaves x t d known' body
      obtain ⟨first, before, last, after⟩ := relink (x := x) leaf rfl rfl
      exact ⟨leaf.ok, leaf.inside, leaf.bound, first, before, last, after⟩

/-! The nodes of one layer. -/

/-- The memory without the nodes of other layers. -/
def alone (m : Mem) (span : Addr → Option Span) : Mem :=
  { m with kind := fun a => if span a = none ∧ a < m.fresh then none else m.kind a }

def Elsewhere (m : Mem) (span : Addr → Option Span) (a : Addr) : Prop := span a = none ∧ a < m.fresh

theorem sameNode_of_kind (kind : m'.kind a = m.kind a) (version : m'.version a = m.version a) : SameNode m m' a := by
  refine ⟨?_, ?_, ?_, version⟩
  · rw [Mem.up, Mem.up, kind]
  · rw [Mem.inner, Mem.inner, kind]
  · rw [Mem.body, Mem.body, kind]

theorem sameNode_alone (known : span a = some s) : SameNode m (alone m span) a := by
  refine sameNode_of_kind ?_ rfl
  rw [alone]
  dsimp only
  rw [if_neg]
  rintro ⟨off, -⟩
  rw [known] at off
  cases off

theorem beside_alone (nodes : Nodes m) (span : Addr → Option Span) :
    Beside m (Elsewhere m span) (alone m span) m := by
  refine ⟨fun a out => (if_neg out).symm, fun _ _ => rfl, fun a inside => if_pos inside, fun _ _ => ⟨rfl, rfl⟩, rfl,
    le_rfl, fun a inside => inside.2, rfl, rfl, nodes⟩

theorem Layer.alone (layer : Layer m span top held) : Layer (alone m span) span top held :=
  layer.elsewhere le_rfl (fun _ _ known => sameNode_alone known) (fun _ _ _ => .rfl) layer.calm.locked

/-- What a confined operation leaves as it is. -/
structure Around (m m' : Mem) (span : Addr → Option Span) : Prop where
  frame : ∀ a, span a = none → a < m.fresh → SameNode m m' a
  fresh : m.fresh ≤ m'.fresh
  root : m'.root = m.root
  callbacks : m'.callbacks = m.callbacks
  nodes : Nodes m'

theorem Beside.around {s t : Mem} (beside : Beside m (Elsewhere m span) s t) : Around m t span := by
  refine ⟨fun a none small => ?_, beside.grown, beside.root, beside.callbacks, beside.nodes⟩
  obtain ⟨kind, version⟩ := beside.kept a ⟨none, small⟩
  exact sameNode_of_kind kind version

theorem Beside.sameNode {m₀ s t : Mem} {X : Addr → Prop} (beside : Beside m₀ X s t) (out : ¬ X a) : SameNode s t a :=
  sameNode_of_kind (beside.kind a out) (beside.version a out)

/-- An operation on a layer may be looked at without the other layers. -/
theorem confined_ok {α : Type} {f : T α} {Q : α → Mem → Prop} (confined : Confined m (Elsewhere m span) f)
    (nodes : Nodes m) (run : Runs f (Layers.alone m span) Q) :
    Runs f m fun x m' => Around m m' span ∧ ∃ s, Q x s ∧ s.fresh = m'.fresh ∧
      ∀ a, (span a ≠ none ∨ m.fresh ≤ a) → SameNode s m' a := by
  refine (confined.wp (beside_alone nodes span) run).mono fun x m' post => ?_
  obtain ⟨s, post, beside⟩ := post
  refine ⟨beside.around, s, post, beside.fresh.symm, fun a inside => beside.sameNode ?_⟩
  rintro ⟨none, small⟩
  cases inside with
  | inl known => exact known none
  | inr new => exact absurd new (not_le.mpr small)

end Incll.Proof.Layers
