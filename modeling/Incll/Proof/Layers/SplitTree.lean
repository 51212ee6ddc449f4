import Incll.Proof.Layers.Separators
import Incll.Proof.Layers.SplitEntries

/-! # The tree after `make_split` -/

namespace Incll.Proof.Layers
open Incll.Lib Incll.Model Incll.Model.Layers

variable {m m' : Mem} {span span' : Addr → Option Span} {top top' : Addr} {c c' : Layers.Tcursor} {s : Span}
  {b b' left right : LeafBody} {key splitType n : Nat} {held : Finset Addr} {a : Addr}

/-- A leaf with the same entries and links. -/
theorem Layer.wrote (layer : Layer m span top held) (wrote : Wrote m m' a b') (here : m.body a = some b)
    (ok : EntriesOk b') (same : entries b' = entries b) (links : SameLinks b b')
    (bound : b'.ikeyBound = b.ikeyBound) : Layer m' span top held := by
  have bodies (x : Addr) (u : Span) (e : LeafBody) (span_x : span x = some u) (body_x : m.body x = some e) :
      ∃ e', m'.body x = some e' := by
    rw [wrote.body]
    by_cases equal : x = a
    · exact ⟨b', by rw [equal, Function.update_self]⟩
    · exact ⟨e, by rw [Function.update_of_ne equal, body_x]⟩
  refine ⟨?_, ?_, fun x t d known body => ?_⟩
  · rw [wrote.up, wrote.inner, wrote.fresh]
    exact layer.tree
  · have settled_eq (x : Addr) : settled m' held x = settled m held x := by simp only [settled, wrote.version]
    refine layer.calm.transfer (fun x _ _ => by rw [wrote.inner]) (fun x _ _ => by rw [settled_eq])
      (by rw [settled_eq]) fun x member => ?_
    rw [wrote.version]
    exact layer.calm.locked x member
  · have neighbours {d₀ : LeafBody} (leaf : LeafOk m.body span t d₀) (next : d.next = d₀.next)
        (prev : d.prev = d₀.prev) (entries_eq : entries d = entries d₀) (ok : EntriesOk d)
        (bound : d.ikeyBound = d₀.ikeyBound) : LeafOk m'.body span t d := by
      refine ⟨ok, ?_, fun pos => ?_, fun zero => ?_, fun pos => ?_, fun last => ?_, fun less => ?_⟩
      · rw [entries_eq]
        exact leaf.inside
      · rw [entries_eq, bound]
        exact leaf.bound pos
      · rw [prev]
        exact leaf.first zero
      · rw [prev]
        obtain ⟨s', e, here, hi, body⟩ := leaf.prev pos
        obtain ⟨e', body'⟩ := bodies _ _ _ here body
        exact ⟨s', e', here, hi, body'⟩
      · rw [next]
        exact leaf.last last
      · rw [next]
        obtain ⟨s', e, here, lo, body⟩ := leaf.next less
        obtain ⟨e', body'⟩ := bodies _ _ _ here body
        exact ⟨s', e', here, lo, body'⟩
    rw [wrote.body] at body
    by_cases equal : x = a
    · subst equal
      rw [Function.update_self] at body
      obtain rfl := Option.some.inj body
      exact neighbours (layer.leaves x t b known here) links.next links.prev same ok bound
    · rw [Function.update_of_ne equal] at body
      have leaf := layer.leaves x t d known body
      exact neighbours leaf rfl rfl rfl leaf.ok rfl

/-- The tree after the leaf `n` is split at `key`: the old nodes, the leaf `nr` and internodes that were not there
before. -/
structure TreeAfter (m : Mem) (span : Addr → Option Span) (n nr : Addr) (s : Span) (key : Nat) (m' : Mem)
    (span' : Addr → Option Span) (top' : Addr) : Prop where
  inside : s.lo < key ∧ key < s.hi
  left : span' n = some ⟨s.lo, key⟩
  right : span' nr = some ⟨key, s.hi⟩ ∧ m'.inner nr = none
  old : ∀ a t, span a = some t → (m'.inner a).isSome = (m.inner a).isSome ∧
    ∃ t', span' a = some t' ∧ t'.lo = t.lo ∧ (m.inner a = none → a ≠ n → t' = t)
  made : span nr = none ∧ nr = m.fresh
  new : ∀ a t, span' a = some t → (span a).isSome ∨ a = nr ∨ m.fresh < a ∧ (m'.inner a).isSome
  separators : ∀ x, Separator m'.inner span' x ↔ x = key ∨ Separator m.inner span x
  once : ∀ x a u i j a' u' i' j', KeyAt m'.inner span' x a u i j → KeyAt m'.inner span' x a' u' i' j' →
    u.lo < x → u'.lo < x → a = a' ∧ j = j'
  root : ∀ a t, span' a = some t → (m'.up a = some 0 ↔ a = top')

theorem Split.tree (split : Split m span c s b left right key splitType n c' m' span' top')
    (start : NoSlot m span top c s b) : TreeAfter m span c.n m.fresh s key m' span' top' := by
  have layer := start.layer
  have whole := split.layer.tree
  have apart : c.n ≠ m.fresh := (layer.tree.small _ _ start.here).ne
  have unowned : span m.fresh = none := by
    by_contra some
    obtain ⟨r, known⟩ := Option.ne_none_iff_exists'.mp some
    exact (layer.tree.small _ r known).ne rfl
  have left_body : m'.body c.n = some left := by
    rw [split.body _ _ (splitSpan_left apart), Function.update_self]
  have right_leaf : m'.inner m.fresh = none := by
    refine inner_of_body (b := right.setLinks b.next c.n) ?_
    rw [split.body _ _ splitSpan_right, Function.update_of_ne apart.symm, linked, if_neg apart.symm, if_pos rfl]
  have left_span : span' c.n = some ⟨s.lo, key⟩ := by
    obtain ⟨t', now, -, same⟩ := split.old _ _ (splitSpan_left apart)
    rw [now, same (inner_of_body left_body)]
  have right_span : span' m.fresh = some ⟨key, s.hi⟩ := by
    obtain ⟨t', now, -, same⟩ := split.old _ _ splitSpan_right
    rw [now, same right_leaf]
  have kept (a : Addr) (t : Span) (known : span a = some t) :
      ∃ t', span' a = some t' ∧ t'.lo = t.lo ∧ (m.inner a = none → a ≠ c.n → t' = t) := by
    obtain ⟨u, now, lo, same⟩ := splitSpan_lo apart start.here unowned key known
    obtain ⟨t', now', lo', same'⟩ := split.old a u now
    refine ⟨t', now', lo'.trans lo, fun leaf ne => ?_⟩
    have inner := split.inner a t known
    rw [leaf] at inner
    rw [same' (Option.not_isSome_iff_eq_none.mp (by rw [inner]; simp)), same ne]
  refine ⟨⟨split.halves.low, split.halves.high⟩, left_span, ⟨right_span, right_leaf⟩,
    fun a t known => ⟨split.inner a t known, kept a t known⟩, ⟨unowned, rfl⟩, split.new, fun x => ?_,
    fun _ _ _ _ _ _ _ _ _ => whole.separator_unique, fun a t known => ⟨whole.root_unique known, ?_⟩⟩
  · rw [whole.separator_iff, layer.tree.separator_iff]
    constructor
    · rintro ⟨pos, d, t, known, leaf, rfl⟩
      rcases split.new d t known with old | rfl | ⟨-, inner⟩
      · obtain ⟨u, before⟩ := Option.isSome_iff_exists.mp old
        obtain ⟨t', now, lo, -⟩ := kept d u before
        obtain rfl := Option.some.inj (known.symm.trans now)
        have inner := split.inner d u before
        rw [leaf] at inner
        exact .inr ⟨pos, d, u, before, Option.not_isSome_iff_eq_none.mp (by rw [← inner]; simp), lo.symm⟩
      · obtain rfl := Option.some.inj (known.symm.trans right_span)
        exact .inl rfl
      · rw [leaf] at inner
        cases inner
    · rintro (rfl | ⟨pos, d, t, known, leaf, rfl⟩)
      · exact ⟨(Nat.zero_le _).trans_lt split.halves.low |>.ne', m.fresh, _, right_span, right_leaf, rfl⟩
      · obtain ⟨t', now, lo, -⟩ := kept d t known
        have inner := split.inner d t known
        rw [leaf] at inner
        exact ⟨pos, d, t', now, Option.not_isSome_iff_eq_none.mp (by rw [inner]; simp), lo⟩
  · rintro rfl
    exact whole.root

/-- The layer with the leaf of the cursor, which may have been split. -/
def LayerAfter (m : Mem) (span : Addr → Option Span) (top : Addr) (c : Layers.Tcursor) (s : Span) (c' : Layers.Tcursor)
    (m' : Mem) : Prop :=
  (c'.n = c.n ∧ m'.fresh = m.fresh ∧ Layer m' span top {c'.n}) ∨
  ∃ key span' top', Layer m' span' top' {c'.n} ∧ (c'.n = c.n ∨ c'.n = m.fresh) ∧
    TreeAfter m span c.n m.fresh s key m' span' top'

end Incll.Proof.Layers
