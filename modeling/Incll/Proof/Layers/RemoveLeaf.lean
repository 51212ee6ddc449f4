import Incll.Proof.Layers.RemoveUp
import Incll.Proof.Layers.SplitTree

/-! # `remove_leaf` -/

namespace Incll.Proof.Layers
open Incll.Lib Incll.Model Incll.Model.Layers

variable {m m' : Mem} {span span' : Addr → Option Span} {top a c : Addr} {s t : Span} {b d w : LeafBody}

/-- Only the links have changed. -/
structure Relinked (b b' : LeafBody) : Prop where
  fields : b' = { b with next := b'.next, nextMark := b'.nextMark, prev := b'.prev }

theorem Relinked.refl (b : LeafBody) : Relinked b b := ⟨rfl⟩

theorem Relinked.entries {b b' : LeafBody} (same : Relinked b b') : entries b' = entries b := by
  rw [same.fields]
  rfl

theorem Relinked.ok {b b' : LeafBody} (same : Relinked b b') (ok : EntriesOk b) : EntriesOk b' := by
  rw [same.fields]
  exact ok.of_entries ⟨⟨ok.valid.body.permutation, ok.valid.body.iksuf, ok.valid.body.ksuf⟩, ok.valid.bag⟩
    (List.Sublist.refl _)

theorem Relinked.modstate {b b' : LeafBody} (same : Relinked b b') : b'.modstate = b.modstate := by
  rw [same.fields]

theorem Relinked.ikeyBound {b b' : LeafBody} (same : Relinked b b') : b'.ikeyBound = b.ikeyBound := by
  rw [same.fields]
  rfl

/-- The body of a leaf is written, and nothing else. -/
theorem modifyBody_kept (f : LeafBody → LeafBody) (h : m.body a = some b) (plain : ∀ b, (f b).parent = b.parent)
    (bare : ∀ b, (f b).bare = f b.bare) : ∃ m', modifyBody a f m = .ok ((), m') ∧ Wrote m m' a (f b) ∧
      m'.root = m.root ∧ m'.callbacks = m.callbacks := by
  refine ⟨_, modifyBody_ok f h, ⟨Mem.up_mapBody _ _ _ plain, Mem.inner_mapBody .., ?_, rfl, rfl⟩, rfl, rfl⟩
  rw [Mem.body_mapBody _ _ _ bare, h]
  rfl

/-- The bodies of the other leaves after `a` is taken out of the chain. -/
structure Unchained (m m' : Mem) (a : Addr) (b : LeafBody) : Prop where
  up : m'.up = m.up
  inner : m'.inner = m.inner
  version : m'.version = m.version
  fresh : m'.fresh = m.fresh
  root : m'.root = m.root
  callbacks : m'.callbacks = m.callbacks
  prev : m'.body b.prev = (m.body b.prev).map (.setNext b.next)
  next : b.next ≠ 0 → m'.body b.next = (m.body b.next).map (.setPrev b.prev)
  other : ∀ c, c ≠ a → c ≠ b.prev → (c = b.next → b.next = 0) → m'.body c = m.body c

theorem unlinkFrom_ok (body : m.body b.prev = some w) (chained : w.next = a)
    (next : b.next ≠ 0 → b.next ≠ b.prev ∧ ∃ d, m.body b.next = some d) :
    ∃ m', unlinkFrom a b.prev b.next m = .ok ((), m') ∧ Unchained m m' a b := by
  obtain ⟨x, read, -, -, next_x⟩ := leaf_read body
  rw [unlinkFrom, bind_ok read]
  simp only [next_x, chained, if_true]
  by_cases last : b.next = 0
  · obtain ⟨m₁, run, wrote, root, callbacks⟩ := modifyBody_kept (.setNext b.next) body (fun _ => rfl) fun _ => rfl
    rw [if_neg (not_not.mpr last), run]
    refine ⟨m₁, rfl, wrote.up, wrote.inner, wrote.version, wrote.fresh, root, callbacks, ?_,
      fun ne => absurd last ne, fun c _ other _ => ?_⟩
    · rw [wrote.body, Function.update_self, body]
      rfl
    · rw [wrote.body, Function.update_of_ne other]
  · obtain ⟨ne, d, body'⟩ := next last
    obtain ⟨m₁, run, wrote, root, callbacks⟩ := modifyBody_kept (.setPrev b.prev) body' (fun _ => rfl) fun _ => rfl
    have body₁ : m₁.body b.prev = some w := by rw [wrote.body, Function.update_of_ne ne.symm, body]
    obtain ⟨m₂, run', wrote', root', callbacks'⟩ :=
      modifyBody_kept (.setNext b.next) body₁ (fun _ => rfl) fun _ => rfl
    rw [if_pos last, bind_ok run, run']
    refine ⟨m₂, rfl, wrote'.up.trans wrote.up, wrote'.inner.trans wrote.inner, wrote'.version.trans wrote.version,
      wrote'.fresh.trans wrote.fresh, root'.trans root, callbacks'.trans callbacks, ?_, fun _ => ?_,
      fun c _ other apart => ?_⟩
    · rw [wrote'.body, Function.update_self, body]
      rfl
    · rw [wrote'.body, Function.update_of_ne ne, wrote.body, Function.update_self, body']
      rfl
    · rw [wrote'.body, Function.update_of_ne other, wrote.body, Function.update_of_ne fun same => last (apart same)]

theorem unlink_ok (here : m.body a = some b) (body : m.body b.prev = some w) (chained : w.next = a)
    (apart : b.prev ≠ a) (next : b.next ≠ 0 → b.next ≠ a ∧ b.next ≠ b.prev ∧ ∃ d, m.body b.next = some d) :
    ∃ m', unlink a m = .ok ((), m') ∧ Unchained m m' a b := by
  obtain ⟨q, above⟩ := up_of_body here
  rw [unlink, bind_ok (leaf_ok here above)]
  by_cases last : b.next = 0
  · obtain ⟨m', run, unchained⟩ := unlinkFrom_ok body chained fun some => absurd last some
    refine ⟨m', ?_, unchained⟩
    simp only [last, ne_eq, not_true_eq_false, if_false] at run ⊢
    exact run
  · obtain ⟨ne, ne', d, body'⟩ := next last
    obtain ⟨m₁, run, wrote, root, callbacks⟩ := modifyBody_kept .markNext here (fun _ => rfl) fun _ => rfl
    have old {c : Addr} (other : c ≠ a) : m₁.body c = m.body c := by rw [wrote.body, Function.update_of_ne other]
    obtain ⟨m', run', unchained⟩ := unlinkFrom_ok (m := m₁) (by rw [old apart, body]) chained fun some =>
      ⟨ne', d, by rw [old ne, body']⟩
    refine ⟨m', ?_, unchained.up.trans wrote.up, unchained.inner.trans wrote.inner,
      unchained.version.trans wrote.version, unchained.fresh.trans wrote.fresh, unchained.root.trans root,
      unchained.callbacks.trans callbacks, ?_, fun some => ?_, fun c other prev next => ?_⟩
    · simp only [ne_eq, last, not_false_eq_true, if_true]
      rw [bind_ok run]
      exact run'
    · rw [unchained.prev, old apart]
    · rw [unchained.next some, old ne]
    · rw [unchained.other c other prev next, old other]

/-- The leaf `a` is gone: its ikeys belong to the leaf before it. -/
structure Gone (m m' : Mem) (span span' : Addr → Option Span) (top a : Addr) : Prop where
  layer : Layer m' span' top ∅
  fresh : m'.fresh = m.fresh
  root : m'.root = m.root
  callbacks : m'.callbacks = m.callbacks
  kept : ∀ c t d, c ≠ a → span c = some t → m.body c = some d → ∃ t' d', span' c = some t' ∧ t'.lo = t.lo ∧
    m'.body c = some d' ∧ Relinked d d'
  old : ∀ c t' d', span' c = some t' → m'.body c = some d' → c ≠ a ∧ ∃ t d, span c = some t ∧ m.body c = some d
  known : ∀ c t', span' c = some t' → ∃ t, span c = some t
  leads : ∀ c t, span c = some t → t.lo = 0 → Leads m' span' c
  frame : ∀ c, span c = none → SameNode m m' c

/-- Leaves with a common ikey are the same. -/
theorem Whole.leaf_same (tree : Whole m.up m.inner m.fresh span top) {x : Nat} (here : span a = some s)
    (body : m.body a = some b) (there : span c = some t) (body' : m.body c = some d) (low : s.lo ≤ x)
    (high : x < s.hi) (low' : t.lo ≤ x) (high' : x < t.hi) : a = c :=
  tree.leaf_unique here low high there low' high' (inner_of_body body) (inner_of_body body')

/-- The leaf and its neighbours. -/
structure Between (m : Mem) (span : Addr → Option Span) (a : Addr) (s : Span) (b : LeafBody) (r : Span)
    (w : LeafBody) : Prop where
  before : span b.prev = some r
  body : m.body b.prev = some w
  meets : r.hi = s.lo
  chained : w.next = a
  apart : b.prev ≠ a
  last : s.hi = ikeyLimit → b.next = 0
  next : s.hi ≠ ikeyLimit → b.next ≠ 0 ∧ b.next ≠ a ∧ b.next ≠ b.prev ∧
    ∃ u d, span b.next = some u ∧ u.lo = s.hi ∧ m.body b.next = some d

section
variable {held : Finset Addr} (layer : Layer m span top held) (here : span a = some s) (body : m.body a = some b)
  (pos : s.lo ≠ 0)
include layer here body pos

theorem Layer.between : ∃ r w, Between m span a s b r w := by
  have tree := layer.tree
  have ok := layer.leaves a s b here body
  have wide := tree.wide a s here
  have limit := tree.hi_le here
  obtain ⟨r, w, before, meets, body_w⟩ := ok.prev pos
  have ok_w := layer.leaves _ _ _ before body_w
  obtain ⟨u, e, after, start, body_e⟩ := ok_w.next (by omega)
  have wide_r := tree.wide _ _ before
  have chained : w.next = a := by
    have wide_u := tree.wide _ _ after
    exact tree.leaf_same (x := s.lo) after body_e here body (by omega) (by omega) le_rfl wide
  have apart : b.prev ≠ a := by
    intro same
    rw [same, here] at before
    obtain rfl := Option.some.inj before
    omega
  refine ⟨r, w, before, body_w, meets, chained, apart, ok.last, fun less => ?_⟩
  obtain ⟨u', d, after', start', body'⟩ := ok.next less
  refine ⟨tree.ne_zero after', fun same => ?_, fun same => ?_, u', d, after', start', body'⟩
  · rw [same, here] at after'
    obtain rfl := Option.some.inj after'
    omega
  · rw [same, before] at after'
    obtain rfl := Option.some.inj after'
    omega

end

/-- The other leaves when `a` is out of the chain and its ikeys are given to the leaf before it. -/
theorem Layer.rechain {m₁ : Mem} {held : Finset Addr} {r : Span} (layer : Layer m span top held) (here : span a = some s)
    (body : m.body a = some b) (between : Between m span a s b r w)
    (bodies : m₁.body = m.body) (unchained : Unchained m₁ m' a b)
    (kept : ∀ c t d, c ≠ a → span c = some t → m.body c = some d →
      span' c = some ⟨collapse s.lo s.hi t.lo, collapse s.lo s.hi t.hi⟩)
    (ne : c ≠ a) (known : span c = some t) (there : m.body c = some d) :
    ∃ d', m'.body c = some d' ∧ Relinked d d' ∧ t.lo ≠ s.lo ∧
      LeafOk m'.body span' ⟨t.lo, collapse s.lo s.hi t.hi⟩ d' := by
  have tree := layer.tree
  have after_prev := unchained.prev
  have after_next := unchained.next
  have after_other := unchained.other
  rw [bodies] at after_prev after_next after_other
  have ok := layer.leaves c t d known there
  have wide := tree.wide a s here
  have wide_c := tree.wide c t known
  have limit := tree.hi_le here
  have limit_c := tree.hi_le known
  have start {x : Addr} {u : Span} {e : LeafBody} (known : span x = some u) (there : m.body x = some e)
      (ne : x ≠ a) : u.lo ≠ s.lo := fun same => by
    have wide_x := tree.wide x u known
    exact ne (tree.leaf_same (x := s.lo) known there here body (by omega) (by omega) le_rfl wide)
  have isSome {x : Addr} {u : Span} {e : LeafBody} (known : span x = some u) (there : m.body x = some e)
      (ne : x ≠ a) : ∃ e', m'.body x = some e' := by
    by_cases prev : x = b.prev
    · exact ⟨_, by rw [prev, after_prev, between.body]; rfl⟩
    · by_cases next : x = b.next
      · have ne_zero : b.next ≠ 0 := next ▸ tree.ne_zero known
        exact ⟨_, by rw [next, after_next ne_zero, ← next, there]; rfl⟩
      · exact ⟨e, by rw [after_other x ne prev fun same => absurd same next, there]⟩
  -- the spans of the other leaves
  have span_of {x : Addr} {u : Span} {e : LeafBody} (known : span x = some u) (there : m.body x = some e)
      (ne : x ≠ a) : span' x = some ⟨u.lo, collapse s.lo s.hi u.hi⟩ := by
    rw [kept x u e ne known there, collapse_ne (start known there ne)]
  have is_prev (meets : t.hi = s.lo) : c = b.prev := by
    have wide_r := tree.wide _ _ between.before
    have := between.meets
    exact tree.leaf_same (x := s.lo - 1) known there between.before between.body (by omega) (by omega) (by omega)
      (by omega)
  have is_next (meets : t.lo = s.hi) : c = b.next := by
    obtain ⟨-, -, -, u, e, after, start', body'⟩ := between.next (by omega)
    have wide_u := tree.wide _ _ after
    exact tree.leaf_same (x := s.hi) known there after body' (by omega) (by omega) (by omega) (by omega)
  have stay (off : t.hi ≠ s.lo) : collapse s.lo s.hi t.hi = t.hi := collapse_ne off
  have upto : t.hi ≤ collapse s.lo s.hi t.hi := by
    simp only [collapse]
    split <;> omega
  have inside : ∀ e ∈ entries d, t.lo ≤ e.ikey ∧ e.ikey < collapse s.lo s.hi t.hi := fun e member =>
    ⟨(ok.inside e member).1, (ok.inside e member).2.trans_le upto⟩
  have bound (pos : t.lo ≠ 0) : t.lo ≤ d.ikeyBound ∧ d.ikeyBound < collapse s.lo s.hi t.hi ∧
      ∀ e ∈ entries d, d.ikeyBound ≤ e.ikey := by
    obtain ⟨low, high, all⟩ := ok.bound pos
    exact ⟨low, high.trans_le upto, all⟩
  have old_prev (pos : t.lo ≠ 0) (off : t.lo ≠ s.hi) : ∃ u e, span' d.prev = some u ∧ u.hi = t.lo ∧
      m'.body d.prev = some e := by
    obtain ⟨u, e, before, meets, body_e⟩ := ok.prev pos
    have ne' : d.prev ≠ a := by
      intro same
      rw [same, here] at before
      obtain rfl := Option.some.inj before
      exact off meets.symm
    obtain ⟨e', body'⟩ := isSome before body_e ne'
    refine ⟨_, e', span_of before body_e ne', ?_, body'⟩
    rw [← meets]
    exact collapse_ne fun same => start known there ne (meets.symm.trans same)
  have old_next (off : t.hi ≠ s.lo) (less : t.hi ≠ ikeyLimit) : ∃ u e, span' d.next = some u ∧ u.lo = t.hi ∧
      m'.body d.next = some e := by
    obtain ⟨u, e, after, meets, body_e⟩ := ok.next less
    have ne' : d.next ≠ a := by
      intro same
      rw [same, here] at after
      obtain rfl := Option.some.inj after
      exact off meets.symm
    obtain ⟨e', body'⟩ := isSome after body_e ne'
    exact ⟨_, e', span_of after body_e ne', meets, body'⟩
  by_cases prev : c = b.prev
  · subst prev
    obtain rfl := Option.some.inj (between.before.symm.trans known)
    obtain rfl := Option.some.inj (between.body.symm.trans there)
    have meets := between.meets
    have upper : collapse s.lo s.hi r.hi = s.hi := by rw [meets, collapse_at]
    rw [upper] at inside bound ⊢
    have same : Relinked w (w.setNext b.next) := ⟨rfl⟩
    refine ⟨w.setNext b.next, by rw [after_prev, there]; rfl, same, start known there ne, same.ok ok.ok, inside,
      bound, ok.first, fun pos' => old_prev pos' ?_, between.last, fun less => ?_⟩
    · omega
    obtain ⟨-, ne_a, -, u, e, after, start', body'⟩ := between.next less
    obtain ⟨e', body''⟩ := isSome after body' ne_a
    exact ⟨_, e', span_of after body' ne_a, start', body''⟩
  · have off : t.hi ≠ s.lo := fun meets => prev (is_prev meets)
    rw [stay off] at inside bound ⊢
    by_cases next : c = b.next
    · have ne_zero : b.next ≠ 0 := next ▸ tree.ne_zero known
      have less : s.hi ≠ ikeyLimit := fun last => ne_zero (between.last last)
      obtain ⟨-, -, -, u, e, after, start', body'⟩ := between.next less
      rw [← next, known] at after
      obtain rfl := Option.some.inj after
      have same : Relinked d (d.setPrev b.prev) := ⟨rfl⟩
      refine ⟨d.setPrev b.prev, by rw [next, after_next ne_zero, ← next, there]; rfl, same, start known there ne,
        same.ok ok.ok, inside, bound, fun zero => ?_, fun _ => ?_, ok.last, old_next off⟩
      · change t.lo = 0 at zero
        omega
      · obtain ⟨e', body''⟩ := isSome between.before between.body between.apart
        refine ⟨_, e', span_of between.before between.body between.apart, ?_, body''⟩
        rw [between.meets, collapse_at, start']
    · have off' : t.lo ≠ s.hi := fun meets => next (is_next meets)
      exact ⟨d, by rw [after_other c ne prev fun same => absurd same next, there], .refl d, start known there ne,
        ok.ok, inside, bound, ok.first, fun pos' => old_prev pos' off', ok.last, old_next off⟩

theorem nodes_le (fresh : Nat) (span : Addr → Option Span) : nodes fresh span ≤ fresh := by
  refine (Finset.card_filter_le _ _).trans ?_
  rw [Finset.card_range]

/-- A leaf that is not the first of its layer is taken out of the tree and out of the chain. -/
theorem removeLeaf_ok (layer : Layer m span top {a}) (here : span a = some s) (body : m.body a = some b)
    (pos : s.lo ≠ 0) (root : Addr) (key : List UInt8) :
    Runs (removeLeaf a root key) m fun done m' => done = true ∧ ∃ span', Gone m m' span span' top a := by
  have tree := layer.tree
  have ok := layer.leaves a s b here body
  obtain ⟨r, w, between⟩ := layer.between here body pos
  obtain ⟨q, above⟩ := up_of_body body
  have leaf := inner_of_body body
  have ne_top : a ≠ top := by
    rintro rfl
    obtain rfl := Option.some.inj (here.symm.trans tree.whole)
    exact pos rfl
  have prev : b.prev ≠ 0 := tree.ne_zero between.before
  rw [removeLeaf]
  refine Wp.step (leaf_ok body above) ?_
  simp only [if_neg prev]
  let m₁ := m.setVersion a { m.version a with deleted := true, splitting := true }
  refine Wp.step (markDeleted_ok above) ?_
  have locked := layer.calm.locked a (Finset.mem_singleton_self a)
  have calm₁ : Calm m₁ (Function.update span a none) top {a} fun _ => False := layer.calm.drop ne_top locked
  obtain ⟨m₂, run, unchained⟩ := unlink_ok (m := m₁) body between.body between.chained between.apart fun some => by
    have less : s.hi ≠ ikeyLimit := fun last => some (between.last last)
    obtain ⟨-, ne, ne', -, d, -, -, body'⟩ := between.next less
    exact ⟨ne, ne', d, body'⟩
  refine Wp.step run (Wp.step fuel_ok ?_)
  have losing : Losing m₂ span top a s none b.ikeyBound 0 := by
    obtain ⟨low, high, -⟩ := ok.bound pos
    have inner : Function.update m₂.inner a none = m.inner := by
      rw [unchained.inner]
      change Function.update m.inner a none = m.inner
      rw [← leaf, Function.update_eq_self]
    refine ⟨?_, ?_, here, ne_top, low, high, .inl ⟨rfl, rfl, pos⟩, ?_⟩
    · rw [inner, unchained.up, unchained.fresh]
      exact tree
    · have same (c : Addr) : settled m₂ {a} c = settled m₁ {a} c := by rw [settled, settled, unchained.version]
      refine calm₁.transfer (fun c _ _ => by rw [unchained.inner]) (fun c _ _ => by rw [same]) (by rw [same])
        fun c member => ?_
      rw [unchained.version]
      exact calm₁.locked c member
    · rw [unchained.version]
      simp [m₁]
  refine Wp.call (removeUp_ok m₂.fresh losing (nodes_le ..)) fun _ m' post => Wp.pure ⟨rfl, ?_⟩
  obtain ⟨span', shed⟩ := post
  rw [moved, if_pos rfl] at shed
  have moves (c : Addr) (t : Span) (d : LeafBody) (ne : c ≠ a) (known : span c = some t) (there : m.body c = some d) :
      span' c = some ⟨collapse s.lo s.hi t.lo, collapse s.lo s.hi t.hi⟩ := by
    refine shed.kept c t known ne ?_
    rw [unchained.inner]
    exact inner_of_body there
  have chained (c : Addr) (t : Span) (d : LeafBody) (ne : c ≠ a) (known : span c = some t) (there : m.body c = some d) :
      ∃ d', m₂.body c = some d' ∧ Relinked d d' ∧ t.lo ≠ s.lo ∧
        LeafOk m₂.body span' ⟨t.lo, collapse s.lo s.hi t.hi⟩ d' :=
    layer.rechain here body between (show m₁.body = m.body from rfl) unchained moves ne known there
  -- a leaf of the new tree is one of the old tree
  have known_leaf (c : Addr) (t' : Span) (d' : LeafBody) (known : span' c = some t') (there : m'.body c = some d') :
      c ≠ a ∧ ∃ t d, span c = some t ∧ m.body c = some d ∧
        t' = ⟨collapse s.lo s.hi t.lo, collapse s.lo s.hi t.hi⟩ := by
    obtain ⟨ne, t, old, same⟩ := shed.spans c t' known
    obtain ⟨p, above'⟩ := tree.known c t old
    rw [shed.body] at there
    have leaf' := inner_of_body there
    rw [unchained.inner] at leaf'
    obtain ⟨d, there'⟩ := exists_body above' leaf'
    exact ⟨ne, t, d, old, there', same⟩
  refine ⟨span', ⟨shed.tree, shed.calm, fun c t' d' known there => ?_⟩, shed.fresh.trans unchained.fresh,
    shed.root.trans unchained.root, shed.callbacks.trans unchained.callbacks, fun c t d ne known there => ?_,
    fun c t' d' known there => ?_, fun c t' known => ?_, shed.leads, fun c none => ?_⟩
  · obtain ⟨ne, t, d, old, there', rfl⟩ := known_leaf c t' d' known there
    obtain ⟨d'', there'', -, off, leaf'⟩ := chained c t d ne old there'
    rw [shed.body] at there
    obtain rfl := Option.some.inj (there''.symm.trans there)
    rw [shed.body, collapse_ne off]
    exact leaf'
  · obtain ⟨d', there', relinked, off, -⟩ := chained c t d ne known there
    exact ⟨_, d', moves c t d ne known there, collapse_ne off, by rw [shed.body, there'], relinked⟩
  · obtain ⟨ne, t, d, old, there', -⟩ := known_leaf c t' d' known there
    exact ⟨ne, t, d, old, there'⟩
  · obtain ⟨-, t, old, -⟩ := shed.spans c t' known
    exact ⟨t, old⟩
  · have ne : c ≠ a := by
      rintro rfl
      rw [here] at none
      cases none
    have ne_prev : c ≠ b.prev := by
      rintro rfl
      rw [between.before] at none
      cases none
    refine SameNode.trans ⟨?_, ?_, ?_, ?_⟩ (shed.frame c none)
    · rw [unchained.up]
      rfl
    · rw [unchained.inner]
      rfl
    · refine unchained.other c ne ne_prev fun same => ?_
      by_contra some
      have less : s.hi ≠ ikeyLimit := fun last => some (between.last last)
      obtain ⟨-, -, -, u, -, after, -⟩ := between.next less
      rw [← same, none] at after
      cases after
    · rw [unchained.version]
      simp [m₁, ne]

end Incll.Proof.Layers
