import Incll.Proof.Layers.SplitLeaf

/-! # The new leaf of a split

It is linked behind the old one, and takes the upper part of its span. -/

namespace Incll.Proof.Layers
open Incll.Lib Incll.Model Incll.Model.Layers

variable {m m' : Mem} {span : Addr → Option Span} {top : Addr} {s : Span} {b : LeafBody} {n nr : Addr}

/-- The bodies after the new leaf is linked behind `n`. -/
def linked (body : Addr → Option LeafBody) (n nr : Addr) (b right : LeafBody) (a : Addr) : Option LeafBody :=
  if a = n then some (b.setNext nr)
  else if a = nr then some (right.setLinks b.next n)
  else if a = b.next ∧ a ≠ 0 then (body a).map (.setPrev nr)
  else body a

theorem linkSplit_ok {right : LeafBody} (h : m.body n = some b) (h' : m.body nr = some right)
    (ne : n ≠ nr) (next : b.next ≠ 0 → b.next ≠ n ∧ b.next ≠ nr ∧ ∃ d, m.body b.next = some d) :
    ∃ m', linkSplit n nr m = .ok ((), m') ∧ m'.up = m.up ∧ m'.inner = m.inner ∧
      m'.body = linked m.body n nr b right ∧ m'.version = m.version ∧ m'.fresh = m.fresh := by
  obtain ⟨x, read, -, -, next_x⟩ := leaf_read h
  rw [linkSplit, bind_ok read]
  simp only [next_x]
  obtain ⟨m₁, run₁, wrote₁⟩ := modifyBody_wrote (.setLinks b.next n) h' (fun _ => rfl) fun _ => rfl
  rw [bind_ok run₁]
  by_cases last : b.next = 0
  · have h₁ : m₁.body n = some b := by rw [wrote₁.body, Function.update_of_ne ne, h]
    obtain ⟨m₂, run₂, wrote₂⟩ := modifyBody_wrote (.setNext nr) h₁ (fun _ => rfl) fun _ => rfl
    rw [if_neg (not_not.mpr last)]
    refine ⟨m₂, run₂, wrote₂.up.trans wrote₁.up, wrote₂.inner.trans wrote₁.inner, ?_,
      wrote₂.version.trans wrote₁.version, wrote₂.fresh.trans wrote₁.fresh⟩
    rw [wrote₂.body, wrote₁.body]
    funext a
    by_cases first : a = n
    · rw [first, Function.update_self, linked, if_pos rfl]
    · rw [Function.update_of_ne first, linked, if_neg first]
      by_cases second : a = nr
      · rw [second, Function.update_self, if_pos rfl]
      · rw [Function.update_of_ne second, if_neg second, if_neg fun both => both.2 (both.1.trans last)]
  · obtain ⟨ne_n, ne_nr, d, body⟩ := next last
    have body₁ : m₁.body b.next = some d := by rw [wrote₁.body, Function.update_of_ne ne_nr, body]
    obtain ⟨m₂, run₂, wrote₂⟩ := modifyBody_wrote (.setPrev nr) body₁ (fun _ => rfl) fun _ => rfl
    have h₂ : m₂.body n = some b := by
      rw [wrote₂.body, Function.update_of_ne ne_n.symm, wrote₁.body, Function.update_of_ne ne, h]
    obtain ⟨m₃, run₃, wrote₃⟩ := modifyBody_wrote (.setNext nr) h₂ (fun _ => rfl) fun _ => rfl
    rw [if_pos last, bind_ok run₂]
    refine ⟨m₃, run₃, (wrote₃.up.trans wrote₂.up).trans wrote₁.up, (wrote₃.inner.trans wrote₂.inner).trans wrote₁.inner,
      ?_, (wrote₃.version.trans wrote₂.version).trans wrote₁.version,
      (wrote₃.fresh.trans wrote₂.fresh).trans wrote₁.fresh⟩
    rw [wrote₃.body, wrote₂.body, wrote₁.body]
    funext a
    by_cases first : a = n
    · rw [first, Function.update_self, linked, if_pos rfl]
    · rw [Function.update_of_ne first, linked, if_neg first]
      by_cases third : a = b.next
      · rw [third, Function.update_self, if_neg ne_nr, if_pos ⟨rfl, last⟩, body]
        rfl
      · rw [Function.update_of_ne third]
        by_cases second : a = nr
        · rw [second, Function.update_self, if_pos rfl]
        · rw [Function.update_of_ne second, if_neg second, if_neg fun both => third both.1]

/-- The spans after `nr` has taken the ikeys from `key` on. -/
def splitSpan (span : Addr → Option Span) (n nr : Addr) (s : Span) (key : Nat) : Addr → Option Span :=
  Function.update (Function.update span n (some ⟨s.lo, key⟩)) nr (some ⟨key, s.hi⟩)

section
variable {key : Nat} (ne : n ≠ nr) (here : span n = some s) (fresh : span nr = none)

theorem splitSpan_left (ne : n ≠ nr) : splitSpan span n nr s key n = some ⟨s.lo, key⟩ := by
  rw [splitSpan, Function.update_of_ne ne, Function.update_self]

theorem splitSpan_right : splitSpan span n nr s key nr = some ⟨key, s.hi⟩ := Function.update_self ..

theorem splitSpan_other {a : Addr} (first : a ≠ n) (second : a ≠ nr) : splitSpan span n nr s key a = span a := by
  rw [splitSpan, Function.update_of_ne second, Function.update_of_ne first]

include ne here fresh

/-- A node that was there before starts where it started. -/
theorem splitSpan_lo (key : Nat) {a : Addr} {t : Span} (known : span a = some t) :
    ∃ t', splitSpan span n nr s key a = some t' ∧ t'.lo = t.lo ∧ (a ≠ n → t' = t) := by
  have second : a ≠ nr := by
    rintro rfl
    rw [fresh] at known
    cases known
  by_cases first : a = n
  · subst first
    obtain rfl := Option.some.inj (here.symm.trans known)
    exact ⟨_, splitSpan_left ne, rfl, fun absurd' => absurd rfl absurd'⟩
  · exact ⟨t, by rw [splitSpan_other first second, known], rfl, fun _ => rfl⟩

end

/-- The two leaves after a split. -/
structure Halves (b left right : LeafBody) (s : Span) (nr : Addr) (key : Nat) : Prop where
  low : s.lo < key
  high : key < s.hi
  first : EntriesOk left
  second : EntriesOk right
  links : SameLinks (b.setNext nr) left
  below : ∀ e ∈ entries left, s.lo ≤ e.ikey ∧ e.ikey < key
  above : ∀ e ∈ entries right, key ≤ e.ikey ∧ e.ikey < s.hi
  bound : s.lo ≠ 0 → s.lo ≤ left.ikeyBound ∧ left.ikeyBound < key ∧ ∀ e ∈ entries left, left.ikeyBound ≤ e.ikey
  start : right.ikeyBound = key

theorem linked_some {body : Addr → Option LeafBody} {d : LeafBody} {a : Addr} (n nr : Addr)
    (b left right : LeafBody) (known : body a = some d) :
    ∃ d', Function.update (linked body n nr b right) n (some left) a = some d' := by
  by_cases first : a = n
  · exact ⟨left, by rw [first, Function.update_self]⟩
  · rw [Function.update_of_ne first, linked, if_neg first, known]
    split
    · exact ⟨_, rfl⟩
    · split <;> exact ⟨_, rfl⟩

theorem Halves.leaves {left right : LeafBody} {key : Nat} (halves : Halves b left right s nr key)
    (tree : Whole m.up m.inner m.fresh span top)
    (leaves : ∀ a t d, span a = some t → m.body a = some d → LeafOk m.body span t d)
    (here : span n = some s) (body : m.body n = some b) (ne : n ≠ nr) (fresh : span nr = none)
    {a : Addr} {t : Span} {d : LeafBody} (known : splitSpan span n nr s key a = some t)
    (here' : Function.update (linked m.body n nr b right) n (some left) a = some d) :
    LeafOk (Function.update (linked m.body n nr b right) n (some left)) (splitSpan span n nr s key) t d := by
  have old := leaves n s b here body
  have wide := tree.wide n s here
  have low := halves.low
  have high := halves.high
  have limit := tree.hi_le here
  have body_right : Function.update (linked m.body n nr b right) n (some left) nr =
      some (right.setLinks b.next n) := by
    rw [Function.update_of_ne ne.symm, linked, if_neg ne.symm, if_pos rfl]
  -- the leaf behind, which may be the one that was split
  have behind {x : Addr} {u : Span} {e : LeafBody} (span_x : span x = some u) (body_x : m.body x = some e) :
      ∃ s' b', splitSpan span n nr s key x = some s' ∧ s'.lo = u.lo ∧
        Function.update (linked m.body n nr b right) n (some left) x = some b' := by
    obtain ⟨t', span', lo, -⟩ := splitSpan_lo ne here fresh key span_x
    obtain ⟨b', body'⟩ := linked_some n nr b left right body_x
    exact ⟨t', b', span', lo, body'⟩
  by_cases first : a = n
  · subst first
    rw [splitSpan_left ne] at known
    rw [Function.update_self] at here'
    obtain rfl := Option.some.inj known
    obtain rfl := Option.some.inj here'
    refine ⟨halves.first, halves.below, halves.bound, fun zero => ?_, fun pos => ?_, fun last => ?_, fun _ => ?_⟩
    · rw [halves.links.prev]
      exact old.first zero
    · obtain ⟨s', b', span', hi, body'⟩ := old.prev pos
      rw [halves.links.prev]
      change ∃ s' b', splitSpan span a nr s key b.prev = _ ∧ _ ∧
        Function.update (linked m.body a nr b right) a (some left) b.prev = _
      obtain ⟨t', span'', -, same⟩ := splitSpan_lo ne here fresh key span'
      obtain ⟨b'', body''⟩ := linked_some a nr b left right body'
      refine ⟨t', b'', span'', ?_, body''⟩
      rw [same ?_, hi]
      intro equal
      rw [equal, here] at span'
      obtain rfl := Option.some.inj span'
      omega
    · exact absurd last (by change key ≠ _; omega)
    · rw [halves.links.next]
      exact ⟨_, _, splitSpan_right, rfl, body_right⟩
  · by_cases second : a = nr
    · subst second
      rw [splitSpan_right] at known
      rw [body_right] at here'
      obtain rfl := Option.some.inj known
      obtain rfl := Option.some.inj here'
      refine ⟨halves.second.of_entries ⟨⟨halves.second.valid.body.permutation, halves.second.valid.body.iksuf,
        halves.second.valid.body.ksuf⟩, halves.second.valid.bag⟩ (List.Sublist.refl _), halves.above, fun _ => ?_,
        fun zero => ?_, fun _ => ?_, old.last, fun less => ?_⟩
      · refine ⟨halves.start.ge, halves.start.trans_lt high, fun e member => ?_⟩
        exact halves.start.trans_le (halves.above e member).1
      · exact absurd zero (by change key ≠ _; omega)
      · exact ⟨_, left, splitSpan_left ne, rfl, Function.update_self ..⟩
      · obtain ⟨s', b', span', lo, body'⟩ := old.next less
        obtain ⟨t', b'', span'', lo', body''⟩ := behind span' body'
        exact ⟨t', b'', span'', lo'.trans lo, body''⟩
    · rw [splitSpan_other first second] at known
      rw [Function.update_of_ne first, linked, if_neg first, if_neg second] at here'
      have next_ok {d₀ : LeafBody} (ok : LeafOk m.body span t d₀) (less : t.hi ≠ ikeyLimit) :
          ∃ s' b', splitSpan span n nr s key d₀.next = some s' ∧ s'.lo = t.hi ∧
            Function.update (linked m.body n nr b right) n (some left) d₀.next = some b' := by
        obtain ⟨s', b', span', lo, body'⟩ := ok.next less
        obtain ⟨t', b'', span'', lo', body''⟩ := behind span' body'
        exact ⟨t', b'', span'', lo'.trans lo, body''⟩
      -- the leaf behind the one that was split
      have follows (start : s.hi = t.lo) (leaf : ∃ e, m.body a = some e) : a = b.next := by
        have less : s.hi ≠ ikeyLimit := by
          have := tree.wide a t known
          have := tree.hi_le known
          omega
        obtain ⟨s', b', span', lo, body'⟩ := old.next less
        obtain ⟨e, body_a⟩ := leaf
        exact tree.leaf_unique (x := t.lo) known le_rfl (tree.wide a t known) span' (by omega)
          (by have := tree.wide _ _ span'; omega) (inner_of_body body_a) (inner_of_body body')
      split at here'
      · next both =>
          obtain ⟨d₀, body_a, rfl⟩ := Option.map_eq_some_iff.mp here'
          have ok := leaves a t d₀ known body_a
          have less : s.hi ≠ ikeyLimit := fun last => both.2 (both.1.trans (old.last last))
          obtain ⟨s', b', span', lo, body'⟩ := old.next less
          rw [← both.1, known] at span'
          obtain rfl := Option.some.inj span'
          refine ⟨ok.ok.of_entries ⟨⟨ok.ok.valid.body.permutation, ok.ok.valid.body.iksuf,
            ok.ok.valid.body.ksuf⟩, ok.ok.valid.bag⟩ (List.Sublist.refl _), ok.inside, ok.bound,
            fun zero => ?_, fun _ => ?_, ok.last, fun less => (next_ok ok less :)⟩
          · omega
          · exact ⟨_, _, splitSpan_right, lo.symm, body_right⟩
      · next other =>
          have ok := leaves a t d known here'
          refine ⟨ok.ok, ok.inside, ok.bound, ok.first, fun pos => ?_, ok.last, next_ok ok⟩
          obtain ⟨s', b', span', hi, body'⟩ := ok.prev pos
          obtain ⟨t', span'', -, same⟩ := splitSpan_lo ne here fresh key span'
          obtain ⟨b'', body''⟩ := linked_some n nr b left right body'
          refine ⟨t', b'', span'', ?_, body''⟩
          rw [same ?_, hi]
          intro equal
          rw [equal, here] at span'
          obtain rfl := Option.some.inj span'
          exact other ⟨follows hi ⟨d, here'⟩, tree.ne_zero known⟩

/-- `m'` is `m` with a new leaf `nr` that has the version of `n`. -/
structure NewLeaf (m m' : Mem) (n nr : Addr) : Prop where
  new : nr = m.fresh
  up : m'.up = Function.update m.up nr (some 0)
  inner : m'.inner = Function.update m.inner nr none
  version : m'.version = Function.update m.version nr (m.version n)
  fresh : m'.fresh = m.fresh + nodeSize

section
variable {key : Nat} (layer : Layer m span top {n}) (here : span n = some s) (leaf : m.inner n = none)
  (new : NewLeaf m m' n nr) (low : s.lo < key) (high : key < s.hi)
include layer here leaf new low high

theorem NewLeaf.half : Half m'.up m'.inner m'.fresh (splitSpan span n nr s key) top n nr ⟨s.lo, key⟩ ⟨key, s.hi⟩ := by
  have tree := layer.tree
  have ne_new {a : Addr} {r : Span} (known : span a = some r) : a ≠ nr := by
    rw [new.new]
    exact (tree.small a r known).ne
  have ne := ne_new here
  have fresh : span nr = none := by
    by_contra some
    obtain ⟨r, known⟩ := Option.ne_none_iff_exists'.mp some
    exact ne_new known rfl
  have top_ne := ne_new tree.whole
  have outer {a : Addr} (other : a ≠ nr) :
      Function.update (splitSpan span n nr s key) n (some ⟨s.lo, s.hi⟩) a = span a := by
    by_cases same : a = n
    · rw [same, Function.update_self, here]
    · rw [Function.update_of_ne same, splitSpan_other same other]
  have up {a : Addr} (other : a ≠ nr) : m'.up a = m.up a := by rw [new.up, Function.update_of_ne other]
  have inner {a : Addr} (other : a ≠ nr) : m'.inner a = m.inner a := by
    rw [new.inner, Function.update_of_ne other]
  have old {a : Addr} {r : Span} (known : splitSpan span n nr s key a = some r) (other : a ≠ nr) :
      ∃ r', span a = some r' ∧ r'.lo = r.lo ∧ (a ≠ n → r' = r) := by
    by_cases same : a = n
    · subst same
      rw [splitSpan_left ne] at known
      obtain rfl := Option.some.inj known
      exact ⟨s, here, rfl, fun absurd' => absurd rfl absurd'⟩
    · rw [splitSpan_other same other] at known
      exact ⟨r, known, rfl, fun _ => rfl⟩
  refine ⟨⟨?_, fun a r known => ?_, fun a r known => ?_, fun a r known => ?_, fun a r i known inner_a => ?_,
    fun a r known other notLoose => ?_, ?_, ?_⟩, splitSpan_left ne, splitSpan_right, rfl, ?_, ?_⟩
  · rw [outer, tree.null]
    rw [new.new]
    exact (Nat.zero_lt_of_lt (tree.small n s here)).ne
  · by_cases same : a = nr
    · exact ⟨0, by rw [same, new.up, Function.update_self]⟩
    · obtain ⟨r', before, -⟩ := old known same
      rw [up same]
      exact tree.known a r' before
  · rw [new.fresh]
    by_cases same : a = nr
    · rw [same, new.new]
      exact Nat.lt_add_of_pos_right (by decide)
    · obtain ⟨r', before, -⟩ := old known same
      exact (tree.small a r' before).trans_le (Nat.le_add_right ..)
  · by_cases same : a = nr
    · rw [same, splitSpan_right] at known
      obtain rfl := Option.some.inj known
      exact high
    · by_cases first : a = n
      · rw [first, splitSpan_left ne] at known
        obtain rfl := Option.some.inj known
        exact low
      · rw [splitSpan_other first same] at known
        exact tree.wide a r known
  · have other : a ≠ nr := by
      rintro rfl
      rw [new.inner, Function.update_self] at inner_a
      cases inner_a
    rw [inner other] at inner_a
    have first : a ≠ n := by
      rintro rfl
      rw [leaf] at inner_a
      cases inner_a
    rw [splitSpan_other first other] at known
    refine (tree.node a r i known inner_a).transfer fun x member => ?_
    obtain ⟨r', child⟩ := tiles_owned (tree.node a r i known inner_a).tiles member
    exact ⟨outer (ne_new child), up (ne_new child), by simp only [height, inner (ne_new child)]⟩
  · obtain ⟨r', before, lo, -⟩ := old known notLoose
    obtain ⟨p, s', i, above, span_p, inner_p, member⟩ := tree.above a r' before other not_false
    have p_ne := ne_new span_p
    have p_ne_n : p ≠ n := by
      rintro rfl
      rw [leaf] at inner_p
      cases inner_p
    rw [lo] at member
    exact ⟨p, s', i, by rw [up notLoose, above], by rw [splitSpan_other p_ne_n p_ne, span_p],
      by rw [inner p_ne, inner_p], member⟩
  · rw [outer top_ne, tree.whole]
  · rw [up top_ne, tree.root]
  · rw [new.up, Function.update_self]
  · rw [height_leaf (by rw [inner ne, leaf]), height_leaf (by rw [new.inner, Function.update_self])]

theorem NewLeaf.splitting : Splitting m' (splitSpan span n nr s key) top (insert nr (insert n ∅)) (· = n) n nr
    ⟨s.lo, key⟩ ⟨key, s.hi⟩ := by
  have half := new.half layer here leaf low high
  have ne : n ≠ nr := half.ne
  have ne_new {a : Addr} {r : Span} (known : span a = some r) : a ≠ nr := by
    rw [new.new]
    exact (layer.tree.small a r known).ne
  have calm : Calm m (Function.update span n (some ⟨s.lo, key⟩)) top {n} (· = n) := by
    refine (layer.calm.respan fun a r known => ?_).mono fun _ => False.elim
    by_cases same : a = n
    · subst same
      rw [Function.update_self] at known
      obtain rfl := Option.some.inj known
      exact ⟨s, here, id⟩
    · rw [Function.update_of_ne same] at known
      exact ⟨r, known, id⟩
  have version : m'.version nr = m.version n := by rw [new.version, Function.update_self]
  have settled_new : settled m' (insert nr (insert n ∅)) nr = (m.version n).unlock := by
    rw [settled, if_pos (Finset.mem_insert_self ..), version]
  have known {a : Addr} {r : Span} (h : Function.update span n (some ⟨s.lo, key⟩) a = some r) : a ≠ nr := by
    by_cases same : a = n
    · rw [same]
      exact ne
    · rw [Function.update_of_ne same] at h
      exact ne_new h
  refine ⟨half, ?_, rfl, by simp, by simp, fun a member => ?_⟩
  · refine calm.extend (fun a other => by simp [other]) (fun a other => by
      rw [new.version, Function.update_of_ne other]) (fun a r h => by
      rw [new.inner, Function.update_of_ne (known h)]) (fun a r h => known h) ?_ (fun _ => ?_)
      (.inr ⟨rfl, ne_new layer.tree.whole, fun inside => ?_⟩)
    · rw [settled_new]
      have free := layer.calm.free n s here
      rwa [settled, if_pos (Finset.mem_singleton_self n)] at free
    · rw [version]
      exact layer.calm.locked n (Finset.mem_singleton_self n)
    · rcases inside with zero | some
      · exact absurd zero (by change key ≠ 0; omega)
      · rw [new.inner, Function.update_self] at some
        cases some
  · simp only [Finset.mem_insert, Finset.notMem_empty, or_false] at member
    rcases member with rfl | rfl
    · exact ⟨_, half.right⟩
    · exact ⟨_, half.left⟩

end

end Incll.Proof.Layers
