import Incll.Proof.Table.Publish

/-! # A table in which a leaf is split -/

namespace Incll.Proof.Layers
open Incll.Lib Incll.Model Incll.Model.Layers

variable {m m' s : Mem} {F : Forest} {T : Part} {span' : Addr → Option Span} {c c' : Layers.Tcursor} {a top' : Addr}
  {t t' : Span} {b d left right b' : LeafBody} {key splitType n : Nat} {e : Entry}

/-- A slot is reserved for the key of the cursor, and the keys are bound as they were. -/
structure Ready (m m' : Mem) (F F' : Forest) (c c' : Layers.Tcursor) (T' : Part) (t' : Span) (b' : LeafBody) : Prop where
  table : Table m' F' {c'.n}
  lands : Lands m' F' c.before c.rest T' c'.n t' b'
  reserved : Reserved b' c.key c'.i c'.p
  state : c'.state = c.state
  callbacks : m'.callbacks = m.callbacks
  bound : ∀ s v, Bound m' F' s v ↔ Bound m F s v

/-- The result of a run without the other layers. -/
structure Merged (m s m' : Mem) (span : Addr → Option Span) : Prop where
  around : Around m m' span
  fresh : s.fresh = m'.fresh
  same : ∀ a, (span a ≠ none ∨ m.fresh ≤ a) → SameNode s m' a

theorem Merged.one {span : Addr → Option Span} (merged : Merged m s m' span) (known : span a = some t)
    (wrote : Wrote (alone m span) s a b') : OneLeaf m m' a b' ∧ m'.version = m.version := by
  have small : s.fresh = m.fresh := wrote.fresh
  have inside {x : Addr} (near : span x ≠ none ∨ m.fresh ≤ x) : SameNode m (alone m span) x := by
    refine sameNode_of_kind ?_ rfl
    rw [alone]
    dsimp only
    rw [if_neg]
    rintro ⟨off, less⟩
    rcases near with known | new
    · exact known off
    · exact absurd less (not_lt.mpr new)
  have cases (x : Addr) : (span x ≠ none ∨ m.fresh ≤ x) ∨ span x = none ∧ x < m.fresh := by
    by_cases off : span x = none
    · rcases lt_or_ge x m.fresh with less | new
      · exact .inr ⟨off, less⟩
      · exact .inl (.inr new)
    · exact .inl (.inl off)
  have up : m'.up = m.up := by
    funext x
    rcases cases x with near | ⟨off, less⟩
    · rw [(merged.same x near).up, wrote.up, (inside near).up]
    · exact (merged.around.frame x off less).up
  have inner : m'.inner = m.inner := by
    funext x
    rcases cases x with near | ⟨off, less⟩
    · rw [(merged.same x near).inner, wrote.inner, (inside near).inner]
    · exact (merged.around.frame x off less).inner
  have version : m'.version = m.version := by
    funext x
    rcases cases x with near | ⟨off, less⟩
    · rw [(merged.same x near).version, wrote.version, (inside near).version]
    · exact (merged.around.frame x off less).version
  refine ⟨⟨up, inner, ?_, fun x _ => by rw [version], merged.fresh.symm.trans small, merged.around.root,
    merged.around.callbacks⟩, version⟩
  funext x
  by_cases same : x = a
  · subst same
    have near : span x ≠ none ∨ m.fresh ≤ x := .inl (by rw [known]; exact Option.some_ne_none t)
    rw [(merged.same x near).body, wrote.body, Function.update_self, Function.update_self]
  · rw [Function.update_of_ne same]
    rcases cases x with near | ⟨off, less⟩
    · rw [(merged.same x near).body, wrote.body, Function.update_of_ne same, (inside near).body]
    · exact (merged.around.frame x off less).body

/-! The leaf is split. -/

/-- The leaves after the split, with what matters of them. -/
inductive SplitLeaf (m : Mem) (T : Part) (c : Layers.Tcursor) (left right : LeafBody) (t : Span) (key : Nat)
    (a : Addr) (t' : Span) (d : LeafBody) : Prop
  | left : a = c.n → d = left → t' = ⟨t.lo, key⟩ → SplitLeaf m T c left right t key a t' d
  | right : a = m.fresh → Relinked right d → t' = ⟨key, t.hi⟩ → SplitLeaf m T c left right t key a t' d
  | other {d₀ : LeafBody} : T.span a = some t' → m.body a = some d₀ → a ≠ c.n → Relinked d₀ d →
      SplitLeaf m T c left right t key a t' d

section
variable (start : NoSlot (alone m T.span) T.span T.top c t b)
  (split : Layers.Split (alone m T.span) T.span c t b left right key splitType n c' s span' top')
include split

theorem split_near {u : Span} (known : span' a = some u) : T.span a ≠ none ∨ m.fresh ≤ a := by
  rcases split.new a u known with old | rfl | ⟨new, -⟩
  · exact .inl (Option.isSome_iff_ne_none.mp old)
  · exact .inr le_rfl
  · exact .inr new.le

theorem split_same (merged : Merged m s m' T.span) {u : Span} (known : span' a = some u) : SameNode s m' a :=
  merged.same a (split_near split known)

/-- A node that was there, and its body. -/
theorem split_old (sound : Sound m T {c.n}) {t₀ : Span} {d₀ : LeafBody} (known : T.span a = some t₀)
    (body : m.body a = some d₀) (ne : a ≠ c.n) : span' a = some t₀ ∧ ∃ d, s.body a = some d ∧ Relinked d₀ d := by
  have apart : a ≠ m.fresh := (sound.layer.tree.small a t₀ known).ne
  have same : splitSpan T.span c.n m.fresh t key a = T.span a := splitSpan_other ne apart
  have body₀ : (alone m T.span).body a = some d₀ := by rw [(sameNode_alone known).body, body]
  have body' := split.body a t₀ (same.trans known)
  change s.body a = Function.update (linked _ c.n m.fresh b right) c.n (some left) a at body'
  rw [Function.update_of_ne ne, linked, if_neg ne, if_neg apart, body₀] at body'
  have there : ∃ d, s.body a = some d ∧ Relinked d₀ d := by
    rw [body']
    split
    · exact ⟨_, rfl, ⟨rfl⟩⟩
    · exact ⟨_, rfl, .refl d₀⟩
  obtain ⟨d, there, relinked⟩ := there
  obtain ⟨t', known', -, leaf⟩ := split.old a t₀ (same.trans known)
  rw [leaf (inner_of_body there)] at known'
  exact ⟨known', d, there, relinked⟩

include start

theorem split_left : span' c.n = some ⟨t.lo, key⟩ ∧ s.body c.n = some left := by
  have apart : c.n ≠ m.fresh := (start.layer.tree.small _ _ start.here).ne
  have body := split.body _ _ (splitSpan_left apart)
  rw [Function.update_self] at body
  obtain ⟨t', known, -, leaf⟩ := split.old _ _ (splitSpan_left apart)
  rw [leaf (inner_of_body body)] at known
  exact ⟨known, body⟩

theorem split_right : span' m.fresh = some ⟨key, t.hi⟩ ∧ s.body m.fresh = some (right.setLinks b.next c.n) := by
  have apart : c.n ≠ m.fresh := (start.layer.tree.small _ _ start.here).ne
  have body := split.body _ _ splitSpan_right
  change s.body m.fresh = Function.update (linked _ c.n m.fresh b right) c.n (some left) m.fresh at body
  rw [Function.update_of_ne apart.symm, linked, if_neg apart.symm, if_pos rfl] at body
  obtain ⟨t', known, -, leaf⟩ := split.old _ _ splitSpan_right
  rw [leaf (inner_of_body body)] at known
  exact ⟨known, body⟩

/-- The leaf with the slot for the key. -/
theorem split_cursor (merged : Merged m s m' T.span) : ∃ t' b', span' c'.n = some t' ∧ m'.body c'.n = some b' ∧
    (c'.n = c.n ∨ c'.n = m.fresh) ∧ t'.lo ≤ c.key.ikey ∧ c.key.ikey < t'.hi ∧ Reserved b' c.key c'.i c'.p ∧
    c'.state = c.state := by
  have apart : c.n ≠ m.fresh := (start.layer.tree.small _ _ start.here).ne
  have ok := (start.layer.leaves _ _ _ start.here start.body).ok
  have cursor := split.cursor
  rcases split.parts.place with ⟨zero, far, -, less⟩ | ⟨other, far, room, back, entry, more⟩
  · have two := split.key_left ok apart zero far less
    rw [splitCursor, if_pos zero] at cursor
    have same : c'.n = c.n := by rw [cursor]
    have reserved := two.reserved.resolve_right fun both => apart (same.symm.trans both.1)
    obtain ⟨known, body⟩ := split_left start split
    refine ⟨⟨t.lo, key⟩, left, same ▸ known, ?_, .inl same, start.inside.1, less, reserved.2, by rw [cursor]⟩
    rw [same, (split_same split merged known).body, body]
  · have two := split.key_right ok start.place apart other far room back entry more
    rw [splitCursor, if_neg other] at cursor
    have same : c'.n = m.fresh := by rw [cursor]; rfl
    have reserved := two.reserved.resolve_left fun both => apart (both.1.symm.trans same)
    obtain ⟨known, body⟩ := split_right start split
    refine ⟨⟨key, t.hi⟩, _, same ▸ known, ?_, .inr same, more, start.inside.2, reserved.2, by rw [cursor]⟩
    rw [same, (split_same split merged known).body, body]

variable (sound : Sound m T {c.n})
include sound

theorem split_leaf (known : span' a = some t') (body : s.body a = some d) :
    SplitLeaf m T c left right t key a t' d := by
  rcases split.new a t' known with old | rfl | ⟨-, inner⟩
  · by_cases same : a = c.n
    · subst same
      obtain ⟨known', body'⟩ := split_left start split
      rw [known] at known'
      rw [body] at body'
      exact .left rfl (Option.some.inj body') (Option.some.inj known')
    · obtain ⟨t₀, known₀⟩ := Option.isSome_iff_exists.mp old
      have ne : a ≠ m.fresh := (sound.layer.tree.small a t₀ known₀).ne
      obtain ⟨q, above⟩ := sound.layer.tree.known a t₀ known₀
      cases inner : m.inner a with
      | none =>
          obtain ⟨d₀, body₀⟩ := exists_body above inner
          obtain ⟨known', d', body', relinked⟩ := split_old split sound known₀ body₀ same
          obtain rfl := Option.some.inj (known.symm.trans known')
          obtain rfl := Option.some.inj (body.symm.trans body')
          exact .other known₀ body₀ same relinked
      | some i =>
          have here := split.inner a t₀ known₀
          rw [(sameNode_alone known₀).inner, inner, inner_of_body body] at here
          cases here
  · obtain ⟨known', body'⟩ := split_right start split
    have equal := Option.some.inj (known.symm.trans known')
    have links := Option.some.inj (body.symm.trans body')
    exact .right rfl ⟨by rw [links]; rfl⟩ equal
  · rw [inner_of_body body] at inner
    cases inner

variable (merged : Merged m s m' T.span)
include merged

/-- The layer has the same entries. -/
theorem split_has : Has m' span' e ↔ Has m T.span e := by
  have first : entries left = (entries b).take n := split.cut.entries
  have second := split.parts.entries
  have body_n : m.body c.n = some b := by
    rw [← (sameNode_alone start.here).body]
    exact start.body
  constructor
  · rintro ⟨a, t', d, known, body, member⟩
    rw [(split_same split merged known).body] at body
    cases split_leaf start split sound known body with
    | left same same' _ =>
        subst same same'
        rw [first] at member
        exact ⟨c.n, t, b, start.here, body_n, List.mem_of_mem_take member⟩
    | right _ relinked _ =>
        rw [relinked.entries, second] at member
        exact ⟨c.n, t, b, start.here, body_n, List.mem_of_mem_drop member⟩
    | other known₀ body₀ _ relinked =>
        rw [relinked.entries] at member
        exact ⟨a, _, _, known₀, body₀, member⟩
  · rintro ⟨a, t₀, d₀, known, body, member⟩
    by_cases same : a = c.n
    · subst same
      obtain rfl := Option.some.inj (body_n.symm.trans body)
      rw [← List.take_append_drop n (entries b)] at member
      rcases List.mem_append.mp member with before | behind
      · obtain ⟨known', body'⟩ := split_left start split
        refine ⟨c.n, _, left, known', ?_, by rw [first]; exact before⟩
        rw [(split_same split merged known').body, body']
      · obtain ⟨known', body'⟩ := split_right start split
        refine ⟨m.fresh, _, right.setLinks b.next c.n, known', ?_, ?_⟩
        · rw [(split_same split merged known').body, body']
        · change e ∈ entries right
          rw [second]
          exact behind
    · obtain ⟨known', d, body', relinked⟩ := split_old split sound known body same
      refine ⟨a, t₀, d, known', ?_, by rw [relinked.entries]; exact member⟩
      rw [(split_same split merged known').body, body']

variable (full : leafWidth ≤ b.size + 1)
include full

theorem split_sound : Sound m' ⟨top', span'⟩ {c'.n} := by
  obtain ⟨t', b', known_c, -, -⟩ := split_cursor start split merged
  have body_n : m.body c.n = some b := by
    rw [← (sameNode_alone start.here).body]
    exact start.body
  refine ⟨split.layer.elsewhere merged.fresh.le (fun a u known => split_same split merged known)
    (fun _ _ _ => .rfl) fun a member => ?_, fun a u d known body pos => ?_, fun a u d known body => ?_⟩
  · rw [Finset.mem_singleton.mp member, (split_same split merged known_c).version]
    exact split.layer.calm.locked _ (Finset.mem_singleton_self _)
  · rw [(split_same split merged known).body] at body
    cases split_leaf start split sound known body with
    | left same same' same'' =>
        subst same same' same''
        rw [start.left_bound full split.parts split.cut pos]
        exact sound.snug c.n t b start.here body_n pos
    | right _ relinked same =>
        rw [relinked.ikeyBound, same]
        exact split.halves.start
    | other known₀ body₀ _ relinked =>
        rw [relinked.ikeyBound]
        exact sound.snug a u _ known₀ body₀ pos
  · rw [(split_same split merged known).body] at body
    cases split_leaf start split sound known body with
    | left _ same _ =>
        have modstate : left.modstate = b.modstate := split.cut.links.modstate
        rw [same, modstate]
        exact sound.live c.n t b start.here body_n
    | right _ relinked _ =>
        rw [relinked.modstate, split.parts.modstate]
        simp
    | other known₀ body₀ _ relinked =>
        rw [relinked.modstate]
        exact sound.live a u _ known₀ body₀

theorem split_changed : Changed m m' T ⟨top', span'⟩ {c.n} {c'.n} := by
  obtain ⟨t', b', known_c, -, near, -⟩ := split_cursor start split merged
  have apart : c.n ≠ m.fresh := (start.layer.tree.small _ _ start.here).ne
  have fresh : T.span m.fresh = none := by
    cases known : T.span m.fresh with
    | none => rfl
    | some u => exact absurd (sound.layer.tree.small _ u known) (lt_irrefl _)
  refine ⟨merged.around, split_sound start split sound merged full, fun a u known =>
    split_near split known, fun a u known first => ?_, fun a off small => ?_⟩
  · obtain ⟨u₁, known₁, low, -⟩ := splitSpan_lo apart start.here fresh key known
    obtain ⟨u', known', low', -⟩ := split.old a u₁ known₁
    exact .here known' (by omega)
  · rw [Finset.mem_singleton, Finset.mem_singleton]
    have ne : a ≠ c.n := by
      rintro rfl
      rw [start.here] at off
      cases off
    have ne' : a ≠ c'.n := by
      rintro rfl
      rcases near with same | same
      · exact ne same
      · exact small.ne same
    exact ⟨fun same => absurd same ne', fun same => absurd same ne⟩

end

/-! `make_split`. -/

/-- `make_split` reserves a slot for the key. -/
theorem Table.makeSplit_ok (table : Table m F {c.n}) (lands : Lands m F c.before c.rest T c.n t b)
    (lower : b.lower c.key = (c.i, none))
    (full : ¬ (b.size < leafWidth ∧ (b.permutation.back ≠ 0 ∨ b.prev = 0 ∨ b.ikeyBound = c.key.ikey))) :
    Runs (makeSplit c) m fun c' m' => ∃ F' T' t' b', Ready m m' F F' c c' T' t' b' := by
  have sound := table.each _ T lands.here
  have leaf := sound.layer.leaves _ _ _ lands.known lands.body
  have start : NoSlot (alone m T.span) T.span T.top c t b := by
    refine ⟨sound.layer.alone, lands.known, ?_, lower, lands.inside, fun pos => ?_, full⟩
    · rw [(sameNode_alone lands.known).body, lands.body]
    · rw [sound.snug _ _ _ lands.known lands.body pos]
      exact lands.inside.1
  have stops := lands.stops table fun i found => by
    have none : (b.lower (.ofBytes c.rest)).2 = none := congrArg Prod.snd lower
    rw [none] at found
    cases found
  refine (confined_ok (.makeSplit c) table.nodes (Layers.makeSplit_ok start)).mono fun c' m' post => ?_
  obtain ⟨around, s, post, fresh, same⟩ := post
  have merged : Merged m s m' T.span := ⟨around, fresh, same⟩
  rcases post with ⟨b', exchanged⟩ | ⟨wide, left, right, key, splitType, n, span', top', split⟩
  · obtain ⟨one, version⟩ := merged.one lands.known exchanged.wrote
    have cursor := exchanged.cursor
    have same_n : c'.n = c.n := by rw [cursor]
    have layer : Layer m' T.span T.top {c.n} := by
      refine sound.layer.rewrite (one.wrote version) lands.known lands.body exchanged.reserved.ok
        exchanged.links.next exchanged.links.prev ?_ ?_
      · rw [exchanged.entries]
        exact leaf.inside
      · rw [exchanged.entries, exchanged.bound]
        exact leaf.bound
    have after := sound.write lands.known one layer
      (fun pos => exchanged.bound.trans (sound.snug _ _ _ lands.known lands.body pos))
      (exchanged.links.modstate ▸ sound.live _ _ _ lands.known lands.body)
    have table' : Table m' F {c.n} := by
      refine table.write lands.here lands.known lands.body one after (fun _ _ => .rfl) ?_ ?_ ?_
      · rw [exchanged.entries]
        exact fun e member layer => table.down _ T e lands.here ⟨_, t, b, lands.known, lands.body, member⟩ layer
      · rw [exchanged.entries]
        exact fun slice lv member => ⟨lv, member⟩
      · rw [exchanged.entries]
        exact fun more e member => table.rest _ T e lands.here more ⟨_, t, b, lands.known, lands.body, member⟩
    refine ⟨F, T, t, b', by rw [same_n]; exact table', ⟨lands.here, lands.first, by rw [same_n]; exact lands.known,
      by rw [same_n]; exact one.here, lands.inside⟩, ?_, by rw [cursor], one.callbacks,
      table.bound_write lands.here lands.known lands.body one after (fun _ _ => .rfl) fun x v => ?_⟩
    · have index : c'.i = c.i := by rw [cursor]
      rw [index]
      exact exchanged.reserved
    · rw [exchanged.entries]
  · have changed := split_changed start split sound merged wide
    have has {e : Entry} := split_has (e := e) start split sound merged
    obtain ⟨t', b', known, body, -, low, high, reserved, state⟩ := split_cursor start split merged
    have table' : Table m' (Function.update F c.before (some ⟨top', span'⟩)) {c'.n} := by
      refine table.change lands.here changed (fun e there layer => ?_) (fun slice lv there => ⟨lv, has.mpr there⟩)
        fun more e there => table.rest _ T e lands.here more (has.mp there)
      exact table.down _ T e lands.here (has.mp there) layer
    exact ⟨_, ⟨top', span'⟩, t', b', table', ⟨Function.update_self .., lands.first, known, body, low, high⟩, reserved,
      state, around.callbacks, table.bound_same lands.here changed fun x v => has⟩

end Incll.Proof.Layers
