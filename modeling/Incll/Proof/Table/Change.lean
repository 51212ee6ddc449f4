import Incll.Proof.Table.Started

/-! # A table in which one layer changes -/

namespace Incll.Proof.Layers
open Incll.Lib Incll.Model Incll.Model.Layers

variable {m m' m'' : Mem} {F : Forest} {T T' T'' U : Part} {held held' held'' : Finset Addr} {p q r : List UInt8}
  {e : Entry} {v lv : Leafvalue} {a : Addr} {t : Span} {b b' : LeafBody}

/-- The layer `T` has become `T'`, and nothing else has changed. Pointers to the old layer lead to the new one. -/
structure Changed (m m' : Mem) (T T' : Part) (held held' : Finset Addr) : Prop where
  around : Around m m' T.span
  sound : Sound m' T' held'
  spans : ∀ a t, T'.span a = some t → T.span a ≠ none ∨ m.fresh ≤ a
  leads : ∀ a t, T.span a = some t → t.lo = 0 → Leads m' T'.span a
  locks : ∀ a, T.span a = none → a < m.fresh → (a ∈ held' ↔ a ∈ held)

theorem Changed.trans (first : Changed m m' T T' held held') (second : Changed m' m'' T' T'' held' held'') :
    Changed m m'' T T'' held held'' := by
  have out {a : Addr} (off : T.span a = none) (small : a < m.fresh) : T'.span a = none ∧ a < m'.fresh := by
    refine ⟨?_, small.trans_le first.around.fresh⟩
    by_contra some
    obtain ⟨t, known⟩ := Option.ne_none_iff_exists'.mp some
    rcases first.spans a t known with old | new
    · exact old off
    · exact absurd small (not_lt.mpr new)
  refine ⟨⟨fun a none small => ?_, first.around.fresh.trans second.around.fresh,
      second.around.root.trans first.around.root, second.around.callbacks.trans first.around.callbacks,
      second.around.nodes⟩, second.sound, fun a t known => ?_, fun a t known first' => ?_, fun a none small => ?_⟩
  · obtain ⟨none', small'⟩ := out none small
    exact (first.around.frame a none small).trans (second.around.frame a none' small')
  · rcases second.spans a t known with old | new
    · obtain ⟨u, known'⟩ := Option.ne_none_iff_exists'.mp old
      exact first.spans a u known'
    · exact .inr (first.around.fresh.trans new)
  · refine (first.leads a t known first').follow second.leads fun c q none above => ?_
    obtain ⟨-, small, -⟩ := first.around.nodes.each c q above
    refine ⟨second.around.frame c none small, ?_⟩
    by_contra some
    obtain ⟨u, known'⟩ := Option.ne_none_iff_exists'.mp some
    rcases second.spans c u known' with old | new
    · exact old none
    · exact absurd small (not_lt.mpr new)
  · obtain ⟨none', small'⟩ := out none small
    rw [second.locks a none' small', first.locks a none small]

theorem has_frame {span : Addr → Option Span} (same : ∀ a t, span a = some t → SameNode m m' a) :
    Has m' span e ↔ Has m span e := by
  constructor
  · rintro ⟨a, t, b, known, body, member⟩
    rw [(same a t known).body] at body
    exact ⟨a, t, b, known, body, member⟩
  · rintro ⟨a, t, b, known, body, member⟩
    rw [← (same a t known).body] at body
    exact ⟨a, t, b, known, body, member⟩

/-- Other nodes have changed. -/
theorem Sound.elsewhere (sound : Sound m U held) (grown : m.fresh ≤ m'.fresh)
    (same : ∀ a t, U.span a = some t → SameNode m m' a) (off : ∀ a t, U.span a = some t → (a ∈ held' ↔ a ∈ held))
    (locked : ∀ a ∈ held', (m'.version a).locked = true) : Sound m' U held' := by
  refine ⟨sound.layer.elsewhere grown same off locked, fun a t b known body => ?_, fun a t b known body => ?_⟩
  · rw [(same a t known).body] at body
    exact sound.snug a t b known body
  · rw [(same a t known).body] at body
    exact sound.live a t b known body

section
variable (grove : Grove m F held) (here : F p = some T)
include grove here

/-- The nodes of the other layers are not those of the layer. -/
theorem Grove.other (ne : q ≠ p) (there : F q = some U) (known : U.span a = some t) :
    T.span a = none ∧ a < m.fresh := by
  refine ⟨?_, (grove.each q U there).layer.tree.small a t known⟩
  by_contra some
  obtain ⟨s, known'⟩ := Option.ne_none_iff_exists'.mp some
  exact ne (grove.apart q p U T a t s there here known known')

variable (changed : Changed m m' T T' held held')
include changed

theorem Grove.same (ne : q ≠ p) (there : F q = some U) (known : U.span a = some t) : SameNode m m' a := by
  obtain ⟨none, small⟩ := grove.other here ne there known
  exact changed.around.frame a none small

theorem Grove.has_iff (ne : q ≠ p) (there : F q = some U) : Has m' U.span e ↔ Has m U.span e :=
  has_frame fun _ _ known => grove.same here changed ne there known

theorem Grove.change : Grove m' (Function.update F p (some T')) held' := by
  have old {q : List UInt8} {U : Part} (ne : q ≠ p) (known : Function.update F p (some T') q = some U) :
      F q = some U := by rwa [Function.update_of_ne ne] at known
  have new {U : Part} (known : Function.update F p (some T') p = some U) : U = T' := by
    rw [Function.update_self] at known
    exact (Option.some.inj known).symm
  have clash {q : List UInt8} {U : Part} {a : Addr} {s t : Span} (ne : q ≠ p) (there : F q = some U)
      (known : U.span a = some s) (known' : T'.span a = some t) : False := by
    obtain ⟨none, small⟩ := grove.other here ne there known
    rcases changed.spans a t known' with old | new
    · exact old none
    · exact absurd small (not_lt.mpr new)
  refine ⟨changed.around.nodes, fun q U there => ?_, fun q q' U U' a s t there there' known known' => ?_⟩
  · by_cases same : q = p
    · subst same
      rw [new there]
      exact changed.sound
    · have there := old same there
      refine (grove.each q U there).elsewhere changed.around.fresh (fun a t known => grove.same here changed same there known)
        (fun a t known => ?_) changed.sound.layer.calm.locked
      obtain ⟨none, small⟩ := grove.other here same there known
      exact changed.locks a none small
  · by_cases same : q = p
    · by_cases same' : q' = p
      · rw [same, same']
      · subst same
        rw [new there] at known
        exact (clash same' (old same' there') known' known).elim
    · by_cases same' : q' = p
      · subst same'
        rw [new there'] at known'
        exact (clash same (old same there) known known').elim
      · exact grove.apart q q' U U' a s t (old same there) (old same' there') known known'

/-- Pointers to the layers still lead there. -/
theorem Grove.leads (there : F q = some U) (leads : Leads m U.span a) :
    ∃ U', Function.update F p (some T') q = some U' ∧ Leads m' U'.span a := by
  by_cases same : q = p
  · subst same
    obtain rfl := Option.some.inj (here.symm.trans there)
    refine ⟨T', Function.update_self .., leads.follow changed.leads fun c x none above => ?_⟩
    obtain ⟨-, small, -⟩ := grove.nodes.each c x above
    refine ⟨changed.around.frame c none small, ?_⟩
    by_contra some
    obtain ⟨u, known'⟩ := Option.ne_none_iff_exists'.mp some
    rcases changed.spans c u known' with old | new
    · exact old none
    · exact absurd small (not_lt.mpr new)
  · refine ⟨U, by rw [Function.update_of_ne same, there], leads.frame (grove.each p T here).layer
      (fun c t known => (grove.other here same there known).1) fun c x none above => ?_⟩
    obtain ⟨-, small, -⟩ := grove.nodes.each c x above
    exact changed.around.frame c none small

end

section
variable (table : Table m F held) (here : F p = some T) (changed : Changed m m' T T' held held')
include table here changed

theorem Table.pointed (pointed : Pointed m F q e) : Pointed m' (Function.update F p (some T')) q e := by
  obtain ⟨slice, U, length, same, there, leads⟩ := pointed
  obtain ⟨U', there', leads'⟩ := table.toGrove.leads here changed there leads
  exact ⟨slice, U', length, same, there', leads'⟩

theorem Table.change (down : ∀ e, Has m' T'.span e → e.keylenx = layerKeylenx → Pointed m F p e)
    (kept : ∀ slice lv, Has m T.span (layerEntry slice lv) → ∃ lv', Has m' T'.span (layerEntry slice lv'))
    (rest : p ≠ [] → ∀ e, Has m' T'.span e → e.keylenx ≠ 0) :
    Table m' (Function.update F p (some T')) held' := by
  have old {q : List UInt8} {U : Part} (ne : q ≠ p) (known : Function.update F p (some T') q = some U) :
      F q = some U := by rwa [Function.update_of_ne ne] at known
  have new {U : Part} (known : Function.update F p (some T') p = some U) : U = T' := by
    rw [Function.update_self] at known
    exact (Option.some.inj known).symm
  refine ⟨table.toGrove.change here changed, ⟨?_, fun q U e there has layer => ?_, fun q U there => ?_,
    fun q U e there more has => ?_⟩⟩
  · obtain ⟨R, root, leads, callbacks⟩ := table.root
    obtain ⟨R', root', leads'⟩ := table.toGrove.leads here changed root leads
    refine ⟨R', root', ?_, fun cb member => ?_⟩
    · rw [changed.around.root]
      exact leads'
    · rw [changed.around.callbacks] at member
      obtain ⟨R'', root'', leads''⟩ := table.toGrove.leads here changed root (callbacks cb member)
      obtain rfl := Option.some.inj (root'.symm.trans root'')
      exact leads''
  · by_cases same : q = p
    · subst same
      rw [new there] at has
      exact table.pointed here changed (down e has layer)
    · have there := old same there
      rw [table.toGrove.has_iff here changed same there] at has
      exact table.pointed here changed (table.down q U e there has layer)
  · have before : ∃ U₀, F q = some U₀ := by
      by_cases same : q = p
      · exact ⟨T, same ▸ here⟩
      · exact ⟨U, old same there⟩
    obtain ⟨U₀, before⟩ := before
    rcases table.up q U₀ before with nil | ⟨x, slice, V, lv, same, length, known, has⟩
    · exact .inl nil
    · refine .inr ?_
      by_cases equal : x = p
      · subst equal
        obtain rfl := Option.some.inj (here.symm.trans known)
        obtain ⟨lv', has'⟩ := kept slice lv has
        exact ⟨x, slice, T', lv', same, length, Function.update_self .., has'⟩
      · refine ⟨x, slice, V, lv, same, length, by rw [Function.update_of_ne equal, known], ?_⟩
        exact (table.toGrove.has_iff here changed equal known).mpr has
  · by_cases same : q = p
    · subst same
      rw [new there] at has
      exact rest more e has
    · have there := old same there
      exact table.rest q U e there more ((table.toGrove.has_iff here changed same there).mp has)

/-! The keys. -/

/-- Where a key is bound now. -/
theorem Table.bound_cases {s : List UInt8} : Bound m' (Function.update F p (some T')) s v ↔
    (∃ q r U, q ≠ p ∧ s = q ++ r ∧ F q = some U ∧ Has m U.span (Key.entry (.ofBytes r) v)) ∨
    ∃ r, s = p ++ r ∧ Has m' T'.span (Key.entry (.ofBytes r) v) := by
  constructor
  · rintro ⟨q, r, U, same, there, has⟩
    by_cases equal : q = p
    · subst equal
      rw [Function.update_self] at there
      obtain rfl := Option.some.inj there
      exact .inr ⟨r, same, has⟩
    · rw [Function.update_of_ne equal] at there
      exact .inl ⟨q, r, U, equal, same, there, (table.toGrove.has_iff here changed equal there).mp has⟩
  · rintro (⟨q, r, U, ne, same, there, has⟩ | ⟨r, same, has⟩)
    · exact ⟨q, r, U, same, by rw [Function.update_of_ne ne, there],
        (table.toGrove.has_iff here changed ne there).mpr has⟩
    · exact ⟨p, r, T', same, Function.update_self .., has⟩

/-- One key gets other values. -/
theorem Table.bound_change {new : Leafvalue → Prop} (first : p = [] ∨ r ≠ []) (stops : ¬ Onward m T r)
    (plain : ∀ x v, Has m' T'.span (Key.entry (.ofBytes x) v) ↔
      if x = r then new v else Has m T.span (Key.entry (.ofBytes x) v)) (s : List UInt8) (v : Leafvalue) :
    Bound m' (Function.update F p (some T')) s v ↔ if s = p ++ r then new v else Bound m F s v := by
  rw [table.bound_cases here changed]
  by_cases same : s = p ++ r
  · subst same
    rw [if_pos rfl]
    constructor
    · rintro (⟨q, x, U, ne, same, there, has⟩ | ⟨x, same, has⟩)
      · exact absurd (table.place_eq here first stops there has same.symm) ne
      · obtain rfl := List.append_cancel_left same
        rwa [plain, if_pos rfl] at has
    · intro holds
      refine .inr ⟨r, rfl, ?_⟩
      rwa [plain, if_pos rfl]
  · rw [if_neg same]
    constructor
    · rintro (⟨q, x, U, -, same', there, has⟩ | ⟨x, same', has⟩)
      · exact ⟨q, x, U, same', there, has⟩
      · have ne : x ≠ r := by
          rintro rfl
          exact same same'
        rw [plain, if_neg ne] at has
        exact ⟨p, x, T, same', here, has⟩
    · rintro ⟨q, x, U, same', there, has⟩
      by_cases equal : q = p
      · subst equal
        obtain rfl := Option.some.inj (here.symm.trans there)
        refine .inr ⟨x, same', ?_⟩
        rwa [plain, if_neg]
        rintro rfl
        exact same same'
      · exact .inl ⟨q, x, U, equal, same', there, has⟩

/-- No key gets another value. -/
theorem Table.bound_same (plain : ∀ x v, Has m' T'.span (Key.entry (.ofBytes x) v) ↔
      Has m T.span (Key.entry (.ofBytes x) v)) (s : List UInt8) (v : Leafvalue) :
    Bound m' (Function.update F p (some T')) s v ↔ Bound m F s v := by
  rw [table.bound_cases here changed]
  constructor
  · rintro (⟨q, x, U, -, same, there, has⟩ | ⟨x, same, has⟩)
    · exact ⟨q, x, U, same, there, has⟩
    · exact ⟨p, x, T, same, here, (plain x v).mp has⟩
  · rintro ⟨q, x, U, same, there, has⟩
    by_cases equal : q = p
    · subst equal
      obtain rfl := Option.some.inj (here.symm.trans there)
      exact .inr ⟨x, same, (plain x v).mpr has⟩
    · exact .inl ⟨q, x, U, equal, same, there, has⟩

end

end Incll.Proof.Layers
