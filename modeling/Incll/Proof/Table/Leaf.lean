import Incll.Proof.Layers.RemoveLeaf
import Incll.Proof.Table.Change

/-! # A table in which one leaf is written -/

namespace Incll.Proof.Layers
open Incll.Lib Incll.Model Incll.Model.Layers

variable {m m' m'' : Mem} {F : Forest} {T : Part} {held held' : Finset Addr} {p : List UInt8} {e : Entry}
  {a : Addr} {t : Span} {b b' b'' : LeafBody}

/-- The leaf `a` has the body `b'` now and perhaps another version. -/
structure OneLeaf (m m' : Mem) (a : Addr) (b' : LeafBody) : Prop where
  up : m'.up = m.up
  inner : m'.inner = m.inner
  body : m'.body = Function.update m.body a (some b')
  version : ∀ c, c ≠ a → m'.version c = m.version c
  fresh : m'.fresh = m.fresh
  root : m'.root = m.root
  callbacks : m'.callbacks = m.callbacks

namespace OneLeaf

theorem refl (body : m.body a = some b) : OneLeaf m m a b :=
  ⟨rfl, rfl, by rw [← body, Function.update_eq_self], fun _ _ => rfl, rfl, rfl, rfl⟩

theorem trans (first : OneLeaf m m' a b') (second : OneLeaf m' m'' a b'') : OneLeaf m m'' a b'' := by
  refine ⟨second.up.trans first.up, second.inner.trans first.inner, ?_, fun c ne => ?_, second.fresh.trans first.fresh,
    second.root.trans first.root, second.callbacks.trans first.callbacks⟩
  · rw [second.body, first.body, Function.update_idem]
  · rw [second.version c ne, first.version c ne]

theorem setVersion (body : m.body a = some b) (v : Nodeversion) : OneLeaf m (m.setVersion a v) a b := by
  refine ⟨rfl, rfl, ?_, fun c ne => ?_, rfl, rfl, rfl⟩
  · rw [← body, Function.update_eq_self]
    rfl
  · rw [Mem.version_setVersion, Function.update_of_ne ne]

theorem here (one : OneLeaf m m' a b') : m'.body a = some b' := by rw [one.body, Function.update_self]

theorem wrote (one : OneLeaf m m' a b') (same : m'.version = m.version) : Wrote m m' a b' :=
  ⟨one.up, one.inner, one.body, same, one.fresh⟩

theorem nodes (one : OneLeaf m m' a b') (nodes : Nodes m) : Nodes m' := by
  obtain ⟨each, positive, aligned, limit⟩ := nodes
  refine ⟨fun c q above => ?_, ?_, ?_, ?_⟩
  · rw [one.fresh]
    rw [one.up] at above
    exact each c q above
  · rwa [one.fresh]
  · rwa [one.fresh]
  · rwa [one.fresh]

theorem sameNode (one : OneLeaf m m' a b') {c : Addr} (ne : c ≠ a) : SameNode m m' c := by
  refine ⟨?_, ?_, ?_, one.version c ne⟩
  · rw [one.up]
  · rw [one.inner]
  · rw [one.body, Function.update_of_ne ne]

theorem around (one : OneLeaf m m' a b') (nodes : Nodes m) (known : T.span a = some t) : Around m m' T.span := by
  refine ⟨fun c off _ => one.sameNode ?_, one.fresh.ge, one.root, one.callbacks, one.nodes nodes⟩
  rintro rfl
  rw [known] at off
  cases off

end OneLeaf

/-- The body is written, and the version stays. -/
theorem modifyBody_one (f : LeafBody → LeafBody) (h : m.body a = some b) (plain : ∀ b, (f b).parent = b.parent)
    (bare : ∀ b, (f b).bare = f b.bare) :
    ∃ m', modifyBody a f m = .ok ((), m') ∧ OneLeaf m m' a (f b) ∧ m'.version = m.version := by
  obtain ⟨m', run, wrote, root, callbacks⟩ := modifyBody_kept f h plain bare
  exact ⟨m', run, ⟨wrote.up, wrote.inner, wrote.body, fun c _ => by rw [wrote.version], wrote.fresh, root, callbacks⟩,
    wrote.version⟩

section
variable (sound : Sound m T held) (known : T.span a = some t) (one : OneLeaf m m' a b')
include sound known one

theorem Sound.write (layer : Layer m' T.span T.top held') (snug : t.lo ≠ 0 → b'.ikeyBound = t.lo)
    (live : b'.modstate ≠ .deletedLayer) : Sound m' T held' := by
  have old {c : Addr} {d : LeafBody} (ne : c ≠ a) (body : m'.body c = some d) : m.body c = some d := by
    rwa [one.body, Function.update_of_ne ne] at body
  refine ⟨layer, fun c u d known' body pos => ?_, fun c u d known' body => ?_⟩
  · by_cases same : c = a
    · subst same
      obtain rfl := Option.some.inj (known.symm.trans known')
      obtain rfl := Option.some.inj (one.here.symm.trans body)
      exact snug pos
    · exact sound.snug c u d known' (old same body) pos
  · by_cases same : c = a
    · subst same
      obtain rfl := Option.some.inj (one.here.symm.trans body)
      exact live
    · exact sound.live c u d known' (old same body)

/-- The layer has the entries of the new body, and those of the other leaves. -/
theorem Sound.has_write (after : Sound m' T held') (body : m.body a = some b) :
    Has m' T.span e ↔ if t.lo ≤ e.ikey ∧ e.ikey < t.hi then e ∈ entries b' else Has m T.span e := by
  split
  · next inside => exact after.has_iff known one.here inside.1 inside.2
  · next outside =>
      constructor
      · rintro ⟨c, u, d, known', body', member⟩
        have ne : c ≠ a := by
          rintro rfl
          obtain rfl := Option.some.inj (known.symm.trans known')
          exact outside (after.place known' body' member)
        rw [one.body, Function.update_of_ne ne] at body'
        exact ⟨c, u, d, known', body', member⟩
      · rintro ⟨c, u, d, known', body', member⟩
        have ne : c ≠ a := by
          rintro rfl
          obtain rfl := Option.some.inj (known.symm.trans known')
          exact outside (sound.place known' body' member)
        refine ⟨c, u, d, known', ?_, member⟩
        rw [one.body, Function.update_of_ne ne]
        exact body'

end

theorem OneLeaf.changed (one : OneLeaf m m' a b') (known : T.span a = some t) (nodes : Nodes m)
    (after : Sound m' T held') (locks : ∀ c, c ≠ a → (c ∈ held' ↔ c ∈ held)) :
    Changed m m' T T held held' := by
  refine ⟨one.around nodes known, after, fun c u known' => .inl ?_, fun c u known' first => .here known' first,
    fun c off _ => locks c ?_⟩
  · rw [known']
    exact Option.some_ne_none u
  · rintro rfl
    rw [known] at off
    cases off

section
variable (table : Table m F held) (here : F p = some T) (known : T.span a = some t) (body : m.body a = some b)
  (one : OneLeaf m m' a b') (after : Sound m' T held') (locks : ∀ c, c ≠ a → (c ∈ held' ↔ c ∈ held))
include table here known body one after locks

/-- The forest stays if a leaf is written. -/
theorem Table.write (down : ∀ e ∈ entries b', e.keylenx = layerKeylenx → Pointed m F p e)
    (kept : ∀ slice lv, layerEntry slice lv ∈ entries b → ∃ lv', layerEntry slice lv' ∈ entries b')
    (rest : p ≠ [] → ∀ e ∈ entries b', e.keylenx ≠ 0) : Table m' F held' := by
  have sound := table.each p T here
  have changed := one.changed known table.nodes after locks
  have has {e : Entry} := sound.has_write (e := e) known one after body
  have new := table.change here changed (fun e there layer => ?_) (fun slice lv there => ?_) fun more e there => ?_
  · rwa [← here, Function.update_eq_self] at new
  · rw [has] at there
    split at there
    · exact down e there layer
    · exact table.down p T e here there layer
  · by_cases inside : t.lo ≤ Key.comparable slice ∧ Key.comparable slice < t.hi
    · obtain ⟨lv', member⟩ := kept slice lv ((sound.has_iff known body inside.1 inside.2).mp there)
      exact ⟨lv', a, t, b', known, one.here, member⟩
    · refine ⟨lv, ?_⟩
      rw [has, if_neg]
      · exact there
      · exact inside
  · rw [has] at there
    split at there
    · exact rest more e there
    · exact table.rest p T e here more there

/-- The keys of the leaf stay. -/
theorem Table.bound_write (plain : ∀ x v, Key.entry (.ofBytes x) v ∈ entries b' ↔ Key.entry (.ofBytes x) v ∈ entries b)
    (s : List UInt8) (v : Leafvalue) : Bound m' F s v ↔ Bound m F s v := by
  have sound := table.each p T here
  have changed := one.changed known table.nodes after locks
  have same := table.bound_same here changed (fun x v => ?_) s v
  · rwa [← here, Function.update_eq_self] at same
  · rw [sound.has_write known one after body]
    split
    · next inside => rw [plain, sound.has_iff known body inside.1 inside.2]
    · rfl

/-- One key of the leaf gets other values. -/
theorem Table.bound_set {r : List UInt8} {new : Leafvalue → Prop} (first : p = [] ∨ r ≠ []) (stops : ¬ Onward m T r)
    (inside : t.lo ≤ Key.comparable r ∧ Key.comparable r < t.hi)
    (plain : ∀ x v, Key.entry (.ofBytes x) v ∈ entries b' ↔
      if x = r then new v else Key.entry (.ofBytes x) v ∈ entries b) (s : List UInt8) (v : Leafvalue) :
    Bound m' F s v ↔ if s = p ++ r then new v else Bound m F s v := by
  have sound := table.each p T here
  have changed := one.changed known table.nodes after locks
  have set : Bound m' (Function.update F p (some T)) s v ↔ if s = p ++ r then new v else Bound m F s v :=
    table.bound_change here changed first stops (fun x v => ?_) s v
  · rwa [← here, Function.update_eq_self] at set
  · rw [sound.has_write known one after body]
    split
    · next within => rw [plain, sound.has_iff known body within.1 within.2]
    · next outside =>
        rw [if_neg]
        rintro rfl
        exact outside inside

end

end Incll.Proof.Layers
