import Incll.Proof.Table.Put

/-! # `remove`

The entry is taken out of its leaf. An empty leaf that is not the first of its layer is taken out of the layer. -/

namespace Incll.Proof.Layers
open Incll.Lib Incll.Model Incll.Model.Layers

variable {m m' m₁ m'' : Mem} {F F' : Forest} {T T' T'' : Part} {c : Layers.Tcursor} {p r s x : List UInt8} {a : Addr}
  {t t' : Span} {b b' : LeafBody} {i : Nat} {v w : Leafvalue} {e e₀ : Entry} {span' : Addr → Option Span}
  {held held' held'' : Finset Addr}

/-! The entry is taken out of the leaf. -/

theorem Sorted.mem_eraseIdx {l : List Entry} (sorted : Sorted l) (small : i < l.length) :
    e ∈ l.eraseIdx i ↔ e ∈ l ∧ e.rank ≠ l[i].rank := by
  have ranks (j k : Nat) (hj : j < l.length) (hk : k < l.length) (same : l[j].rank = l[k].rank) : j = k := by
    by_contra ne
    rcases Nat.lt_or_gt_of_ne ne with less | more
    · exact absurd same (ne_of_lt (List.pairwise_iff_getElem.mp sorted j k hj hk less))
    · exact absurd same (ne_of_gt (List.pairwise_iff_getElem.mp sorted k j hk hj more))
  rw [List.mem_eraseIdx_iff_getElem]
  constructor
  · rintro ⟨j, hj, ne, rfl⟩
    exact ⟨List.getElem_mem hj, fun same => ne (ranks j i hj small same)⟩
  · rintro ⟨member, ne⟩
    obtain ⟨j, hj, rfl⟩ := List.mem_iff_getElem.mp member
    refine ⟨j, hj, ?_, rfl⟩
    rintro rfl
    exact ne rfl

/-- The entry of place `i` is taken out of a body. -/
theorem mem_remove (ok : EntriesOk b) (small : i < b.size) :
    e ∈ entries (b.setPermutation (b.permutation.remove i)) ↔
      e ∈ entries b ∧ e.rank ≠ (entryAt b (b.permutation.get i)).rank := by
  have valid := ok.valid.body.permutation
  have small' : i < (entries b).length := by rwa [length_entries valid]
  rw [entries_remove valid small, ok.sorted.mem_eraseIdx small']
  have entry := getElem_entries valid small
  rw [List.getElem?_eq_getElem small'] at entry
  rw [Option.some.inj entry]

theorem EntriesOk.remove (ok : EntriesOk b) (small : i < b.size) :
    EntriesOk (b.setPermutation (b.permutation.remove i)) := by
  have valid := ok.valid.body.permutation
  refine ok.of_entries (ok.valid.setPermutation (valid.remove small)) ?_
  rw [entries_remove valid small]
  exact List.eraseIdx_sublist ..

/-- The layer has the entries that it had but for the one with the rank of `e₀`. -/
structure Cleared (m m' : Mem) (T T' : Part) (held held' : Finset Addr) (e₀ : Entry) : Prop where
  changed : Changed m m' T T' held held'
  entries : ∀ e, Has m' T'.span e ↔ Has m T.span e ∧ e.rank ≠ e₀.rank

theorem Cleared.then (first : Cleared m m' T T' held held' e₀) (second : Changed m' m'' T' T'' held' held'')
    (same : ∀ e, Has m'' T''.span e ↔ Has m' T'.span e) : Cleared m m'' T T'' held held'' e₀ :=
  ⟨first.changed.trans second, fun e => by rw [same, first.entries]⟩

section
variable (sound : Sound m T {a}) (nodes : Nodes m) (known : T.span a = some t) (body : m.body a = some b)
  (small : i < b.size)
include sound nodes known body small

/-- The leaf is written without the entry. -/
theorem Sound.clear (one : OneLeaf m m' a b') (layer : Layer m' T.span T.top {a})
    (same : entries b' = entries (b.setPermutation (b.permutation.remove i)))
    (bound : b'.ikeyBound = b.ikeyBound) (live : b'.modstate ≠ .deletedLayer) :
    Cleared m m' T T {a} {a} (entryAt b (b.permutation.get i)) := by
  have leaf := sound.layer.leaves a t b known body
  have after : Sound m' T {a} := sound.write known one layer
    (fun pos => bound.trans (sound.snug a t b known body pos)) live
  refine ⟨one.changed known nodes after fun _ _ => .rfl, fun e => ?_⟩
  rw [sound.has_write known one after body]
  split
  · next inside => rw [same, mem_remove leaf.ok small, sound.has_iff known body inside.1 inside.2]
  · next outside =>
      refine ⟨fun has => ⟨has, fun rank => outside ?_⟩, fun has => has.1⟩
      have place := leaf.inside _ (mem_entries.mpr ⟨_, leaf.ok.valid.body.permutation.get_live small, rfl⟩)
      rw [(rank_inj rank).1]
      exact place

end

/-! The leaf is taken out of the layer. -/

section
variable (gone : Gone m m' T.span span' T.top a)
include gone

theorem Gone.changed (sound : Sound m T {a}) (nodes : Nodes m) (known : T.span a = some t) :
    Changed m m' T ⟨T.top, span'⟩ {a} ∅ := by
  refine ⟨⟨fun c none _ => gone.frame c none, gone.fresh.ge, gone.root, gone.callbacks,
      ⟨fun c q above => ?_, ?_, ?_, ?_⟩⟩, ⟨gone.layer, fun c u d known' body' pos => ?_, fun c u d known' body' => ?_⟩,
    fun c u known' => .inl ?_, gone.leads, fun c none _ => ?_⟩
  · rw [gone.fresh]
    cases old : T.span c with
    | none =>
        rw [(gone.frame c old).up] at above
        exact nodes.each c q above
    | some u =>
        obtain ⟨q', above'⟩ := sound.layer.tree.known c u old
        exact nodes.each c q' above'
  · rw [gone.fresh]
    exact nodes.positive
  · rw [gone.fresh]
    exact nodes.aligned
  · rw [gone.fresh]
    exact nodes.limit
  · obtain ⟨ne, u₀, d₀, old, body₀⟩ := gone.old c u d known' body'
    obtain ⟨u₁, d₁, new, lo, body₁, relinked⟩ := gone.kept c u₀ d₀ ne old body₀
    obtain rfl := Option.some.inj (new.symm.trans known')
    obtain rfl := Option.some.inj (body₁.symm.trans body')
    rw [relinked.ikeyBound, lo]
    exact sound.snug c u₀ d₀ old body₀ (lo ▸ pos)
  · obtain ⟨ne, u₀, d₀, old, body₀⟩ := gone.old c u d known' body'
    obtain ⟨u₁, d₁, new, -, body₁, relinked⟩ := gone.kept c u₀ d₀ ne old body₀
    obtain rfl := Option.some.inj (body₁.symm.trans body')
    rw [relinked.modstate]
    exact sound.live c u₀ d₀ old body₀
  · obtain ⟨u₀, old⟩ := gone.known c u known'
    rw [old]
    exact Option.some_ne_none u₀
  · simp only [Finset.notMem_empty, Finset.mem_singleton, false_iff]
    rintro rfl
    rw [known] at none
    cases none

/-- An empty leaf takes no entry with it. -/
theorem Gone.has_iff (body : m.body a = some b) (empty : entries b = []) (e : Entry) :
    Has m' span' e ↔ Has m T.span e := by
  constructor
  · rintro ⟨c, u, d, known', body', member⟩
    obtain ⟨ne, u₀, d₀, old, body₀⟩ := gone.old c u d known' body'
    obtain ⟨u₁, d₁, new, -, body₁, relinked⟩ := gone.kept c u₀ d₀ ne old body₀
    obtain rfl := Option.some.inj (body₁.symm.trans body')
    rw [relinked.entries] at member
    exact ⟨c, u₀, d₀, old, body₀, member⟩
  · rintro ⟨c, u, d, known', body', member⟩
    have ne : c ≠ a := by
      rintro rfl
      obtain rfl := Option.some.inj (body.symm.trans body')
      rw [empty] at member
      cases member
    obtain ⟨u₁, d₁, new, -, body₁, relinked⟩ := gone.kept c u d ne known' body'
    rw [← relinked.entries] at member
    exact ⟨c, u₁, d₁, new, body₁, member⟩

end

/-! `finish_remove`. -/

/-- The memory after `finish_remove`: the leaf is gone, or it is still locked, and perhaps `gc_layer` is due. -/
structure Finished (m m' : Mem) (T : Part) (c : Layers.Tcursor) (e₀ : Entry) (done : Bool) : Prop where
  cleared : ∃ m₁ T', Cleared m m₁ T T' {c.n} (if done then ∅ else {c.n}) e₀ ∧
    (done = false → T' = T ∧ ∃ b', m₁.body c.n = some b') ∧
    (m' = m₁ ∨ m' = { m₁ with callbacks := m₁.callbacks ++ [⟨c.root, c.before⟩] })

theorem removeLeaf_finished (sound : Sound m' T {c.n}) (known : T.span c.n = some t)
    (body : m'.body c.n = some b) (empty : entries b = []) (cleared : Cleared m m' T T {c.n} {c.n} e₀) :
    Runs (removeLeaf c.n c.root c.before) m' fun done m'' => Finished m m'' T c e₀ done := by
  have leaf := sound.layer.leaves _ _ _ known body
  obtain ⟨u, above⟩ := up_of_body body
  by_cases first : t.lo = 0
  · have prev := leaf.first first
    rw [removeLeaf]
    refine Wp.step (leaf_ok body above) ?_
    simp only [prev, if_true]
    split
    · refine Wp.step rfl (Wp.pure ⟨m', T, cleared, fun _ => ⟨rfl, b, body⟩, .inr rfl⟩)
    · exact Wp.pure ⟨m', T, cleared, fun _ => ⟨rfl, b, body⟩, .inl rfl⟩
  · refine (removeLeaf_ok sound.layer known body first c.root c.before).mono fun done m'' post => ?_
    obtain ⟨rfl, span', gone⟩ := post
    refine ⟨m'', ⟨T.top, span'⟩, cleared.then (gone.changed sound cleared.changed.around.nodes known)
      (gone.has_iff body empty), fun absurd => ?_, .inl rfl⟩
    cases absurd

/-- `finish_remove` after `modstate_` is written. -/
def eraseEntry (c : Layers.Tcursor) : Layers.T Bool := do
  let perm := (← leaf c.n).permutation.remove c.i
  modifyBody c.n (.setPermutation perm)
  if perm.size ≠ 0 then return false
  removeLeaf c.n c.root c.before

section
variable (sound : Sound m T {c.n}) (nodes : Nodes m) (known : T.span c.n = some t) (body : m.body c.n = some b)
  (small : c.i < b.size)
include sound nodes known body small

theorem eraseEntry_ok (state : Modstate) (one : OneLeaf m m₁ c.n (b.setModstate state))
    (layer : Layer m₁ T.span T.top {c.n}) (live : state ≠ .deletedLayer) :
    Runs (eraseEntry c) m₁ fun done m' => Finished m m' T c (entryAt b (b.permutation.get c.i)) done := by
  have leaf := sound.layer.leaves _ _ _ known body
  let b₂ := (b.setModstate state).setPermutation (b.permutation.remove c.i)
  have ok : EntriesOk b₂ := (leaf.ok.remove small).of_entries
    ⟨⟨(leaf.ok.remove small).valid.body.permutation, leaf.ok.valid.body.iksuf, leaf.ok.valid.body.ksuf⟩,
      leaf.ok.valid.bag⟩ (List.Sublist.refl _)
  have below (e : Entry) (member : e ∈ entries b₂) : e ∈ entries b := ((mem_remove leaf.ok small).mp member).1
  obtain ⟨u, above⟩ := up_of_body one.here
  obtain ⟨m₂, run, one', version⟩ :=
    modifyBody_one (.setPermutation (b.permutation.remove c.i)) one.here (fun _ => rfl) fun _ => rfl
  have layer' : Layer m₂ T.span T.top {c.n} := by
    refine layer.rewrite (one'.wrote version) known one.here ok rfl rfl (fun e member => ?_) fun pos => ?_
    · exact leaf.inside e (below e member)
    · obtain ⟨low, high, all⟩ := leaf.bound pos
      exact ⟨low, high, fun e member => all e (below e member)⟩
  have cleared := sound.clear nodes known body small (one.trans one') layer' rfl rfl live
  rw [eraseEntry]
  refine Wp.step (leaf_ok one.here above) (Wp.step run ?_)
  split
  · exact Wp.pure ⟨m₂, T, cleared, fun _ => ⟨rfl, b₂, one'.here⟩, .inl rfl⟩
  · next empty =>
      refine removeLeaf_finished cleared.changed.sound known one'.here ?_ cleared
      refine List.eq_nil_of_length_eq_zero ?_
      rw [length_entries ok.valid.body.permutation]
      exact not_not.mp empty

/-- `finish_remove` takes out the entry of the cursor. -/
theorem finishRemove_ok : Runs (finishRemove c) m fun done m' =>
    Finished m m' T c (entryAt b (b.permutation.get c.i)) done := by
  obtain ⟨u, above⟩ := up_of_body body
  rw [finishRemove]
  refine Wp.step (leaf_ok body above) ?_
  by_cases insert : b.modstate = .insert
  · rw [if_pos (show ({ b with parent := u } : LeafBody).modstate = .insert from insert)]
    let m₁ := m.setVersion c.n { m.version c.n with inserting := true }
    have one := OneLeaf.setVersion body { m.version c.n with inserting := true }
    obtain ⟨m₂, run, one', version⟩ :=
      modifyBody_one (.setModstate .remove) one.here (fun _ => rfl) fun _ => rfl
    have leaf := sound.layer.leaves _ _ _ known body
    have layer : Layer m₂ T.span T.top {c.n} := by
      refine (sound.layer.markInsert (Finset.mem_singleton_self _)).rewrite (one'.wrote version) known one.here
        ?_ rfl rfl leaf.inside leaf.bound
      exact leaf.ok.of_entries ⟨⟨leaf.ok.valid.body.permutation, leaf.ok.valid.body.iksuf, leaf.ok.valid.body.ksuf⟩,
        leaf.ok.valid.bag⟩ (List.Sublist.refl _)
    refine Wp.step (markInsert_ok above) (Wp.step run ?_)
    exact eraseEntry_ok sound nodes known body small .remove (one.trans one') layer (by decide)
  · rw [if_neg (show ¬ ({ b with parent := u } : LeafBody).modstate = .insert from insert)]
    have live := sound.live _ _ _ known body
    exact eraseEntry_ok sound nodes known body small b.modstate (.refl body) sound.layer live

end

/-! The keys. -/

section
variable (table : Table m F held) (here : F p = some T) (has : Has m T.span (Key.entry (.ofBytes r) v))
  (cleared : Cleared m m' T T' held held' (Key.entry (.ofBytes r) v))
include table here has cleared

/-- The key is gone from the table. -/
theorem Table.erased : Table m' (Function.update F p (some T')) held' := by
  have sound := table.each p T here
  refine table.change here cleared.changed (fun e there layer => ?_) (fun slice lv there => ⟨lv, ?_⟩)
    fun more e there => ?_
  · exact table.down p T e here ((cleared.entries e).mp there).1 layer
  · rw [cleared.entries]
    refine ⟨there, fun same => ?_⟩
    have equal := sound.has_unique there has same
    exact keylenx_entry (.ofBytes r) v (congrArg Entry.keylenx equal).symm
  · exact table.rest p T e here more ((cleared.entries e).mp there).1

theorem Table.bound_erased (first : p = [] ∨ r ≠ []) (stops : ¬ Onward m T r) (w : Leafvalue) :
    Bound m' (Function.update F p (some T')) x w ↔ x ≠ p ++ r ∧ Bound m F x w := by
  have sound := table.each p T here
  have plain (y : List UInt8) (u : Leafvalue) : Has m' T'.span (Key.entry (.ofBytes y) u) ↔
      if y = r then Function.const Leafvalue False u else Has m T.span (Key.entry (.ofBytes y) u) := by
    rw [cleared.entries]
    split
    · next same =>
        subst same
        simp only [Function.const_apply, iff_false, not_and, not_not]
        intro
        rw [Key.rank_entry, Key.rank_entry]
    · next other =>
        refine ⟨fun there => there.1, fun there => ⟨there, fun same => other ?_⟩⟩
        exact (entry_inj.mp (sound.has_unique there has same)).1
  rw [table.bound_change here cleared.changed first stops plain]
  by_cases same : x = p ++ r
  · simp [same]
  · simp [same]

end

/-! `remove`. -/

/-- The key is not bound any more, and the other keys are bound as they were. -/
def Removes (m : Mem) (F : Forest) (s : List UInt8) (m' : Mem) : Prop :=
  ∃ F', Table m' F' ∅ ∧ ∀ x w, Bound m' F' x w ↔ x ≠ s ∧ Bound m F x w

/-- `gc_layer` is due. -/
theorem Table.addCallback {R : Part} (table : Table m F held) (base : F [] = some R) (leads : Leads m R.span a)
    (key : List UInt8) : Table { m with callbacks := m.callbacks ++ [⟨a, key⟩] } F held := by
  have tree := sameTree_callbacks m (m.callbacks ++ [⟨a, key⟩])
  obtain ⟨R', base', root, callbacks⟩ := table.root
  obtain rfl := Option.some.inj (base.symm.trans base')
  refine tree.table table base root fun cb member => ?_
  rcases List.mem_append.mp member with old | new
  · exact callbacks cb old
  · rw [List.mem_singleton.mp new]
    exact leads

/-- After `finish_remove`, the leaf is unlocked if it is still there. -/
theorem release {done : Bool} {R : Part} (table : Table m₁ F (if done then ∅ else {c.n})) (here : F c.before = some T')
    (known : T.span c.n = some t) (stays : done = false → T' = T ∧ ∃ b', m₁.body c.n = some b')
    (callbacks : m' = m₁ ∨ m' = { m₁ with callbacks := m₁.callbacks ++ [⟨c.root, c.before⟩] }) (base : F [] = some R)
    (leads : Leads m₁ R.span c.root) : Runs (if done = true then pure () else Layers.unlock c.n) m' fun _ m'' =>
      Table m'' F ∅ ∧ ∀ x w, Bound m'' F x w ↔ Bound m₁ F x w := by
  have after : Table m' F (if done then ∅ else {c.n}) ∧ SameTree m₁ m' := by
    rcases callbacks with rfl | rfl
    · exact ⟨table, ⟨fun a => .refl m' a, rfl⟩⟩
    · exact ⟨table.addCallback base leads c.before, sameTree_callbacks ..⟩
  obtain ⟨table', tree⟩ := after
  cases done with
  | true => exact Wp.pure ⟨table', tree.bound⟩
  | false =>
      obtain ⟨rfl, b', body⟩ := stays rfl
      rw [← (tree.node c.n).body] at body
      obtain ⟨m'', run, -, table'', keys⟩ := table'.unlock_ok here known body (Finset.mem_singleton_self _)
      rw [if_neg Bool.false_ne_true, Finset.erase_singleton] at table''
      exact Wp.of_ok run ⟨table'', fun x w => by rw [keys.bound, tree.bound]⟩

theorem Removes.of_same {m₀ : Mem} (same : ∀ x w, Bound m F x w ↔ Bound m₀ F x w) (removes : Removes m F s m') :
    Removes m₀ F s m' := by
  obtain ⟨F', table, bound⟩ := removes
  exact ⟨F', table, fun x w => by rw [bound, same]⟩

/-- The key was in the leaf of the cursor. -/
theorem Found.removes {done : Bool} (found : Found m F s c T t b) (has : Has m T.span (Key.entry (.ofBytes c.rest) v))
    (finished : Finished m m' T c (Key.entry (.ofBytes c.rest) v) done) :
    Runs (if done = true then pure () else Layers.unlock c.n) m' fun _ => Removes m F s := by
  have table := found.table
  have lands := found.lands
  obtain ⟨R, base, leads⟩ := found.root
  obtain ⟨m₁, T', cleared, stays, callbacks⟩ := finished.cleared
  have stops : ¬ Onward m T c.rest := lands.stops table fun i slot =>
    found.out i ((congrArg Prod.snd found.lower).symm.trans slot)
  obtain ⟨R', base', leads'⟩ := table.toGrove.leads lands.here cleared.changed base leads
  refine (release (table.erased lands.here has cleared) (Function.update_self ..) lands.known stays callbacks base'
    leads').mono fun _ m'' post => ?_
  refine ⟨_, post.1, fun x w => ?_⟩
  rw [post.2, table.bound_erased lands.here has cleared lands.first stops, found.whole]

/-- `remove` takes the key out of the table. -/
theorem remove_ok (table : Table m F ∅) (s : List UInt8) : Runs (remove s) m fun _ => Removes m F s := by
  obtain ⟨R, base, -⟩ := table.root
  obtain ⟨r, m₁, fixed, table₁, leads, tree, callbacks⟩ := fixRoot_ok table base
  rw [remove]
  refine Wp.step fixed (Wp.call (findLocked_ok table₁ base leads s) fun c m₂ post => ?_)
  obtain ⟨keys, -, T, t, b, found⟩ := post
  have same (x : List UInt8) (w : Leafvalue) : Bound m₂ F x w ↔ Bound m F x w := by rw [keys.bound, tree.bound]
  have lands := found.lands
  have lower : (b.lower (.ofBytes c.rest)) = (c.i, c.p) := found.lower
  have state := found.state
  by_cases there : c.state = 1
  · rw [if_pos there]
    rw [there] at state
    split at state
    · next known =>
        obtain ⟨i, slot, equal⟩ := Option.map_eq_some_iff.mp known
        have slot' := slot_of_lower (lands.ok found.table) ((congrArg Prod.snd lower).trans slot)
        have entry := matches_same slot'.ok slot'.rank equal
        have place := slot'.position
        rw [lower] at place
        have has : Has m₂ T.span (Key.entry (.ofBytes c.rest) (b.lv i)) := by
          rw [← entry]
          exact ⟨c.n, t, b, lands.known, lands.body, slot'.member⟩
        have sound := found.table.each _ _ lands.here
        refine Wp.call (finishRemove_ok sound found.table.nodes lands.known lands.body place.1) fun done m₃ post => ?_
        rw [← place.2, entry] at post
        exact (found.removes has post).mono fun _ m' removes => removes.of_same same
    · cases state
  · rw [if_neg there]
    obtain ⟨m', run, -, table', keys'⟩ :=
      found.table.unlock_ok lands.here lands.known lands.body (Finset.mem_singleton_self _)
    rw [Finset.erase_singleton] at table'
    refine Wp.of_ok run ⟨F, table', fun x w => ?_⟩
    rw [keys'.bound, ← same]
    refine ⟨fun bound => ⟨?_, bound⟩, fun both => both.2⟩
    rintro rfl
    rw [found.whole] at bound
    cases slot : c.p with
    | none => exact lands.bound_none found.table ((congrArg Prod.snd lower).trans slot) bound
    | some i =>
        have here := (lands.bound_some found.table ((congrArg Prod.snd lower).trans slot) (found.out i slot)).mp bound
        have equal : b.ksufMatches i c.key = .same := here.1
        rw [slot, Option.map_some, equal, if_pos rfl] at state
        exact there state

end Incll.Proof.Layers
