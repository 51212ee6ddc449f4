import Incll.Proof.Table.Find

/-! # `find_locked` -/

namespace Incll.Proof.Layers
open Incll.Lib Incll.Model Incll.Model.Layers

variable {m m' m'' : Mem} {F : Forest} {T R : Part} {p r s before rest x : List UInt8} {v w : Leafvalue}
  {a root top : Addr} {t : Span} {b b' : LeafBody} {i q : Nat} {c : Layers.Tcursor} {held : Finset Addr} {e : Entry}

/-! Values of entries. -/

theorem slot_eq_of_rank (ok : EntriesOk b) (here : q ∈ b.permutation.live) (there : i ∈ b.permutation.live)
    (same : (entryAt b q).rank = (entryAt b i).rank) : q = i := by
  have sorted := List.pairwise_map.mp ok.sorted
  have ranks : (b.permutation.live.map fun q => (entryAt b q).rank).Nodup :=
    (List.pairwise_map.mpr sorted).imp ne_of_lt
  exact List.inj_on_of_nodup_map ranks here there same

theorem mem_setValue (ok : EntriesOk b) (live : i ∈ b.permutation.live) : e ∈ entries (b.setValue i v) ↔
    e = { entryAt b i with lv := v } ∨ e ∈ entries b ∧ e.rank ≠ (entryAt b i).rank := by
  constructor
  · intro member
    obtain ⟨q, live', rfl⟩ := mem_entries.mp member
    rw [entryAt_setValue]
    split
    · next same => exact .inl (same ▸ rfl)
    · next ne =>
        exact .inr ⟨mem_entries.mpr ⟨q, live', rfl⟩, fun same => ne (slot_eq_of_rank ok live' live same)⟩
  · rintro (rfl | ⟨member, ne⟩)
    · exact mem_entries.mpr ⟨i, live, by rw [entryAt_setValue, if_pos rfl]⟩
    · obtain ⟨q, live', rfl⟩ := mem_entries.mp member
      refine mem_entries.mpr ⟨q, live', ?_⟩
      rw [entryAt_setValue, if_neg]
      rintro rfl
      exact ne rfl

theorem EntriesOk.setValue (ok : EntriesOk b) (i : Nat) (v : Leafvalue) : EntriesOk (b.setValue i v) := by
  have each (q : Nat) : (entryAt (b.setValue i v) q).rank = (entryAt b q).rank ∧
      (entryAt (b.setValue i v) q).keylenx = (entryAt b q).keylenx ∧
      (entryAt (b.setValue i v) q).suffix = (entryAt b q).suffix := by
    rw [entryAt_setValue]
    split <;> exact ⟨rfl, rfl, rfl⟩
  refine ⟨ok.valid.setValue i v, ?_, fun e member => ?_⟩
  · refine List.pairwise_map.mpr ((List.pairwise_map.mp ok.sorted).imp fun {x y} less => ?_)
    rw [(each x).1, (each y).1]
    exact less
  · obtain ⟨q, live, rfl⟩ := mem_entries.mp member
    have old := ok.each (entryAt b q) (mem_entries.mpr ⟨q, live, rfl⟩)
    refine ⟨?_, ?_⟩
    · rw [(each q).2.1]
      exact old.len
    · rw [(each q).2.1, (each q).2.2]
      exact old.suffix

theorem keylenx_entry (k : Key) (v : Leafvalue) : (Key.entry k v).keylenx ≠ layerKeylenx := by
  rw [Key.entry]
  cases long : k.hasSuffix with
  | true => simp [ksufKeylenx, layerKeylenx]
  | false =>
      have := (not_hasSuffix_iff k).mp long
      simp only [Bool.false_eq_true, if_false, layerKeylenx]
      omega

/-! Writes that keep the keys. -/

/-- The keys are bound as they were, and the pointers lead where they led. -/
structure SameKeys (m m' : Mem) (F : Forest) : Prop where
  root : m'.root = m.root
  callbacks : m'.callbacks = m.callbacks
  fresh : m'.fresh = m.fresh
  bound : ∀ s v, Bound m' F s v ↔ Bound m F s v
  leads : ∀ q U x, F q = some U → Leads m U.span x → Leads m' U.span x

theorem SameKeys.refl (m : Mem) (F : Forest) : SameKeys m m F :=
  ⟨rfl, rfl, rfl, fun _ _ => .rfl, fun _ _ _ _ leads => leads⟩

theorem SameKeys.trans (first : SameKeys m m' F) (second : SameKeys m' m'' F) : SameKeys m m'' F :=
  ⟨second.root.trans first.root, second.callbacks.trans first.callbacks, second.fresh.trans first.fresh,
    fun s v => (second.bound s v).trans (first.bound s v), fun q U x here leads =>
      second.leads q U x here (first.leads q U x here leads)⟩

section
variable (table : Table m F held) (here : F p = some T) (known : T.span a = some t) (body : m.body a = some b)
include table here known body

theorem Table.sameKeys {held' : Finset Addr} (one : OneLeaf m m' a b') (after : Sound m' T held')
    (locks : ∀ c, c ≠ a → (c ∈ held' ↔ c ∈ held))
    (plain : ∀ x v, Key.entry (.ofBytes x) v ∈ entries b' ↔ Key.entry (.ofBytes x) v ∈ entries b) :
    SameKeys m m' F := by
  refine ⟨one.root, one.callbacks, one.fresh, table.bound_write here known body one after locks plain,
    fun q U x there leads => ?_⟩
  obtain ⟨U', there', leads'⟩ := table.toGrove.leads here (one.changed known table.nodes after locks) there leads
  rw [← here, Function.update_eq_self, there] at there'
  obtain rfl := Option.some.inj there'
  exact leads'

/-- Only the version of a leaf changes. -/
theorem Table.setVersion {held' : Finset Addr} (w : Nodeversion)
    (layer : Layer (m.setVersion a w) T.span T.top held') (locks : ∀ c, c ≠ a → (c ∈ held' ↔ c ∈ held)) :
    Table (m.setVersion a w) F held' ∧ SameKeys m (m.setVersion a w) F := by
  have sound := table.each p T here
  have one := OneLeaf.setVersion body w
  have after := sound.write known one layer (sound.snug a t b known body) (sound.live a t b known body)
  refine ⟨table.write here known body one after locks (fun e member layer => ?_) (fun slice lv member => ⟨lv, member⟩)
    fun more e member => table.rest p T e here more ⟨a, t, b, known, body, member⟩,
    table.sameKeys here known body one after locks fun _ _ => .rfl⟩
  exact table.down p T e here ⟨a, t, b, known, body, member⟩ layer

theorem Table.lock_ok (out : a ∉ held) : ∃ m', lock a m = .ok ((), m') ∧ m'.body = m.body ∧ m'.up = m.up ∧
    Table m' F (insert a held) ∧ SameKeys m m' F := by
  have layer := (table.each p T here).layer
  obtain ⟨q, above⟩ := up_of_body body
  have free := layer.calm.free a t known
  rw [settled, if_neg out] at free
  exact ⟨_, Layers.lock_ok above free.locked free.clean, rfl, rfl, table.setVersion here known body _
    (layer.lock known out) fun c ne => by rw [Finset.mem_insert, or_iff_right ne]⟩

theorem Table.unlock_ok (inside : a ∈ held) : ∃ m', unlock a m = .ok ((), m') ∧ m'.body = m.body ∧
    Table m' F (held.erase a) ∧ SameKeys m m' F := by
  have layer := (table.each p T here).layer
  obtain ⟨q, above⟩ := up_of_body body
  exact ⟨_, Layers.unlock_ok above, rfl, table.setVersion here known body _ (layer.unlock inside)
    fun c ne => by rw [Finset.mem_erase, and_iff_right ne]⟩

theorem Table.markInsert_ok (inside : a ∈ held) : ∃ m', markInsert a m = .ok ((), m') ∧ m'.body = m.body ∧
    Table m' F held ∧ SameKeys m m' F := by
  have layer := (table.each p T here).layer
  obtain ⟨q, above⟩ := up_of_body body
  exact ⟨_, Layers.markInsert_ok above, rfl, table.setVersion here known body _ (layer.markInsert inside)
    fun _ _ => .rfl⟩

/-- An entry for a layer gets another pointer to the layer. -/
theorem Table.setPointer {y : Addr} {U : Part} (live : i ∈ b.permutation.live)
    (entry : entryAt b i = layerEntry r (b.lv i)) (long : ikeySize < r.length)
    (there : F (p ++ r.take ikeySize) = some U) (leads : Leads m U.span y) :
    ∃ m', modifyBody a (.setValue i (.ofLayer y)) m = .ok ((), m') ∧
      m'.body = Function.update m.body a (some (b.setValue i (.ofLayer y))) ∧ Table m' F held ∧ SameKeys m m' F := by
  have sound := table.each p T here
  have leaf := sound.layer.leaves a t b known body
  have rank : (entryAt b i).rank = Key.rank (.ofBytes r) := by rw [entry, rank_layerEntry _ long rfl]
  have old : entryAt b i ∈ entries b := mem_entries.mpr ⟨i, live, rfl⟩
  have keylenx : (entryAt b i).keylenx = layerKeylenx := congrArg Entry.keylenx entry
  obtain ⟨m', run, one, version⟩ := modifyBody_one (.setValue i (.ofLayer y)) body (fun _ => rfl) fun _ => rfl
  have mem {e : Entry} := mem_setValue (e := e) (v := .ofLayer y) leaf.ok live
  have ikeys (e : Entry) (member : e ∈ entries (b.setValue i (.ofLayer y))) : ∃ e₀ ∈ entries b, e.ikey = e₀.ikey ∧
      e.keylenx = e₀.keylenx := by
    rcases mem.mp member with rfl | ⟨member, -⟩
    · exact ⟨entryAt b i, old, rfl, rfl⟩
    · exact ⟨e, member, rfl, rfl⟩
  have layer : Layer m' T.span T.top held := by
    refine sound.layer.rewrite (one.wrote version) known body (leaf.ok.setValue i _) rfl rfl (fun e member => ?_)
      fun pos => ?_
    · obtain ⟨e₀, member₀, ikey, -⟩ := ikeys e member
      rw [ikey]
      exact leaf.inside e₀ member₀
    · obtain ⟨low, high, all⟩ := leaf.bound pos
      refine ⟨low, high, fun e member => ?_⟩
      obtain ⟨e₀, member₀, ikey, -⟩ := ikeys e member
      rw [ikey]
      exact all e₀ member₀
  have after := sound.write known one layer (sound.snug a t b known body) (sound.live a t b known body)
  have same : ∀ x v, Key.entry (.ofBytes x) v ∈ entries (b.setValue i (.ofLayer y)) ↔
      Key.entry (.ofBytes x) v ∈ entries b := by
    intro x v
    rw [mem]
    constructor
    · rintro (same | ⟨member, -⟩)
      · exact absurd ((congrArg Entry.keylenx same).trans keylenx) (keylenx_entry _ v)
      · exact member
    · intro member
      refine .inr ⟨member, fun ranks => keylenx_entry (.ofBytes x) v ?_⟩
      rw [leaf.ok.sorted.eq_of_rank member old ranks, keylenx]
  refine ⟨m', run, one.body, table.write here known body one after (fun _ _ => .rfl) (fun e member layer => ?_)
    (fun slice lv member => ?_) (fun more e member => ?_),
    table.sameKeys here known body one after (fun _ _ => .rfl) same⟩
  · rcases mem.mp member with rfl | ⟨member, -⟩
    · obtain ⟨u, above⟩ := leads.known (table.each _ U there).layer
      have slice : (r.take ikeySize).length = ikeySize := by rw [List.length_take, min_eq_left long.le]
      refine ⟨r.take ikeySize, U, slice, ?_, there, ?_⟩
      · rw [comparable_take long.le]
        exact (congrArg Entry.ikey entry).symm
      · rw [table.nodes.layer_ofLayer above]
        exact leads
    · exact table.down p T e here ⟨a, t, b, known, body, member⟩ layer
  · by_cases same : (layerEntry slice lv).rank = (entryAt b i).rank
    · have equal := leaf.ok.sorted.eq_of_rank member old same
      refine ⟨.ofLayer y, mem.mpr (.inl ?_)⟩
      rw [← equal]
      rfl
    · exact ⟨lv, mem.mpr (.inr ⟨member, same⟩)⟩
  · obtain ⟨e₀, member₀, -, lens⟩ := ikeys e member
    rw [lens]
    exact table.rest p T e₀ here more ⟨a, t, b, known, body, member₀⟩

end

/-! The search. -/

/-- The cursor is at the place of the key, in a locked leaf. -/
structure Found (m : Mem) (F : Forest) (s : List UInt8) (c : Layers.Tcursor) (T : Part) (t : Span) (b : LeafBody) :
    Prop where
  table : Table m F {c.n}
  whole : s = c.before ++ c.rest
  lands : Lands m F c.before c.rest T c.n t b
  lower : b.lower c.key = (c.i, c.p)
  state : c.state = if c.p.map (b.ksufMatches · c.key) = some .same then 1 else 0
  out : ∀ i, c.p = some i → b.ksufMatches i c.key ≠ .layer
  root : ∃ R, F [] = some R ∧ Leads m R.span c.root

/-- The search goes on from the parent of the node that the entry points to. -/
theorem findLocked_repoint (table : Table m F ∅) (lands : Lands m F p r T a t b)
    (found : (b.lower (.ofBytes r)).2 = some i) (onward : b.ksufMatches i (.ofBytes r) = .layer)
    (old : (m.version (b.lv i).layer).root = false) : ∃ m' U x, Table m' F ∅ ∧ SameKeys m m' F ∧
      F (p ++ r.take ikeySize) = some U ∧ Leads m' U.span x ∧ ∀ f : Addr → Layers.T Layers.Tcursor,
      (do
        lock a
        let layer ← maybeParent (b.lv i).layer
        modifyBody a (.setValue i (.ofLayer layer))
        unlock a
        f layer) m = f x m' := by
  have slot := slot_of_lower (lands.ok table) found
  obtain ⟨entry, long⟩ := matches_layer slot.rank onward
  obtain ⟨U, there, leads, -⟩ := lands.next table found onward
  obtain ⟨m₁, run₁, body₁, up₁, table₁, same₁⟩ := table.lock_ok lands.here lands.known lands.body (Finset.notMem_empty a)
  have known₁ : m₁.body a = some b := by rw [body₁, lands.body]
  obtain ⟨x, above, ne, leads'⟩ := leads.parent (table.each _ U there).layer old
  have above₁ : m₁.up (b.lv i).layer = some x := by rw [up₁, above]
  obtain ⟨m₂, run₂, body₂, table₂, same₂⟩ := table₁.setPointer lands.here lands.known known₁ slot.live entry long there
    (same₁.leads _ U x there leads')
  have known₂ : m₂.body a = some (b.setValue i (.ofLayer x)) := by rw [body₂, Function.update_self]
  obtain ⟨m₃, run₃, body₃, table₃, same₃⟩ := table₂.unlock_ok lands.here lands.known known₂ (by simp)
  rw [insert_empty_eq, Finset.erase_singleton] at table₃
  refine ⟨m₃, U, x, table₃, (same₁.trans same₂).trans same₃, there,
    same₃.leads _ U x there (same₂.leads _ U x there (same₁.leads _ U x there leads')), fun f => ?_⟩
  rw [bind_ok run₁, bind_ok (maybeParent_ok above₁), if_neg ne, bind_ok run₂, bind_ok run₃]

theorem findLockedFrom_ok (fuel : Nat) (table : Table m F ∅) (here : F before = some T)
    (first : before = [] ∨ rest ≠ []) (leads : Leads m T.span root) (base : F [] = some R)
    (leads' : Leads m R.span top) (enough : rest.length < fuel) :
    Runs (findLockedFrom top fuel root before rest) m fun c m' => SameKeys m m' F ∧ c.root = top ∧
      ∃ T t b, Found m' F (before ++ rest) c T t b := by
  induction fuel generalizing m before rest T root with
  | zero => exact absurd enough (Nat.not_lt_zero _)
  | succ fuel ih =>
      obtain ⟨a, t, b, lands, reach, alive⟩ := table.lands here first leads
      obtain ⟨q, above⟩ := up_of_body lands.body
      have key : (LeafBody.lower { b with parent := q } (.ofBytes rest)) = b.lower (.ofBytes rest) := rfl
      have kinds (i : Nat) : LeafBody.ksufMatches { b with parent := q } i (.ofBytes rest) =
          b.ksufMatches i (.ofBytes rest) := rfl
      rw [findLockedFrom]
      refine Wp.step reach ?_
      simp only [alive, Bool.false_eq_true, if_false]
      refine Wp.step (leaf_ok lands.body above) ?_
      simp only [key, kinds]
      by_cases onward : (b.lower (.ofBytes rest)).2.map (b.ksufMatches · (.ofBytes rest)) = some .layer
      · rw [if_pos onward]
        obtain ⟨i, found, matched⟩ := Option.map_eq_some_iff.mp onward
        obtain ⟨U, there, leadsU, more, long⟩ := lands.next table found matched
        have shorter : (rest.drop ikeySize).length < fuel := by
          rw [List.length_drop]
          simp only [ikeySize] at long ⊢
          omega
        obtain ⟨u, aboveU⟩ := leadsU.known (table.each _ U there).layer
        simp only [found, Option.getD_some]
        refine Wp.step (version_ok aboveU) ?_
        cases bit : (m.version (b.lv i).layer).root with
        | true =>
            simp only [if_true]
            have next := ih table there (.inr more) leadsU leads' shorter
            rw [List.append_assoc, List.take_append_drop] at next
            exact next
        | false =>
            simp only [Bool.false_eq_true, if_false]
            obtain ⟨m', U', x, table', same, there', leads'', run⟩ := findLocked_repoint table lands found matched bit
            refine Wp.of_eq (run _) ?_
            have next := ih table' there' (.inr more) leads'' (same.leads _ R top base leads') shorter
            rw [List.append_assoc, List.take_append_drop] at next
            exact next.mono fun c m'' post => ⟨same.trans post.1, post.2⟩
      · rw [if_neg onward]
        obtain ⟨m', run, body', -, table', same⟩ := table.lock_ok here lands.known lands.body (Finset.notMem_empty a)
        rw [insert_empty_eq] at table'
        refine Wp.step run ?_
        have live := (table.each _ T here).live a t b lands.known lands.body
        rw [if_neg (show ¬ ({ b with parent := q } : LeafBody).modstate = .deletedLayer from live)]
        refine Wp.pure ⟨same, rfl, T, t, b, table', rfl, ⟨here, first, lands.known, ?_, lands.inside⟩, rfl, rfl,
          fun i found matched => onward ?_, R, base, same.leads _ R top base leads'⟩
        · rw [body', lands.body]
        · rw [show (b.lower (.ofBytes rest)).2 = some i from found]
          exact congrArg some matched

/-- `find_locked` comes to the place of the key. -/
theorem findLocked_ok (table : Table m F ∅) (base : F [] = some R) (leads : Leads m R.span root) (s : List UInt8) :
    Runs (findLocked root s) m fun c m' => SameKeys m m' F ∧ c.root = root ∧ ∃ T t b, Found m' F s c T t b :=
  findLockedFrom_ok (s.length + 1) table base (.inl rfl) leads base leads (Nat.lt_succ_self _)

end Incll.Proof.Layers
