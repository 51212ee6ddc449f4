import Incll.Proof.Table.FindLocked

/-! # Writing an entry

The value of a key that is there is replaced. A new key has a reserved slot, which becomes an entry. -/

namespace Incll.Proof.Layers
open Incll.Lib Incll.Model Incll.Model.Layers

variable {m m' m'' : Mem} {F : Forest} {T R : Part} {p r x y : List UInt8} {v w : Leafvalue}
  {a : Addr} {t : Span} {b b' : LeafBody} {i q : Nat} {held : Finset Addr} {e : Entry}

theorem entry_inj : Key.entry (.ofBytes x) v = Key.entry (.ofBytes y) w ↔ x = y ∧ v = w := by
  constructor
  · intro same
    have rank : Key.rank (.ofBytes x) = Key.rank (.ofBytes y) := by
      rw [← Key.rank_entry _ v, same, Key.rank_entry]
    exact ⟨ofBytes_inj rank (congrArg Entry.suffix same), congrArg Entry.lv same⟩
  · rintro ⟨rfl, rfl⟩
    rfl

/-! The root and the callbacks. -/

/-- Only the root and the callbacks are different. -/
structure SameTree (m m' : Mem) : Prop where
  node : ∀ a, SameNode m m' a
  fresh : m'.fresh = m.fresh

theorem SameTree.leads {span : Addr → Option Span} (same : SameTree m m') (leads : Leads m span a) : Leads m' span a :=
  leads.follow (fun _ _ known first => .here known first) fun c _ off _ => ⟨same.node c, off⟩

theorem SameTree.has_iff {span : Addr → Option Span} (same : SameTree m m') : Has m' span e ↔ Has m span e := by
  simp only [Has, (same.node _).body]

theorem SameTree.bound (same : SameTree m m') (s : List UInt8) (v : Leafvalue) : Bound m' F s v ↔ Bound m F s v := by
  simp only [Bound, same.has_iff]

theorem SameTree.sound (same : SameTree m m') (sound : Sound m T held) : Sound m' T held := by
  refine ⟨sound.layer.elsewhere same.fresh.ge (fun a _ _ => same.node a) (fun _ _ _ => .rfl) fun a member => ?_,
    fun a t b known body => ?_, fun a t b known body => ?_⟩
  · rw [(same.node a).version]
    exact sound.layer.calm.locked a member
  · rw [(same.node a).body] at body
    exact sound.snug a t b known body
  · rw [(same.node a).body] at body
    exact sound.live a t b known body

theorem SameTree.table (same : SameTree m m') (table : Table m F held) (base : F [] = some R)
    (root : Leads m R.span m'.root) (callbacks : ∀ cb ∈ m'.callbacks, Leads m R.span cb.root) :
    Table m' F held := by
  obtain ⟨each, positive, aligned, limit⟩ := table.nodes
  refine ⟨⟨⟨fun a p above => ?_, ?_, ?_, ?_⟩, fun p T here => same.sound (table.each p T here), table.apart⟩,
    ⟨⟨R, base, same.leads root, fun cb member => same.leads (callbacks cb member)⟩, fun p T e here has layer => ?_,
      fun q U there => ?_, fun p T e here more has => table.rest p T e here more (same.has_iff.mp has)⟩⟩
  · rw [(same.node a).up] at above
    rw [same.fresh]
    exact each a p above
  · rwa [same.fresh]
  · rwa [same.fresh]
  · rwa [same.fresh]
  · obtain ⟨slice, U, length, ikey, there, leads⟩ := table.down p T e here (same.has_iff.mp has) layer
    exact ⟨slice, U, length, ikey, there, same.leads leads⟩
  · rcases table.up q U there with nil | ⟨p, slice, T, lv, equal, length, here, has⟩
    · exact .inl nil
    · exact .inr ⟨p, slice, T, lv, equal, length, here, same.has_iff.mpr has⟩

theorem sameTree_root (m : Mem) (root : Addr) : SameTree m { m with root := root } :=
  ⟨fun _ => ⟨rfl, rfl, rfl, rfl⟩, rfl⟩

theorem sameTree_callbacks (m : Mem) (callbacks : List Callback) : SameTree m { m with callbacks := callbacks } :=
  ⟨fun _ => ⟨rfl, rfl, rfl, rfl⟩, rfl⟩

/-- `fix_root` finds a pointer to the first layer. -/
theorem fixRoot_ok (table : Table m F ∅) (base : F [] = some R) :
    ∃ r m', fixRoot m = .ok (r, m') ∧ Table m' F ∅ ∧ Leads m' R.span r ∧ SameTree m m' ∧
      m'.callbacks = m.callbacks := by
  obtain ⟨R', base', leads, callbacks⟩ := table.root
  obtain rfl := Option.some.inj (base.symm.trans base')
  have layer := (table.each [] R base).layer
  obtain ⟨u, above⟩ := leads.known layer
  rw [fixRoot]
  cases bit : (m.version m.root).root with
  | true =>
      refine ⟨m.root, m, ?_, table, leads, ⟨fun a => .refl m a, rfl⟩, rfl⟩
      refine (bind_ok (show (get : Layers.T Mem) m = .ok (m, m) from rfl)).trans ?_
      rw [bind_ok (version_ok above), bit]
      rfl
  | false =>
      obtain ⟨x, above', ne, leads'⟩ := leads.parent layer bit
      have same := sameTree_root m x
      refine ⟨x, { m with root := x }, ?_, same.table table base leads' callbacks, same.leads leads', same, rfl⟩
      refine (bind_ok (show (get : Layers.T Mem) m = .ok (m, m) from rfl)).trans ?_
      rw [bind_ok (version_ok above), bit]
      simp only [Bool.false_eq_true, if_false]
      rw [bind_ok (maybeParent_ok above'), if_neg ne]
      rfl

/-! A value. -/

section
variable (table : Table m F held) (lands : Lands m F p r T a t b)
include table lands

/-- The value of a key that is there. -/
theorem Table.setValue (found : (b.lower (.ofBytes r)).2 = some i) (same : b.ksufMatches i (.ofBytes r) = .same)
    (v : Leafvalue) : ∃ m', modifyBody a (.setValue i v) m = .ok ((), m') ∧ Table m' F held ∧
      m'.callbacks = m.callbacks ∧
      (∃ b', m'.body a = some b') ∧ ∀ s w, Bound m' F s w ↔ if s = p ++ r then w = v else Bound m F s w := by
  have sound := table.each p T lands.here
  have leaf := sound.layer.leaves a t b lands.known lands.body
  have slot := slot_of_lower leaf.ok found
  have entry := matches_same slot.ok slot.rank same
  obtain ⟨m', run, one, version⟩ := modifyBody_one (.setValue i v) lands.body (fun _ => rfl) fun _ => rfl
  have mem {e : Entry} := mem_setValue (e := e) (v := v) leaf.ok slot.live
  have ikeys (e : Entry) (member : e ∈ entries (b.setValue i v)) : ∃ e₀ ∈ entries b, e.ikey = e₀.ikey ∧
      e.keylenx = e₀.keylenx := by
    rcases mem.mp member with rfl | ⟨member, -⟩
    · exact ⟨entryAt b i, slot.member, rfl, rfl⟩
    · exact ⟨e, member, rfl, rfl⟩
  have layer : Layer m' T.span T.top held := by
    refine sound.layer.rewrite (one.wrote version) lands.known lands.body (leaf.ok.setValue i _) rfl rfl
      (fun e member => ?_) fun pos => ?_
    · obtain ⟨e₀, member₀, ikey, -⟩ := ikeys e member
      rw [ikey]
      exact leaf.inside e₀ member₀
    · obtain ⟨low, high, all⟩ := leaf.bound pos
      refine ⟨low, high, fun e member => ?_⟩
      obtain ⟨e₀, member₀, ikey, -⟩ := ikeys e member
      rw [ikey]
      exact all e₀ member₀
  have after := sound.write lands.known one layer (sound.snug a t b lands.known lands.body)
    (sound.live a t b lands.known lands.body)
  have stops := lands.stops table fun j there matched => by
    rw [found] at there
    obtain rfl := Option.some.inj there
    rw [same] at matched
    cases matched
  refine ⟨m', run, table.write lands.here lands.known lands.body one after (fun _ _ => .rfl) (fun e member layer => ?_)
    (fun slice lv member => ⟨lv, mem.mpr (.inr ⟨member, fun ranks => ?_⟩)⟩) (fun more e member => ?_), one.callbacks,
    ⟨_, one.here⟩, table.bound_set lands.here lands.known lands.body one after (fun _ _ => .rfl) lands.first stops
      lands.inside fun x w => ?_⟩
  · rcases mem.mp member with rfl | ⟨member, -⟩
    · exact absurd ((congrArg Entry.keylenx entry).symm.trans layer) (keylenx_entry _ _)
    · exact table.down p T e lands.here ⟨a, t, b, lands.known, lands.body, member⟩ layer
  · have equal := leaf.ok.sorted.eq_of_rank member slot.member ranks
    exact keylenx_entry (.ofBytes r) (b.lv i) (congrArg Entry.keylenx (equal.trans entry)).symm
  · obtain ⟨e₀, member₀, -, lens⟩ := ikeys e member
    rw [lens]
    exact table.rest p T e₀ lands.here more ⟨a, t, b, lands.known, lands.body, member₀⟩
  · rw [mem, entry]
    change _ = Key.entry (.ofBytes r) v ∨ _ ↔ _
    rw [entry_inj, Key.rank_entry, Key.rank_entry]
    by_cases equal : x = r
    · rw [if_pos equal, equal]
      simp
    · rw [if_neg equal]
      constructor
      · rintro (⟨same, -⟩ | ⟨member, -⟩)
        · exact absurd same equal
        · exact member
      · intro member
        refine .inr ⟨member, fun ranks => equal ?_⟩
        have same := leaf.ok.sorted.eq_of_rank member slot.member (by rw [Key.rank_entry, slot.rank, ranks])
        exact (entry_inj.mp (same.trans entry)).1

end

/-! A reserved slot. -/

/-- The leaf in which the slot has become an entry. -/
def published (b : LeafBody) (i q : Nat) (v : Leafvalue) : LeafBody :=
  (b.setValue q v).setPermutation (b.permutation.insertFromBack i)

variable {k : Key}

theorem Reserved.entries (reserved : Reserved b k i (some q)) (v : Leafvalue) :
    entries (published b i q v) = (Layers.entries b).insertIdx i (Key.entry k v) := by
  obtain rfl := Option.some.inj reserved.slot
  exact @entries_insert b b (Key.entry k .empty) i v reserved.ok.valid.body.permutation reserved.place.small reserved.room
    reserved.key fun _ _ => rfl

theorem Reserved.mem_published (reserved : Reserved b k i (some q)) :
    e ∈ Layers.entries (published b i q v) ↔ e = Key.entry k v ∨ e ∈ Layers.entries b := by
  rw [reserved.entries, List.mem_insertIdx]
  rw [length_entries reserved.ok.valid.body.permutation]
  exact reserved.place.small

theorem Reserved.published_ok (reserved : Reserved b k i (some q)) (key : KeyOk k) (v : Leafvalue) :
    EntriesOk (published b i q v) := by
  have ok := reserved.ok
  have valid := ok.valid.body.permutation
  have place := reserved.place
  refine ⟨(ok.valid.setValue q v).setPermutation (valid.insertFromBack place.small reserved.room), ?_, fun e member => ?_⟩
  · rw [reserved.entries]
    refine ok.sorted.insertIdx ?_ ?_ ?_
    · rw [length_entries valid]
      exact place.small
    · rw [Key.rank_entry]
      exact place.before
    · rw [Key.rank_entry]
      exact place.missing rfl
  · rcases reserved.mem_published.mp member with rfl | old
    · exact entryOk_key key v
    · exact ok.each e old

/-- No entry has the place of the key. -/
theorem Reserved.absent (reserved : Reserved b k i (some q)) (member : e ∈ Layers.entries b) : e.rank ≠ Key.rank k := by
  have place := reserved.place
  rw [← List.take_append_drop i (Layers.entries b)] at member
  rcases List.mem_append.mp member with before | behind
  · exact (place.before e before).ne
  · exact (place.missing rfl e behind).ne'

section
variable (table : Table m F {a}) (lands : Lands m F p r T a t b) (reserved : Reserved b (.ofBytes r) i (some q))
include table lands reserved

/-- The new key is put into the leaf, and the leaf is unlocked. -/
theorem Table.publish (v : Leafvalue) : ∃ m₁ m₂ m', modifyBody a (.setValue q v) m = .ok ((), m₁) ∧
    modifyBody a (fun b => b.setPermutation (b.permutation.insertFromBack i)) m₁ = .ok ((), m₂) ∧
    unlock a m₂ = .ok ((), m') ∧ Table m' F ∅ ∧ m'.callbacks = m.callbacks ∧
    ∀ s w, Bound m' F s w ↔ if s = p ++ r then w = v else Bound m F s w := by
  have sound := table.each p T lands.here
  have leaf := sound.layer.leaves a t b lands.known lands.body
  obtain ⟨m₁, run₁, one₁, version₁⟩ := modifyBody_one (.setValue q v) lands.body (fun _ => rfl) fun _ => rfl
  obtain ⟨m₂, run₂, one₂, version₂⟩ := modifyBody_one (fun b => b.setPermutation (b.permutation.insertFromBack i))
    one₁.here (fun _ => rfl) fun _ => rfl
  have one : OneLeaf m m₂ a (published b i q v) := one₁.trans one₂
  have version := version₂.trans version₁
  have mem {e : Entry} := reserved.mem_published (e := e) (v := v)
  have layer : Layer m₂ T.span T.top {a} := by
    refine sound.layer.rewrite (one.wrote version) lands.known lands.body
      (reserved.published_ok (keyOk_ofBytes r) v) rfl rfl (fun e member => ?_) fun pos => ?_
    · rcases mem.mp member with rfl | old
      · exact lands.inside
      · exact leaf.inside e old
    · obtain ⟨low, high, all⟩ := leaf.bound pos
      refine ⟨low, high, fun e member => ?_⟩
      rcases mem.mp member with rfl | old
      · change b.ikeyBound ≤ Key.comparable r
        rw [sound.snug a t b lands.known lands.body pos]
        exact lands.inside.1
      · exact all e old
  have after := sound.write lands.known one layer (sound.snug a t b lands.known lands.body)
    (sound.live a t b lands.known lands.body)
  have stops : ¬ Onward m T r := by
    rintro ⟨long, lv, has⟩
    have member := (sound.has_iff lands.known lands.body lands.inside.1 lands.inside.2).mp has
    exact reserved.absent member (rank_layerEntry lv long rfl)
  have table₂ : Table m₂ F {a} := by
    refine table.write lands.here lands.known lands.body one after (fun _ _ => .rfl) (fun e member layer => ?_)
      (fun slice lv member => ⟨lv, mem.mpr (.inr member)⟩) fun more e member => ?_
    · rcases mem.mp member with rfl | old
      · exact absurd layer (keylenx_entry _ _)
      · exact table.down p T e lands.here ⟨a, t, b, lands.known, lands.body, old⟩ layer
    · rcases mem.mp member with rfl | old
      · rw [Key.entry]
        dsimp only
        split
        · decide
        · change r.length ≠ 0
          exact fun zero => (lands.first.resolve_left more) (List.eq_nil_of_length_eq_zero zero)
      · exact table.rest p T e lands.here more ⟨a, t, b, lands.known, lands.body, old⟩
  have bound₂ : ∀ s w, Bound m₂ F s w ↔ if s = p ++ r then w = v else Bound m F s w :=
    table.bound_set lands.here lands.known lands.body one after (fun _ _ => .rfl) lands.first stops
      lands.inside fun x w => by
      rw [mem, entry_inj]
      by_cases equal : x = r
      · rw [if_pos equal, equal]
        refine ⟨fun or => or.elim And.right fun member => absurd (Key.rank_entry _ w) (reserved.absent member),
          fun same => .inl ⟨rfl, same⟩⟩
      · rw [if_neg equal]
        exact ⟨fun or => or.elim (fun both => absurd both.1 equal) id, .inr⟩
  obtain ⟨m', run', -, table', same⟩ := table₂.unlock_ok lands.here lands.known one.here (by simp)
  rw [Finset.erase_singleton] at table'
  exact ⟨m₁, m₂, m', run₁, run₂, run', table', same.callbacks.trans one.callbacks, fun s w => by
    rw [same.bound, bound₂]⟩

end

end Incll.Proof.Layers
