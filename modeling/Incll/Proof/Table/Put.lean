import Incll.Proof.Table.NewLayer

/-! # `put` -/

namespace Incll.Proof.Layers
open Incll.Lib Incll.Model Incll.Model.Layers

variable {m m' : Mem} {F F' : Forest} {T T' : Part} {c c' : Layers.Tcursor} {p r s x : List UInt8} {a : Addr}
  {t t' : Span} {b b' : LeafBody} {i q : Nat} {v w : Leafvalue} {held : Finset Addr}

/-! Writes of a leaf that keep its entries. -/

section
variable (table : Table m F held) (lands : Lands m F p r T a t b)
include table lands

theorem Table.rewrite (one : OneLeaf m m' a b') (version : m'.version = m.version) (ok : EntriesOk b')
    (same : entries b' = entries b) (next : b'.next = b.next) (prev : b'.prev = b.prev)
    (bound : t.lo ≠ 0 → b'.ikeyBound = b.ikeyBound) (live : b'.modstate ≠ .deletedLayer) :
    Table m' F held ∧ SameKeys m m' F := by
  have sound := table.each p T lands.here
  have leaf := sound.layer.leaves a t b lands.known lands.body
  have layer : Layer m' T.span T.top held := by
    refine sound.layer.rewrite (one.wrote version) lands.known lands.body ok next prev ?_ fun pos => ?_
    · rw [same]
      exact leaf.inside
    · rw [same, bound pos]
      exact leaf.bound pos
  have after := sound.write lands.known one layer
    (fun pos => (bound pos).trans (sound.snug a t b lands.known lands.body pos)) live
  refine ⟨table.write lands.here lands.known lands.body one after (fun _ _ => .rfl) ?_ ?_ ?_,
    table.sameKeys lands.here lands.known lands.body one after (fun _ _ => .rfl) fun x v => by rw [same]⟩
  · rw [same]
    exact fun e member layer => table.down p T e lands.here ⟨a, t, b, lands.known, lands.body, member⟩ layer
  · rw [same]
    exact fun slice lv member => ⟨lv, member⟩
  · rw [same]
    exact fun more e member => table.rest p T e lands.here more ⟨a, t, b, lands.known, lands.body, member⟩

theorem Table.setModstate : ∃ m', modifyBody a (.setModstate .insert) m = .ok ((), m') ∧ Table m' F held ∧
    SameKeys m m' F ∧ Lands m' F p r T a t (b.setModstate .insert) := by
  obtain ⟨m', run, one, version⟩ := modifyBody_one (.setModstate .insert) lands.body (fun _ => rfl) fun _ => rfl
  have ok := lands.ok table
  have ok' : EntriesOk (b.setModstate .insert) :=
    ⟨⟨⟨ok.valid.body.permutation, ok.valid.body.iksuf, ok.valid.body.ksuf⟩, ok.valid.bag⟩, ok.sorted, ok.each⟩
  obtain ⟨table', same⟩ := table.rewrite lands one version ok' rfl rfl rfl (fun _ => rfl) (by simp [LeafBody.setModstate])
  exact ⟨m', run, table', same, lands.here, lands.first, lands.known, one.here, lands.inside⟩

end

/-- A run from the same memory. -/
theorem Confined.quiet {α : Type} {f : Layers.T α} {x : α} (confined : Confined m (fun _ => False) f) (nodes : Nodes m)
    (run : f m = .ok (x, m')) : m'.root = m.root ∧ m'.callbacks = m.callbacks := by
  have beside : Beside m (fun _ => False) m m :=
    ⟨fun _ _ => rfl, fun _ _ => rfl, fun _ inside => inside.elim, fun _ inside => inside.elim, rfl, le_rfl,
      fun _ inside => inside.elim, rfl, rfl, nodes⟩
  obtain ⟨t, run', beside'⟩ := confined.ok beside run
  rw [run] at run'
  cases run'
  exact ⟨beside'.root, beside'.callbacks⟩

/-! A slot for the key. -/

/-- `find_insert` finds a slot for a new key. -/
theorem Table.insertAt_ok (table : Table m F {c.n}) (lands : Lands m F c.before c.rest T c.n t b)
    (lower : b.lower c.key = (c.i, none)) :
    Runs (insertAt c) m fun c' m' => ∃ F' T' t' b', Ready m m' F F' c c' T' t' b' := by
  have sound := table.each _ T lands.here
  have leaf := sound.layer.leaves _ _ _ lands.known lands.body
  obtain ⟨u, above⟩ := up_of_body lands.body
  rw [insertAt]
  refine Wp.step (leaf_ok lands.body above) ?_
  change Runs (if b.size < leafWidth ∧ (b.permutation.back ≠ 0 ∨ b.prev = 0 ∨ b.ikeyBound = c.key.ikey) then _ else _) m _
  by_cases room : b.size < leafWidth ∧ (b.permutation.back ≠ 0 ∨ b.prev = 0 ∨ b.ikeyBound = c.key.ikey)
  · rw [if_pos room]
    have place : Place b (Key.rank c.key) c.i none := by
      have place := lower_place leaf.ok c.key
      rwa [lower] at place
    obtain ⟨m', b', run, wrote, same, links, -, bound, reserved⟩ :=
      assign_reserved lands.body leaf.ok room.1 place (keyOk_ofBytes c.rest)
    obtain ⟨root, callbacks⟩ := Confined.quiet (.assign ..) table.nodes run
    have one : OneLeaf m m' c.n b' := ⟨wrote.up, wrote.inner, wrote.body, fun c _ => by rw [wrote.version], wrote.fresh,
      root, callbacks⟩
    have bound' : t.lo ≠ 0 → b'.ikeyBound = b.ikeyBound := by
      intro pos
      rcases room.2 with other | first | equal
      · exact bound other
      · obtain ⟨u, d, before, -, -⟩ := leaf.prev pos
        exact absurd first (sound.layer.tree.ne_zero before)
      · by_cases other : b.permutation.back = 0
        · have entry := reserved.key
          have slot := Option.some.inj reserved.slot
          rw [← slot, other] at entry
          rw [equal]
          exact congrArg Entry.ikey entry
        · exact bound other
    obtain ⟨table', keys⟩ := table.rewrite lands one wrote.version reserved.ok same links.next links.prev bound'
      (links.modstate ▸ sound.live _ _ _ lands.known lands.body)
    refine Wp.step run (Wp.pure ⟨F, T, t, b', table', ⟨lands.here, lands.first, lands.known, one.here, lands.inside⟩,
      reserved, rfl, callbacks, keys.bound⟩)
  · rw [if_neg room]
    exact table.makeSplit_ok lands lower room

/-! `put`. -/

/-- What `put` does with the cursor of `find_insert`. -/
def finishPut (c : Layers.Tcursor) (v : Leafvalue) : Layers.T Unit := do
  modifyBody c.n (.setValue (c.p.getD 0) v)
  if c.state = 2 then finishInsert c
  unlock c.n

/-- The key is bound to the value, and the other keys are bound as they were. -/
def Puts (m : Mem) (F : Forest) (s : List UInt8) (v : Leafvalue) (m' : Mem) : Prop :=
  ∃ F', Table m' F' ∅ ∧ m'.callbacks = m.callbacks ∧ ∀ x w, Bound m' F' x w ↔ if x = s then w = v else Bound m F x w

/-- The slot is filled. -/
theorem Ready.finish (ready : Ready m m' F F' c c' T' t' b') (state : c.state = 2) (v : Leafvalue) :
    Runs (finishPut c' v) m' fun _ => Puts m F (c.before ++ c.rest) v := by
  have slot := ready.reserved.slot
  have reserved := ready.reserved
  rw [slot] at reserved
  obtain ⟨m₁, m₂, m₃, run₁, run₂, run₃, table, callbacks, bound⟩ := ready.table.publish ready.lands reserved v
  rw [finishPut, slot, Option.getD_some]
  refine Wp.step run₁ ?_
  simp only [ready.state, state, if_true]
  refine Wp.step run₂ (Wp.of_ok run₃ ⟨F', table, callbacks.trans ready.callbacks, fun x w => ?_⟩)
  rw [bound, ready.bound]

theorem Puts.of_same {m₀ : Mem} (same : ∀ x w, Bound m F x w ↔ Bound m₀ F x w) (callbacks : m.callbacks = m₀.callbacks)
    (puts : Puts m F s v m') : Puts m₀ F s v m' := by
  obtain ⟨F', table, callbacks', bound⟩ := puts
  refine ⟨F', table, callbacks'.trans callbacks, fun x w => ?_⟩
  rw [bound, same]

/-- `put` binds the key to the value, unless no memory is left. -/
theorem put_ok (table : Table m F ∅) (s : List UInt8) (v : Leafvalue) : Runs (put s v) m fun _ => Puts m F s v := by
  obtain ⟨R, base, -⟩ := table.root
  obtain ⟨r, m₁, fixed, table₁, leads, tree, callbacks⟩ := fixRoot_ok table base
  refine Wp.bind (f := (finishPut · v)) ?_
  rw [findInsert]
  refine Wp.step fixed (Wp.call (findLocked_ok table₁ base leads s) fun c m₂ post => ?_)
  obtain ⟨keys, -, T, t, b, found⟩ := post
  have same (x : List UInt8) (w : Leafvalue) : Bound m₂ F x w ↔ Bound m F x w := by rw [keys.bound, tree.bound]
  have calls : m₂.callbacks = m.callbacks := keys.callbacks.trans callbacks
  have lands := found.lands
  have lower := found.lower
  have whole := found.whole
  have done {c' : Layers.Tcursor} {m' : Mem} (puts : Runs (finishPut c' v) m' fun _ => Puts m₂ F (c.before ++ c.rest) v) :
      Runs (finishPut c' v) m' fun _ => Puts m F s v := by
    refine puts.mono fun _ m'' post => ?_
    rw [whole]
    exact post.of_same same calls
  by_cases there : c.state = 1
  · -- the key is there
    rw [if_pos there]
    have matched := found.state
    rw [there] at matched
    split at matched
    · next known =>
        obtain ⟨i, slot, equal⟩ := Option.map_eq_some_iff.mp known
        refine Wp.pure (done ?_)
        obtain ⟨m₃, run, table₃, callbacks₃, ⟨b', body⟩, bound⟩ :=
          found.table.setValue lands ((congrArg Prod.snd lower).trans slot) equal v
        obtain ⟨m₄, run', -, table₄, keys'⟩ := table₃.unlock_ok lands.here lands.known body (Finset.mem_singleton_self _)
        rw [Finset.erase_singleton] at table₄
        rw [finishPut, slot, Option.getD_some]
        refine Wp.step run ?_
        simp only [there, OfNat.one_ne_ofNat, if_false]
        refine Wp.of_ok run' ⟨F, table₄, keys'.callbacks.trans callbacks₃, fun x w => ?_⟩
        rw [keys'.bound, bound]
    · cases matched
  · rw [if_neg there]
    cases slot : c.p with
    | some i =>
        -- another key is in the slot
        have state := found.state
        have differ : b.ksufMatches i c.key = .differ := by
          cases matched : b.ksufMatches i c.key with
          | same =>
              rw [slot, Option.map_some, matched, if_pos rfl] at state
              exact absurd state there
          | differ => rfl
          | layer => exact absurd matched (found.out i slot)
        refine (Wp.of_bind (f := (finishPut · v)) ?_).mono fun c' m' => done
        exact found.table.insertLayer_ok (c := { c with state := 2 }) lands ((congrArg Prod.snd lower).trans slot) differ
          rfl v
    | none =>
        -- the key goes to a slot of its own
        have lower' : b.lower c.key = (c.i, none) := by rw [lower, slot]
        have insert {m₀ : Mem} (table' : Table m₀ F {c.n}) (keys' : SameKeys m₂ m₀ F) {b₀ : LeafBody}
            (lands' : Lands m₀ F c.before c.rest T c.n t b₀) (lower₀ : b₀.lower c.key = (c.i, none)) :
            Runs (insertAt { c with state := 2 }) m₀ fun c' m' => Runs (finishPut c' v) m' fun _ => Puts m F s v := by
          refine (table'.insertAt_ok (c := { c with state := 2 }) lands' lower₀).mono fun c' m' ready => done ?_
          obtain ⟨F', T', t', b', ready⟩ := ready
          exact (ready.finish rfl v).mono fun _ m'' puts => puts.of_same keys'.bound keys'.callbacks
        obtain ⟨u, above⟩ := up_of_body lands.body
        refine Wp.step (leaf_ok lands.body above) ?_
        by_cases fresh : b.modstate = .insert
        · rw [if_neg (show ¬ ({ b with parent := u } : LeafBody).modstate ≠ .insert from not_not.mpr fresh)]
          exact insert found.table (.refl m₂ F) lands lower'
        · rw [if_pos (show ({ b with parent := u } : LeafBody).modstate ≠ .insert from fresh)]
          obtain ⟨m₃, run₃, body₃, table₃, keys₃⟩ :=
            found.table.markInsert_ok lands.here lands.known lands.body (Finset.mem_singleton_self _)
          have lands₃ : Lands m₃ F c.before c.rest T c.n t b :=
            ⟨lands.here, lands.first, lands.known, by rw [body₃, lands.body], lands.inside⟩
          obtain ⟨m₄, run₄, table₄, keys₄, lands₄⟩ := table₃.setModstate lands₃
          exact Wp.step run₃ (Wp.step run₄ (insert table₄ (keys₃.trans keys₄) lands₄ lower'))

end Incll.Proof.Layers
