import Incll.Proof.Table.Leaf

/-! # Searching the table -/

namespace Incll.Proof.Layers
open Incll.Lib Incll.Model Incll.Model.Layers

variable {m m' : Mem} {F : Forest} {T : Part} {p r s : List UInt8} {v : Leafvalue} {a root : Addr} {t : Span}
  {b : LeafBody} {i : Nat} {c : Layers.Tcursor}

/-! What a slot has to do with a key. -/

/-- The slot leads to the layer of the slice. -/
theorem matches_layer (rank : (entryAt b i).rank = Key.rank (.ofBytes r)) (found : b.ksufMatches i (.ofBytes r) = .layer) :
    entryAt b i = layerEntry r (b.lv i) ∧ ikeySize < r.length := by
  have keylenx : b.keylenx i = layerKeylenx := by
    rw [LeafBody.ksufMatches] at found
    split at found
    · cases found
    · split at found
      · assumption
      · split at found <;> cases found
  obtain ⟨ikey, len⟩ := rank_inj rank
  have plain : b.hasKsuf i = false := by
    rw [LeafBody.hasKsuf, keylenx]
    rfl
  constructor
  · rw [entryAt, plain, keylenx, layerEntry]
    congr 1
  · simp only [entryAt, keylenx, layerKeylenx] at len
    change min 128 9 = min r.length 9 at len
    simp only [ikeySize]
    omega

/-- The slot has the key. -/
theorem matches_same (ok : EntryOk (entryAt b i)) (rank : (entryAt b i).rank = Key.rank (.ofBytes r))
    (found : b.ksufMatches i (.ofBytes r) = .same) :
    entryAt b i = Key.entry (.ofBytes r) (b.lv i) := by
  obtain ⟨ikey, len⟩ := rank_inj rank
  change min (b.keylenx i) 9 = min r.length 9 at len
  rw [LeafBody.ksufMatches] at found
  split at found
  · next short =>
      have small : b.keylenx i ≤ ikeySize := by
        rcases ok.len with small | long | deep
        · exact small
        · exact absurd long (Nat.ne_of_lt short)
        · have deep : b.keylenx i = layerKeylenx := deep
          rw [deep] at short
          exact absurd short (by decide)
      have length : b.keylenx i = r.length := by
        simp only [ikeySize] at small
        omega
      have plain : b.hasKsuf i = false := by
        rw [LeafBody.hasKsuf, beq_eq_false_iff_ne]
        exact Nat.ne_of_lt short
      have none : (Key.ofBytes r).hasSuffix = false := by
        rw [not_hasSuffix_iff]
        exact length.symm.le.trans small
      rw [entryAt, Key.entry, plain, none, (keyOk_ofBytes r).short none, length]
      congr 1
  · split at found
    · cases found
    · next long deep =>
        split at found
        · next equal =>
            have keylenx : b.keylenx i = ksufKeylenx := by
              rcases ok.len with small | long' | deep'
              · exact absurd (lt_of_le_of_lt small (by decide)) long
              · exact long'
              · exact absurd deep' deep
            rw [keylenx] at len
            change min 64 9 = min r.length 9 at len
            have has : b.hasKsuf i = true := by
              rw [LeafBody.hasKsuf, keylenx]
              rfl
            have longer : (Key.ofBytes r).hasSuffix = true := by
              rw [hasSuffix_iff]
              change 8 < r.length
              omega
            rw [entryAt, Key.entry, has, longer, keylenx, if_pos rfl, if_pos rfl, equal]
            congr 1
        · cases found

theorem not_same_of_differ (found : b.ksufMatches i (.ofBytes r) = .differ) (v : Leafvalue) :
    entryAt b i ≠ Key.entry (.ofBytes r) v := by
  intro same
  rw [ksufMatches_same same] at found
  cases found

/-- A leaf without the place of the key has no entry for it. -/
theorem not_mem_of_lower (ok : EntriesOk b) {e : Entry} (none : (b.lower (.ofBytes r)).2 = none)
    (same : e.rank = Key.rank (.ofBytes r)) : e ∉ entries b := by
  intro member
  obtain ⟨q, live, rfl⟩ := mem_entries.mp member
  rw [lower_live ok live same] at none
  cases none

/-- The slot of the place of the key. -/
structure KeySlot (b : LeafBody) (r : List UInt8) (i : Nat) : Prop where
  live : i ∈ b.permutation.live
  rank : (entryAt b i).rank = Key.rank (.ofBytes r)
  ok : EntryOk (entryAt b i)
  position : (b.lower (.ofBytes r)).1 < b.size ∧ i = b.permutation.get (b.lower (.ofBytes r)).1

theorem KeySlot.member (slot : KeySlot b r i) : entryAt b i ∈ entries b := mem_entries.mpr ⟨i, slot.live, rfl⟩

theorem slot_of_lower (ok : EntriesOk b) (found : (b.lower (.ofBytes r)).2 = some i) : KeySlot b r i := by
  obtain ⟨small, same, rank⟩ := (lower_place ok (.ofBytes r)).found i found
  have live : i ∈ b.permutation.live := by
    rw [same]
    exact ok.valid.body.permutation.get_live small
  exact ⟨live, rank, ok.each _ (mem_entries.mpr ⟨i, live, rfl⟩), small, same⟩

/-- The entries for the key are in its slot. -/
theorem KeySlot.entry_iff (slot : KeySlot b r i) (ok : EntriesOk b) :
    Key.entry (.ofBytes r) v ∈ entries b ↔ entryAt b i = Key.entry (.ofBytes r) v := by
  constructor
  · intro member
    exact ok.sorted.eq_of_rank slot.member member (by rw [slot.rank, Key.rank_entry])
  · intro same
    rw [← same]
    exact slot.member

/-! The leaf of a key. -/

/-- The rest `r` of a key has its place in the leaf `a` of the layer of `p`. -/
structure Lands (m : Mem) (F : Forest) (p r : List UInt8) (T : Part) (a : Addr) (t : Span) (b : LeafBody) : Prop where
  here : F p = some T
  first : p = [] ∨ r ≠ []
  known : T.span a = some t
  body : m.body a = some b
  inside : t.lo ≤ Key.comparable r ∧ Key.comparable r < t.hi

section
variable {held : Finset Addr} (table : Table m F held) (lands : Lands m F p r T a t b)
include table lands

theorem Lands.ok : EntriesOk b := ((table.each p T lands.here).layer.leaves a t b lands.known lands.body).ok

theorem Lands.stops (out : ∀ i, (b.lower (.ofBytes r)).2 = some i → b.ksufMatches i (.ofBytes r) ≠ .layer) :
    ¬ Onward m T r := by
  rintro ⟨long, lv, has⟩
  have member := ((table.each p T lands.here).has_iff lands.known lands.body lands.inside.1 lands.inside.2).mp has
  obtain ⟨q, live, same⟩ := mem_entries.mp member
  have rank : (entryAt b q).rank = Key.rank (.ofBytes r) := by rw [same, rank_layerEntry lv long rfl]
  refine out q (lower_live (lands.ok table) live rank) (ksufMatches_layer ?_)
  exact congrArg Entry.keylenx same

/-- Whether the key is bound can be seen in the leaf. -/
theorem Lands.bound_iff (out : ∀ i, (b.lower (.ofBytes r)).2 = some i → b.ksufMatches i (.ofBytes r) ≠ .layer) :
    Bound m F (p ++ r) v ↔ Key.entry (.ofBytes r) v ∈ entries b := by
  rw [table.bound_iff lands.here lands.first (lands.stops table out)]
  exact (table.each p T lands.here).has_iff lands.known lands.body lands.inside.1 lands.inside.2

theorem Lands.bound_none (none : (b.lower (.ofBytes r)).2 = none) : ¬ Bound m F (p ++ r) v := by
  rw [lands.bound_iff table fun i some => by rw [none] at some; cases some]
  exact not_mem_of_lower (lands.ok table) none (Key.rank_entry _ v)

theorem Lands.bound_some (found : (b.lower (.ofBytes r)).2 = some i) (out : b.ksufMatches i (.ofBytes r) ≠ .layer) :
    Bound m F (p ++ r) v ↔ b.ksufMatches i (.ofBytes r) = .same ∧ v = b.lv i := by
  have ok := lands.ok table
  have slot := slot_of_lower ok found
  rw [lands.bound_iff table fun j some => by
    rw [found] at some
    obtain rfl := Option.some.inj some
    exact out, slot.entry_iff ok]
  constructor
  · intro same
    exact ⟨ksufMatches_same same, (congrArg Entry.lv same).symm⟩
  · rintro ⟨same, rfl⟩
    exact matches_same slot.ok slot.rank same

/-- A slot that leads on. -/
theorem Lands.next (found : (b.lower (.ofBytes r)).2 = some i) (onward : b.ksufMatches i (.ofBytes r) = .layer) :
    ∃ U, F (p ++ r.take ikeySize) = some U ∧ Leads m U.span (b.lv i).layer ∧ r.drop ikeySize ≠ [] ∧
      ikeySize < r.length := by
  have slot := slot_of_lower (lands.ok table) found
  obtain ⟨same, long⟩ := matches_layer slot.rank onward
  obtain ⟨U, there, leads, more⟩ := table.onward lands.here long ⟨a, t, b, lands.known, lands.body, slot.member⟩
    (congrArg Entry.keylenx same) (congrArg Entry.ikey same)
  exact ⟨U, there, leads, more, long⟩

end

/-- A key comes to one leaf of a layer. -/
theorem Table.lands (table : Table m F ∅) (here : F p = some T) (first : p = [] ∨ r ≠ [])
    (leads : Leads m T.span root) : ∃ a t b, Lands m F p r T a t b ∧
      reachLeaf root (.ofBytes r) m = .ok ((a, m.version a), m) ∧ (m.version a).deleted = false := by
  have layer := (table.each p T here).layer
  have small : (Key.ofBytes r).ikey < ikeyLimit := comparable_lt r
  obtain ⟨a, t, b, known, body, low, high⟩ := layer.exists_leaf_for small
  have free := layer.calm.free a t known
  rw [settled_empty] at free
  exact ⟨a, t, b, ⟨here, first, known, body, low, high⟩, leads.reachLeaf_ok table.nodes layer known body low high small,
    free.deleted⟩

/-! `find_unlocked`. -/

theorem findUnlockedFrom_ok (fuel : Nat) (table : Table m F ∅) (here : F p = some T) (first : p = [] ∨ r ≠ [])
    (leads : Leads m T.span root) (enough : r.length < fuel) :
    ∃ x, findUnlockedFrom fuel root r m = .ok (x, m) ∧ ∀ v, x = some v ↔ Bound m F (p ++ r) v := by
  induction fuel generalizing p r T root with
  | zero => exact absurd enough (Nat.not_lt_zero _)
  | succ fuel ih =>
      obtain ⟨a, t, b, lands, reach, alive⟩ := table.lands here first leads
      obtain ⟨q, above⟩ := up_of_body lands.body
      rw [findUnlockedFrom, bind_ok reach]
      simp only [alive, Bool.false_eq_true, if_false]
      rw [bind_ok (leaf_ok lands.body above)]
      cases found : (b.lower (.ofBytes r)).2 with
      | none =>
          have found' : (LeafBody.lower { b with parent := q } (.ofBytes r)).2 = none := found
          simp only [found']
          refine ⟨none, rfl, fun v => ⟨fun found => (by cases found), fun bound => ?_⟩⟩
          exact absurd bound (lands.bound_none table found)
      | some i =>
          have found' : (LeafBody.lower { b with parent := q } (.ofBytes r)).2 = some i := found
          have same : LeafBody.ksufMatches { b with parent := q } i (.ofBytes r) = b.ksufMatches i (.ofBytes r) := rfl
          simp only [found', same]
          cases matched : b.ksufMatches i (.ofBytes r) with
          | same =>
              refine ⟨some (b.lv i), rfl, fun v => ?_⟩
              rw [lands.bound_some table found (by rw [matched]; simp), matched, Option.some.injEq, eq_comm]
              exact ⟨fun same => ⟨rfl, same⟩, fun both => both.2⟩
          | differ =>
              refine ⟨none, rfl, fun v => ⟨fun found => (by cases found), fun bound => ?_⟩⟩
              rw [lands.bound_some table found (by rw [matched]; simp), matched] at bound
              cases bound.1
          | layer =>
              obtain ⟨U, there, leads', more, long⟩ := lands.next table found matched
              have shorter : (r.drop ikeySize).length < fuel := by
                rw [List.length_drop]
                simp only [ikeySize] at long ⊢
                omega
              obtain ⟨x, run, bound⟩ := ih there (.inr more) leads' shorter
              refine ⟨x, run, fun v => ?_⟩
              rw [bound v, List.append_assoc, List.take_append_drop]

/-- A lookup finds what the key is bound to. -/
theorem findUnlocked_ok (table : Table m F ∅) (s : List UInt8) :
    ∃ x, findUnlocked s m = .ok (x, m) ∧ ∀ v, x = some v ↔ Bound m F s v := by
  obtain ⟨T, here, leads, -⟩ := table.root
  exact findUnlockedFrom_ok (s.length + 1) table here (.inl rfl) leads (Nat.lt_succ_self _)

end Incll.Proof.Layers
