import Incll.Proof.Layers.Rewrite

/-! # The layers of a table

Each layer is known by the slices that lead to it. A key is bound in the layer where its slices stop leading to
another one. -/

namespace Incll.Proof.Layers
open Incll.Lib Incll.Model Incll.Model.Layers

/-- The root of a layer and the spans of its nodes. -/
structure Part where
  top : Addr
  span : Addr → Option Span

abbrev Forest := List UInt8 → Option Part

/-- An entry of a layer. -/
def Has (m : Mem) (span : Addr → Option Span) (e : Entry) : Prop :=
  ∃ a t b, span a = some t ∧ m.body a = some b ∧ e ∈ entries b

/-- An entry that leads to another layer. -/
def layerEntry (slice : List UInt8) (lv : Leafvalue) : Entry := ⟨Key.comparable slice, layerKeylenx, [], lv⟩

/-- A layer in use. The bound of a leaf is where its ikeys start. -/
structure Sound (m : Mem) (T : Part) (held : Finset Addr) : Prop where
  layer : Layer m T.span T.top held
  snug : ∀ a t b, T.span a = some t → m.body a = some b → t.lo ≠ 0 → b.ikeyBound = t.lo
  live : ∀ a t b, T.span a = some t → m.body a = some b → b.modstate ≠ .deletedLayer

/-- The layers have no nodes in common. -/
structure Grove (m : Mem) (F : Forest) (held : Finset Addr) : Prop where
  nodes : Nodes m
  each : ∀ p T, F p = some T → Sound m T held
  apart : ∀ p q T U a s t, F p = some T → F q = some U → T.span a = some s → U.span a = some t → p = q

/-- The entry leads to the layer of its slice. -/
def Pointed (m : Mem) (F : Forest) (p : List UInt8) (e : Entry) : Prop :=
  ∃ slice U, slice.length = ikeySize ∧ Key.comparable slice = e.ikey ∧ F (p ++ slice) = some U ∧
    Leads m U.span e.lv.layer

/-- Each layer but the first has an entry that leads to it. Only the first layer has an entry for the empty
rest of a key. -/
structure Linked (m : Mem) (F : Forest) : Prop where
  root : ∃ T, F [] = some T ∧ Leads m T.span m.root ∧ ∀ cb ∈ m.callbacks, Leads m T.span cb.root
  down : ∀ p T e, F p = some T → Has m T.span e → e.keylenx = layerKeylenx → Pointed m F p e
  up : ∀ q U, F q = some U → q = [] ∨ ∃ p slice T lv, q = p ++ slice ∧ slice.length = ikeySize ∧ F p = some T ∧
    Has m T.span (layerEntry slice lv)
  rest : ∀ p T e, F p = some T → p ≠ [] → Has m T.span e → e.keylenx ≠ 0

structure Table (m : Mem) (F : Forest) (held : Finset Addr) : Prop extends Grove m F held, Linked m F

/-- The table binds the key to the value. -/
def Bound (m : Mem) (F : Forest) (s : List UInt8) (v : Leafvalue) : Prop :=
  ∃ p r T, s = p ++ r ∧ F p = some T ∧ Has m T.span (Key.entry (.ofBytes r) v)

variable {m m' : Mem} {F F' : Forest} {T T' U : Part} {held held' : Finset Addr} {p q r r' x : List UInt8}
  {e e' : Entry} {v w lv : Leafvalue} {a : Addr} {t : Span} {b : LeafBody}

/-! Entries. -/

theorem rank_layerEntry {slice : List UInt8} (lv : Leafvalue) (long : ikeySize < r.length)
    (same : Key.comparable slice = Key.comparable r) : (layerEntry slice lv).rank = Key.rank (.ofBytes r) := by
  change rank (Key.comparable slice) layerKeylenx = rank (Key.comparable r) r.length
  have length : min r.length 9 = 9 := min_eq_right long
  rw [rank, rank, same, length]
  rfl

theorem Sound.place (sound : Sound m T held) (known : T.span a = some t) (body : m.body a = some b)
    (member : e ∈ entries b) : t.lo ≤ e.ikey ∧ e.ikey < t.hi :=
  (sound.layer.leaves a t b known body).inside e member

/-- An entry is in the leaf that is responsible for its ikey. -/
theorem Sound.has_iff (sound : Sound m T held) (known : T.span a = some t) (body : m.body a = some b)
    (low : t.lo ≤ e.ikey) (high : e.ikey < t.hi) : Has m T.span e ↔ e ∈ entries b := by
  constructor
  · rintro ⟨c, u, d, known', body', member⟩
    obtain ⟨low', high'⟩ := sound.place known' body' member
    obtain rfl := sound.layer.tree.leaf_unique known low high known' low' high' (inner_of_body body)
      (inner_of_body body')
    obtain rfl := Option.some.inj (body.symm.trans body')
    exact member
  · exact fun member => ⟨a, t, b, known, body, member⟩

theorem Sorted.eq_of_rank {l : List Entry} (sorted : Sorted l) (here : e ∈ l) (there : e' ∈ l)
    (same : e.rank = e'.rank) : e = e' := by
  have ranks : (l.map Entry.rank).Nodup := (sorted.map Entry.rank fun _ _ less => less).imp ne_of_lt
  exact List.inj_on_of_nodup_map ranks here there same

/-- A place in the order of a layer has one entry. -/
theorem Sound.has_unique (sound : Sound m T held) (here : Has m T.span e) (there : Has m T.span e')
    (same : e.rank = e'.rank) : e = e' := by
  obtain ⟨a, t, b, known, body, member⟩ := here
  have place := sound.place known body member
  have there' : e' ∈ entries b := by
    refine (sound.has_iff known body ?_ ?_).mp there
    · rw [← (rank_inj same).1]
      exact place.1
    · rw [← (rank_inj same).1]
      exact place.2
  exact (sound.layer.leaves a t b known body).ok.sorted.eq_of_rank member there' same

theorem Sound.entryOk (sound : Sound m T held) (here : Has m T.span e) : EntryOk e := by
  obtain ⟨a, t, b, known, body, member⟩ := here
  exact (sound.layer.leaves a t b known body).ok.each e member

/-- An entry with the length of a layer has no suffix. -/
theorem Sound.eq_layerEntry (sound : Sound m T held) (here : Has m T.span e) (layer : e.keylenx = layerKeylenx)
    (same : Key.comparable x = e.ikey) : e = layerEntry x e.lv := by
  have empty : e.suffix = [] := by
    by_contra some
    have := (sound.entryOk here).suffix.mp some
    rw [layer] at this
    cases this
  cases e
  simp only at layer empty same
  rw [layer, empty, ← same]
  rfl

/-- A layer has no key that goes on after a slice that leads to another layer. -/
theorem Sound.conflict (sound : Sound m T held) (there : Has m T.span (layerEntry x lv))
    (here : Has m T.span (Key.entry (.ofBytes r) v)) (long : ikeySize < r.length)
    (same : Key.comparable x = Key.comparable r) : False := by
  have equal := sound.has_unique there here (by rw [rank_layerEntry lv long same, Key.rank_entry])
  have lens := congrArg Entry.keylenx equal
  have has : (Key.ofBytes r).hasSuffix = true := decide_eq_true long
  rw [Key.entry, has] at lens
  cases lens

/-! Paths. -/

section
variable (linked : Linked m F)
include linked

theorem Linked.slices (here : F p = some T) : ikeySize ∣ p.length := by
  induction h : p.length using Nat.strong_induction_on generalizing p T with
  | _ n ih =>
      subst h
      rcases linked.up p T here with rfl | ⟨q, slice, U, lv, rfl, length, known, -⟩
      · exact dvd_zero _
      · rw [List.length_append, length] at ih ⊢
        exact Nat.dvd_add (ih q.length (Nat.lt_add_of_pos_right (by decide)) known rfl) dvd_rfl

/-- Below a layer, the first slice of the way has an entry. -/
theorem Linked.path (here : F p = some T) (there : F (p ++ x) = some U) (some : x ≠ []) :
    ikeySize ≤ x.length ∧ ∃ lv, Has m T.span (layerEntry (x.take ikeySize) lv) := by
  induction h : x.length using Nat.strong_induction_on generalizing x U with
  | _ n ih =>
      subst h
      have whole := linked.slices there
      have pos := List.length_pos_of_ne_nil some
      rw [List.length_append, Nat.dvd_add_right (linked.slices here)] at whole
      have long : ikeySize ≤ x.length := Nat.le_of_dvd pos whole
      refine ⟨long, ?_⟩
      rcases linked.up _ _ there with nil | ⟨q, slice, T', lv, same, length, known, has⟩
      · exact absurd (List.append_eq_nil_iff.mp nil).2 some
      · have halves : q ++ slice = p ++ x.take (x.length - ikeySize) ++ x.drop (x.length - ikeySize) := by
          rw [List.append_assoc, List.take_append_drop, same]
        have cut : q = p ++ x.take (x.length - ikeySize) ∧ slice = x.drop (x.length - ikeySize) := by
          refine List.append_inj' halves ?_
          rw [length, List.length_drop]
          omega
        obtain ⟨rfl, rfl⟩ := cut
        by_cases last : x.length = ikeySize
        · rw [last, Nat.sub_self, List.take_zero, List.append_nil] at known
          obtain rfl := Option.some.inj (here.symm.trans known)
          rw [last, Nat.sub_self, List.drop_zero] at has
          rw [List.take_of_length_le last.le]
          exact ⟨lv, has⟩
        · have length' : (x.take (x.length - ikeySize)).length = x.length - ikeySize := by
            rw [List.length_take]
            omega
          have more : 2 * ikeySize ≤ x.length := by
            obtain ⟨k, same⟩ := whole
            rw [same] at last long ⊢
            simp only [ikeySize] at last long ⊢
            omega
          have small : x.length - ikeySize < x.length := by
            simp only [ikeySize] at more ⊢
            omega
          have nonempty : x.take (x.length - ikeySize) ≠ [] := by
            refine List.ne_nil_of_length_pos ?_
            rw [length']
            simp only [ikeySize] at more ⊢
            omega
          obtain ⟨-, lv, has⟩ := ih _ (length'.trans_lt small) known nonempty rfl
          refine ⟨lv, ?_⟩
          rw [List.take_take, min_eq_left] at has
          · exact has
          · simp only [ikeySize] at more ⊢
            omega

end

/-! Keys. -/

/-- The layer of `p` has the slice of `r` as an entry that leads on. -/
def Onward (m : Mem) (T : Part) (r : List UInt8) : Prop :=
  ikeySize < r.length ∧ ∃ lv, Has m T.span (layerEntry r lv)

theorem comparable_take (long : ikeySize ≤ r.length) : Key.comparable (r.take ikeySize) = Key.comparable r := by
  have length : (r.take ikeySize).length = ikeySize := by
    rw [List.length_take, min_eq_left long]
  have same := comparable_append length (r.drop ikeySize)
  rwa [List.take_append_drop, eq_comm] at same

theorem layerEntry_congr (same : Key.comparable x = Key.comparable r) (lv : Leafvalue) :
    layerEntry x lv = layerEntry r lv := by
  rw [layerEntry, layerEntry, same]

section
variable (table : Table m F held)
include table

/-- A key is bound where its slices stop leading on. -/
theorem Table.place_eq (here : F p = some T) (rest : p = [] ∨ r ≠ []) (stops : ¬ Onward m T r)
    (there : F q = some U) (has : Has m U.span (Key.entry (.ofBytes r') v)) (same : q ++ r' = p ++ r) : q = p := by
  have sound := table.each p T here
  rcases List.append_eq_append_iff.mp same with ⟨x, below, left⟩ | ⟨x, below, right⟩
  · -- the entry is in a layer above
    by_contra ne
    have some : x ≠ [] := by
      rintro rfl
      rw [List.append_nil] at below
      exact ne below.symm
    have more : p ≠ [] := by
      rintro rfl
      exact some (List.append_eq_nil_iff.mp below.symm).2
    subst below
    obtain ⟨long, lv, has'⟩ := table.path there here some
    have longer : ikeySize < r'.length := by
      rw [left, List.length_append]
      have := List.length_pos_of_ne_nil (rest.resolve_left more)
      omega
    refine (table.each q U there).conflict has' has longer ?_
    rw [comparable_take long]
    have length : (x.take ikeySize).length = ikeySize := by rw [List.length_take, min_eq_left long]
    rw [left, ← comparable_take long, ← comparable_append length (x.drop ikeySize ++ r), ← List.append_assoc,
      List.take_append_drop]
  · -- the entry is in a layer below
    by_contra ne
    have some : x ≠ [] := by
      rintro rfl
      rw [List.append_nil] at below
      exact ne below
    have more : q ≠ [] := by
      rintro rfl
      exact some (List.append_eq_nil_iff.mp below.symm).2
    subst below
    obtain ⟨long, lv, has'⟩ := table.path here there some
    have keylen := table.rest _ U _ there more has
    have nonempty : r' ≠ [] := by
      rintro rfl
      exact keylen rfl
    have longer : ikeySize < r.length := by
      rw [right, List.length_append]
      have := List.length_pos_of_ne_nil nonempty
      omega
    refine stops ⟨longer, lv, ?_⟩
    have length : (x.take ikeySize).length = ikeySize := by rw [List.length_take, min_eq_left long]
    have same : Key.comparable (x.take ikeySize) = Key.comparable r := by
      rw [right, ← comparable_append length (x.drop ikeySize ++ r'), ← List.append_assoc, List.take_append_drop]
    rwa [layerEntry_congr same] at has'

theorem Table.bound_iff (here : F p = some T) (rest : p = [] ∨ r ≠ []) (stops : ¬ Onward m T r) :
    Bound m F (p ++ r) v ↔ Has m T.span (Key.entry (.ofBytes r) v) := by
  constructor
  · rintro ⟨q, r', U, same, there, has⟩
    obtain rfl := table.place_eq here rest stops there has same.symm
    obtain rfl := Option.some.inj (here.symm.trans there)
    obtain rfl := List.append_cancel_left same
    exact has
  · exact fun has => ⟨p, r, T, rfl, here, has⟩

/-- A key is bound to one value. -/
theorem Table.bound_unique {s : List UInt8} (first : Bound m F s v) (second : Bound m F s w) : v = w := by
  obtain ⟨p, r, T, rfl, here, has⟩ := first
  have rest : p = [] ∨ r ≠ [] := by
    by_cases empty : r = []
    · subst empty
      exact .inl (by_contra fun more => table.rest p T _ here more has rfl)
    · exact .inr empty
  have stops : ¬ Onward m T r := by
    rintro ⟨long, lv, has'⟩
    exact (table.each p T here).conflict has' has long rfl
  have has' := (table.bound_iff here rest stops).mp second
  have equal := (table.each p T here).has_unique has has' (by rw [Key.rank_entry, Key.rank_entry])
  exact congrArg Entry.lv equal

/-- The next layer on the way of a key. -/
theorem Table.onward (here : F p = some T) (long : ikeySize < r.length)
    (has : Has m T.span e) (layer : e.keylenx = layerKeylenx) (ikey : e.ikey = Key.comparable r) :
    ∃ U, F (p ++ r.take ikeySize) = some U ∧ Leads m U.span e.lv.layer ∧ r.drop ikeySize ≠ [] := by
  obtain ⟨slice, U, length, same, there, leads⟩ := table.down p T e here has layer
  have slices : slice.take ikeySize = r.take ikeySize := by
    refine take_eq (same.trans ikey) ?_
    rw [length]
    exact (Nat.min_eq_right long.le).symm
  rw [List.take_of_length_le length.le] at slices
  refine ⟨U, slices ▸ there, leads, ?_⟩
  rw [ne_eq, List.drop_eq_nil_iff, not_le]
  exact long

end

end Incll.Proof.Layers
