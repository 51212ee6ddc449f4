import Incll.Proof.Layers.LayerCreation
import Incll.Proof.Layers.Live
import Incll.Proof.Table.Split

/-! # A table that gets new layers -/

namespace Incll.Proof.Layers
open Incll.Lib Incll.Model Incll.Model.Layers

variable {m m' s : Mem} {F : Forest} {T U : Part} {c : Layers.Tcursor} {a : Addr} {t : Span} {b : LeafBody}
  {i j k : Nat} {e : Entry} {v w : Leafvalue} {p q r x base rest : List UInt8}

theorem live_alone (nodes : Nodes m) {held : Finset Addr} (sound : Sound m T held) : Live (alone m T.span) := by
  intro a b body
  by_cases known : T.span a = none
  · obtain ⟨q, above⟩ := up_of_body body
    rw [Mem.up, alone] at above
    dsimp only at above
    by_cases small : a < m.fresh
    · rw [if_pos ⟨known, small⟩] at above
      cases above
    · rw [if_neg fun both => small both.2] at above
      exact absurd (nodes.each a q above).2.1 small
  · obtain ⟨t, known⟩ := Option.ne_none_iff_exists'.mp known
    rw [(sameNode_alone known).body] at body
    exact sound.live a t b known body

/-! The new layers. -/

/-- `k + 1` layers of one leaf, the first at `base` and each at the next slice of `rest`. -/
def sprouted (F : Forest) (m : Mem) (base rest : List UInt8) (k : Nat) : Forest := fun q =>
  if ∃ j ∈ List.range (k + 1), q = base ++ rest.take (ikeySize * j) then
    some (lone (twigNode m ((q.length - base.length) / ikeySize)))
  else F q

theorem sprouted_new (long : ikeySize * k ≤ rest.length) (le : j ≤ k) :
    sprouted F m base rest k (base ++ rest.take (ikeySize * j)) = some (lone (twigNode m j)) := by
  have less : ikeySize * j ≤ rest.length := (Nat.mul_le_mul_left _ le).trans long
  rw [sprouted, if_pos ⟨j, List.mem_range.mpr (by omega), rfl⟩, List.length_append, List.length_take, min_eq_left less,
    Nat.add_sub_cancel_left, Nat.mul_div_cancel_left _ (by decide)]

theorem sprouted_old (off : ∀ x, F (base ++ x) = none) (known : F q = some U) : sprouted F m base rest k q = some U := by
  rw [sprouted, if_neg, known]
  rintro ⟨j, -, rfl⟩
  rw [off] at known
  cases known

theorem sprouted_cases (long : ikeySize * k ≤ rest.length) (known : sprouted F m base rest k q = some U) :
    (∃ j ≤ k, q = base ++ rest.take (ikeySize * j) ∧ U = lone (twigNode m j)) ∨ F q = some U := by
  by_cases new : ∃ j ∈ List.range (k + 1), q = base ++ rest.take (ikeySize * j)
  · obtain ⟨j, member, rfl⟩ := new
    have le : j ≤ k := by
      rw [List.mem_range] at member
      omega
    rw [sprouted_new long le] at known
    exact .inl ⟨j, le, rfl, (Option.some.inj known).symm⟩
  · rw [sprouted, if_neg new] at known
    exact .inr known

/-- The place of a new layer tells which one it is. -/
theorem sprouted_inj (long : ikeySize * k ≤ rest.length) {j j' : Nat} (le : j ≤ k) (le' : j' ≤ k)
    (same : base ++ rest.take (ikeySize * j) = base ++ rest.take (ikeySize * j')) : j = j' := by
  have lengths := congrArg List.length same
  have less : ikeySize * j ≤ rest.length := (Nat.mul_le_mul_left _ le).trans long
  have less' : ikeySize * j' ≤ rest.length := (Nat.mul_le_mul_left _ le').trans long
  rw [List.length_append, List.length_append, List.length_take, List.length_take, min_eq_left less,
    min_eq_left less'] at lengths
  exact Nat.eq_of_mul_eq_mul_left (by decide) (Nat.add_left_cancel lengths)

/-! The keys of the twig. -/

/-- The new layers of a key and of the one that it meets. -/
structure Sprout (m m' : Mem) (c : Layers.Tcursor) (b : LeafBody) (i k : Nat) (v : Leafvalue) : Prop where
  /-- The rests have more slices in common, and then they differ. -/
  long : ikeySize * k ≤ (c.rest.drop ikeySize).length
  nonempty : ∀ j ≤ k, oldRest b i j ≠ [] ∧ newRest c j ≠ []
  slices : ∀ j < k, ikeySize < (oldRest b i j).length ∧ ikeySize < (newRest c j).length ∧
    (oldRest b i j).take ikeySize = (newRest c j).take ikeySize
  sound : ∀ j ≤ k, Sound m' (lone (twigNode m j)) ∅
  twig : ∀ j < k, ∀ e, Has m' (single (twigNode m j)) e ↔
    e = layerEntry (newRest c j) (.ofLayer (twigNode m (j + 1)))
  bottom : ∀ e, Has m' (single (twigNode m k)) e ↔
    e = Key.entry (.ofBytes (oldRest b i k)) (b.lv i) ∨ e = Key.entry (.ofBytes (newRest c k)) v

theorem Merged.twigNode {span : Addr → Option Span} (merged : Merged m s m' span) (j : Nat) :
    SameNode s m' (twigNode m j) := merged.same _ (.inr (le_twigNode j))

section
variable (nodes : Nodes m) (conflict : Conflict (alone m T.span) T.span T.top c t b i)
  (made : Made (alone m T.span) c b i v k s) (live : Live s) (merged : Merged m s m' T.span)
  (nonempty : b.getKsuf i ≠ [] ∧ c.rest.drop ikeySize ≠ [])
include nodes conflict made live merged nonempty

theorem Made.sprout : Sprout m m' c b i k v := by
  have differ : b.getKsuf i ≠ c.rest.drop ikeySize := conflict.differ
  have step (j : Nat) (less : j < k) := longer_of_eq (drop_ne differ made.equal less.le) (made.equal j less)
  have fresh : m.fresh = (alone m T.span).fresh := rfl
  have slices (j : Nat) (less : j < k) : ikeySize < (oldRest b i j).length ∧ ikeySize < (newRest c j).length ∧
      (oldRest b i j).take ikeySize = (newRest c j).take ikeySize := by
    obtain ⟨long, long', same, -⟩ := step j less
    exact ⟨long, long', same⟩
  have layer {j : Nat} {d : LeafBody} (le : j ≤ k) (body : s.body (twigNode m j) = some d) (ok : EntriesOk d)
      (inside : ∀ e ∈ entries d, e.ikey < ikeyLimit) (next : d.next = 0) (prev : d.prev = 0) :
      Sound m' (lone (twigNode m j)) ∅ := by
    have layer : Layer s (single (twigNode m j)) (twigNode m j) ∅ :=
      made.root_layer nodes.positive le body ok inside next prev
    have body' : m'.body (twigNode m j) = some d := by rw [(merged.twigNode j).body, body]
    refine sound_lone (layer.frame merged.fresh.le fun x t known => ?_) body' (live _ d body)
    obtain ⟨rfl, -⟩ := single_eq known
    exact merged.twigNode j
  obtain ⟨d, body, two⟩ := made.bottom
  have two_iff {e : Entry} : e ∈ entries d ↔ e = Key.entry (.ofBytes (oldRest b i k)) (b.lv i) ∨
      e = Key.entry (.ofBytes (newRest c k)) v := by
    rcases two.two with all | all
    · rw [all, List.mem_cons, List.mem_singleton]
    · rw [all, List.mem_cons, List.mem_singleton, or_comm]
  refine ⟨?_, fun j le => ?_, slices, fun j le => ?_, fun j less e => ?_, fun e => ?_⟩
  · cases k with
    | zero => exact Nat.zero_le _
    | succ k =>
        have more := (slices k (Nat.lt_succ_self k)).2.1
        rw [newRest, List.length_drop] at more
        simp only [ikeySize] at more ⊢
        omega
  · cases j with
    | zero => simpa [oldRest, newRest] using nonempty
    | succ j =>
        obtain ⟨long, long', -⟩ := slices j le
        simp only [oldRest, newRest, List.length_drop, ikeySize] at long long'
        simp only [oldRest, newRest, ne_eq, List.drop_eq_nil_iff, List.length_drop, ikeySize]
        omega
  · rcases Nat.lt_or_ge j k with less | last
    · refine layer le (made.twig j less) (entriesOk_twigBody ..) (fun e member => ?_) rfl rfl
      rw [entries_twigBody, List.mem_singleton] at member
      rw [member]
      exact comparable_lt _
    · obtain rfl : j = k := by omega
      refine layer le body two.ok (fun e member => ?_) two.next two.prev
      rcases two_iff.mp member with rfl | rfl <;> exact comparable_lt _
  · have body' : m'.body (twigNode m j) = some (twigBody (oldRest b i j) (.ofLayer (twigNode m (j + 1)))) := by
      rw [(merged.twigNode j).body]
      exact made.twig j less
    obtain ⟨long, long', same⟩ := slices j less
    rw [has_single body', entries_twigBody, List.mem_singleton, layerEntry, comparable_of_take same long long']
  · have body' : m'.body (twigNode m k) = some d := by
      rw [(merged.twigNode k).body]
      exact body
    rw [has_single body', two_iff]

end

/-! The layer of the leaf. -/

theorem mem_toLayer (ok : EntriesOk b) (live : i ∈ b.permutation.live) : e ∈ entries (toLayer b i v) ↔
    e = ⟨b.ikey0 i, layerKeylenx, [], v⟩ ∨ e ∈ entries b ∧ e.rank ≠ (entryAt b i).rank := by
  constructor
  · intro member
    obtain ⟨q, live', rfl⟩ := mem_entries.mp member
    change q ∈ b.permutation.live at live'
    rw [entryAt_toLayer]
    split
    · exact .inl rfl
    · next ne => exact .inr ⟨mem_entries.mpr ⟨q, live', rfl⟩, fun same => ne (slot_eq_of_rank ok live' live same)⟩
  · rintro (rfl | ⟨member, ne⟩)
    · exact mem_entries.mpr ⟨i, live, by rw [entryAt_toLayer, if_pos rfl]⟩
    · obtain ⟨q, live', rfl⟩ := mem_entries.mp member
      refine mem_entries.mpr ⟨q, live', ?_⟩
      rw [entryAt_toLayer, if_neg]
      rintro rfl
      exact ne rfl

theorem rank_slot (conflict : Conflict (alone m T.span) T.span T.top c t b i) :
    (entryAt b i).rank = Key.rank c.key ∧ entryAt b i =
      Key.entry (.ofBytes (c.rest.take ikeySize ++ b.getKsuf i)) (b.lv i) ∧ ikeySize < c.rest.length := by
  have long : ikeySize < c.rest.length := decide_eq_true_iff.mp conflict.new
  have keylenx : b.keylenx i = ksufKeylenx := hasKsuf_keylenx.mp conflict.old
  have slice : (c.rest.take ikeySize).length = ikeySize := by rw [List.length_take, min_eq_left long.le]
  have entryOk := (conflict.layer.leaves _ _ _ conflict.here conflict.body).ok.each _
    (mem_entries.mpr ⟨i, conflict.live, rfl⟩)
  have nonempty : b.getKsuf i ≠ [] := by
    have := entryOk.suffix.mpr keylenx
    rwa [entryAt, conflict.old, if_pos rfl] at this
  have suffix : (Key.ofBytes (c.rest.take ikeySize ++ b.getKsuf i)).hasSuffix = true := by
    refine decide_eq_true ?_
    change ikeySize < (c.rest.take ikeySize ++ b.getKsuf i).length
    rw [List.length_append, slice]
    exact Nat.lt_add_of_pos_right (List.length_pos_of_ne_nil nonempty)
  refine ⟨?_, ?_, long⟩
  · rw [Entry.rank, entryAt, conflict.ikey, keylenx]
    change rank _ 64 = rank (Key.comparable c.rest) c.rest.length
    have length : min c.rest.length 9 = 9 := min_eq_right long
    rw [rank, rank, length]
    rfl
  · rw [entryAt, Key.entry, conflict.old, suffix, conflict.ikey, keylenx, if_pos rfl, if_pos rfl]
    congr 1
    · change Key.comparable c.rest = Key.comparable (c.rest.take ikeySize ++ b.getKsuf i)
      rw [comparable_append slice, comparable_take long.le]
    · change b.getKsuf i = (c.rest.take ikeySize ++ b.getKsuf i).drop ikeySize
      rw [List.drop_left' slice]

section
variable (conflict : Conflict (alone m T.span) T.span T.top c t b i) (made : Made (alone m T.span) c b i v k s)
  (merged : Merged m s m' T.span)
include made merged

theorem made_here (lands : Lands m F c.before c.rest T c.n t b) :
    m'.body c.n = some (toLayer b i (.ofLayer m.fresh)) := by
  obtain ⟨-, -, here, -⟩ := made.leaf
  rw [(merged.same c.n (.inl (by rw [lands.known]; exact Option.some_ne_none t))).body]
  exact here

include conflict

theorem made_other {u : Span} (known : T.span a = some u) (ne : a ≠ c.n) : m'.body a = m.body a := by
  obtain ⟨-, -, -, body⟩ := made.kept conflict known
  rw [(merged.same a (.inl (by rw [known]; exact Option.some_ne_none u))).body, body ne, (sameNode_alone known).body]

variable (table : Table m F {c.n}) (lands : Lands m F c.before c.rest T c.n t b)
include table lands

/-- The layer has an entry for the new layers in place of the old one. -/
theorem made_has : Has m' T.span e ↔
    e = layerEntry c.rest (.ofLayer m.fresh) ∨ Has m T.span e ∧ e.rank ≠ Key.rank c.key := by
  have sound := table.each _ T lands.here
  have ok := (sound.layer.leaves _ _ _ lands.known lands.body).ok
  obtain ⟨rank, -, -⟩ := rank_slot conflict
  have mem {e : Entry} := mem_toLayer (e := e) (v := .ofLayer m.fresh) ok conflict.live
  have new : (⟨b.ikey0 i, layerKeylenx, [], .ofLayer m.fresh⟩ : Entry) = layerEntry c.rest (.ofLayer m.fresh) := by
    rw [conflict.ikey]
    rfl
  rw [new, rank] at mem
  constructor
  · rintro ⟨a, u, d, known, body, member⟩
    by_cases same : a = c.n
    · subst same
      obtain rfl := Option.some.inj (body.symm.trans (made_here made merged lands))
      rcases mem.mp member with equal | ⟨old, ne⟩
      · exact .inl equal
      · exact .inr ⟨⟨c.n, t, b, lands.known, lands.body, old⟩, ne⟩
    · rw [made_other conflict made merged known same] at body
      refine .inr ⟨⟨a, u, d, known, body, member⟩, fun ranks => same ?_⟩
      obtain ⟨low, high⟩ := sound.place known body member
      rw [(rank_inj ranks).1] at low high
      exact sound.layer.tree.leaf_unique known low high lands.known lands.inside.1 lands.inside.2 (inner_of_body body)
        (inner_of_body lands.body)
  · rintro (rfl | ⟨⟨a, u, d, known, body, member⟩, ne⟩)
    · exact ⟨c.n, t, _, lands.known, made_here made merged lands, mem.mpr (.inl rfl)⟩
    · by_cases same : a = c.n
      · subst same
        obtain rfl := Option.some.inj (body.symm.trans lands.body)
        exact ⟨c.n, t, _, lands.known, made_here made merged lands, mem.mpr (.inr ⟨member, ne⟩)⟩
      · rw [← made_other conflict made merged known same] at body
        exact ⟨a, u, d, known, body, member⟩

theorem made_changed : Changed m m' T T {c.n} ∅ := by
  have sound := table.each _ T lands.here
  have near {a : Addr} {u : Span} (known : T.span a = some u) : SameNode s m' a :=
    merged.same a (.inl (by rw [known]; exact Option.some_ne_none u))
  have layer : Layer m' T.span T.top ∅ :=
    (made.layer conflict).frame merged.fresh.le fun a u known => near known
  refine ⟨merged.around, ⟨layer, fun a u d known body pos => ?_, fun a u d known body => ?_⟩, fun a u known => .inl ?_,
    fun a u known first => .here known first, fun a off _ => ?_⟩
  · by_cases same : a = c.n
    · subst same
      obtain rfl := Option.some.inj (body.symm.trans (made_here made merged lands))
      obtain rfl := Option.some.inj (known.symm.trans lands.known)
      exact sound.snug c.n u b lands.known lands.body pos
    · rw [made_other conflict made merged known same] at body
      exact sound.snug a u d known body pos
  · by_cases same : a = c.n
    · subst same
      obtain rfl := Option.some.inj (body.symm.trans (made_here made merged lands))
      exact sound.live c.n t b lands.known lands.body
    · rw [made_other conflict made merged known same] at body
      exact sound.live a u d known body
  · rw [known]
    exact Option.some_ne_none u
  · have ne : a ≠ c.n := by
      rintro rfl
      rw [lands.known] at off
      cases off
    simp [ne]

end

/-! `make_new_layer` in the table. -/

/-- The place of the next layer of the twig. -/
theorem take_newRest (c : Layers.Tcursor) (j : Nat) : (c.rest.drop ikeySize).take (ikeySize * (j + 1)) =
    (c.rest.drop ikeySize).take (ikeySize * j) ++ (newRest c j).take ikeySize := by
  rw [newRest, Nat.mul_succ, List.take_add]

theorem leads_lone {z : Addr} (same : z = a) : Leads m (lone a).span z := same ▸ .here single_self rfl

theorem layerKeylenx_ne_zero : layerKeylenx ≠ 0 := by decide

theorem keylenx_ne_zero (some : x ≠ []) (v : Leafvalue) : (Key.entry (.ofBytes x) v).keylenx ≠ 0 := by
  rw [Key.entry]
  dsimp only
  split
  · decide
  · change x.length ≠ 0
    exact fun zero => some (List.eq_nil_of_length_eq_zero zero)

section
variable (table : Table m F {c.n}) (lands : Lands m F c.before c.rest T c.n t b)
  (conflict : Conflict (alone m T.span) T.span T.top c t b i)
include table lands conflict

/-- There are no layers below the slice of the key yet. -/
theorem sprout_free (x : List UInt8) : F ((c.before ++ c.rest.take ikeySize) ++ x) = none := by
  cases there : F ((c.before ++ c.rest.take ikeySize) ++ x) with
  | none => rfl
  | some U =>
      exfalso
      obtain ⟨-, entry, long⟩ := rank_slot conflict
      have slice : (c.rest.take ikeySize).length = ikeySize := by rw [List.length_take, min_eq_left long.le]
      have some : c.rest.take ikeySize ++ x ≠ [] := by
        refine List.ne_nil_of_length_pos ?_
        rw [List.length_append, slice]
        exact Nat.add_pos_left (by decide) _
      rw [List.append_assoc] at there
      obtain ⟨-, lv, has⟩ := table.path lands.here there some
      rw [List.take_left' slice] at has
      have member : entryAt b i ∈ entries b := mem_entries.mpr ⟨i, conflict.live, rfl⟩
      rw [entry] at member
      have nonempty : b.getKsuf i ≠ [] := by
        have entryOk := (conflict.layer.leaves _ _ _ conflict.here conflict.body).ok.each _
          (mem_entries.mpr ⟨i, conflict.live, rfl⟩)
        have := entryOk.suffix.mpr (hasKsuf_keylenx.mp conflict.old)
        rwa [entryAt, conflict.old, if_pos rfl] at this
      refine (table.each _ T lands.here).conflict has ⟨c.n, t, b, lands.known, lands.body, member⟩ ?_ ?_
      · rw [List.length_append, slice]
        exact Nat.lt_add_of_pos_right (List.length_pos_of_ne_nil nonempty)
      · rw [← comparable_append slice (b.getKsuf i)]

variable (made : Made (alone m T.span) c b i v k s) (merged : Merged m s m' T.span)
include made merged

theorem sprout_leads {q : List UInt8} (there : F q = some U) (leads : Leads m U.span a) : Leads m' U.span a := by
  obtain ⟨U', there', leads'⟩ :=
    table.toGrove.leads lands.here (made_changed conflict made merged table lands) there leads
  rw [← lands.here, Function.update_eq_self, there] at there'
  obtain rfl := Option.some.inj there'
  exact leads'

variable (sprout : Sprout m m' c b i k v)
include sprout

theorem sprout_grove :
    Grove m' (sprouted F m (c.before ++ c.rest.take ikeySize) (c.rest.drop ikeySize) k) ∅ := by
  have changed := made_changed conflict made merged table lands
  have grove := table.toGrove.change lands.here changed
  rw [← lands.here, Function.update_eq_self] at grove
  have clash {j : Nat} {q : List UInt8} {U : Part} {a : Addr} {u v : Span} (there : F q = some U)
      (known : (lone (twigNode m j)).span a = some u) (known' : U.span a = some v) : False := by
    obtain ⟨rfl, -⟩ := single_eq known
    exact absurd ((table.each q U there).layer.tree.small _ v known') (not_lt.mpr (le_twigNode j))
  refine ⟨grove.nodes, fun q U there => ?_, fun q q' U U' a u u' there there' known known' => ?_⟩
  · rcases sprouted_cases sprout.long there with ⟨j, le, rfl, rfl⟩ | old
    · exact sprout.sound j le
    · exact grove.each q U old
  · rcases sprouted_cases sprout.long there with ⟨j, le, rfl, rfl⟩ | old
    · rcases sprouted_cases sprout.long there' with ⟨j', le', rfl, rfl⟩ | old'
      · obtain ⟨same, -⟩ := single_eq known
        obtain ⟨same', -⟩ := single_eq known'
        rw [twigNode_inj (same.symm.trans same')]
      · exact (clash old' known known').elim
    · rcases sprouted_cases sprout.long there' with ⟨j', le', rfl, rfl⟩ | old'
      · exact (clash old known' known).elim
      · exact grove.apart q q' U U' a u u' old old' known known'

theorem sprout_linked :
    Linked m' (sprouted F m (c.before ++ c.rest.take ikeySize) (c.rest.drop ikeySize) k) := by
  have changed := made_changed conflict made merged table lands
  have off := sprout_free table lands conflict
  have old {q : List UInt8} {U : Part} (known : F q = some U) :
      sprouted F m (c.before ++ c.rest.take ikeySize) (c.rest.drop ikeySize) k q = some U := sprouted_old off known
  have new {j : Nat} (le : j ≤ k) : sprouted F m (c.before ++ c.rest.take ikeySize) (c.rest.drop ikeySize) k
      (c.before ++ c.rest.take ikeySize ++ (c.rest.drop ikeySize).take (ikeySize * j)) = some (lone (twigNode m j)) :=
    sprouted_new sprout.long le
  have leads {q : List UInt8} {U : Part} {a : Addr} (there : F q = some U) (leads : Leads m U.span a) :=
    sprout_leads table lands conflict made merged there leads
  have has {e : Entry} := made_has (e := e) conflict made merged table lands
  obtain ⟨rank, -, long⟩ := rank_slot conflict
  have slice : (c.rest.take ikeySize).length = ikeySize := by rw [List.length_take, min_eq_left long.le]
  have pointed {q : List UInt8} {e : Entry} (pointed : Pointed m F q e) :
      Pointed m' (sprouted F m (c.before ++ c.rest.take ikeySize) (c.rest.drop ikeySize) k) q e := by
    obtain ⟨slice, U, length, same, there, leads'⟩ := pointed
    exact ⟨slice, U, length, same, old there, leads there leads'⟩
  have pointer (j : Nat) : (Leafvalue.ofLayer (twigNode m j)).layer = twigNode m j ∨ k < j := by
    rcases Nat.lt_or_ge k j with more | le
    · exact .inr more
    · obtain ⟨u, above⟩ := (sprout.sound j le).layer.tree.known _ _ single_self
      exact .inl (merged.around.nodes.layer_ofLayer above)
  refine ⟨?_, fun q U e there has' layer => ?_, fun q U there => ?_, fun q U e there more has' => ?_⟩
  · obtain ⟨R, base, root, callbacks⟩ := table.root
    refine ⟨R, old base, ?_, fun cb member => ?_⟩
    · rw [merged.around.root]
      exact leads base root
    · rw [merged.around.callbacks] at member
      exact leads base (callbacks cb member)
  · rcases sprouted_cases sprout.long there with ⟨j, le, rfl, rfl⟩ | known
    · rcases Nat.lt_or_ge j k with less | last
      · obtain rfl := (sprout.twig j less e).mp has'
        obtain ⟨-, long', -⟩ := sprout.slices j less
        refine ⟨(newRest c j).take ikeySize, lone (twigNode m (j + 1)), ?_, comparable_take long'.le, ?_, ?_⟩
        · rw [List.length_take, min_eq_left long'.le]
        · rw [List.append_assoc, ← take_newRest]
          exact new less
        · exact leads_lone ((pointer (j + 1)).resolve_right (not_lt.mpr less))
      · obtain rfl : j = k := by omega
        rcases (sprout.bottom e).mp has' with rfl | rfl <;> exact absurd layer (keylenx_entry _ _)
    · by_cases same : q = c.before
      · subst same
        obtain rfl := Option.some.inj (known.symm.trans lands.here)
        rcases has.mp has' with rfl | ⟨had, -⟩
        · refine ⟨c.rest.take ikeySize, lone (twigNode m 0), slice, comparable_take long.le, ?_, ?_⟩
          · have first := new (Nat.zero_le k)
            rwa [Nat.mul_zero, List.take_zero, List.append_nil] at first
          · exact leads_lone ((pointer 0).resolve_right (Nat.not_lt_zero _))
        · exact pointed (table.down _ U e known had layer)
      · exact pointed (table.down q U e known ((table.toGrove.has_iff lands.here changed same known).mp has') layer)
  · rcases sprouted_cases sprout.long there with ⟨j, le, rfl, rfl⟩ | known
    · refine .inr ?_
      cases j with
      | zero =>
          refine ⟨c.before, c.rest.take ikeySize, T, .ofLayer m.fresh, by simp, slice, old lands.here, ?_⟩
          rw [layerEntry_congr (comparable_take long.le)]
          exact has.mpr (.inl rfl)
      | succ j =>
          obtain ⟨-, long', -⟩ := sprout.slices j le
          refine ⟨_, (newRest c j).take ikeySize, _, .ofLayer (twigNode m (j + 1)), ?_, ?_, new (Nat.le_of_succ_le le), ?_⟩
          · rw [take_newRest, List.append_assoc, List.append_assoc, List.append_assoc]
          · rw [List.length_take, min_eq_left long'.le]
          · rw [layerEntry_congr (comparable_take long'.le)]
            exact (sprout.twig j le _).mpr rfl
    · rcases table.up q U known with nil | ⟨p, slice', V, lv, same, length, there', has'⟩
      · exact .inl nil
      · refine .inr ⟨p, slice', V, lv, same, length, old there', ?_⟩
        by_cases equal : p = c.before
        · subst equal
          obtain rfl := Option.some.inj (there'.symm.trans lands.here)
          refine has.mpr (.inr ⟨has', fun ranks => ?_⟩)
          have member : entryAt b i ∈ entries b := mem_entries.mpr ⟨i, conflict.live, rfl⟩
          have same := (table.each _ V lands.here).has_unique has' ⟨c.n, t, b, lands.known, lands.body, member⟩
            (ranks.trans rank.symm)
          have lens := congrArg Entry.keylenx same
          rw [show (entryAt b i).keylenx = ksufKeylenx from hasKsuf_keylenx.mp conflict.old] at lens
          cases lens
        · exact (table.toGrove.has_iff lands.here changed equal there').mpr has'
  · rcases sprouted_cases sprout.long there with ⟨j, le, rfl, rfl⟩ | known
    · obtain ⟨nonempty, nonempty'⟩ := sprout.nonempty j le
      rcases Nat.lt_or_ge j k with less | last
      · rw [(sprout.twig j less e).mp has']
        exact layerKeylenx_ne_zero
      · obtain rfl : j = k := by omega
        rcases (sprout.bottom e).mp has' with rfl | rfl
        · exact keylenx_ne_zero nonempty _
        · exact keylenx_ne_zero nonempty' _
    · by_cases same : q = c.before
      · subst same
        obtain rfl := Option.some.inj (known.symm.trans lands.here)
        rcases has.mp has' with rfl | ⟨had, -⟩
        · exact layerKeylenx_ne_zero
        · exact table.rest _ U e known more had
      · exact table.rest q U e known more ((table.toGrove.has_iff lands.here changed same known).mp has')

/-- The new key is bound, and the others are bound as they were. -/
theorem sprout_bound (x : List UInt8) (w : Leafvalue) :
    Bound m' (sprouted F m (c.before ++ c.rest.take ikeySize) (c.rest.drop ikeySize) k) x w ↔
      if x = c.before ++ c.rest then w = v else Bound m F x w := by
  have changed := made_changed conflict made merged table lands
  have off := sprout_free table lands conflict
  have old {q : List UInt8} {U : Part} (known : F q = some U) :
      sprouted F m (c.before ++ c.rest.take ikeySize) (c.rest.drop ikeySize) k q = some U := sprouted_old off known
  have new {j : Nat} (le : j ≤ k) : sprouted F m (c.before ++ c.rest.take ikeySize) (c.rest.drop ikeySize) k
      (c.before ++ c.rest.take ikeySize ++ (c.rest.drop ikeySize).take (ikeySize * j)) = some (lone (twigNode m j)) :=
    sprouted_new sprout.long le
  have has {e : Entry} := made_has (e := e) conflict made merged table lands
  obtain ⟨rank, entry, long⟩ := rank_slot conflict
  have member : entryAt b i ∈ entries b := mem_entries.mpr ⟨i, conflict.live, rfl⟩
  have there : Has m T.span (entryAt b i) := ⟨c.n, t, b, lands.known, lands.body, member⟩
  have stops : ¬ Onward m T c.rest := by
    rintro ⟨long, lv, onward⟩
    have same := (table.each _ T lands.here).has_unique onward there (by rw [rank, rank_layerEntry lv long rfl]; rfl)
    rw [entry] at same
    exact keylenx_entry _ _ (congrArg Entry.keylenx same).symm
  -- the two keys of the last layer
  have deep : ∀ j ≤ k, (c.rest.drop ikeySize).take (ikeySize * j) ++ newRest c j = c.rest.drop ikeySize ∧
      (c.rest.drop ikeySize).take (ikeySize * j) ++ oldRest b i j = b.getKsuf i := by
    intro j
    induction j with
    | zero =>
        intro _
        simp [newRest, oldRest]
    | succ j ih =>
        intro less
        obtain ⟨first, second⟩ := ih (Nat.le_of_succ_le less)
        obtain ⟨-, -, same⟩ := sprout.slices j less
        have next : oldRest b i (j + 1) = (oldRest b i j).drop ikeySize := by
          rw [oldRest, oldRest, List.drop_drop, Nat.mul_succ]
        refine ⟨by rw [newRest, List.take_append_drop], ?_⟩
        rw [take_newRest, ← same, next, List.append_assoc, List.take_append_drop, second]
  have newKey : (c.before ++ c.rest.take ikeySize) ++ (c.rest.drop ikeySize).take (ikeySize * k) ++ newRest c k =
      c.before ++ c.rest := by
    rw [List.append_assoc, (deep k le_rfl).1, List.append_assoc, List.take_append_drop]
  have oldKey : (c.before ++ c.rest.take ikeySize) ++ (c.rest.drop ikeySize).take (ikeySize * k) ++ oldRest b i k =
      c.before ++ (c.rest.take ikeySize ++ b.getKsuf i) := by
    rw [List.append_assoc, (deep k le_rfl).2, List.append_assoc]
  have other : c.before ++ (c.rest.take ikeySize ++ b.getKsuf i) ≠ c.before ++ c.rest := by
    intro same
    have slice : (c.rest.take ikeySize).length = ikeySize := by rw [List.length_take, min_eq_left long.le]
    have tails := congrArg (List.drop ikeySize) (List.append_cancel_left same)
    rw [List.drop_left' slice] at tails
    exact conflict.differ tails
  constructor
  · rintro ⟨q, r, U, same, there', has'⟩
    rcases sprouted_cases sprout.long there' with ⟨j, le, rfl, rfl⟩ | known
    · rcases Nat.lt_or_ge j k with less | last
      · exact absurd (congrArg Entry.keylenx ((sprout.twig j less _).mp has')) (keylenx_entry _ _)
      · obtain rfl : j = k := by omega
        rcases (sprout.bottom _).mp has' with equal | equal
        · obtain ⟨rfl, rfl⟩ := entry_inj.mp equal
          rw [same, oldKey, if_neg other]
          rw [entry] at there
          exact ⟨_, _, T, rfl, lands.here, there⟩
        · obtain ⟨rfl, rfl⟩ := entry_inj.mp equal
          rw [same, newKey, if_pos rfl]
    · by_cases equal : q = c.before
      · subst equal
        obtain rfl := Option.some.inj (known.symm.trans lands.here)
        rcases has.mp has' with layer | ⟨had, ne⟩
        · exact absurd (congrArg Entry.keylenx layer) (keylenx_entry _ _)
        · rw [if_neg]
          · exact ⟨_, r, U, same, known, had⟩
          · intro whole
            obtain rfl := List.append_cancel_left (same.symm.trans whole)
            exact ne (Key.rank_entry _ w)
      · have had := (table.toGrove.has_iff lands.here changed equal known).mp has'
        rw [if_neg]
        · exact ⟨q, r, U, same, known, had⟩
        · intro whole
          exact equal (table.place_eq lands.here lands.first stops known had (same.symm.trans whole))
  · intro holds
    by_cases whole : x = c.before ++ c.rest
    · rw [if_pos whole] at holds
      rw [holds]
      exact ⟨_, newRest c k, _, whole.trans newKey.symm, new le_rfl, (sprout.bottom _).mpr (.inr rfl)⟩
    · rw [if_neg whole] at holds
      obtain ⟨q, r, U, same, known, had⟩ := holds
      by_cases equal : q = c.before
      · subst equal
        obtain rfl := Option.some.inj (known.symm.trans lands.here)
        by_cases ranks : (Key.entry (.ofBytes r) w).rank = Key.rank c.key
        · have alike := (table.each _ U lands.here).has_unique had there (ranks.trans rank.symm)
          rw [entry] at alike
          obtain ⟨rfl, rfl⟩ := entry_inj.mp alike
          exact ⟨_, oldRest b i k, _, same.trans oldKey.symm, new le_rfl, (sprout.bottom _).mpr (.inl rfl)⟩
        · exact ⟨_, r, U, same, old known, has.mpr (.inr ⟨had, ranks⟩)⟩
      · exact ⟨q, r, U, same, old known, (table.toGrove.has_iff lands.here changed equal known).mpr had⟩

end

/-- A key that meets another one in its slot gets new layers. -/
theorem Table.insertLayer_ok (table : Table m F {c.n}) (lands : Lands m F c.before c.rest T c.n t b)
    (found : (b.lower c.key).2 = some i) (differ : b.ksufMatches i c.key = .differ) (state : c.state = 2)
    (v : Leafvalue) : Runs (insertLayer c i v) m fun _ m' => ∃ F', Table m' F' ∅ ∧ m'.callbacks = m.callbacks ∧
      ∀ x w, Bound m' F' x w ↔ if x = c.before ++ c.rest then w = v else Bound m F x w := by
  have sound := table.each _ T lands.here
  have body : (alone m T.span).body c.n = some b := by rw [(sameNode_alone lands.known).body, lands.body]
  have conflict := conflict_of_differ sound.layer.alone lands.known body found differ state
  have nonempty : b.getKsuf i ≠ [] ∧ c.rest.drop ikeySize ≠ [] := by
    obtain ⟨-, -, long⟩ := rank_slot conflict
    have entryOk := (conflict.layer.leaves _ _ _ conflict.here conflict.body).ok.each _
      (mem_entries.mpr ⟨i, conflict.live, rfl⟩)
    have some := entryOk.suffix.mpr (hasKsuf_keylenx.mp conflict.old)
    rw [entryAt, conflict.old, if_pos rfl] at some
    rw [ne_eq, ne_eq, List.drop_eq_nil_iff, not_le]
    exact ⟨some, long⟩
  have run := (Live.insertLayer c i v).wp (live_alone table.nodes sound) (insertLayer_made conflict v)
  refine (confined_ok (.insertLayer c i v) table.nodes run).mono fun _ m' post => ?_
  obtain ⟨around, s, ⟨⟨k, made⟩, live⟩, fresh, same⟩ := post
  have merged : Merged m s m' T.span := ⟨around, fresh, same⟩
  have sprout := made.sprout table.nodes conflict live merged nonempty
  exact ⟨_, ⟨sprout_grove table lands conflict made merged sprout, sprout_linked table lands conflict made merged sprout⟩,
    around.callbacks, sprout_bound table lands conflict made merged sprout⟩

end Incll.Proof.Layers
