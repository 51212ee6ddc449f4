import Incll.Proof.Layers.SplitLeaf

/-! # Lookups in a layer and in the layers above it -/

namespace Incll.Proof.Layers
open Incll.Lib Incll.Model Incll.Model.Layers

variable {m m' : Mem} {span : Addr → Option Span} {top r n a : Addr} {s t : Span} {b : LeafBody} {p : Nat}
  {k : Key} {held : Finset Addr}

/-- The search finds the entry that has the rank of the key. -/
theorem lower_live (ok : EntriesOk b) (live : p ∈ b.permutation.live)
    (same : (entryAt b p).rank = Key.rank k) : (b.lower k).2 = some p := by
  have place := lower_place ok k
  have member : entryAt b p ∈ entries b := mem_entries.mpr ⟨p, live, rfl⟩
  have valid := ok.valid.body.permutation
  cases slot : (b.lower k).2 with
  | none =>
      rw [slot] at place
      rw [← List.take_append_drop (b.lower k).1 (entries b)] at member
      rcases List.mem_append.mp member with low | high
      · exact absurd same (place.before _ low).ne
      · exact absurd same (place.missing rfl _ high).ne'
  | some q =>
      rw [slot] at place
      obtain ⟨small, rfl, rank_q⟩ := place.found q rfl
      obtain ⟨i, low, rfl⟩ := valid.mem_live.mp live
      congr 1
      obtain ⟨left, first⟩ := List.getElem?_eq_some_iff.mp (getElem_entries valid small)
      obtain ⟨right, second⟩ := List.getElem?_eq_some_iff.mp
        (getElem_entries valid (show i < b.size from low))
      have sorted := List.pairwise_iff_getElem.mp ok.sorted
      rcases Nat.lt_trichotomy (b.lower k).1 i with less | equal | more
      · have := sorted _ _ left right less
        rw [first, second] at this
        omega
      · rw [equal]
      · have := sorted _ _ right left more
        rw [first, second] at this
        omega

/-- One step of `find_unlocked`. -/
theorem lookup_ok {rest : List UInt8} (layer : Layer m span top ∅) (start : span r = some t)
    (first : t.lo = 0) (here : span n = some s) (body : m.body n = some b)
    (live : p ∈ b.permutation.live) (same : (entryAt b p).rank = Key.rank (.ofBytes rest))
    (fuel : Nat) : findUnlockedFrom (fuel + 1) r rest m =
      match b.ksufMatches p (.ofBytes rest) with
      | .same => .ok (some (b.lv p), m)
      | .differ => .ok (none, m)
      | .layer => findUnlockedFrom fuel (b.lv p).layer (rest.drop ikeySize) m := by
  have leaf := layer.leaves _ _ _ here body
  obtain ⟨low, high⟩ := leaf.inside _ (mem_entries.mpr ⟨p, live, rfl⟩)
  have ikey : (entryAt b p).ikey = (Key.ofBytes rest).ikey := (rank_inj same).1
  rw [ikey] at low high
  obtain ⟨q, above⟩ := up_of_body body
  have free := layer.calm.free n s here
  rw [settled_empty] at free
  have found : (LeafBody.lower { b with parent := q } (Key.ofBytes rest)).2 = some p :=
    lower_live (leaf.ok.setParent q) live same
  rw [findUnlockedFrom, bind_ok (layer.reachLeaf_ok start first here body low high (comparable_lt rest))]
  simp only [free.deleted, Bool.false_eq_true, if_false]
  rw [bind_ok (leaf_ok body above), found]
  change (match b.ksufMatches p (.ofBytes rest) with
    | .same => (pure (some (b.lv p)) : T _)
    | .differ => pure none
    | .layer => findUnlockedFrom fuel (b.lv p).layer (rest.drop ikeySize)) m = _
  cases b.ksufMatches p (.ofBytes rest) <;> rfl

theorem hasKsuf_keylenx : b.hasKsuf p = true ↔ b.keylenx p = ksufKeylenx := beq_iff_eq

/-- The key in a slot is the key that is looked up. -/
theorem ksufMatches_same {rest : List UInt8} {lv : Leafvalue}
    (entry : entryAt b p = Key.entry (.ofBytes rest) lv) : b.ksufMatches p (.ofBytes rest) = .same := by
  have keylenx := congrArg Entry.keylenx entry
  have suffix := congrArg Entry.suffix entry
  simp only [entryAt, Key.entry] at keylenx suffix
  rw [LeafBody.ksufMatches]
  cases long : (Key.ofBytes rest).hasSuffix
  · rw [long] at keylenx
    have short : (Key.ofBytes rest).len ≤ 8 := (not_hasSuffix_iff _).mp long
    have low : b.keylenx p < ksufKeylenx := by
      rw [keylenx, ksufKeylenx]
      simp only [Bool.false_eq_true, if_false]
      omega
    rw [if_pos low]
  · rw [long] at keylenx
    have has : b.hasKsuf p = true := hasKsuf_keylenx.mpr keylenx
    rw [if_pos has] at suffix
    rw [if_neg (by rw [keylenx, if_pos rfl]; exact lt_irrefl _), if_neg (by rw [keylenx, if_pos rfl]; decide),
      if_pos suffix]

theorem ksufMatches_layer (layer : b.keylenx p = layerKeylenx) : b.ksufMatches p k = .layer := by
  rw [LeafBody.ksufMatches, layer, if_neg (by decide), if_pos rfl]

/-! A layer of one leaf. -/

def single (a x : Addr) : Option Span := if x = a then some ⟨0, ikeyLimit⟩ else none

theorem single_eq {x : Addr} (known : single a x = some s) : x = a ∧ s = ⟨0, ikeyLimit⟩ := by
  unfold single at known
  split at known
  · next same => exact ⟨same, (Option.some.inj known).symm⟩
  · cases known

theorem single_self : single a a = some ⟨0, ikeyLimit⟩ := if_pos rfl

theorem layer_single (body : m.body a = some b) (above : m.up a = some 0) (small : a < m.fresh)
    (ne : a ≠ 0) (ok : EntriesOk b) (inside : ∀ e ∈ entries b, e.ikey < ikeyLimit) (next : b.next = 0)
    (prev : b.prev = 0) (free : Free (settled m held a)) (root : (settled m held a).root = true)
    (locked : ∀ x ∈ held, (m.version x).locked = true) : Layer m (single a) a held := by
  refine ⟨⟨if_neg ne.symm, fun x s known => ?_, fun x s known => ?_, fun x s known => ?_,
    fun x s i known inner => ?_, fun x s known other => ?_, single_self, above⟩,
    ⟨fun x s known => ?_, fun _ => root, fun x s known _ other => ?_, locked⟩, fun x s d known body' => ?_⟩ <;>
    obtain ⟨rfl, rfl⟩ := single_eq known
  · exact ⟨0, above⟩
  · exact small
  · decide
  · rw [inner_of_body body] at inner
    cases inner
  · exact absurd rfl other
  · exact free
  · exact absurd rfl other
  · obtain rfl : b = d := Option.some.inj (body.symm.trans body')
    exact ⟨ok, fun e member => ⟨Nat.zero_le _, inside e member⟩, fun pos => absurd rfl pos, fun _ => prev,
      fun pos => absurd rfl pos, fun _ => next, fun less => absurd rfl less⟩

/-! Writes outside a layer. -/

theorem Whole.frame {up up' : Addr → Option Addr} {inner inner' : Addr → Option Internode}
    {fresh fresh' : Nat} (tree : Whole up inner fresh span top) (grown : fresh ≤ fresh')
    (same : ∀ a s, span a = some s → up' a = up a ∧ inner' a = inner a) :
    Whole up' inner' fresh' span top := by
  refine ⟨tree.null, fun a s known => ?_, fun a s known => (tree.small a s known).trans_le grown, tree.wide,
    fun a s i known here => ?_, fun a s known ne loose => ?_, tree.whole, ?_⟩
  · rw [(same a s known).1]
    exact tree.known a s known
  · rw [(same a s known).2] at here
    have ok := tree.node a s i known here
    refine ok.transfer fun x member => ?_
    obtain ⟨u, owned⟩ := tiles_owned ok.tiles member
    exact ⟨rfl, (same _ u owned).1, by simp only [height, (same _ u owned).2]⟩
  · obtain ⟨q, u, i, parent, owns, here, member⟩ := tree.above a s known ne loose
    exact ⟨q, u, i, by rw [(same a s known).1, parent], owns, by rw [(same q u owns).2, here], member⟩
  · rw [(same _ _ tree.whole).1]
    exact tree.root

/-- The node is as it was. -/
structure SameNode (m m' : Mem) (a : Addr) : Prop where
  up : m'.up a = m.up a
  inner : m'.inner a = m.inner a
  body : m'.body a = m.body a
  version : m'.version a = m.version a

theorem SameNode.refl (m : Mem) (a : Addr) : SameNode m m a := ⟨rfl, rfl, rfl, rfl⟩

theorem SameNode.trans {m'' : Mem} (first : SameNode m m' a) (second : SameNode m' m'' a) : SameNode m m'' a :=
  ⟨second.up.trans first.up, second.inner.trans first.inner, second.body.trans first.body,
    second.version.trans first.version⟩

theorem Layer.frame (layer : Layer m span top ∅) (grown : m.fresh ≤ m'.fresh)
    (same : ∀ a s, span a = some s → SameNode m m' a) : Layer m' span top ∅ := by
  refine ⟨layer.tree.frame grown fun a s known => ⟨(same a s known).up, (same a s known).inner⟩,
    layer.calm.transfer (fun a s known => by rw [(same a s known).inner]) (fun a s known => ?_) ?_ nofun,
    fun a s b known here => ?_⟩
  · rw [settled_empty, settled_empty, (same a s known).version]
  · rw [settled_empty, settled_empty, (same _ _ layer.tree.whole).version]
  · rw [(same a s known).body] at here
    have leaf := layer.leaves a s b known here
    refine ⟨leaf.ok, leaf.inside, leaf.bound, leaf.first, fun pos => ?_, leaf.last, fun less => ?_⟩
    · obtain ⟨u, d, owns, hi, there⟩ := leaf.prev pos
      exact ⟨u, d, owns, hi, by rw [(same _ u owns).body, there]⟩
    · obtain ⟨u, d, owns, lo, there⟩ := leaf.next less
      exact ⟨u, d, owns, lo, by rw [(same _ u owns).body, there]⟩

/-! The layers on the way to a node. -/

/-- The keys that start with `before` lead from the layer of `root` to that of `r`, and node `n` is in
none of the layers above `r`. -/
inductive Above (m : Mem) (n : Addr) : Addr → List UInt8 → Addr → Prop
  | here (r : Addr) : Above m n r [] r
  | down {root a r top : Addr} {slice before : List UInt8} {span : Addr → Option Span} {s t : Span}
      {b : LeafBody} {p : Nat} : Layer m span top ∅ → span n = none → span root = some t → t.lo = 0 →
      span a = some s → m.body a = some b → p ∈ b.permutation.live → b.keylenx p = layerKeylenx →
      slice.length = ikeySize → b.ikey0 p = Key.comparable slice →
      Above m n (b.lv p).layer before r → Above m n root (slice ++ before) r

theorem comparable_append {slice : List UInt8} (length : slice.length = ikeySize) (rest : List UInt8) :
    Key.comparable (slice ++ rest) = Key.comparable slice := by
  rw [comparable_eq, comparable_eq]
  simp only [ikeySize] at length
  have byte (i : Nat) (small : i < 8) : (slice ++ rest).getD i 0 = slice.getD i 0 := by
    rw [List.getD_append _ _ _ _ (by omega)]
  simp only [byte 0 (by omega), byte 1 (by omega), byte 2 (by omega), byte 3 (by omega), byte 4 (by omega),
    byte 5 (by omega), byte 6 (by omega), byte 7 (by omega)]

/-- A lookup passes through the layers above, whatever happened to the others. -/
theorem Above.lookup {root : Addr} {before : List UInt8} (above : Above m n root before r)
    (grown : m.fresh ≤ m'.fresh)
    (same : ∀ a, a ≠ n → a < m.fresh → SameNode m m' a)
    {rest : List UInt8} (more : rest ≠ []) (fuel : Nat) (enough : before.length ≤ fuel) :
    ∃ fuel', fuel ≤ fuel' + before.length ∧
      findUnlockedFrom fuel root (before ++ rest) m' = findUnlockedFrom fuel' r rest m' := by
  induction above generalizing fuel with
  | here r => exact ⟨fuel, by simp, rfl⟩
  | @down root a r top slice before span s t b p layer apart start first here body live deep length ikey _ ih =>
      simp only [List.length_append, length] at enough ⊢
      obtain ⟨fuel, rfl⟩ : ∃ f, fuel = f + 1 := ⟨fuel - 1, by simp only [ikeySize] at enough; omega⟩
      obtain ⟨fuel', less, found⟩ := ih fuel (by simp only [ikeySize] at enough; omega)
      have kept (a : Addr) (s : Span) (known : span a = some s) : SameNode m m' a := by
        refine same a ?_ (layer.tree.small a s known)
        rintro rfl
        rw [apart] at known
        cases known
      have layer' := layer.frame grown kept
      have body' : m'.body a = some b := by rw [(kept a s here).body, body]
      have rank : (entryAt b p).rank = Key.rank (.ofBytes (slice ++ before ++ rest)) := by
        have long : 8 < (slice ++ before ++ rest).length := by
          have := List.length_pos_iff.mpr more
          simp only [List.length_append, length, ikeySize]
          omega
        have slices : Key.comparable (slice ++ before ++ rest) = Key.comparable slice := by
          rw [List.append_assoc, comparable_append length]
        simp only [Entry.rank, entryAt, Key.rank, Key.ofBytes, Layers.rank, deep, ikey, slices, layerKeylenx]
        omega
      refine ⟨fuel', by simp only [ikeySize]; omega, ?_⟩
      rw [lookup_ok layer' start first here body' live rank fuel, ksufMatches_layer deep]
      simp only
      rw [List.append_assoc, List.drop_left' length]
      exact found

theorem layer_ofLayer {a : Addr} (small : a < memoryLimit) (aligned : 8 ∣ a) : (Leafvalue.ofLayer a).layer = a := by
  obtain ⟨c, rfl⟩ := aligned
  simp only [Leafvalue.layer, Leafvalue.ofLayer, memoryLimit] at small ⊢
  have bits : BitVec.ofNat 64 (8 * c) &&& IncllLv.lvMask = BitVec.ofNat 64 (8 * c) := by
    apply BitVec.eq_of_getElem_eq
    intro i hi
    rw [BitVec.getElem_and, IncllLv.lvMask_bit]
    by_cases low : i < 3
    · have zero : (BitVec.ofNat 64 (8 * c))[i] = false := by
        rw [← BitVec.getLsbD_eq_getElem, BitVec.getLsbD_ofNat, show 8 * c = 2 ^ 3 * c from rfl,
          Nat.testBit_two_pow_mul]
        simp [show ¬ 3 ≤ i by omega]
      rw [zero, Bool.false_and]
    · by_cases high : i < 56
      · simp [show 3 ≤ i by omega, high]
      · have zero : (BitVec.ofNat 64 (8 * c))[i] = false := by
          rw [← BitVec.getLsbD_eq_getElem, BitVec.getLsbD_ofNat, Nat.testBit_lt_two_pow
            (small.trans_le (Nat.pow_le_pow_right (by omega) (by omega))), Bool.and_false]
        rw [zero, Bool.false_and]
  rw [bits, BitVec.toNat_ofNat, Nat.mod_eq_of_lt (small.trans (by decide))]

end Incll.Proof.Layers
