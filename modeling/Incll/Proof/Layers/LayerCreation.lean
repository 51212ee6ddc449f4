import Incll.Proof.Layers.MakeLayer

/-! # The layers after `make_new_layer` -/

namespace Incll.Proof.Layers
open Incll.Lib Incll.Model Incll.Model.Layers

variable {m m' : Mem} {span : Addr → Option Span} {top : Addr} {c : Layers.Tcursor} {s : Span} {b : LeafBody}
  {p k : Nat} {v old new : Leafvalue} {a low : Addr} {oka ka : List UInt8}

/-! The layer of the leaf. -/

theorem Made.kept (made : Made m c b p v k m') (conflict : Conflict m span top c s b p) {x : Addr} {t : Span}
    (known : span x = some t) : m'.up x = m.up x ∧ m'.inner x = m.inner x ∧
      m'.version x = ((m.setVersion c.n { m.version c.n with inserting := true }).setVersion c.n
        ({ m.version c.n with inserting := true } : Nodeversion).unlock).version x ∧
      (x ≠ c.n → m'.body x = m.body x) := by
  by_cases same : x = c.n
  · subst same
    obtain ⟨up, inner, -, version⟩ := made.leaf
    refine ⟨up, inner, ?_, fun ne => absurd rfl ne⟩
    rw [version, Mem.version_setVersion, Function.update_self]
  · have kept := made.old x (conflict.layer.tree.small x t known) same
    refine ⟨kept.up, kept.inner, ?_, fun _ => kept.body⟩
    rw [kept.version, Mem.version_setVersion, Function.update_of_ne same, Mem.version_setVersion,
      Function.update_of_ne same]

theorem Made.layer (made : Made m c b p v k m') (conflict : Conflict m span top c s b p) :
    Layer m' span top ∅ := by
  have layer := conflict.layer
  have leaf := layer.leaves _ _ _ conflict.here conflict.body
  obtain ⟨-, -, body_n, -⟩ := made.leaf
  have bodies (x : Addr) (u : Span) (e : LeafBody) (known : span x = some u) (body : m.body x = some e) :
      ∃ e', m'.body x = some e' := by
    by_cases same : x = c.n
    · exact ⟨_, same ▸ body_n⟩
    · exact ⟨e, ((made.kept conflict known).2.2.2 same).trans body⟩
  have grown : m.fresh ≤ m'.fresh := by
    rw [made.fresh]
    exact Nat.le_add_right ..
  have calm := (layer.calm.markInsert (Finset.mem_singleton_self c.n)).unlock (Finset.mem_singleton_self c.n)
  rw [Finset.erase_singleton, Mem.version_setVersion, Function.update_self] at calm
  refine ⟨layer.tree.frame grown fun x t known => ?_, calm.transfer (fun x t known => ?_) (fun x t known => ?_) ?_ nofun,
    fun x t d known body => ?_⟩
  · exact ⟨(made.kept conflict known).1, (made.kept conflict known).2.1⟩
  · rw [(made.kept conflict known).2.1]
    rfl
  · rw [settled_empty, settled_empty, (made.kept conflict known).2.2.1]
  · rw [settled_empty, settled_empty, (made.kept conflict layer.tree.whole).2.2.1]
  · have links {d₀ : LeafBody} (old : LeafOk m.body span t d₀) (ok : EntriesOk d)
        (each : ∀ e ∈ entries d, ∃ e₀ ∈ entries d₀, e.ikey = e₀.ikey) (bound : d.ikeyBound = d₀.ikeyBound)
        (next : d.next = d₀.next) (prev : d.prev = d₀.prev) : LeafOk m'.body span t d := by
      refine ⟨ok, fun e member => ?_, fun pos => ?_, fun zero => ?_, fun pos => ?_, fun last => ?_, fun less => ?_⟩
      · obtain ⟨e₀, member₀, same⟩ := each e member
        rw [same]
        exact old.inside e₀ member₀
      · rw [bound]
        obtain ⟨lo, hi, least⟩ := old.bound pos
        refine ⟨lo, hi, fun e member => ?_⟩
        obtain ⟨e₀, member₀, same⟩ := each e member
        rw [same]
        exact least e₀ member₀
      · rw [prev]
        exact old.first zero
      · rw [prev]
        obtain ⟨u, e, owns, hi, there⟩ := old.prev pos
        obtain ⟨e', there'⟩ := bodies _ _ _ owns there
        exact ⟨u, e', owns, hi, there'⟩
      · rw [next]
        exact old.last last
      · rw [next]
        obtain ⟨u, e, owns, lo, there⟩ := old.next less
        obtain ⟨e', there'⟩ := bodies _ _ _ owns there
        exact ⟨u, e', owns, lo, there'⟩
    by_cases same : x = c.n
    · subst same
      obtain rfl := Option.some.inj (conflict.here.symm.trans known)
      obtain rfl := Option.some.inj (body_n.symm.trans body)
      refine links leaf (entriesOk_toLayer leaf.ok conflict.old) (fun e member => ?_) rfl rfl rfl
      obtain ⟨q, live, rfl⟩ := mem_entries.mp member
      refine ⟨entryAt b q, mem_entries.mpr ⟨q, live, rfl⟩, ?_⟩
      rw [entryAt_toLayer]
      split
      · next here => rw [here]; rfl
      · rfl
    · rw [(made.kept conflict known).2.2.2 same] at body
      have old := layer.leaves x t d known body
      exact links old old.ok (fun e member => ⟨e, member, rfl⟩) rfl rfl rfl

/-! The chain of new layers. -/

/-- Below `a`, the keys `oka` and `ka` lead through layers with one entry to a layer with both. -/
inductive Chain (m : Mem) (low : Addr) (old new : Leafvalue) : Addr → List UInt8 → List UInt8 → Prop
  | node {a : Addr} {oka ka : List UInt8} {b : LeafBody} {lv : Leafvalue} : low ≤ a → Layer m (single a) a ∅ →
      m.body a = some b → entries b = [⟨Key.comparable oka, layerKeylenx, [], lv⟩] →
      oka.take ikeySize = ka.take ikeySize → ikeySize < oka.length → ikeySize < ka.length →
      Chain m low old new lv.layer (oka.drop ikeySize) (ka.drop ikeySize) → Chain m low old new a oka ka
  | last {a : Addr} {oka ka : List UInt8} {b : LeafBody} : low ≤ a → Layer m (single a) a ∅ →
      m.body a = some b → TwoKeys oka ka old new b → Chain m low old new a oka ka

theorem free_of_flags {w : Nodeversion} (same : flags w = flags { Nodeversion.make with root := true }) :
    Free w ∧ w.root = true :=
  ⟨Free.of_flags ⟨rfl, rfl, rfl, rfl⟩ same, root_of_flags same⟩

theorem twigNode_small (made : Made m c b p v k m') {i : Nat} (le : i ≤ k) : twigNode m i < m'.fresh := by
  rw [made.fresh, twigNode]
  refine Nat.add_lt_add_left ?_ _
  exact Nat.mul_lt_mul_of_pos_left (by omega) (by decide)

theorem twigNode_ne_zero (positive : 0 < m.fresh) (i : Nat) : twigNode m i ≠ 0 :=
  (positive.trans_le (le_twigNode i)).ne'

theorem Made.root_layer (made : Made m c b p v k m') (positive : 0 < m.fresh) {i : Nat} (le : i ≤ k)
    {d : LeafBody} (body : m'.body (twigNode m i) = some d) (ok : EntriesOk d)
    (inside : ∀ e ∈ entries d, e.ikey < ikeyLimit) (next : d.next = 0) (prev : d.prev = 0) :
    Layer m' (single (twigNode m i)) (twigNode m i) ∅ := by
  obtain ⟨up, version⟩ := made.roots i le
  obtain ⟨free, root⟩ := free_of_flags version
  refine layer_single body up (twigNode_small made le) (twigNode_ne_zero positive i) ok inside next prev ?_ ?_ nofun
  · rwa [settled_empty]
  · rwa [settled_empty]

theorem Made.chain (made : Made m c b p v k m') (positive : 0 < m.fresh) (aligned : 8 ∣ m.fresh)
    (ne : b.getKsuf p ≠ c.rest.drop ikeySize) {i : Nat} (le : i ≤ k) :
    Chain m' m.fresh (b.lv p) v (twigNode m i) (oldRest b p i) (newRest c i) := by
  induction d : k - i generalizing i with
  | zero =>
      obtain rfl : i = k := by omega
      obtain ⟨e, body, two⟩ := made.bottom
      refine .last (le_twigNode i) (made.root_layer positive le_rfl body two.ok (fun x member => ?_) two.next
        two.prev) body two
      rcases two.two with all | all <;> rw [all] at member <;>
        rcases List.mem_cons.mp member with rfl | member
      · exact comparable_lt _
      · rw [List.mem_singleton.mp member]
        exact comparable_lt _
      · exact comparable_lt _
      · rw [List.mem_singleton.mp member]
        exact comparable_lt _
  | succ d ih =>
      have less : i < k := by omega
      have body := made.twig i less
      obtain ⟨longer, longer', slices, -⟩ := longer_of_eq (drop_ne ne made.equal le) (made.equal i less)
      have layer : (Leafvalue.ofLayer (twigNode m (i + 1))).layer = twigNode m (i + 1) :=
        layer_ofLayer ((twigNode_small made (by omega)).trans_le made.room)
          (Nat.dvd_add aligned (Dvd.dvd.mul_right (by decide) _))
      have rest := ih (i := i + 1) (by omega) (by omega)
      refine .node (le_twigNode i) (made.root_layer positive le body (entriesOk_twigBody ..) (fun x member => ?_) rfl
        rfl) body (entries_twigBody ..) slices longer longer' ?_
      · rw [entries_twigBody, List.mem_singleton] at member
        rw [member]
        exact comparable_lt _
      · rw [layer, oldRest, newRest, List.drop_drop, List.drop_drop, ← Nat.mul_succ]
        exact rest

/-! Lookups. -/

theorem comparable_of_take {x y : List UInt8} (same : x.take ikeySize = y.take ikeySize)
    (long : ikeySize < x.length) (long' : ikeySize < y.length) : Key.comparable x = Key.comparable y := by
  rw [← List.take_append_drop ikeySize x, ← List.take_append_drop ikeySize y,
    comparable_append (by rw [List.length_take]; omega), comparable_append (by rw [List.length_take]; omega), same]

/-- A key of a new layer is found in its slot. -/
theorem lookup_key {x : List UInt8} {lv : Leafvalue} {d : LeafBody} (layer : Layer m (single a) a ∅)
    (body : m.body a = some d) (member : Key.entry (.ofBytes x) lv ∈ entries d) (fuel : Nat) :
    findUnlockedFrom (fuel + 1) a x m = .ok (some lv, m) := by
  obtain ⟨q, live, entry⟩ := mem_entries.mp member
  have rank : (entryAt d q).rank = Key.rank (.ofBytes x) := by rw [entry, Key.rank_entry]
  rw [lookup_ok layer single_self rfl single_self body live rank fuel, ksufMatches_same entry]
  have value : d.lv q = lv := congrArg Entry.lv entry
  rw [value]

theorem lookup_node {x : List UInt8} {lv : Leafvalue} {d : LeafBody} {n r : Addr} {t : Span}
    (layer : Layer m span top ∅) (start : span r = some t) (first : t.lo = 0) (here : span n = some s)
    (body : m.body n = some d) (live : p ∈ d.permutation.live)
    (entry : entryAt d p = ⟨Key.comparable x, layerKeylenx, [], lv⟩) (long : ikeySize < x.length) (fuel : Nat) :
    findUnlockedFrom (fuel + 1) r x m = findUnlockedFrom fuel lv.layer (x.drop ikeySize) m := by
  have rank : (entryAt d p).rank = Key.rank (.ofBytes x) := by
    simp only [ikeySize] at long
    rw [entry]
    simp only [Entry.rank, Key.rank, Key.ofBytes, Layers.rank, layerKeylenx]
    omega
  have deep : d.keylenx p = layerKeylenx := congrArg Entry.keylenx entry
  have value : d.lv p = lv := congrArg Entry.lv entry
  rw [lookup_ok layer start first here body live rank fuel, ksufMatches_layer deep, value]

theorem Chain.lookup (chain : Chain m low old new a oka ka) :
    (∀ fuel, oka.length < fuel → findUnlockedFrom fuel a oka m = .ok (some old, m)) ∧
      ∀ fuel, ka.length < fuel → findUnlockedFrom fuel a ka m = .ok (some new, m) := by
  induction chain with
  | @node a oka ka d lv _ layer body all slices long long' _ ih =>
      obtain ⟨q, live, entry⟩ := mem_entries.mp (show _ ∈ entries d by rw [all]; exact List.mem_singleton_self _)
      have entry' := entry
      rw [comparable_of_take slices long long'] at entry'
      refine ⟨fun fuel enough => ?_, fun fuel enough => ?_⟩ <;>
        obtain ⟨fuel, rfl⟩ : ∃ f, fuel = f + 1 := ⟨fuel - 1, by omega⟩
      · rw [lookup_node layer single_self rfl single_self body live entry long fuel]
        exact ih.1 fuel (by simp only [List.length_drop, ikeySize] at long ⊢; omega)
      · rw [lookup_node layer single_self rfl single_self body live entry' long' fuel]
        exact ih.2 fuel (by simp only [List.length_drop, ikeySize] at long' ⊢; omega)
  | @last a oka ka d _ layer body two =>
      refine ⟨fun fuel enough => ?_, fun fuel enough => ?_⟩ <;>
        obtain ⟨fuel, rfl⟩ : ∃ f, fuel = f + 1 := ⟨fuel - 1, by omega⟩
      · refine lookup_key layer body ?_ fuel
        rcases two.two with all | all <;> simp [all]
      · refine lookup_key layer body ?_ fuel
        rcases two.two with all | all <;> simp [all]

/-- What `make_new_layer` and `finish(1)` leave behind. -/
structure LayerCreated (m : Mem) (span : Addr → Option Span) (top : Addr) (c : Layers.Tcursor) (b : LeafBody)
    (p : Nat) (v : Leafvalue) (m' : Mem) : Prop where
  layer : Layer m' span top ∅
  leaf : ∃ d, m'.body c.n = some d ∧ d.permutation = b.permutation ∧
    entryAt d p = ⟨c.key.ikey, layerKeylenx, [], .ofLayer m.fresh⟩ ∧ ∀ q, q ≠ p → entryAt d q = entryAt b q
  chain : Chain m' m.fresh (b.lv p) v m.fresh (b.getKsuf p) (c.rest.drop ikeySize)
  others : ∀ a < m.fresh, a ≠ c.n → SameNode m m' a
  oldFound : findUnlocked (c.before ++ (c.rest.take ikeySize ++ b.getKsuf p)) m' = .ok (some (b.lv p), m')
  newFound : findUnlocked (c.before ++ c.rest) m' = .ok (some v, m')

/-- `r` is in the first column of the layer, and the table leads to it. -/
structure Reached (m : Mem) (span : Addr → Option Span) (c : Layers.Tcursor) (r : Addr) : Prop where
  above : Above m c.n m.root c.before r
  start : ∃ t, span r = some t ∧ t.lo = 0

theorem Made.created (made : Made m c b p v k m') (conflict : Conflict m span top c s b p) {r : Addr}
    (reached : Reached m span c r) (aligned : 8 ∣ m.fresh) : LayerCreated m span top c b p v m' := by
  have low : c.n < m.fresh := conflict.layer.tree.small _ _ conflict.here
  have positive : 0 < m.fresh := (Nat.zero_le _).trans_lt low
  have ok := (conflict.layer.leaves _ _ _ conflict.here conflict.body).ok
  have layer := made.layer conflict
  obtain ⟨-, -, body, -⟩ := made.leaf
  obtain ⟨t, start, first⟩ := reached.start
  have chain := made.chain positive aligned conflict.differ (Nat.zero_le k)
  simp only [oldRest, newRest, Nat.mul_zero, List.drop_zero] at chain
  have head : twigNode m 0 = m.fresh := Nat.add_zero _
  rw [head] at chain
  have small : m.fresh < memoryLimit := by
    have := twigNode_small made (Nat.zero_le k)
    rw [head] at this
    exact this.trans_le made.room
  have grown : m.fresh ≤ m'.fresh := by
    rw [made.fresh]
    exact Nat.le_add_right ..
  have entry : entryAt (toLayer b p (.ofLayer m.fresh)) p = ⟨c.key.ikey, layerKeylenx, [], .ofLayer m.fresh⟩ := by
    rw [entryAt_toLayer, if_pos rfl, conflict.ikey]
  have long : ikeySize < c.rest.length := (hasSuffix_iff _).mp conflict.new
  have suffix := getKsuf_ne_nil (ok.each _ (mem_entries.mpr ⟨p, conflict.live, rfl⟩)) conflict.old
  -- a key with the slice of the entry goes on to the chain
  have found {x : List UInt8} {w : Leafvalue} (slice : x.take ikeySize = c.rest.take ikeySize)
      (long' : ikeySize < x.length)
      (below : ∀ fuel, (x.drop ikeySize).length < fuel →
        findUnlockedFrom fuel m.fresh (x.drop ikeySize) m' = .ok (some w, m')) :
      findUnlocked (c.before ++ x) m' = .ok (some w, m') := by
    have nonempty : x ≠ [] := List.ne_nil_of_length_pos ((Nat.zero_le _).trans_lt long')
    obtain ⟨fuel, enough, through⟩ := reached.above.lookup grown (fun a ne less => made.old a less ne) nonempty
      ((c.before ++ x).length + 1) (by rw [List.length_append]; omega)
    have here : entryAt (toLayer b p (.ofLayer m.fresh)) p =
        ⟨Key.comparable x, layerKeylenx, [], .ofLayer m.fresh⟩ := by
      rw [entry, comparable_of_take slice long' long]
      rfl
    rw [List.length_append] at enough
    obtain ⟨fuel, rfl⟩ : ∃ f, fuel = f + 1 := ⟨fuel - 1, by omega⟩
    rw [findUnlocked, bind_ok (show (get : T Mem) m' = .ok (m', m') from rfl), made.root, through,
      lookup_node layer start first conflict.here body conflict.live here long' fuel,
      layer_ofLayer small aligned]
    exact below fuel (by simp only [List.length_drop, ikeySize] at long' ⊢; omega)
  refine ⟨layer, ⟨_, body, rfl, entry, fun q ne => by rw [entryAt_toLayer, if_neg ne]⟩, chain,
    fun a less ne => made.old a less ne, found ?_ ?_ ?_, found rfl long chain.lookup.2⟩
  · rw [List.take_append_of_le_length (by rw [List.length_take]; omega), List.take_take, Nat.min_self]
  · have := List.length_pos_iff.mpr suffix
    rw [List.length_append, List.length_take]
    omega
  · rw [List.drop_left' (by rw [List.length_take]; omega)]
    exact chain.lookup.1

def sharedSlice : List UInt8 := List.replicate 8 97

def oneBag : Stringbag := { (Stringbag.make 2 leafWidth 128).put 0 60 [98] with size := 61 }

def oneLeaf : LeafBody :=
  { LeafBody.make 0 with
    ikey0 := fun _ => Key.comparable sharedSlice
    keylenx := fun _ => ksufKeylenx
    permutation := .makeSorted 1
    extrasize64 := -1
    ksuf := some oneBag }

def oneMem : Mem where
  kind a := if a = 512 then some (.leaf ⟨.make 0, oneLeaf⟩) else none
  version _ := { Nodeversion.make with locked := true, root := true }
  fresh := 1024
  root := 512
  callbacks := []

def oneCursor : Layers.Tcursor := ⟨512, 512, 0, some 0, 2, [], sharedSlice ++ [99]⟩

theorem entries_oneLeaf : entries oneLeaf = [⟨Key.comparable sharedSlice, ksufKeylenx, [98], .empty⟩] := rfl

theorem oneLeaf_ok : EntriesOk oneLeaf := by
  have made : BagValid oneBag := (@bag_assign _ oneBag 0 [98] (bagValid_make 2 leafWidth 128) rfl).1
  have valid := leafValid_make 0
  refine ⟨⟨⟨permValid_makeSorted (by decide), valid.body.iksuf, ?_⟩, fun _ => (by decide : (-1 : Int) < 0)⟩, ?_,
    fun e member => ?_⟩
  · rintro _ ⟨⟩
    exact made
  · rw [entries_oneLeaf]
    exact List.pairwise_singleton ..
  · rw [entries_oneLeaf, List.mem_singleton] at member
    subst member
    exact ⟨.inr (.inl rfl), by simp⟩

theorem conflict_one : Conflict oneMem (single 512) 512 oneCursor ⟨0, ikeyLimit⟩ oneLeaf 0 := by
  refine ⟨layer_single rfl rfl (by decide) (by decide) oneLeaf_ok (fun e member => ?_) rfl rfl ⟨rfl, rfl, rfl, rfl⟩ rfl
    fun _ _ => rfl, rfl, rfl, by decide, by decide, rfl, rfl, by decide, rfl⟩
  change e ∈ entries oneLeaf at member
  rw [entries_oneLeaf, List.mem_singleton] at member
  rw [member]
  exact comparable_lt _

end Incll.Proof.Layers
