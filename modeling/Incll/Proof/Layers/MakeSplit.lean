import Incll.Proof.Layers.LinkSplit

/-! # `make_split`

The leaf of the cursor has no slot for the key. It is split, and the new leaf is hung into the tree. -/

namespace Incll.Proof.Layers
open Incll.Lib Incll.Model Incll.Model.Layers

variable {m m' : Mem} {span span' : Addr → Option Span} {top : Addr} {c : Layers.Tcursor} {s : Span}
  {b : LeafBody} {n nr : Addr}

/-- `find_insert` has locked a leaf that has no slot for the key. -/
structure NoSlot (m : Mem) (span : Addr → Option Span) (top : Addr) (c : Layers.Tcursor) (s : Span)
    (b : LeafBody) : Prop where
  layer : Layer m span top {c.n}
  here : span c.n = some s
  body : m.body c.n = some b
  found : b.lower c.key = (c.i, none)
  inside : s.lo ≤ c.key.ikey ∧ c.key.ikey < s.hi
  bound : s.lo ≠ 0 → b.ikeyBound ≤ c.key.ikey
  full : ¬ (b.size < leafWidth ∧ (b.permutation.back ≠ 0 ∨ b.prev = 0 ∨ b.ikeyBound = c.key.ikey))

/-- The leaf that was split is done, and one of the two is unlocked. -/
theorem Calm.finishLeaf {split : Addr → Prop} (extra : Finset Addr) (split' : Addr → Prop) {m₁ : Mem}
    {left : LeafBody} (calm : Calm m span top (extra ∪ insert nr (insert n ∅)) split)
    (wrote : Wrote (m.setVersion n { m.version n with splitting := true }) m₁ n left) (splits : split n)
    (ne : n ≠ nr) (ne_top : n ≠ top) (outside : n ∉ extra) (outside' : nr ∉ extra)
    (only : ∀ a, split a → split' a ∨ a = n) (stays goes : Addr) (both : stays = n ∧ goes = nr ∨ stays = nr ∧ goes = n) :
    Calm (m₁.setVersion goes (m₁.version goes).unlock) span top (extra ∪ {stays}) split' := by
  have inside : n ∈ extra ∪ insert nr (insert n ∅) := by simp
  have marked := calm.markSplit inside splits
  have same (a : Addr) : settled m₁ (extra ∪ insert nr (insert n ∅)) a =
      settled (m.setVersion n { m.version n with splitting := true }) (extra ∪ insert nr (insert n ∅)) a := by
    simp only [settled, wrote.version]
  have written : Calm m₁ span top (extra ∪ insert nr (insert n ∅)) split := by
    refine marked.transfer (fun a r _ => by rw [wrote.inner]) (fun a _ _ => by rw [same]) (by rw [same])
      fun a member => ?_
    rw [wrote.version]
    exact marked.locked a member
  have settles : Calm m₁ span top (extra ∪ insert nr (insert n ∅)) split' := by
    refine written.settle ne_top ?_ only
    rw [settled, if_pos inside, wrote.version, Mem.version_setVersion, Function.update_self]
    exact unlock_root rfl
  have last := settles.unlock (a := goes) (by rcases both with ⟨rfl, rfl⟩ | ⟨rfl, rfl⟩ <;> simp)
  have held' : (extra ∪ insert nr (insert n ∅)).erase goes = extra ∪ {stays} := by
    ext a
    simp only [Finset.mem_erase, Finset.mem_union, Finset.mem_insert, Finset.notMem_empty, or_false,
      Finset.mem_singleton]
    constructor
    · rintro ⟨other, member⟩
      rcases both with ⟨rfl, rfl⟩ | ⟨rfl, rfl⟩ <;> tauto
    · intro member
      refine ⟨?_, ?_⟩
      · rintro rfl
        rcases both with ⟨rfl, rfl⟩ | ⟨rfl, rfl⟩ <;> rcases member with member | same <;> simp_all
      · rcases both with ⟨rfl, rfl⟩ | ⟨rfl, rfl⟩ <;> tauto
  rwa [held'] at last

/-- The node that stays locked for the cursor, and the other one. -/
def stays (n nr : Addr) (splitType : Nat) : Addr := if splitType = 0 then n else nr

def goes (n nr : Addr) (splitType : Nat) : Addr := if splitType = 0 then nr else n

theorem stays_goes (n nr : Addr) (splitType : Nat) :
    stays n nr splitType = n ∧ goes n nr splitType = nr ∨ stays n nr splitType = nr ∧ goes n nr splitType = n := by
  by_cases zero : splitType = 0 <;> simp [stays, goes, zero]

theorem n_splitCursor (c : Layers.Tcursor) (nr : Addr) (n slot splitType : Nat) :
    (splitCursor c nr n slot splitType).n = stays c.n nr splitType := by
  by_cases zero : splitType = 0 <;> simp [splitCursor, stays, zero]

/-- The two leaves of a split before the new one is in the tree. -/
structure LeafParts (m : Mem) (c : Layers.Tcursor) (nr : Addr) (b r : LeafBody) (n splitType : Nat) : Prop where
  left : m.body c.n = some b
  right : m.body nr = some r
  ok : EntriesOk b
  place : Place b (Key.rank c.key) c.i none
  bound : n ≤ b.size
  size : r.size = b.size - n
  zero : splitType = 0 → c.i ≤ n ∧ n < b.size

/-- The state after the leaf is done and one of the two leaves is unlocked. -/
structure LeafDone (m : Mem) (span : Addr → Option Span) (c : Layers.Tcursor) (nr : Addr) (b left : LeafBody)
    (n splitType : Nat) (m₃ : Mem) (span₃ : Addr → Option Span) (m₅ : Mem) : Prop where
  cut : Cut b left c.key c.i n splitType
  up : m₅.up = m₃.up
  inner : m₅.inner = m₃.inner
  fresh : m₅.fresh = m₃.fresh
  version : ∀ a, a ≠ c.n → a ≠ nr → m₅.version a = m₃.version a
  grown : Grown (m.mapBody c.n fun _ => left) span m₅ span₃
  calm : ∀ (extra : Finset Addr) (split split' : Addr → Prop) (top : Addr),
    Calm m₃ span₃ top (extra ∪ insert nr (insert c.n ∅)) split → split c.n → c.n ≠ top → c.n ∉ extra →
    nr ∉ extra → (∀ a, split a → split' a ∨ a = c.n) →
    Calm m₅ span₃ top (extra ∪ {stays c.n nr splitType}) split'

theorem LeafParts.done {r : LeafBody} {n splitType : Nat} (parts : LeafParts m c nr b r n splitType)
    (ne : c.n ≠ nr) {m₃ : Mem} {span₃ : Addr → Option Span} (grown : Grown m span m₃ span₃)
    (known : ∃ t, span c.n = some t) (known' : ∃ t, span nr = some t) :
    ∃ left m₄ m₅, finishLeafSplit c.n nr c splitType m₃ =
        .ok (splitCursor c nr n (leftPermutation b n).back splitType, m₄) ∧
      unlock (goes c.n nr splitType) m₄ = .ok ((), m₅) ∧
      LeafDone m span c nr b left n splitType m₃ span₃ m₅ := by
  obtain ⟨t, here⟩ := known
  obtain ⟨t', here'⟩ := known'
  have body : m₃.body c.n = some b := by rw [grown.body c.n t here, parts.left]
  have body' : m₃.body nr = some r := by rw [grown.body nr t' here', parts.right]
  obtain ⟨m₄, left, run, wrote, cut⟩ := finishLeafSplit_ok body body' parts.ok parts.place
    (keyOk_ofBytes c.rest) parts.bound parts.size parts.zero
  have both := stays_goes c.n nr splitType
  have above : ∃ q, m₄.up (goes c.n nr splitType) = some q := by
    rw [wrote.up]
    rcases both with ⟨-, same⟩ | ⟨-, same⟩ <;> rw [same]
    · exact up_of_body body'
    · exact up_of_body body
  obtain ⟨q, above⟩ := above
  refine ⟨left, m₄, _, run, unlock_ok above, cut, wrote.up, wrote.inner, wrote.fresh, fun a first second => ?_, ?_,
    fun extra split split' top calm splits ne_top out out' only => ?_⟩
  · have other : a ≠ goes c.n nr splitType := by
      rcases both with ⟨-, same⟩ | ⟨-, same⟩ <;> rw [same] <;> assumption
    rw [Mem.version_setVersion, Function.update_of_ne other, wrote.version, Mem.version_setVersion,
      Function.update_of_ne first]
  · have bare : left.bare = left := by
      have parent : left.parent = 0 := cut.links.parent.trans (bare_of_body body)
      rw [LeafBody.bare, ← parent]
    refine ⟨wrote.fresh ▸ grown.fresh, fun a u known => ?_, fun a u known => ?_, fun a u known => ?_,
      fun a u known => ?_⟩
    · rw [Mem.body_setVersion, wrote.body, Mem.body_setBody, parts.left, Option.map_some, bare, Mem.body_setVersion]
      by_cases same : a = c.n
      · rw [same, Function.update_self, Function.update_self]
      · rw [Function.update_of_ne same, Function.update_of_ne same, grown.body a u known]
    · rw [Mem.inner_setVersion, wrote.inner, Mem.inner_mapBody]
      exact grown.inner a u known
    · rw [Mem.inner_mapBody]
      exact grown.old a u known
    · rw [Mem.inner_setVersion, wrote.inner]
      exact grown.new a u known
  · exact calm.finishLeaf extra split' wrote splits ne ne_top out out' only _ _ both

/-- `make_split` from the first iteration on. -/
structure LeafEnded (m : Mem) (span : Addr → Option Span) (c : Layers.Tcursor) (nr : Addr) (b : LeafBody)
    (n splitType : Nat) (c' : Layers.Tcursor) (m' : Mem) (left : LeafBody) (span' : Addr → Option Span)
    (top' : Addr) : Prop where
  cursor : c' = splitCursor c nr n (leftPermutation b n).back splitType
  cut : Cut b left c.key c.i n splitType
  grown : Grown (m.mapBody c.n fun _ => left) span m' span'
  whole : Whole m'.up m'.inner m'.fresh span' top'
  calm : Calm m' span' top' {c'.n} fun _ => False

theorem LeafParts.rest_ok {r : LeafBody} {n splitType : Nat} {t : Span}
    (parts : LeafParts m c nr b r n splitType) (ne : c.n ≠ nr)
    (st : Splitting m span top (insert nr (insert c.n ∅)) (· = c.n) c.n nr s t) :
    Runs (do
      let (p, more) ← hang c.n nr t.lo 0 splitType
      let c' ← finishLeafSplit c.n nr c splitType
      unlock (goes c.n nr splitType)
      match more with
      | some (next, nextKey) => splitUp (← fuel) p next nextKey 1 splitType
      | none => if p = 0 then pure () else unlock p
      return c') m fun c' m' => ∃ left span' top', LeafEnded m span c nr b n splitType c' m' left span' top' := by
  have half := st.half
  have zero : height m.inner c.n = 0 := height_leaf (inner_of_body parts.left)
  have low (a : Addr) (member : a ∈ insert nr (insert c.n (∅ : Finset Addr))) :
      height m.inner a ≤ height m.inner c.n := by
    simp only [Finset.mem_insert, Finset.notMem_empty, or_false] at member
    rcases member with rfl | rfl
    · exact half.same.ge
    · exact le_rfl
  have hang := st.hang_ok low splitType
  rw [zero] at hang
  refine Wp.call hang fun r₀ m₃ hung => ?_
  obtain ⟨p, more⟩ := r₀
  have name := n_splitCursor c nr n (leftPermutation b n).back splitType
  have kept := stays_goes c.n nr splitType
  cases more with
  | none =>
      obtain ⟨span₃, top₃, grown, same, whole, calm, ne_top, out_p, known⟩ := hung
      obtain ⟨left, m₄, m₅, run, run', done⟩ := parts.done ne grown ⟨s, half.left⟩ ⟨t, half.right⟩
      refine Wp.step run (Wp.step run' ?_)
      have whole₅ : Whole m₅.up m₅.inner m₅.fresh span₃ top₃ := by
        rw [done.up, done.inner, done.fresh]
        exact whole
      by_cases root : p = 0
      · rw [if_pos root, ← Finset.empty_union (insert nr _)] at calm
        have calm₅ := done.calm ∅ _ (fun _ => False) top₃ calm rfl ne_top (by simp) (by simp) fun a => .inr
        rw [Finset.empty_union] at calm₅
        simp only [if_pos root]
        refine Wp.pure ⟨left, span₃, top₃, rfl, done.cut, done.grown, whole₅, ?_⟩
        rwa [name]
      · rw [if_neg root, Finset.insert_eq] at calm
        simp only [Finset.mem_insert, Finset.notMem_empty, or_false, not_or] at out_p
        have calm₅ := done.calm {p} _ (fun _ => False) top₃ calm rfl ne_top (by simpa using Ne.symm out_p.2)
          (by simpa using Ne.symm out_p.1) fun a => .inr
        have calm₆ := calm₅.unlock (a := p) (by simp)
        have held' : ({p} ∪ {stays c.n nr splitType} : Finset Addr).erase p = {stays c.n nr splitType} := by
          rw [← Finset.insert_eq, Finset.erase_insert]
          rw [Finset.mem_singleton]
          rcases kept with ⟨same, -⟩ | ⟨same, -⟩ <;> rw [same]
          · exact out_p.2
          · exact out_p.1
        rw [held'] at calm₆
        obtain ⟨sp, owns⟩ := known root
        obtain ⟨sp', owns', -⟩ := grown.old p sp owns
        obtain ⟨q, above⟩ := whole₅.known p sp' owns'
        simp only [if_neg root]
        refine Wp.step (unlock_ok (s := m₅) above) (Wp.pure ⟨left, span₃, top₃, rfl, done.cut,
          done.grown.trans (Grown.refl _ rfl rfl rfl), whole₅, ?_⟩)
        rwa [name]
  | some more =>
      obtain ⟨next, nextKey⟩ := more
      obtain ⟨span₃, s', t', step, ne_top, out_p, level, sp, here⟩ := hung
      obtain rfl := step.start
      obtain ⟨left, m₄, m₅, run, run', done⟩ := parts.done ne step.grown ⟨s, half.left⟩ ⟨t, half.right⟩
      refine Wp.step run (Wp.step run' ?_)
      refine Wp.step (fuel_ok (s := m₅)) ?_
      have half₃ := step.splitting.half
      simp only [Finset.mem_insert, Finset.notMem_empty, or_false, not_or] at out_p
      have height_p : height m₃.inner p = 1 := by rw [step.height p sp here, level, zero]
      have height_leaf (a : Addr) (leaf : a = c.n ∨ a = nr) : height m₃.inner a = 0 := by
        rcases leaf with rfl | rfl
        · rw [step.height c.n s half.left, zero]
        · rw [step.height a t half.right, ← half.same, zero]
      have apart (a : Addr) (leaf : a = c.n ∨ a = nr) : a ≠ next := by
        rintro rfl
        have := height_leaf a leaf
        have := half₃.same
        omega
      have sets (h : Finset Addr) : insert next (insert p h) = {next, p} ∪ h := by
        rw [Finset.insert_union, Finset.singleton_union]
      have calm := step.splitting.calm
      rw [sets] at calm
      have calm₅ := done.calm {next, p} _ (· = p) top calm (.inl rfl) ne_top
        (by simpa using ⟨apart c.n (.inl rfl), Ne.symm out_p.2⟩)
        (by simpa using ⟨apart nr (.inr rfl), Ne.symm out_p.1⟩) fun a => Or.symm
      rw [← sets] at calm₅
      have stays_leaf : stays c.n nr splitType = c.n ∨ stays c.n nr splitType = nr := kept.imp And.left And.left
      have p_ne : p ≠ stays c.n nr splitType := by
        rcases stays_leaf with same | same <;> rw [same]
        · exact out_p.2
        · exact out_p.1
      have half₅ : Half m₅.up m₅.inner m₅.fresh span₃ top p next s' t' := by
        rw [done.up, done.inner, done.fresh]
        exact half₃
      have known : ∀ a ∈ (insert next (insert p {stays c.n nr splitType}) : Finset Addr), ∃ u, span₃ a = some u := by
        intro a member
        refine step.splitting.known a ?_
        simp only [Finset.mem_insert, Finset.mem_singleton] at member ⊢
        rcases member with same | same | same
        · exact .inl same
        · exact .inr (.inl same)
        · rcases stays_leaf with leaf | leaf
          · exact .inr (.inr (.inr (.inl (same.trans leaf))))
          · exact .inr (.inr (.inl (same.trans leaf)))
      have st₅ : Splitting m₅ span₃ top (insert next (insert p {stays c.n nr splitType})) (· = p) p next s' t' :=
        ⟨half₅, calm₅, rfl, by simp, by simp, known⟩
      have height₅ : height m₅.inner p = 1 := by rw [done.inner, height_p]
      have run := splitUp_ok m₅.fresh splitType st₅ (by simpa using p_ne)
        (by simpa using (apart _ stays_leaf).symm) (fun a member => by
          rw [Finset.mem_singleton.mp member, done.inner, height_leaf _ stays_leaf]
          exact Nat.zero_le _) (by rw [done.version p out_p.2 out_p.1, step.splits])
        (higher_lt_fresh (half₅.tree.small p s' half₅.left))
      rw [height₅] at run
      refine Wp.call run fun _ m' ⟨span', top', ended⟩ => Wp.pure ⟨left, span', top', rfl, done.cut,
        done.grown.trans ended.grown, ended.whole, ?_⟩
      rw [name]
      exact ended.calm

/-- The end of `make_split`. -/
structure Split (m : Mem) (span : Addr → Option Span) (c : Layers.Tcursor) (s : Span) (b : LeafBody)
    (left right : LeafBody) (key splitType n : Nat) (c' : Layers.Tcursor) (m' : Mem) (span' : Addr → Option Span)
    (top' : Addr) : Prop where
  parts : SplitOk b right c.key c.i key splitType n
  cut : Cut (b.setNext m.fresh) left c.key c.i n splitType
  cursor : c' = splitCursor c m.fresh n (leftPermutation b n).back splitType
  halves : Halves b left right s m.fresh key
  layer : Layer m' span' top' {c'.n}
  body : ∀ a t, splitSpan span c.n m.fresh s key a = some t →
    m'.body a = Function.update (linked m.body c.n m.fresh b right) c.n (some left) a
  inner : ∀ a t, span a = some t → (m'.inner a).isSome = (m.inner a).isSome
  old : ∀ a t, splitSpan span c.n m.fresh s key a = some t → ∃ t', span' a = some t' ∧ t'.lo = t.lo ∧
    (m'.inner a = none → t' = t)
  new : ∀ a t, span' a = some t → (span a).isSome ∨ a = m.fresh ∨ m.fresh < a ∧ (m'.inner a).isSome

theorem NoSlot.place (start : NoSlot m span top c s b) : Place b (Key.rank c.key) c.i none := by
  have place := lower_place (start.layer.leaves _ _ _ start.here start.body).ok c.key
  rwa [start.found] at place

theorem SplitOk.setParent {right : LeafBody} {k : Key} {i key splitType n : Nat} {p : Addr}
    (parts : SplitOk { b with parent := p } right k i key splitType n) : SplitOk b right k i key splitType n :=
  ⟨parts.valid, parts.entries, parts.bound, parts.size, parts.parent, parts.modstate, parts.ikey, parts.first, parts.below,
    parts.above, parts.low, parts.high, parts.place⟩

/-- The slot of the bound is not taken for the key. -/
theorem NoSlot.left_bound {left right : LeafBody} {key splitType n : Nat} (start : NoSlot m span top c s b)
    (full : leafWidth ≤ b.size + 1) (parts : SplitOk b right c.key c.i key splitType n)
    (cut : Cut (b.setNext nr) left c.key c.i n splitType) (pos : s.lo ≠ 0) : left.ikeyBound = b.ikeyBound := by
  have leaf := start.layer.leaves _ _ _ start.here start.body
  obtain ⟨-, -, least⟩ := leaf.bound pos
  refine cut.bound ?_
  rcases parts.place with ⟨-, -, less, -⟩ | ⟨other, -⟩
  · refine .inl (show (leftPermutation b n).back ≠ 0 from left_back_ne leaf.ok less full (fun room => ?_) least)
    by_contra ne
    have small : b.size ≤ leafWidth := leaf.ok.valid.body.permutation.size
    exact start.full ⟨lt_of_le_of_ne small room, .inl ne⟩
  · exact .inr other

/-- The two leaves are all right. -/
theorem NoSlot.halves {left right : LeafBody} {key splitType n : Nat} (start : NoSlot m span top c s b)
    (full : leafWidth ≤ b.size + 1) (parts : SplitOk b right c.key c.i key splitType n)
    (cut : Cut (b.setNext nr) left c.key c.i n splitType) : Halves b left right s nr key := by
  have leaf := start.layer.leaves _ _ _ start.here start.body
  have low := parts.low s.lo (fun e member => (leaf.inside e member).1) start.inside.1
  have high := parts.high s.hi (fun e member => (leaf.inside e member).2) start.inside.2
  have left_eq : entries left = (entries b).take n := cut.entries
  have sub {e : Entry} (member : e ∈ entries left) : e ∈ entries b := by
    rw [left_eq] at member
    exact List.mem_of_mem_take member
  refine ⟨low, high, cut.ok, ⟨parts.valid, ?_, fun e member => ?_⟩, cut.links, fun e member => ?_,
    fun e member => ?_, fun pos => ?_, parts.ikey⟩
  · rw [parts.entries]
    exact leaf.ok.sorted.sublist (List.drop_sublist ..)
  · rw [parts.entries] at member
    exact leaf.ok.each e (List.mem_of_mem_drop member)
  · refine ⟨(leaf.inside e (sub member)).1, parts.below e ?_⟩
    rwa [← left_eq]
  · rw [parts.entries] at member
    exact ⟨parts.above e member, (leaf.inside e (List.mem_of_mem_drop member)).2⟩
  · obtain ⟨above, -, least⟩ := leaf.bound pos
    have bound := start.bound pos
    rw [start.left_bound full parts cut pos]
    exact ⟨above, parts.low _ least bound, fun e member => least e (sub member)⟩

theorem LeafOk.transfer {body body' : Addr → Option LeafBody} {t : Span} {d : LeafBody} (ok : LeafOk body span t d)
    (same : ∀ a u e, span a = some u → body a = some e → span' a = some u ∧ body' a = some e) :
    LeafOk body' span' t d := by
  refine ⟨ok.ok, ok.inside, ok.bound, ok.first, fun pos => ?_, ok.last, fun less => ?_⟩
  · obtain ⟨s', b', here, hi, body'⟩ := ok.prev pos
    obtain ⟨here', body''⟩ := same _ _ _ here body'
    exact ⟨s', b', here', hi, body''⟩
  · obtain ⟨s', b', here, lo, body'⟩ := ok.next less
    obtain ⟨here', body''⟩ := same _ _ _ here body'
    exact ⟨s', b', here', lo, body''⟩

/-- No leaf changes while the internodes grow. -/
theorem Grown.leaves (grown : Grown m span m' span')
    (leaves : ∀ a t d, span a = some t → m.body a = some d → LeafOk m.body span t d) {a : Addr} {t : Span}
    {d : LeafBody} (here : span' a = some t) (body : m'.body a = some d) : LeafOk m'.body span' t d := by
  have same (x : Addr) (u : Span) (e : LeafBody) (span_x : span x = some u) (body_x : m.body x = some e) :
      span' x = some u ∧ m'.body x = some e := by
    obtain ⟨u', now, -, same⟩ := grown.old x u span_x
    exact ⟨by rw [now, same (inner_of_body body_x)], by rw [grown.body x u span_x, body_x]⟩
  rcases grown.new a t here with known | ⟨-, inner⟩
  · obtain ⟨u, span_a⟩ := Option.isSome_iff_exists.mp known
    have body_a : m.body a = some d := by rw [← grown.body a u span_a, body]
    obtain rfl := Option.some.inj (here.symm.trans (same a u d span_a body_a).1)
    exact (leaves a t d span_a body_a).transfer same
  · rw [inner_of_body body] at inner
    cases inner

theorem makeSplit_ok (start : NoSlot m span top c s b) : Runs (makeSplit c) m fun c' m' =>
    (∃ b', Exchanged m m' c c' b b') ∨ leafWidth ≤ b.size + 1 ∧
      ∃ left right key splitType n span' top', Split m span c s b left right key splitType n c' m' span' top' := by
  have layer := start.layer
  have leaf := layer.leaves _ _ _ start.here start.body
  have place := start.place
  have last : b.size < leafWidth → b.permutation.back = 0 := by
    intro room
    by_contra ne
    exact start.full ⟨room, .inl ne⟩
  rw [makeSplit]
  rcases exchangeSlot_ok start.body leaf.ok place (keyOk_ofBytes c.rest) last with
    ⟨m', c', b', run, exchanged⟩ | ⟨run, full⟩
  · exact Wp.step run (Wp.pure (.inl ⟨b', exchanged⟩))
  · obtain ⟨q, above⟩ := up_of_body start.body
    obtain ⟨right, key, splitType, n, split, parts⟩ := @splitInto_total { b with parent := q } c.key c.i
      (.make b.ksufUsedCapacity) (leaf.ok.setParent q) (keyOk_ofBytes c.rest) (place.setParent q) full
      (leafValid_make _) rfl rfl
    have parts := parts.setParent
    refine Wp.step run (Wp.step (version_ok above) (Wp.step (leaf_ok start.body above) ?_))
    have split' : LeafBody.splitInto { b with parent := q }
        (.make (LeafBody.ksufUsedCapacity { b with parent := q })) c.i c.key = some (right, key, splitType) :=
      split
    beta_reduce
    rw [split']
    refine runs_alloc ?_
    have small := layer.tree.small _ _ start.here
    have ne : c.n ≠ m.fresh := small.ne
    let m₁ := m.alloc (m.version c.n) (.leaf ⟨.make 0, right⟩)
    have body₁ (a : Addr) (other : a ≠ m.fresh) : m₁.body a = m.body a := by
      simp [m₁, other]
    have body_right : m₁.body m.fresh = some right := by
      have bare : right.bare = right := by rw [LeafBody.bare, ← parts.parent]
      simp only [m₁, Mem.body_alloc, Function.update_self, Kind.body, bare]
    obtain ⟨m₂, link, up₂, inner₂, body₂, version₂, fresh₂⟩ := @linkSplit_ok m₁ b c.n m.fresh right
      (by rw [body₁ _ ne, start.body]) body_right ne fun some => by
        have less : s.hi ≠ ikeyLimit := fun equal => some (leaf.last equal)
        obtain ⟨s', b', here, lo, body⟩ := leaf.next less
        have other : b.next ≠ m.fresh := (layer.tree.small _ _ here).ne
        refine ⟨?_, other, b', by rw [body₁ _ other, body]⟩
        intro same
        rw [same, start.here] at here
        obtain rfl := Option.some.inj here
        have := layer.tree.wide _ _ start.here
        omega
    refine Wp.step link ?_
    have body₂ : m₂.body = linked m.body c.n m.fresh b right := by
      rw [body₂]
      funext a
      by_cases same : a = m.fresh
      · simp [linked, same]
      · simp only [linked, body₁ a same]
    have new : NewLeaf m m₂ c.n m.fresh := by
      refine ⟨rfl, ?_, ?_, ?_, ?_⟩
      · rw [up₂, show m₁.up = _ from Mem.up_alloc .., show (Kind.leaf ⟨.make 0, right⟩).parent = 0 from parts.parent]
      · rw [inner₂]
        exact Mem.inner_alloc ..
      · rw [version₂]
        rfl
      · rw [fresh₂]
        rfl
    have low := parts.low s.lo (fun e member => (leaf.inside e member).1) start.inside.1
    have high := parts.high s.hi (fun e member => (leaf.inside e member).2) start.inside.2
    have st := new.splitting layer start.here (inner_of_body start.body) low high
    have size : (right.setLinks b.next c.n).size = b.size - n := parts.size
    have leafParts : LeafParts m₂ c m.fresh (b.setNext m.fresh) (right.setLinks b.next c.n) n splitType := by
      refine ⟨?_, ?_, ⟨⟨⟨leaf.ok.valid.body.permutation, leaf.ok.valid.body.iksuf, leaf.ok.valid.body.ksuf⟩,
        leaf.ok.valid.bag⟩, leaf.ok.sorted, leaf.ok.each⟩, ⟨place.small, place.before, place.found, place.missing⟩,
        parts.bound, size, fun zero => ?_⟩
      · rw [body₂, linked, if_pos rfl]
      · rw [body₂, linked, if_neg ne.symm, if_pos rfl]
      · rcases parts.place with ⟨-, far, less, -⟩ | ⟨other, -⟩
        · exact ⟨far, less⟩
        · exact absurd zero other
    refine (leafParts.rest_ok ne st).mono ?_
    rintro c' m' ⟨left, span', top', ended⟩
    refine .inr ⟨full, left, right, key, splitType, n, span', top', ?_⟩
    have halves := start.halves full parts ended.cut
    have bodies : (m₂.mapBody c.n fun _ => left).body =
        Function.update (linked m.body c.n m.fresh b right) c.n (some left) := by
      have bare : left.bare = left := by
        have parent : left.parent = 0 := ended.cut.links.parent.trans (bare_of_body start.body :)
        rw [LeafBody.bare, ← parent]
      rw [Mem.body_setBody, body₂, bare, linked, if_pos rfl]
      rfl
    have unowned : span m.fresh = none := by
      by_contra some
      obtain ⟨r, known⟩ := Option.ne_none_iff_exists'.mp some
      exact (layer.tree.small _ r known).ne rfl
    have grown := ended.grown
    have leaves (a : Addr) (t : Span) (d : LeafBody) (known : span' a = some t) (body : m'.body a = some d) :
        LeafOk m'.body span' t d := by
      refine grown.leaves (fun a t d known body => ?_) known body
      rw [bodies] at body ⊢
      exact halves.leaves layer.tree layer.leaves start.here start.body ne unowned known body
    refine ⟨parts, ended.cut, ended.cursor, halves, ⟨ended.whole, ended.calm, leaves⟩, fun a t known => ?_,
      fun a t known => ?_, fun a t known => ?_, fun a t known => ?_⟩
    · rw [grown.body a t known, bodies]
    · obtain ⟨t', now, -⟩ := splitSpan_lo ne start.here unowned key known
      rw [grown.inner a t' now, Mem.inner_mapBody, new.inner, Function.update_of_ne (layer.tree.small a t known).ne]
    · obtain ⟨t', now, lo, same⟩ := grown.old a t known
      refine ⟨t', now, lo, fun none => same ?_⟩
      have kept := grown.inner a t known
      rw [none] at kept
      exact Option.not_isSome_iff_eq_none.mp (by rw [← kept]; simp)
    · rcases grown.new a t known with old | ⟨above, inner⟩
      · obtain ⟨u, span_a⟩ := Option.isSome_iff_exists.mp old
        by_cases second : a = m.fresh
        · exact .inr (.inl second)
        · by_cases first : a = c.n
          · exact .inl (by rw [first, start.here]; rfl)
          · rw [splitSpan_other first second] at span_a
            exact .inl (by rw [span_a]; rfl)
      · refine .inr (.inr ⟨?_, inner⟩)
        have above' : m₂.fresh ≤ a := above
        rw [new.fresh] at above'
        exact Nat.lt_of_lt_of_le (Nat.lt_add_of_pos_right (by decide)) above'

end Incll.Proof.Layers
