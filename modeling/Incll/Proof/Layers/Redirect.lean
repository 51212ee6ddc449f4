import Incll.Proof.Layers.Contract
import Incll.Proof.Layers.Hang

/-! # `redirect`

The keys above a node get the new start of the node. -/

namespace Incll.Proof.Layers
open Incll.Lib Incll.Model Incll.Model.Layers

/-- The internode with the same children, where starts have moved. -/
structure Redirected (f : Nat → Nat) (lo : Nat) (i i' : Internode) : Prop where
  nkeys : i'.nkeys = i.nkeys
  height : i'.height = i.height
  child : i'.child = i.child
  slots : slots (f lo) i' = (slots lo i).map fun z => (f z.1, z.2)

section
variable {lo x y j : Nat} {i : Internode} {c : Addr} {before behind : List (Nat × Addr)}

theorem map_collapse {l : List (Nat × Addr)} (out : ∀ z ∈ l, z.1 ≠ x) :
    (l.map fun z => (collapse x y z.1, z.2)) = l := by
  conv_rhs => rw [← List.map_id l]
  refine List.map_congr_left fun z member => ?_
  rw [collapse_ne (out z member)]
  rfl

theorem redirected_id : Redirected id lo i i := by
  refine ⟨rfl, rfl, rfl, ?_⟩
  conv_lhs => rw [← List.map_id (slots _ i)]
  rfl

/-- An internode in which no child starts at `x`. -/
theorem redirected_same (out : ∀ z ∈ slots lo i, z.1 ≠ x) : Redirected (collapse x y) lo i i := by
  refine ⟨rfl, rfl, rfl, ?_⟩
  rw [map_collapse out]
  by_cases hole : i.child 0 = 0
  · exact slots_of_skip (skip_of_eq hole)
  · rw [collapse_ne (out (lo, i.child 0) ?_)]
    rw [slots_of_first (skip_of_ne hole)]
    exact List.mem_cons_self

variable (place : SlotAt lo i j before (x, c) behind) (sorted : (slots lo i).Pairwise fun z w => z.1 < w.1)
include place sorted

theorem SlotAt.map_collapse : ((slots lo i).map fun z => (collapse x y z.1, z.2)) = before ++ (y, c) :: behind := by
  rw [place.eq] at sorted ⊢
  obtain ⟨-, rest, less⟩ := List.pairwise_append.mp sorted
  rw [List.map_append, List.map_cons, collapse_at]
  rw [Layers.map_collapse fun z member => (less z member (x, c) List.mem_cons_self).ne]
  rw [Layers.map_collapse fun z member => ((List.pairwise_cons.mp rest).1 z member).ne']

/-- `redirect` at a key. -/
theorem redirected_key (pos : 0 < j) (hole : lo = x → skip i = 1) :
    Redirected (collapse x y) lo i (i.setKey (j - 1) y) := by
  refine ⟨rfl, rfl, rfl, ?_⟩
  rw [place.map_collapse sorted, ← slots_setKey place pos y]
  by_cases same : lo = x
  · refine slots_of_skip ?_
    exact hole same
  · rw [collapse_ne same]

/-- `redirect` at child 0. -/
theorem redirected_first (zero : j = 0) : Redirected (collapse x y) lo i i := by
  subst zero
  have some : skip i = 0 := Nat.le_zero.mp place.from'
  have none : before = [] := by rw [place.before, some, part_nil le_rfl]
  have here := place.here
  simp only [slot, if_true, Prod.mk.injEq] at here
  obtain ⟨rfl, rfl⟩ := here
  refine ⟨rfl, rfl, rfl, ?_⟩
  rw [place.map_collapse sorted, collapse_at, slots_of_first some, none, place.behind, List.nil_append]
  congr 1
  refine part_shift rfl fun m _ => ?_
  simp [slot]

end

variable {up : Addr → Option Addr} {old : Addr → Option Internode} {fresh : Nat}
  {span span' : Addr → Option Span} {top p q a : Addr} {r s t : Span} {x y ikey : Nat}

namespace Whole
variable (tree : Whole up old fresh span top)
include tree

theorem height_le {b : Addr} (here : span a = some t) (low : t.lo ≤ x) (high : x < t.hi)
    (way : Relation.ReflTransGen (Step old x) a b) : height old b ≤ height old a := by
  induction way with
  | refl => exact le_rfl
  | tail first last ih =>
      obtain ⟨t', here', -, -, low', high'⟩ := tree.steps here low high first
      obtain ⟨i, inner, rfl, -⟩ := last
      obtain ⟨-, -, -, -, -, -, less⟩ := tree.step here' low' high' inner
      exact less.le.trans ih

theorem height_lt {b : Addr} (here : span a = some t) (low : t.lo ≤ x) (high : x < t.hi)
    (way : Relation.ReflTransGen (Step old x) a b) (ne : a ≠ b) : height old b < height old a := by
  rcases Relation.ReflTransGen.cases_head way with same | ⟨c, ⟨i, inner, rfl, -⟩, rest⟩
  · exact absurd same ne
  · obtain ⟨t', here', -, -, low', high', less⟩ := tree.step here low high inner
    exact (tree.height_le here' low' high' rest).trans_lt less

/-- The nodes for `x` that are higher than `p` are its parent and those above the parent. -/
theorem above_parent (here : span p = some r) (low : r.lo ≤ x) (high : x < r.hi) (parent : up p = some q)
    (here' : span a = some t) (low' : t.lo ≤ x) (high' : x < t.hi) (more : height old p < height old a) :
    Relation.ReflTransGen (Step old x) a q := by
  have ne : a ≠ p := by
    rintro rfl
    exact Nat.lt_irrefl _ more
  rcases Relation.ReflTransGen.total_of_right_unique (step_unique old x) (tree.reached here low high)
    (tree.reached here' low' high') with way | way
  · have := tree.height_le here low high way
    omega
  · exact tree.way_parent here' low' high' parent way ne

/-- Where a child of `a` starts at `x`, all nodes for `x` below `a` start there. -/
theorem start_le {i : Internode} {c : Addr} (here : span a = some t) (inner : old a = some i)
    (member : (x, c) ∈ slots t.lo i) (way : Relation.ReflTransGen (Step old x) a q) (ne : a ≠ q)
    (owns : span q = some s) : x ≤ s.lo := by
  have ok := tree.node a t i here inner
  obtain ⟨_, hi, _, tile⟩ := ok.tiles.of_mem member
  rcases Relation.ReflTransGen.cases_head way with same | ⟨c', ⟨i', inner', rfl, -⟩, rest⟩
  · exact absurd same ne
  · obtain rfl := Option.some.inj (inner.symm.trans inner')
    rw [ok.child_eq member tile.here le_rfl tile.less] at rest
    obtain ⟨s', owns', low, -⟩ := tree.steps tile.here le_rfl tile.less rest
    obtain rfl := Option.some.inj (owns.symm.trans owns')
    exact low

end Whole

/-- What `redirect` leaves: the internodes higher than `p` have the moved starts. -/
structure Redirection (m m' : Mem) (span : Addr → Option Span) (old : Addr → Option Internode) (p : Addr)
    (hold : Bool) (f : Nat → Nat) : Prop where
  up : m'.up = m.up
  body : m'.body = m.body
  fresh : m'.fresh = m.fresh
  root : m'.root = m.root
  callbacks : m'.callbacks = m.callbacks
  inner : ∀ a, (∀ t, span a = some t → height old a ≤ height old p) → m'.inner a = m.inner a
  version : ∀ a, (∀ t, span a = some t → height old a ≤ height old p) →
    m'.version a = if hold = true ∧ a = p then (m.version a).unlock else m.version a
  high : ∀ a t i, span a = some t → old a = some i → height old p < i.height →
    ∃ i', m'.inner a = some i' ∧ Redirected f t.lo i i'

variable {m : Mem} {held : Finset Addr} {hold : Bool}

/-- The parent `q` of `p` is locked, and `p` is unlocked if it is held. -/
def handOver (m : Mem) (p q : Addr) (hold : Bool) : Mem :=
  let m₁ := m.setVersion q { m.version q with locked := true }
  if hold then m₁.setVersion p (m₁.version p).unlock else m₁

theorem version_handOver (ne : a ≠ q) : (handOver m p q hold).version a =
    if hold = true ∧ a = p then (m.version a).unlock else m.version a := by
  cases hold with
  | false => simp [handOver, ne]
  | true =>
      by_cases same : a = p
      · subst same
        simp [handOver, ne]
      · simp [handOver, ne, same]

/-- The part of an iteration after the locks. -/
def redirectAt (ikey y fuel : Nat) (q : Addr) : T Unit := do
  let i ← internode q
  let kp := i.upper ikey
  if 0 < kp then modifyInternode q (·.setKey (kp - 1) y)
  if kp = 0 ∨ kp = 1 ∧ i.child 0 = 0 then redirect ikey y fuel q true else unlock q

theorem redirect_handOver {i : Internode} {c : Addr} (fuel : Nat) (above : m.up p = some q)
    (ne : q ≠ 0) (inner : m.inner q = some i) (above' : m.up q = some c) (free : Free (m.version q)) :
    redirect ikey y (fuel + 1) p hold m = redirectAt ikey y fuel q (handOver m p q hold) := by
  rw [redirect, bind_ok (lockedParent_ok above ne inner above' free)]
  cases hold with
  | false => rfl
  | true =>
      simp only [if_true]
      rw [bind_ok (unlock_ok (s := m.setVersion q { m.version q with locked := true }) above)]
      rfl

/-- The keys are changed at `q`. -/
theorem redirectAt_ok {i : Internode} {c : Addr} {before behind : List (Nat × Addr)} (fuel : Nat)
    (inner : m.inner q = some i) (above : m.up q = some c)
    (place : SlotAt s.lo i (i.upper ikey) before (x, p) behind)
    (sorted : (slots s.lo i).Pairwise fun z w => z.1 < w.1) (hole : s.lo = x → skip i = i.upper ikey) :
    ∃ i' m', Redirected (collapse x y) s.lo i i' ∧ redirectAt ikey y fuel q m =
        (if i.upper ikey = 0 ∨ i.upper ikey = 1 ∧ i.child 0 = 0 then redirect ikey y fuel q true else unlock q) m' ∧
      m'.inner = Function.update m.inner q (some i') ∧ m'.up = m.up ∧ m'.body = m.body ∧ m'.version = m.version ∧
      m'.fresh = m.fresh ∧ m'.root = m.root ∧ m'.callbacks = m.callbacks := by
  have same : ({ i with parent := c } : Internode).upper ikey = i.upper ikey := rfl
  rw [redirectAt, bind_ok (internode_ok inner above)]
  simp only [same]
  by_cases pos : 0 < i.upper ikey
  · refine ⟨i.setKey (i.upper ikey - 1) y, m.mapInternode q (·.setKey (i.upper ikey - 1) y),
      redirected_key place sorted pos fun same => ?_, ?_, ?_, ?_, ?_, rfl, rfl, rfl, rfl⟩
    · have := hole same
      have := skip_le i
      omega
    · rw [if_pos pos, bind_ok (modifyInternode_ok _ inner)]
    · refine (Mem.inner_mapInternode _ _ _ ?_).trans ?_
      · exact fun _ => rfl
      · rw [inner]
        rfl
    · exact Mem.up_mapInternode _ _ _ fun _ => rfl
    · exact Mem.body_mapInternode ..
  · refine ⟨i, m, redirected_first place sorted (by omega), ?_, ?_, rfl, rfl, rfl, rfl, rfl, rfl⟩
    · rw [if_neg pos]
    · rw [← inner, Function.update_eq_self]

theorem redirect_ok (fuel : Nat) (tree : Whole m.up old m.fresh span top)
    (calm : Calm m span' top held fun _ => False)
    (known : ∀ a t, span a = some t → height old p < height old a → ∃ t', span' a = some t')
    (here : span p = some r) (low : r.lo ≤ ikey) (high : ikey < r.hi) (pos : r.lo ≠ 0)
    (agree : ∀ a t, span a = some t → height old p < height old a → m.inner a = old a)
    (below : ∀ a ∈ held, ∀ t, span a = some t → height old a ≤ height old p)
    (inside : hold = true → p ∈ held) (enough : higher old m.fresh span (height old p) < fuel) :
    Runs (redirect ikey y fuel p hold) m fun _ m' =>
      Redirection m m' span old p hold (collapse r.lo y) ∧
      Calm m' span' top (if hold = true then held.erase p else held) fun _ => False := by
  induction fuel generalizing m p r held hold with
  | zero => exact absurd enough (Nat.not_lt_zero _)
  | succ fuel ih =>
      have apart_top : p ≠ top := by
        rintro rfl
        obtain rfl := Option.some.inj (here.symm.trans tree.whole)
        exact pos rfl
      obtain ⟨q, s, i, parent, owns, inner_q, ok, member, least, most, less⟩ := tree.parent here apart_top
      obtain ⟨before, behind, tile, place⟩ := ok.find member here low high
      have apart : p ≠ q := by
        rintro rfl
        exact Nat.lt_irrefl _ less
      have out : q ∉ held := fun member => by
        have := below q member s owns
        omega
      obtain ⟨t', known_q⟩ := known q s owns less
      have free := calm.version_free known_q out
      obtain ⟨c, above⟩ := tree.known q s owns
      have inner : m.inner q = some i := by rw [agree q s owns less, inner_q]
      have wide := tree.wide p r here
      -- nothing but `q` and the nodes above it is higher and responsible for the start
      have chain (a : Addr) (t : Span) (j : Internode) (d : Addr) (here' : span a = some t) (inner' : old a = some j)
          (more : height old p < j.height) (start : (r.lo, d) ∈ slots t.lo j) (ne : a ≠ q) :
          r.lo ≤ s.lo ∧ height old q < j.height := by
        have ok' := tree.node a t j here' inner'
        have bounds := ok'.tiles.bounds start
        have way := tree.above_parent here le_rfl wide parent here' bounds.1 bounds.2
          (by rw [height_internode inner']; exact more)
        refine ⟨tree.start_le here' inner' start way ne owns, ?_⟩
        have := tree.height_lt here' bounds.1 bounds.2 way ne
        rwa [height_internode inner'] at this
      have run : redirect ikey y (fuel + 1) p hold m = redirectAt ikey y fuel q (handOver m p q hold) :=
        redirect_handOver fuel parent (tree.ne_zero owns) inner above free
      let m₂ := handOver m p q hold
      have up₂ : m₂.up = m.up := by cases hold <;> rfl
      have inner₂ : m₂.inner = m.inner := by cases hold <;> rfl
      have fresh₂ : m₂.fresh = m.fresh := by cases hold <;> rfl
      have body₂ : m₂.body = m.body := by cases hold <;> rfl
      have root₂ : m₂.root = m.root := by cases hold <;> rfl
      have callbacks₂ : m₂.callbacks = m.callbacks := by cases hold <;> rfl
      have calm₂ : Calm m₂ span' top (if hold = true then (insert q held).erase p else insert q held) fun _ => False := by
        have locked := calm.lock known_q out
        cases hold with
        | false => exact locked
        | true => exact locked.unlock (Finset.mem_insert_of_mem (inside rfl))
      have hole (same : s.lo = r.lo) : skip i = i.upper ikey := by
        have none : before = [] := by
          by_contra some
          have := tile.before.lt some
          omega
        have length := place.length
        rw [none, List.length_nil] at length
        have := place.from'
        omega
      obtain ⟨i', m₃, redirected, run₃, inner₃, up₃, body₃, version₃, fresh₃, root₃, callbacks₃⟩ :=
        redirectAt_ok (m := m₂) (y := y) fuel (by rw [inner₂, inner]) (by rw [up₂, above]) place ok.tiles.pairwise
          hole
      refine Wp.of_eq (run.trans run₃) ?_
      rw [up₂] at up₃
      rw [inner₂] at inner₃
      rw [body₂] at body₃
      rw [fresh₂] at fresh₃
      rw [root₂] at root₃
      rw [callbacks₂] at callbacks₃
      have version₀ (a : Addr) (ne : a ≠ q) : m₃.version a =
          if hold = true ∧ a = p then (m.version a).unlock else m.version a := by
        rw [version₃]
        exact version_handOver ne
      have inner₀ (a : Addr) (ne : a ≠ q) : m₃.inner a = m.inner a := by
        rw [inner₃, Function.update_of_ne ne]
      have lower_ne (a : Addr) (lower : ∀ t, span a = some t → height old a ≤ height old p) : a ≠ q := by
        rintro rfl
        have := lower s owns
        omega
      have calm₃ : Calm m₃ span' top (if hold = true then (insert q held).erase p else insert q held)
          fun _ => False := by
        have same (a : Addr) : settled m₃ (if hold = true then (insert q held).erase p else insert q held) a =
            settled m₂ (if hold = true then (insert q held).erase p else insert q held) a := by
          rw [settled, settled, version₃]
        refine calm₂.transfer (fun a t _ => ?_) (fun a _ _ => by rw [same]) (by rw [same]) fun a member => ?_
        · rw [inner₃, inner₂]
          by_cases equal : a = q
          · rw [equal, Function.update_self, inner]
            rfl
          · rw [Function.update_of_ne equal]
        · rw [version₃]
          exact calm₂.locked a member
      have inner_q' : m₃.inner q = some i' := by rw [inner₃, Function.update_self]
      have known_held (a : Addr) (member : a ∈ if hold = true then (insert q held).erase p else insert q held) :
          a = q ∨ a ∈ held := by
        cases hold with
        | false => exact Finset.mem_insert.mp member
        | true => exact Finset.mem_insert.mp (Finset.mem_of_mem_erase member)
      have rest_held : (if hold = true then (insert q held).erase p else insert q held).erase q =
          if hold = true then held.erase p else held := by
        cases hold with
        | false => exact Finset.erase_insert out
        | true =>
            simp only [if_true]
            rw [Finset.erase_right_comm, Finset.erase_insert out]
      -- an internode above `p` in which no child starts where `p` starts
      have other (a : Addr) (t : Span) (j : Internode) (here' : span a = some t) (inner' : old a = some j)
          (more : height old p < j.height) (ne : a ≠ q) (off : s.lo < r.lo ∨ j.height ≤ height old q) :
          m₃.inner a = some j ∧ Redirected (collapse r.lo y) t.lo j j := by
        rw [inner₀ a ne, agree a t here' (by rw [height_internode inner']; exact more)]
        refine ⟨inner', redirected_same fun z member same => ?_⟩
        obtain ⟨first, second⟩ := chain a t j z.2 here' inner' more (by rw [← same]; exact member) ne
        omega
      by_cases first : i.upper ikey = 0 ∨ i.upper ikey = 1 ∧ i.child 0 = 0
      · rw [if_pos first]
        -- `p` is the first child, and the start of `q` moves too
        have start : s.lo = r.lo := by
          have none : before = [] := by
            have length := place.length
            refine List.eq_nil_of_length_eq_zero ?_
            rcases first with zero | ⟨one, hole⟩
            · omega
            · have := skip_of_eq hole
              omega
          have same := tile.before
          rw [none] at same
          exact same
        have rest := @ih q s m₃ _ true (by rw [up₃, fresh₃]; exact tree) calm₃ (fun a t here' more => known a t here' (less.trans more)) owns
          (by omega) (by omega) (by omega)
          (fun a t here' more => by
            rw [inner₀ a (by rintro rfl; exact Nat.lt_irrefl _ more)]
            exact agree a t here' (less.trans more))
          (fun a member t here' => by
            rcases known_held a member with rfl | old'
            · exact le_rfl
            · exact (below a old' t here').trans less.le)
          (fun _ => by
            cases hold with
            | false => exact Finset.mem_insert_self ..
            | true => exact Finset.mem_erase.mpr ⟨apart.symm, Finset.mem_insert_self ..⟩)
          (by
            rw [fresh₃]
            have := higher_lt (tree.small _ _ owns) owns less
            omega)
        refine rest.mono fun _ m' post => ?_
        obtain ⟨redirection, calm'⟩ := post
        rw [if_pos rfl, rest_held] at calm'
        refine ⟨⟨redirection.up.trans up₃, redirection.body.trans body₃, redirection.fresh.trans fresh₃,
          redirection.root.trans root₃, redirection.callbacks.trans callbacks₃, fun a lower => ?_, fun a lower => ?_,
          fun a t j here' inner' more => ?_⟩, calm'⟩
        · rw [redirection.inner a fun t here' => (lower t here').trans less.le, inner₀ a (lower_ne a lower)]
        · have ne := lower_ne a lower
          rw [redirection.version a fun t here' => (lower t here').trans less.le, if_neg fun both => ne both.2,
            version₀ a ne]
        · by_cases equal : a = q
          · subst equal
            obtain rfl := Option.some.inj (owns.symm.trans here')
            obtain rfl := Option.some.inj (inner_q.symm.trans inner')
            refine ⟨i', ?_, redirected⟩
            rw [redirection.inner a fun t here'' => ?_, inner_q']
            exact le_rfl
          · by_cases higher : height old q < j.height
            · rw [← start]
              exact redirection.high a t j here' inner' higher
            · obtain ⟨same, still⟩ := other a t j here' inner' more equal (.inr (Nat.le_of_not_lt higher))
              refine ⟨j, ?_, still⟩
              rw [redirection.inner a fun t' here'' => ?_, same]
              rw [height_internode inner']
              exact Nat.le_of_not_lt higher
      · rw [if_neg first]
        refine Wp.of_ok (unlock_ok (show m₃.up q = some c by rw [up₃, above])) ?_
        have start : s.lo < r.lo := by
          refine tile.before.lt fun none => first ?_
          have length := place.length
          rw [none, List.length_nil] at length
          have from' := place.from'
          by_cases hole : i.child 0 = 0
          · have := skip_of_eq hole
            exact .inr ⟨by omega, hole⟩
          · have := skip_of_ne hole
            exact .inl (by omega)
        have calm' := calm₃.unlock (a := q) (by
          cases hold with
          | false => exact Finset.mem_insert_self ..
          | true => exact Finset.mem_erase.mpr ⟨apart.symm, Finset.mem_insert_self ..⟩)
        rw [rest_held] at calm'
        refine ⟨⟨up₃, body₃, fresh₃, root₃, callbacks₃, fun a lower => ?_, fun a lower => ?_,
          fun a t j here' inner' more => ?_⟩, calm'⟩
        · rw [Mem.inner_setVersion, inner₀ a (lower_ne a lower)]
        · have ne := lower_ne a lower
          rw [Mem.version_setVersion, Function.update_of_ne ne, version₀ a ne]
        · rw [Mem.inner_setVersion]
          by_cases equal : a = q
          · subst equal
            obtain rfl := Option.some.inj (owns.symm.trans here')
            obtain rfl := Option.some.inj (inner_q.symm.trans inner')
            exact ⟨i', inner_q', redirected⟩
          · obtain ⟨same, still⟩ := other a t j here' inner' more equal (.inl start)
            exact ⟨j, same, still⟩

end Incll.Proof.Layers
