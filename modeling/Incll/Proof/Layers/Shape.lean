import Incll.Proof.Layers.LeafEntries
import Incll.Proof.Layers.Run
import Incll.Proof.Layers.Slots
import Mathlib.Data.Finset.Card
import Mathlib.Logic.Relation

/-! # The shape of a layer

Every node of a layer has a span. `outer` gives the spans that the parents know. The two agree but while
a node is split or removed. -/

namespace Incll.Proof.Layers
open Incll.Lib Incll.Model Incll.Model.Layers

def height (inner : Addr → Option Internode) (a : Addr) : Nat :=
  match inner a with
  | some i => i.height
  | none => 0

/-- An internode. Child 0 can be missing, but not in the first internode of its height. -/
structure InnerOk (up : Addr → Option Addr) (inner : Addr → Option Internode)
    (outer : Addr → Option Span) (a : Addr) (s : Span) (i : Internode) : Prop where
  width : i.nkeys ≤ internodeWidth
  tiles : Tiles (Owns outer) s.lo s.hi (slots s.lo i)
  parent : ∀ x ∈ slots s.lo i, up x.2 = some a
  below : ∀ x ∈ slots s.lo i, height inner x.2 < i.height
  hole : i.child 0 = 0 → s.lo ≠ 0

/-- The nodes with a span are the tree below `top` and the trees below loose nodes. -/
structure Tree (up : Addr → Option Addr) (inner : Addr → Option Internode) (fresh : Nat)
    (span outer : Addr → Option Span) (top : Addr) (loose : Addr → Prop) : Prop where
  null : outer 0 = none
  known : ∀ a s, span a = some s → ∃ p, up a = some p
  small : ∀ a s, span a = some s → a < fresh
  wide : ∀ a s, span a = some s → s.lo < s.hi
  node : ∀ a s i, span a = some s → inner a = some i → InnerOk up inner outer a s i
  above : ∀ a s, span a = some s → a ≠ top → ¬ loose a → ∃ p s' i, up a = some p ∧
    span p = some s' ∧ inner p = some i ∧ (s.lo, a) ∈ slots s'.lo i
  whole : outer top = some ⟨0, ikeyLimit⟩
  root : up top = some 0

/-- The child that is responsible for an ikey. -/
def Step (inner : Addr → Option Internode) (x : Nat) (a c : Addr) : Prop :=
  ∃ i, inner a = some i ∧ i.child (i.upper x) = c ∧ c ≠ 0

variable {up : Addr → Option Addr} {inner : Addr → Option Internode} {fresh : Nat}
  {span outer : Addr → Option Span} {top : Addr} {loose : Addr → Prop}

theorem step_unique (inner : Addr → Option Internode) (x : Nat) : Relator.RightUnique (Step inner x) := by
  rintro a c c' ⟨i, here, rfl, -⟩ ⟨i', here', rfl, -⟩
  obtain rfl : i = i' := Option.some.inj (here.symm.trans here')
  rfl

theorem leaf_last {x : Nat} {a : Addr} (leaf : inner a = none) (c : Addr) : ¬ Step inner x a c := by
  rintro ⟨i, here, -⟩
  rw [leaf] at here
  cases here

theorem height_internode {a : Addr} {i : Internode} (here : inner a = some i) :
    height inner a = i.height := by
  simp [height, here]

theorem height_leaf {a : Addr} (leaf : inner a = none) : height inner a = 0 := by
  simp [height, leaf]

theorem owns_unique {a b b' : Nat} {c : Addr} (left : Owns outer a b c) (right : Owns outer a b' c) :
    b = b' := by
  have same := left.symm.trans right
  simpa using same

namespace InnerOk
variable {a : Addr} {s : Span} {i : Internode} (ok : InnerOk up inner outer a s i)
include ok

/-- The child for an ikey is the one whose slot holds it. -/
theorem find {x lo hi : Nat} {c : Addr} (member : (lo, c) ∈ slots s.lo i)
    (owns : outer c = some ⟨lo, hi⟩) (low : lo ≤ x) (high : x < hi) :
    ∃ before behind, Tile (Owns outer) s.lo s.hi (slots s.lo i) before lo hi c behind ∧
      SlotAt s.lo i (i.upper x) before (lo, c) behind := by
  obtain ⟨before', n, behind', tile'⟩ := ok.tiles.of_mem member
  obtain rfl : n = hi := owns_unique tile'.here owns
  obtain ⟨before, lo', hi', c', behind, tile, low', high', place⟩ :=
    locate ok.tiles (x := x) (by have := tile'.low; omega) (by have := tile'.high; omega)
  have same := ok.tiles.unique (x := x) (fun _ _ _ _ => owns_unique) tile.mem member tile.here owns low'
    high' low high
  cases same
  obtain rfl : hi' = n := owns_unique tile.here owns
  exact ⟨before, behind, tile, place⟩

theorem child_eq {x lo hi : Nat} {c : Addr} (member : (lo, c) ∈ slots s.lo i)
    (owns : outer c = some ⟨lo, hi⟩) (low : lo ≤ x) (high : x < hi) : i.child (i.upper x) = c := by
  obtain ⟨before, behind, -, place⟩ := ok.find member owns low high
  exact congrArg Prod.snd place.here

end InnerOk

/-! The way up and the way down are shorter than there are nodes. -/

def higher (inner : Addr → Option Internode) (fresh : Nat) (span : Addr → Option Span) (h : Nat) : Nat :=
  ((Finset.range fresh).filter fun b => (span b).isSome ∧ h < height inner b).card

def lower (inner : Addr → Option Internode) (fresh : Nat) (span : Addr → Option Span) (h : Nat) : Nat :=
  ((Finset.range fresh).filter fun b => (span b).isSome ∧ height inner b < h).card

theorem higher_lt {a : Addr} {s : Span} {h : Nat} (small : a < fresh) (here : span a = some s)
    (less : h < height inner a) : higher inner fresh span (height inner a) < higher inner fresh span h := by
  refine Finset.card_lt_card (Finset.ssubset_iff_of_subset ?_ |>.mpr ⟨a, ?_, ?_⟩)
  · intro b
    simp only [Finset.mem_filter]
    exact fun ⟨mem, known, more⟩ => ⟨mem, known, less.trans more⟩
  · simp [small, here, less]
  · simp

theorem lower_lt {a : Addr} {s : Span} {h : Nat} (small : a < fresh) (here : span a = some s)
    (less : height inner a < h) : lower inner fresh span (height inner a) < lower inner fresh span h := by
  refine Finset.card_lt_card (Finset.ssubset_iff_of_subset ?_ |>.mpr ⟨a, ?_, ?_⟩)
  · intro b
    simp only [Finset.mem_filter]
    exact fun ⟨mem, known, more⟩ => ⟨mem, known, more.trans less⟩
  · simp [small, here, less]
  · simp

theorem higher_lt_fresh {a : Addr} (small : a < fresh) :
    higher inner fresh span (height inner a) < fresh := by
  have less : higher inner fresh span (height inner a) < (Finset.range fresh).card := by
    refine Finset.card_lt_card (Finset.ssubset_iff_of_subset (Finset.filter_subset ..) |>.mpr ⟨a, ?_, ?_⟩)
    · simpa using small
    · simp
  rwa [Finset.card_range] at less

theorem lower_lt_fresh {a : Addr} (small : a < fresh) :
    lower inner fresh span (height inner a) < fresh := by
  have less : lower inner fresh span (height inner a) < (Finset.range fresh).card := by
    refine Finset.card_lt_card (Finset.ssubset_iff_of_subset (Finset.filter_subset ..) |>.mpr ⟨a, ?_, ?_⟩)
    · simpa using small
    · simp
  rwa [Finset.card_range] at less

/-! Trees at rest. -/

/-- No node is being split or removed. -/
abbrev Whole (up : Addr → Option Addr) (inner : Addr → Option Internode) (fresh : Nat)
    (span : Addr → Option Span) (top : Addr) : Prop :=
  Tree up inner fresh span span top fun _ => False

namespace Whole
variable (tree : Whole up inner fresh span top) {a : Addr} {s : Span}
include tree

theorem ne_zero (here : span a = some s) : a ≠ 0 := by
  rintro rfl
  rw [tree.null] at here
  cases here

theorem parent (here : span a = some s) (ne : a ≠ top) :
    ∃ p s' i, up a = some p ∧ span p = some s' ∧ inner p = some i ∧ InnerOk up inner span p s' i ∧
      (s.lo, a) ∈ slots s'.lo i ∧ s'.lo ≤ s.lo ∧ s.hi ≤ s'.hi ∧ height inner a < height inner p := by
  obtain ⟨p, s', i, parent, here', inner', member⟩ := tree.above a s here ne not_false
  have ok := tree.node _ _ _ here' inner'
  obtain ⟨before, hi, behind, tile⟩ := ok.tiles.of_mem member
  obtain rfl : s.hi = hi := @owns_unique span s.lo _ _ _ here tile.here
  refine ⟨p, s', i, parent, here', inner', ok, member, tile.low, tile.high, ?_⟩
  rw [height_internode inner']
  exact ok.below _ member

theorem hi_le (here : span a = some s) : s.hi ≤ ikeyLimit := by
  induction rank : higher inner fresh span (height inner a) using Nat.strong_induction_on
    generalizing a s with
  | _ n ih =>
      by_cases same : a = top
      · subst same
        have whole := tree.whole
        rw [here] at whole
        obtain rfl := Option.some.inj whole
        exact le_rfl
      · obtain ⟨p, s', i, -, owns, -, -, -, -, above, less⟩ := tree.parent here same
        exact above.trans (ih _ (rank ▸ higher_lt (tree.small _ _ owns) owns less) owns rfl)

/-- Going up ends at the top. -/
theorem reached {x : Nat} (here : span a = some s) (low : s.lo ≤ x) (high : x < s.hi) :
    Relation.ReflTransGen (Step inner x) top a := by
  induction rank : higher inner fresh span (height inner a) using Nat.strong_induction_on
    generalizing a s with
  | _ n ih =>
      by_cases same : a = top
      · rw [same]
      · obtain ⟨p, s', i, -, owns, inner', ok, member, below, above, less⟩ := tree.parent here same
        have up := ih _ (rank ▸ higher_lt (tree.small _ _ owns) owns less) owns (below.trans low)
          (high.trans_le above) rfl
        exact up.tail ⟨i, inner', ok.child_eq member here low high, tree.ne_zero here⟩

theorem step {x : Nat} (here : span a = some s) (low : s.lo ≤ x) (high : x < s.hi) {i : Internode}
    (inner' : inner a = some i) :
    ∃ s', span (i.child (i.upper x)) = some s' ∧ s.lo ≤ s'.lo ∧ s'.hi ≤ s.hi ∧ s'.lo ≤ x ∧ x < s'.hi ∧
      height inner (i.child (i.upper x)) < height inner a := by
  have ok := tree.node a s i here inner'
  obtain ⟨before, lo, hi, c, behind, tile, low', high', place⟩ := locate ok.tiles low high
  obtain rfl : i.child (i.upper x) = c := congrArg Prod.snd place.here
  refine ⟨⟨lo, hi⟩, tile.here, tile.low, tile.high, low', high', ?_⟩
  rw [height_internode inner']
  exact ok.below _ tile.mem

/-- The nodes on the way of an ikey. -/
theorem steps {x : Nat} {c : Addr} (here : span a = some s) (low : s.lo ≤ x) (high : x < s.hi)
    (way : Relation.ReflTransGen (Step inner x) a c) :
    ∃ s', span c = some s' ∧ s.lo ≤ s'.lo ∧ s'.hi ≤ s.hi ∧ s'.lo ≤ x ∧ x < s'.hi := by
  induction way with
  | refl => exact ⟨s, here, le_rfl, le_rfl, low, high⟩
  | tail _ last ih =>
      obtain ⟨s₁, here₁, low₁, high₁, inside⟩ := ih
      obtain ⟨i, inner', rfl, -⟩ := last
      obtain ⟨s₂, here₂, low₂, high₂, least, most, -⟩ := tree.step here₁ inside.1 inside.2 inner'
      exact ⟨s₂, here₂, low₁.trans low₂, high₂.trans high₁, least, most⟩

/-- A node without a child for `x` is below all nodes that are responsible for `x`. -/
theorem bottom {x : Nat} {n : Addr} {t : Span} (here : span a = some s) (low : s.lo ≤ x) (high : x < s.hi)
    (here' : span n = some t) (low' : t.lo ≤ x) (high' : x < t.hi) (last : ∀ c, ¬ Step inner x n c) :
    Relation.ReflTransGen (Step inner x) a n := by
  rcases Relation.ReflTransGen.total_of_right_unique (step_unique inner x) (tree.reached here low high)
    (tree.reached here' low' high') with way | way
  · exact way
  · rcases Relation.ReflTransGen.cases_head way with rfl | ⟨c, first, -⟩
    · exact .refl
    · exact absurd first (last c)

/-- One leaf is responsible for an ikey. -/
theorem leaf_unique {x : Nat} {n : Addr} {t : Span} (here : span a = some s) (low : s.lo ≤ x)
    (high : x < s.hi) (here' : span n = some t) (low' : t.lo ≤ x) (high' : x < t.hi)
    (leaf : inner a = none) (leaf' : inner n = none) : a = n := by
  have way := tree.bottom here low high here' low' high' (leaf_last leaf')
  rcases Relation.ReflTransGen.cases_head way with same | ⟨c, first, -⟩
  · exact same
  · exact absurd first (leaf_last leaf c)

/-- The parent of a node on the way is on the way. -/
theorem way_parent {x : Nat} {n p : Addr} (here : span a = some s) (low : s.lo ≤ x) (high : x < s.hi)
    (parent : up n = some p) (way : Relation.ReflTransGen (Step inner x) a n) (ne : a ≠ n) :
    Relation.ReflTransGen (Step inner x) a p := by
  obtain same | ⟨q, above, last⟩ := Relation.ReflTransGen.cases_tail way
  · exact absurd same.symm ne
  · obtain ⟨s', here', -, -, low', high'⟩ := tree.steps here low high above
    obtain ⟨i, inner', child, -⟩ := last
    have ok := tree.node _ _ _ here' inner'
    obtain ⟨before, lo, hi, c, behind, tile, -, -, place⟩ := locate ok.tiles low' high'
    obtain rfl : c = n := (congrArg Prod.snd place.here).symm.trans child
    have same := (ok.parent _ tile.mem).symm.trans parent
    cases same
    exact above

end Whole
end Incll.Proof.Layers
