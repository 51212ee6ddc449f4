import Incll.Proof.Layers.Shape

/-! # Separators

The keys of the internodes are the starts of the leaves. -/

namespace Incll.Proof.Layers
open Incll.Lib Incll.Model

/-- `x` is key `j` of the internode `a`. -/
structure KeyAt (inner : Addr → Option Internode) (span : Addr → Option Span) (x : Nat) (a : Addr)
    (s : Span) (i : Internode) (j : Nat) : Prop where
  here : span a = some s
  inner : inner a = some i
  small : j < i.nkeys
  key : i.ikey0 j = x

def Separator (inner : Addr → Option Internode) (span : Addr → Option Span) (x : Nat) : Prop :=
  ∃ a s i j, KeyAt inner span x a s i j

variable {up : Addr → Option Addr} {inner inner' : Addr → Option Internode} {fresh : Nat}
  {span outer : Addr → Option Span} {top a a' : Addr} {s s' : Span} {i i' : Internode} {x j j' : Nat}

theorem KeyAt.slot_mem (at' : KeyAt inner span x a s i j) : (x, i.child (j + 1)) ∈ slots s.lo i := by
  have := skip_le i
  have := at'.small
  refine mem_part.mpr ⟨j + 1, by omega, by omega, ?_⟩
  simp [slot, at'.key]

theorem InnerOk.keys_lt (ok : InnerOk up inner outer a s i) (small : j + 1 < i.nkeys) :
    i.ikey0 j < i.ikey0 (j + 1) := by
  have sorted := ok.tiles.pairwise
  have := skip_le i
  have whole : slots s.lo i = part s.lo i (skip i) (j + 1) ++
      slot s.lo i (j + 1) :: slot s.lo i (j + 2) :: part s.lo i (j + 3) (i.nkeys + 1) := by
    rw [← part_cons (by omega), ← part_cons (by omega), part_append (by omega) (by omega), slots]
  rw [whole] at sorted
  have pair := (List.pairwise_append.mp sorted).2.1
  exact (List.pairwise_cons.mp pair).1 (slot s.lo i (j + 2)) (by simp)

namespace Whole
variable (tree : Whole up inner fresh span top)
include tree

/-- The first leaf below a node starts where the node starts. -/
theorem first_leaf (here : span a = some s) : ∃ d t, span d = some t ∧ inner d = none ∧ t.lo = s.lo := by
  induction rank : height inner a using Nat.strong_induction_on generalizing a s with
  | _ n ih =>
      cases inner_a : inner a with
      | none => exact ⟨a, s, here, inner_a, rfl⟩
      | some i =>
          have ok := tree.node a s i here inner_a
          cases list : slots s.lo i with
          | nil => exact absurd list (ok.tiles.ne_nil (tree.wide a s here))
          | cons y rest =>
              have tiles := ok.tiles
              rw [list] at tiles
              obtain ⟨start, hi, -, owns, -⟩ := tiles
              have less := ok.below y (by simp [list])
              rw [← height_internode inner_a] at less
              exact ih _ (rank ▸ less) (s := ⟨s.lo, hi⟩) owns rfl

theorem separator_of_start (here : span a = some s) (pos : s.lo ≠ 0) : Separator inner span s.lo := by
  induction rank : higher inner fresh span (height inner a) using Nat.strong_induction_on
    generalizing a s with
  | _ n ih =>
      by_cases same : a = top
      · subst same
        have whole := tree.whole
        rw [here] at whole
        obtain rfl := Option.some.inj whole
        exact absurd rfl pos
      · obtain ⟨p, s', i, -, owns, inner_p, ok, member, -, -, less⟩ := tree.parent here same
        obtain ⟨m, -, bound, eq⟩ := mem_part.mp member
        have start := congrArg Prod.fst eq
        by_cases first : m = 0
        · simp only [slot, if_pos first] at start
          rw [← start] at pos ⊢
          exact ih _ (rank ▸ higher_lt (tree.small _ _ owns) owns less) owns pos rfl
        · simp only [slot, if_neg first] at start
          exact ⟨p, s', i, m - 1, owns, inner_p, by omega, start⟩

theorem key_pos (at' : KeyAt inner span x a s i j) : x ≠ 0 := by
  have ok := tree.node a s i at'.here at'.inner
  have bounds := ok.tiles.bounds at'.slot_mem
  rintro rfl
  have zero : s.lo = 0 := by omega
  have some : i.child 0 ≠ 0 := fun hole => ok.hole hole zero
  -- the first child starts at `s.lo` too
  have sorted := ok.tiles.pairwise
  have := at'.small
  have whole : slots s.lo i = slot s.lo i 0 :: part s.lo i 1 (i.nkeys + 1) := by
    rw [slots, skip_of_ne some, part_cons (by omega)]
  have member : ((0, i.child (j + 1)) : Nat × Addr) ∈ part s.lo i 1 (i.nkeys + 1) := by
    refine mem_part.mpr ⟨j + 1, by omega, by omega, ?_⟩
    simp [slot, at'.key]
  rw [whole] at sorted
  have less := (List.pairwise_cons.mp sorted).1 _ member
  exact absurd less (Nat.not_lt_zero _)

/-- The separators are the starts of the leaves other than the first. -/
theorem separator_iff : Separator inner span x ↔
    x ≠ 0 ∧ ∃ d t, span d = some t ∧ inner d = none ∧ t.lo = x := by
  constructor
  · rintro ⟨a, s, i, j, at'⟩
    have ok := tree.node a s i at'.here at'.inner
    obtain ⟨_, hi, _, tile⟩ := ok.tiles.of_mem at'.slot_mem
    obtain ⟨d, t, leaf⟩ := tree.first_leaf tile.here
    exact ⟨tree.key_pos at', d, t, leaf⟩
  · rintro ⟨pos, d, t, here, -, rfl⟩
    exact tree.separator_of_start here pos

/-- A separator is in one place, not counting first keys of internodes without a child 0. -/
theorem separator_unique (first : KeyAt inner span x a s i j) (second : KeyAt inner span x a' s' i' j')
    (inside : s.lo < x) (inside' : s'.lo < x) : a = a' ∧ j = j' := by
  have below {a : Addr} {s : Span} {i : Internode} {j : Nat} (at' : KeyAt inner span x a s i j) : x < s.hi :=
    ((tree.node a s i at'.here at'.inner).tiles.bounds at'.slot_mem).2
  -- below an internode with the separator nothing starts before it
  have apart {a a' : Addr} {s s' : Span} {i i' : Internode} {j j' : Nat} (upper : KeyAt inner span x a s i j)
      (lower : KeyAt inner span x a' s' i' j') (inside' : s'.lo < x)
      (way : Relation.ReflTransGen (Step inner x) a a') : a = a' := by
    rcases Relation.ReflTransGen.cases_head way with same | ⟨c, step, rest⟩
    · exact same
    · obtain ⟨k, inner_k, rfl, -⟩ := step
      obtain rfl := Option.some.inj (upper.inner.symm.trans inner_k)
      have ok := tree.node a s i upper.here upper.inner
      obtain ⟨_, hi, _, tile⟩ := ok.tiles.of_mem upper.slot_mem
      have child := ok.child_eq upper.slot_mem tile.here le_rfl tile.less
      rw [child] at rest
      obtain ⟨t, here, low, -⟩ := tree.steps tile.here le_rfl tile.less rest
      obtain rfl := Option.some.inj (lower.here.symm.trans here)
      exact absurd inside' (Nat.not_lt.mpr low)
  have same : a = a' := by
    rcases Relation.ReflTransGen.total_of_right_unique (step_unique inner x)
      (tree.reached first.here inside.le (below first)) (tree.reached second.here inside'.le (below second))
      with way | way
    · exact apart first second inside' way
    · exact (apart second first inside way).symm
  subst same
  obtain rfl := Option.some.inj (first.inner.symm.trans second.inner)
  have ok := tree.node a s i first.here first.inner
  have sorted (m d : Nat) (bound : m + d + 1 < i.nkeys) : i.ikey0 m < i.ikey0 (m + d + 1) := by
    induction d with
    | zero => exact ok.keys_lt bound
    | succ d ih => exact (ih (by omega)).trans (ok.keys_lt bound)
  refine ⟨rfl, ?_⟩
  by_contra ne
  have left := first.key
  have right := second.key
  have := first.small
  have := second.small
  rcases Nat.lt_or_gt_of_ne ne with less | more
  · have := sorted j (j' - j - 1) (by omega)
    rw [show j + (j' - j - 1) + 1 = j' by omega] at this
    omega
  · have := sorted j' (j - j' - 1) (by omega)
    rw [show j' + (j - j' - 1) + 1 = j by omega] at this
    omega

/-- One node has no parent. -/
theorem root_unique (here : span a = some s) (root : up a = some 0) : a = top := by
  by_contra ne
  obtain ⟨p, s', i, above, owns, -⟩ := tree.parent here ne
  rw [root] at above
  exact tree.ne_zero owns (Option.some.inj above).symm

end Whole
end Incll.Proof.Layers
