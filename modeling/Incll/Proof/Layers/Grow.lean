import Incll.Proof.Layers.Shape

/-! # Trees in which a node is split

`child` has been split off from `n` and is not below any internode yet. -/

namespace Incll.Proof.Layers
open Incll.Lib Incll.Model Incll.Model.Layers

structure Half (up : Addr → Option Addr) (inner : Addr → Option Internode) (fresh : Nat)
    (span : Addr → Option Span) (top n child : Addr) (s t : Span) : Prop where
  tree : Tree up inner fresh span (Function.update span n (some ⟨s.lo, t.hi⟩)) top (· = child)
  left : span n = some s
  right : span child = some t
  next : s.hi = t.lo
  loose : up child = some 0
  same : height inner n = height inner child

variable {up up' : Addr → Option Addr} {inner inner' : Addr → Option Internode} {fresh : Nat}
  {span outer outer' : Addr → Option Span} {top n child p : Addr} {s t sp : Span} {i : Internode}

theorem InnerOk.transfer {a : Addr} {s : Span} (ok : InnerOk up inner outer a s i)
    (rest : ∀ x ∈ slots s.lo i, outer' x.2 = outer x.2 ∧ up' x.2 = up x.2 ∧
      height inner' x.2 = height inner x.2) : InnerOk up' inner' outer' a s i := by
  refine ⟨ok.width, ?_, fun x member => ?_, fun x member => ?_, ok.hole⟩
  · refine ok.tiles.mono fun k c m member _ _ owns => ?_
    rw [Owns, (rest _ member).1]
    exact owns
  · rw [(rest x member).2.1]
    exact ok.parent x member
  · rw [(rest x member).2.2]
    exact ok.below x member

/-- A span that is not in the interval. -/
theorem tiles_update {lo hi : Nat} {r : Span} {l : List (Nat × Addr)}
    (h : Tiles (Owns (Function.update span n (some r))) lo hi l) (wide : r.lo < r.hi)
    (apart : hi ≤ r.lo ∨ r.hi ≤ lo) : Tiles (Owns span) lo hi l := by
  refine h.mono fun k c m member low high owns => ?_
  by_cases same : c = n
  · subst same
    rw [Owns, Function.update_self] at owns
    obtain ⟨rfl⟩ := Option.some.inj owns
    simp only at apart wide
    omega
  · rwa [Owns, Function.update_of_ne same] at owns

namespace Half
variable (half : Half up inner fresh span top n child s t)
include half

theorem wide : s.lo < t.lo ∧ t.lo < t.hi :=
  ⟨half.next ▸ half.tree.wide n s half.left, half.tree.wide child t half.right⟩

theorem ne : n ≠ child := by
  rintro rfl
  have same := half.left.symm.trans half.right
  have := half.wide
  simp only [Option.some.injEq] at same
  rw [same] at this
  exact absurd this.1 (Nat.lt_irrefl _)

theorem null : span 0 = none := by
  have none := half.tree.null
  by_cases zero : 0 = n
  · subst zero
    simp at none
  · rwa [Function.update_of_ne zero] at none

theorem child_ne_top : child ≠ top := by
  rintro rfl
  have whole := half.tree.whole
  rw [Function.update_of_ne half.ne.symm, half.right] at whole
  have := half.wide
  simp only [Option.some.injEq] at whole
  rw [whole] at this
  exact absurd this.1 (Nat.not_lt_zero _)

theorem ne_zero {a : Addr} {r : Span} (here : span a = some r) : a ≠ 0 := by
  rintro rfl
  rw [half.null] at here
  cases here

/-- The children of other nodes are neither `n` nor `child`. -/
theorem others {a : Addr} {r : Span} {j : Internode} (here : span a = some r) (inner_eq : inner a = some j)
    (ne : up n ≠ some a) {x : Nat × Addr} (member : x ∈ slots r.lo j) :
    x.2 ≠ n ∧ x.2 ≠ child ∧ ∃ r', span x.2 = some r' := by
  have ok := half.tree.node a r j here inner_eq
  have parent := ok.parent x member
  have first : x.2 ≠ n := fun same => ne (same ▸ parent)
  have second : x.2 ≠ child := by
    intro same
    rw [same, half.loose] at parent
    exact half.ne_zero here (Option.some.inj parent).symm
  obtain ⟨_, hi, _, tile⟩ := ok.tiles.of_mem (k := x.1) (c := x.2) member
  have owns := tile.here
  rw [Owns, Function.update_of_ne first] at owns
  exact ⟨first, second, _, owns⟩

/-- `n` is in a slot of its parent. -/
theorem parent (ne : n ≠ top) : ∃ p sp i, up n = some p ∧ span p = some sp ∧ inner p = some i ∧
    InnerOk up inner (Function.update span n (some ⟨s.lo, t.hi⟩)) p sp i ∧ (s.lo, n) ∈ slots sp.lo i := by
  obtain ⟨p, sp, i, parent, here, inner_eq, member⟩ := half.tree.above n s half.left ne half.ne
  exact ⟨p, sp, i, parent, here, inner_eq, half.tree.node p sp i here inner_eq, member⟩

end Half

theorem tiles_owned {lo hi : Nat} {l : List (Nat × Addr)} {x : Nat × Addr} (h : Tiles (Owns span) lo hi l)
    (member : x ∈ l) : ∃ r, span x.2 = some r := by
  obtain ⟨_, m, _, tile⟩ := h.of_mem (k := x.1) (c := x.2) member
  exact ⟨_, tile.here⟩

theorem tiles_not_mem {lo hi : Nat} {l : List (Nat × Addr)} (h : Tiles (Owns span) lo hi l)
    (here : span n = some s) (wide : s.lo < s.hi) (apart : hi ≤ s.lo ∨ s.hi ≤ lo) :
    ∀ x ∈ l, x.2 ≠ n := by
  rintro ⟨k, c⟩ member rfl
  obtain ⟨_, m, _, tile⟩ := h.of_mem member
  have same := here.symm.trans tile.here
  obtain rfl := Option.some.inj same
  have := tile.low
  have := tile.high
  simp only at apart wide
  omega

/-- The place of `n` in its parent `p`. -/
structure Slot (up : Addr → Option Addr) (inner : Addr → Option Internode) (span : Addr → Option Span)
    (p n child : Addr) (s t sp : Span) (i : Internode) (before behind : List (Nat × Addr)) : Prop where
  place : SlotAt sp.lo i (i.upper t.lo) before (s.lo, n) behind
  width : i.nkeys ≤ internodeWidth
  hole : i.child 0 = 0 → sp.lo ≠ 0
  low : Tiles (Owns span) sp.lo s.lo before
  high : Tiles (Owns span) t.hi sp.hi behind
  rest : ∀ x ∈ before ++ behind, x.2 ≠ n ∧ x.2 ≠ child ∧ x.2 ≠ p ∧ up x.2 = some p ∧
    height inner x.2 < i.height
  below : height inner n < i.height
  ne : n ≠ p ∧ child ≠ p

theorem Half.slot (half : Half up inner fresh span top n child s t) (here : span p = some sp)
    (inner_eq : inner p = some i) (member : (s.lo, n) ∈ slots sp.lo i) :
    ∃ before behind, Slot up inner span p n child s t sp i before behind := by
  have ok := half.tree.node p sp i here inner_eq
  have wide := half.wide
  obtain ⟨before, behind, tile, place⟩ := ok.find (x := t.lo) member
    (by rw [Function.update_self]) wide.1.le wide.2
  have left := tiles_update tile.before (wide.1.trans wide.2) (.inl le_rfl)
  have right := tiles_update tile.behind (wide.1.trans wide.2) (.inr le_rfl)
  have low : s.lo < s.hi := half.next ▸ wide.1
  have high : s.hi ≤ t.hi := half.next ▸ wide.2.le
  have own {a : Addr} (less : height inner a < i.height) : a ≠ p := by
    rintro rfl
    rw [height_internode inner_eq] at less
    exact Nat.lt_irrefl _ less
  have below := ok.below (s.lo, n) member
  refine ⟨before, behind, place, ok.width, ok.hole, left, right, fun x rest => ?_, below, own below,
    own (half.same ▸ below)⟩
  have old : x ∈ slots sp.lo i := by
    rw [tile.eq]
    simp only [List.mem_append, List.mem_cons] at rest ⊢
    tauto
  have less := ok.below x old
  refine ⟨?_, ?_, own less, ok.parent x old, less⟩ <;> rcases List.mem_append.mp rest with first | last
  · exact tiles_not_mem left half.left low (.inl le_rfl) x first
  · exact tiles_not_mem right half.left low (.inr high) x last
  · exact tiles_not_mem left half.right wide.2 (.inl wide.1.le) x first
  · exact tiles_not_mem right half.right wide.2 (.inr le_rfl) x last

/-! A new internode above `n` and `child`. -/

def pair (height n key child : Nat) : Internode :=
  { ((Internode.make 0 height).setChild 0 n).assign 0 key child with nkeys := 1 }

section
variable {nn : Addr}

/-- `nn` has been made and has `n` and `child` as children. -/
structure Paired (up up' : Addr → Option Addr) (inner' : Addr → Option Internode) (fresh n child nn : Addr)
    (h key : Nat) : Prop where
  new : nn = fresh
  node : inner' nn = some (pair (h + 1) n key child)
  left : up' n = some nn
  right : up' child = some nn
  others : ∀ a, a ≠ n → a ≠ child → a ≠ nn → up' a = up a

variable (half : Half up inner fresh span top n child s t)
  (paired : Paired up up' inner' fresh n child nn (height inner n) t.lo)
include half paired

theorem Half.new_ne {a : Addr} {r : Span} (here : span a = some r) : a ≠ nn := by
  rw [paired.new]
  exact (half.tree.small a r here).ne

theorem Half.pair_ok (heights : ∀ a r, span a = some r → height inner' a = height inner a) :
    InnerOk up' inner' (Function.update span nn (some ⟨s.lo, t.hi⟩)) nn ⟨s.lo, t.hi⟩
      (pair (height inner n + 1) n t.lo child) := by
  have wide := half.wide
  have nz := half.ne_zero half.left
  have whole : slots s.lo (pair (height inner n + 1) n t.lo child) = [(s.lo, n), (t.lo, child)] := slots_pair nz
  refine ⟨show 1 ≤ internodeWidth by decide, ?_, ?_, ?_, ?_⟩
  · rw [whole]
    refine ⟨rfl, t.lo, wide.1, ?_, rfl, t.hi, wide.2, ?_, rfl⟩
    · rw [Owns, Function.update_of_ne (half.new_ne paired half.left), half.left, ← half.next]
    · rw [Owns, Function.update_of_ne (half.new_ne paired half.right), half.right]
  · rw [whole]
    simpa using ⟨paired.left, paired.right⟩
  · rw [whole]
    have first := heights n s half.left
    have second := heights child t half.right
    have same := half.same
    simp only [List.mem_cons, List.not_mem_nil, or_false, forall_eq_or_imp, forall_eq]
    refine ⟨?_, ?_⟩ <;>
    · change _ < height inner n + 1
      omega
  · intro zero
    exact absurd (by simpa [pair, Internode.assign, Internode.setChild] using zero) nz

/-- The nodes that are not above `n` stay as they are. -/
theorem Half.pair_other (heights : ∀ a r, span a = some r → height inner' a = height inner a) {a : Addr}
    {r : Span} {j : Internode} (here : span a = some r) (inner_eq : inner a = some j) (ne : up n ≠ some a) :
    InnerOk up' inner' (Function.update span nn (some ⟨s.lo, t.hi⟩)) a r j := by
  refine (half.tree.node a r j here inner_eq).transfer fun x member => ?_
  obtain ⟨first, second, r', known⟩ := half.others here inner_eq ne member
  have third := half.new_ne paired known
  exact ⟨by rw [Function.update_of_ne third, Function.update_of_ne first],
    paired.others _ first second third, heights _ r' known⟩

theorem Half.new_ne_zero : nn ≠ 0 := by
  have := half.tree.small n s half.left
  rw [paired.new]
  exact Nat.ne_of_gt (Nat.zero_lt_of_lt this)

/-- A tree with the new internode, if the nodes that were there before are all right. -/
theorem Half.paired_tree {top' : Addr} (heights : ∀ a r, span a = some r → height inner' a = height inner a)
    (known : ∃ q, up' nn = some q)
    (node : ∀ a r j, span a = some r → inner' a = some j →
      InnerOk up' inner' (Function.update span nn (some ⟨s.lo, t.hi⟩)) a r j)
    (above : ∀ a r, span a = some r → a ≠ n → a ≠ child → a ≠ top' → ∃ p s' i, up a = some p ∧
      span p = some s' ∧ inner' p = some i ∧ (r.lo, a) ∈ slots s'.lo i)
    (new : nn ≠ top' → ∃ p s' i, up' nn = some p ∧ span p = some s' ∧ inner' p = some i ∧
      (s.lo, nn) ∈ slots s'.lo i)
    (whole : Function.update span nn (some ⟨s.lo, t.hi⟩) top' = some ⟨0, ikeyLimit⟩)
    (root : up' top' = some 0) :
    Whole up' inner' (fresh + nodeSize) (Function.update span nn (some ⟨s.lo, t.hi⟩)) top' := by
  have wide := half.wide
  have split {a : Addr} {r : Span} (here : Function.update span nn (some ⟨s.lo, t.hi⟩) a = some r) :
      a = nn ∧ r = ⟨s.lo, t.hi⟩ ∨ a ≠ nn ∧ span a = some r := by
    by_cases same : a = nn
    · subst same
      rw [Function.update_self] at here
      exact .inl ⟨rfl, (Option.some.inj here).symm⟩
    · exact .inr ⟨same, by rwa [Function.update_of_ne same] at here⟩
  have old {p : Addr} {r : Span} (here : span p = some r) :
      Function.update span nn (some ⟨s.lo, t.hi⟩) p = some r := by
    rw [Function.update_of_ne (half.new_ne paired here)]
    exact here
  refine ⟨?_, fun a r here => ?_, fun a r here => ?_, fun a r here => ?_, fun a r j here inner_a => ?_,
    fun a r here other _ => ?_, whole, root⟩
  · rw [Function.update_of_ne (half.new_ne_zero paired).symm]
    exact half.null
  · rcases split here with ⟨rfl, -⟩ | ⟨ne, old⟩
    · exact known
    · by_cases first : a = n
      · exact ⟨nn, first ▸ paired.left⟩
      · by_cases second : a = child
        · exact ⟨nn, second ▸ paired.right⟩
        · rw [paired.others a first second ne]
          exact half.tree.known a r old
  · rcases split here with ⟨rfl, -⟩ | ⟨-, old⟩
    · rw [paired.new]
      exact Nat.lt_add_of_pos_right (by decide)
    · exact (half.tree.small a r old).trans_le (Nat.le_add_right ..)
  · rcases split here with ⟨-, rfl⟩ | ⟨-, old⟩
    · exact wide.1.trans wide.2
    · exact half.tree.wide a r old
  · rcases split here with ⟨rfl, rfl⟩ | ⟨-, old⟩
    · obtain rfl := Option.some.inj (paired.node.symm.trans inner_a)
      exact half.pair_ok paired heights
    · exact node a r j old inner_a
  · rcases split here with ⟨rfl, rfl⟩ | ⟨ne, here'⟩
    · obtain ⟨p, s', i, parent, owns, rest⟩ := new other
      exact ⟨p, s', i, parent, old owns, rest⟩
    · have below (parent : up' a = some nn)
          (member : (r.lo, a) ∈ slots s.lo (pair (height inner n + 1) n t.lo child)) :
          ∃ p s' i, up' a = some p ∧ Function.update span nn (some ⟨s.lo, t.hi⟩) p = some s' ∧
            inner' p = some i ∧ (r.lo, a) ∈ slots s'.lo i :=
        ⟨nn, _, _, parent, Function.update_self .., paired.node, member⟩
      rw [pair, slots_pair (half.ne_zero half.left)] at below
      by_cases first : a = n
      · subst first
        obtain rfl := Option.some.inj (here'.symm.trans half.left)
        exact below paired.left (by simp)
      · by_cases second : a = child
        · subst second
          obtain rfl := Option.some.inj (here'.symm.trans half.right)
          exact below paired.right (by simp)
        · obtain ⟨p, s', i, parent, owns, rest⟩ := above a r here' first second other
          exact ⟨p, s', i, by rw [paired.others a first second ne, parent], old owns, rest⟩

/-- The new internode is the root of the layer. -/
theorem Half.grow (last : n = top) (root : up' nn = some 0)
    (keep : ∀ a r, span a = some r → inner' a = inner a) :
    Whole up' inner' (fresh + nodeSize) (Function.update span nn (some ⟨s.lo, t.hi⟩)) nn := by
  have heights (a : Addr) (r : Span) (here : span a = some r) : height inner' a = height inner a := by
    simp only [height, keep a r here]
  have bounds : s.lo = 0 ∧ t.hi = ikeyLimit := by
    have whole := half.tree.whole
    rw [← last, Function.update_self] at whole
    simpa using whole
  have noparent : up n = some 0 := last ▸ half.tree.root
  refine half.paired_tree paired heights ⟨0, root⟩ (fun a r j here inner_a => ?_)
    (fun a r here first second _ => ?_) (fun other => absurd rfl other) ?_ root
  · rw [keep a r here] at inner_a
    refine half.pair_other paired heights here inner_a ?_
    rw [noparent]
    exact fun zero => half.ne_zero here (Option.some.inj zero).symm
  · obtain ⟨q, s', j, parent, here', inner_q, member⟩ := half.tree.above a r here (last ▸ first) second
    exact ⟨q, s', j, parent, here', by rw [keep q s' here', inner_q], member⟩
  · rw [Function.update_self, bounds.1, bounds.2]

/-- A tiling does not know the new internode. -/
theorem Half.tiles_new {lo hi : Nat} {l : List (Nat × Addr)} {r : Span} (h : Tiles (Owns span) lo hi l) :
    Tiles (Owns (Function.update span nn (some r))) lo hi l := by
  refine h.mono fun k c m _ _ _ owns => ?_
  rw [Owns, Function.update_of_ne (half.new_ne paired owns)]
  exact owns

/-- The new internode takes the place of `n`. -/
theorem Half.bridge {before behind : List (Nat × Addr)} (here : span p = some sp)
    (inner_eq : inner p = some i) (ne : n ≠ top) (parent : up n = some p)
    (slot : Slot up inner span p n child s t sp i before behind) (gap : height inner n + 1 < i.height)
    (root : up' nn = some p) (inner_p : inner' p = some (i.setChild (i.upper t.lo) nn))
    (keep : ∀ a r, span a = some r → a ≠ p → inner' a = inner a) :
    Whole up' inner' (fresh + nodeSize) (Function.update span nn (some ⟨s.lo, t.hi⟩)) top := by
  have heights (a : Addr) (r : Span) (here : span a = some r) : height inner' a = height inner a := by
    by_cases same : a = p
    · rw [same, height_internode inner_p, height_internode inner_eq]
      rfl
    · simp only [height, keep a r here same]
  have wide := half.wide
  have nz := half.new_ne_zero paired
  have slots_p : slots sp.lo (i.setChild (i.upper t.lo) nn) = before ++ (s.lo, nn) :: behind :=
    slots_setChild slot.place nn nz
  have height_nn : height inner' nn = height inner n + 1 := height_internode paired.node
  have cases' {x : Nat × Addr} (member : x ∈ before ++ (s.lo, nn) :: behind) :
      x = (s.lo, nn) ∨ x ∈ before ++ behind := by
    simp only [List.mem_append, List.mem_cons] at member ⊢
    tauto
  have known (x : Nat × Addr) (member : x ∈ before ++ behind) : ∃ r, span x.2 = some r := by
    rcases List.mem_append.mp member with first | last
    · exact tiles_owned slot.low first
    · exact tiles_owned slot.high last
  have ok_p : InnerOk up' inner' (Function.update span nn (some ⟨s.lo, t.hi⟩)) p sp
      (i.setChild (i.upper t.lo) nn) := by
    refine ⟨slot.width, ?_, ?_, ?_, fun zero => slot.hole ?_⟩
    · rw [slots_p]
      refine tiles_append.mpr ⟨s.lo, half.tiles_new paired slot.low, rfl, t.hi, wide.1.trans wide.2, ?_,
        half.tiles_new paired slot.high⟩
      rw [Owns, Function.update_self]
    · rw [slots_p]
      intro x member
      rcases cases' member with rfl | rest
      · exact root
      · obtain ⟨r, old⟩ := known x rest
        obtain ⟨first, second, -, parent, -⟩ := slot.rest x rest
        rw [paired.others _ first second (half.new_ne paired old), parent]
    · rw [slots_p]
      intro x member
      rcases cases' member with rfl | rest
      · exact height_nn.trans_lt gap
      · obtain ⟨r, old⟩ := known x rest
        rw [heights _ r old]
        exact (slot.rest x rest).2.2.2.2
    · by_cases first : 0 = i.upper t.lo
      · rw [Internode.setChild, ← first] at zero
        simp [nz] at zero
      · simpa [Internode.setChild, first] using zero
  have top_ne : top ≠ nn := by
    have whole := half.tree.whole
    rw [Function.update_of_ne ne.symm] at whole
    exact half.new_ne paired whole
  refine half.paired_tree paired heights ⟨p, root⟩ (fun a r j old inner_a => ?_)
    (fun a r old first second other => ?_) (fun _ => ?_) ?_ ?_
  · by_cases same : a = p
    · subst same
      obtain rfl := Option.some.inj (inner_p.symm.trans inner_a)
      obtain rfl := Option.some.inj (here.symm.trans old)
      exact ok_p
    · rw [keep a r old same] at inner_a
      refine half.pair_other paired heights old inner_a ?_
      rw [parent]
      exact fun equal => same (Option.some.inj equal).symm
  · obtain ⟨q, s', j, above, here', inner_q, member⟩ := half.tree.above a r old other second
    by_cases same : q = p
    · subst same
      obtain rfl := Option.some.inj (here.symm.trans here')
      obtain rfl := Option.some.inj (inner_eq.symm.trans inner_q)
      refine ⟨q, sp, _, above, here, inner_p, ?_⟩
      rw [slot.place.eq] at member
      rw [slots_p]
      simp only [List.mem_append, List.mem_cons, Prod.mk.injEq] at member ⊢
      tauto
    · exact ⟨q, s', j, above, here', by rw [keep q s' here' same, inner_q], member⟩
  · refine ⟨p, sp, _, root, here, inner_p, ?_⟩
    rw [slots_p]
    simp
  · have whole := half.tree.whole
    rw [Function.update_of_ne ne.symm] at whole
    rw [Function.update_of_ne top_ne]
    exact whole
  · rw [paired.others top ne.symm half.child_ne_top.symm top_ne]
    exact half.tree.root

end

/-! The insertion of `child` behind `n`. -/

section
variable (half : Half up inner fresh span top n child s t) {before behind : List (Nat × Addr)}
  (here : span p = some sp) (inner_eq : inner p = some i) (ne : n ≠ top) (parent : up n = some p)
  (slot : Slot up inner span p n child s t sp i before behind)
include half slot

theorem Half.joined : Tiles (Owns span) sp.lo sp.hi (before ++ (s.lo, n) :: (t.lo, child) :: behind) := by
  have wide := half.wide
  refine tiles_append.mpr ⟨s.lo, slot.low, rfl, t.lo, wide.1, ?_, rfl, t.hi, wide.2, half.right, slot.high⟩
  rw [Owns, half.left, ← half.next]

include parent

theorem Half.joined_child {x : Nat × Addr} (member : x ∈ before ++ (s.lo, n) :: (t.lo, child) :: behind) :
    x.2 ≠ p ∧ height inner x.2 < i.height ∧ (x.2 = child ∨ x.2 ≠ child ∧ up x.2 = some p) := by
  simp only [List.mem_append, List.mem_cons] at member
  rcases member with old | rfl | rfl | old
  · obtain ⟨-, second, third, above, below⟩ := slot.rest x (by simp [old])
    exact ⟨third, below, .inr ⟨second, above⟩⟩
  · exact ⟨slot.ne.1, slot.below, .inr ⟨half.ne, parent⟩⟩
  · exact ⟨slot.ne.2, half.same ▸ slot.below, .inl rfl⟩
  · obtain ⟨-, second, third, above, below⟩ := slot.rest x (by simp [old])
    exact ⟨third, below, .inr ⟨second, above⟩⟩

include here inner_eq ne

theorem Half.insert (room : i.nkeys < internodeWidth) (up_child : up' child = some p)
    (others : ∀ a, a ≠ child → up' a = up a)
    (inner_p : inner' p = some (inserted i (i.upper t.lo) t.lo child))
    (keep : ∀ a, a ≠ p → inner' a = inner a) : Whole up' inner' fresh span top := by
  have heights (a : Addr) : height inner' a = height inner a := by
    by_cases same : a = p
    · rw [same, height_internode inner_p, height_internode inner_eq]
      rfl
    · simp only [height, keep a same]
  have slots_p : slots sp.lo (inserted i (i.upper t.lo) t.lo child) =
      before ++ (s.lo, n) :: (t.lo, child) :: behind := slots_inserted slot.place t.lo child
  have ok_p : InnerOk up' inner' span p sp (inserted i (i.upper t.lo) t.lo child) := by
    refine ⟨room, slots_p ▸ half.joined slot, ?_, ?_, fun zero => ?_⟩
    · rw [slots_p]
      intro x member
      obtain ⟨-, -, same | ⟨other, above⟩⟩ := half.joined_child parent slot member
      · rw [same, up_child]
      · rw [others _ other, above]
    · rw [slots_p]
      intro x member
      rw [heights]
      exact (half.joined_child parent slot member).2.1
    · refine slot.hole ?_
      simpa [inserted, Internode.shiftUp, Internode.shiftFrom, Internode.assign] using zero
  refine ⟨half.null, fun a r known => ?_, half.tree.small, half.tree.wide, fun a r j old inner_a => ?_,
    fun a r old other _ => ?_, ?_, ?_⟩
  · by_cases same : a = child
    · exact ⟨p, same ▸ up_child⟩
    · rw [others a same]
      exact half.tree.known a r known
  · by_cases same : a = p
    · subst same
      obtain rfl := Option.some.inj (inner_p.symm.trans inner_a)
      obtain rfl := Option.some.inj (here.symm.trans old)
      exact ok_p
    · rw [keep a same] at inner_a
      refine (half.tree.node a r j old inner_a).transfer fun x member => ?_
      obtain ⟨first, second, -⟩ := half.others old inner_a (by
        rw [parent]
        exact fun equal => same (Option.some.inj equal).symm) member
      exact ⟨(Function.update_of_ne first ..).symm, others _ second, heights _⟩
  · by_cases same : a = child
    · subst same
      obtain rfl := Option.some.inj (half.right.symm.trans old)
      refine ⟨p, sp, _, up_child, here, inner_p, ?_⟩
      rw [slots_p]
      simp
    · obtain ⟨q, s', j, above, here', inner_q, member⟩ := half.tree.above a r old other same
      by_cases equal : q = p
      · subst equal
        obtain rfl := Option.some.inj (here.symm.trans here')
        obtain rfl := Option.some.inj (inner_eq.symm.trans inner_q)
        refine ⟨q, sp, _, by rw [others a same, above], here, inner_p, ?_⟩
        rw [slot.place.eq] at member
        rw [slots_p]
        simp only [List.mem_append, List.mem_cons, Prod.mk.injEq] at member ⊢
        tauto
      · exact ⟨q, s', j, by rw [others a same, above], here', by rw [keep q equal, inner_q], member⟩
  · have whole := half.tree.whole
    rwa [Function.update_of_ne ne.symm] at whole
  · rw [others top half.child_ne_top.symm]
    exact half.tree.root

end

/-- The children in `l` are divided between `left` and `right`, which begins at `key`. -/
structure Divided (span : Addr → Option Span) (lo hi key : Nat) (left right : Internode)
    (l : List (Nat × Addr)) : Prop where
  whole : slots lo left ++ slots key right = l
  before : Tiles (Owns span) lo key (slots lo left)
  behind : Tiles (Owns span) key hi (slots key right)
  low : lo < key
  high : key < hi
  first : right.child 0 ≠ 0

theorem divided {mid key lo hi j : Nat} {c : Addr} {x : Nat × Addr} {before behind : List (Nat × Addr)}
    (r : Internode) (place : SlotAt lo i j before x behind)
    (tiles : Tiles (Owns span) lo hi (before ++ x :: (key, c) :: behind)) (null : span 0 = none)
    (full : i.nkeys = internodeWidth) (low : 1 < mid) (high : mid ≤ internodeWidth) :
    Divided span lo hi (i.splitRight r mid j key c).2 (splitLeft i mid j key c)
      (i.splitRight r mid j key c).1 (before ++ x :: (key, c) :: behind) := by
  have first : (i.splitRight r mid j key c).1.child 0 ≠ 0 := by
    intro zero
    obtain ⟨s, owned⟩ := tiles_owned tiles (child_splitRight place r full (by omega) high)
    rw [zero, null] at owned
    cases owned
  have whole := slots_split place r full (by omega) high first
  rw [← whole] at tiles
  obtain ⟨m, left, right⟩ := tiles_append.mp tiles
  have start := @slots_of_first (i.splitRight r mid j key c).2 _ (skip_of_ne first)
  obtain rfl : (i.splitRight r mid j key c).2 = m := by
    rw [start] at right
    exact right.1
  refine ⟨whole, left, right, left.lt ?_, right.lt ?_, first⟩
  · have length := @length_part lo (splitLeft i mid j key c)
      (skip (splitLeft i mid j key c)) ((splitLeft i mid j key c).nkeys + 1)
    rw [nkeys_splitLeft (by omega)] at length
    have small := skip_le (splitLeft i mid j key c)
    refine List.ne_nil_of_length_pos ?_
    rw [slots, nkeys_splitLeft (by omega), length]
    omega
  · rw [start]
    exact List.cons_ne_nil _ _

namespace Divided
variable {lo hi key : Nat} {left right : Internode} {l : List (Nat × Addr)}
  (div : Divided span lo hi key left right l)
include div

theorem mem {x : Nat × Addr} : x ∈ l ↔ x ∈ slots lo left ∨ x ∈ slots key right := by
  rw [← div.whole, List.mem_append]

/-- No child is in both halves. -/
theorem apart {x y : Nat × Addr} (first : x ∈ slots lo left) (second : y ∈ slots key right) : x.2 ≠ y.2 := by
  intro same
  obtain ⟨_, m, _, tile⟩ := div.before.of_mem (k := x.1) (c := x.2) first
  obtain ⟨_, m', _, tile'⟩ := div.behind.of_mem (k := y.1) (c := y.2) second
  have owns := tile.here.symm.trans (same ▸ tile'.here)
  simp only [Option.some.injEq, Span.mk.injEq] at owns
  have := tile.less
  have := tile.high
  have := tile'.low
  omega

end Divided

/-- `p` is split into `p` and `next`, and `child` is in one of them. -/
theorem Half.split (half : Half up inner fresh span top n child s t) {before behind : List (Nat × Addr)}
    (here : span p = some sp) (inner_eq : inner p = some i) (ne : n ≠ top) (parent : up n = some p)
    (slot : Slot up inner span p n child s t sp i before behind) {next : Addr} {key : Nat}
    {left right : Internode}
    (div : Divided span sp.lo sp.hi key left right (before ++ (s.lo, n) :: (t.lo, child) :: behind))
    (new : next = fresh) (inner_p : inner' p = some left) (inner_next : inner' next = some right)
    (keep : ∀ a, a ≠ p → a ≠ next → inner' a = inner a) (height_p : left.height = i.height)
    (height_next : right.height = i.height) (width : left.nkeys ≤ internodeWidth)
    (width' : right.nkeys ≤ internodeWidth) (hole : left.child 0 = 0 → i.child 0 = 0)
    (moved : ∀ x ∈ slots key right, up' x.2 = some next)
    (stays : (child ∉ (slots key right).map Prod.snd) → up' child = some p) (loose : up' next = some 0)
    (others : ∀ a, a ≠ child → a ≠ next → a ∉ (slots key right).map Prod.snd → up' a = up a) :
    Half up' inner' (fresh + nodeSize)
      (Function.update (Function.update span p (some ⟨sp.lo, key⟩)) next (some ⟨key, sp.hi⟩)) top p next
      ⟨sp.lo, key⟩ ⟨key, sp.hi⟩ := by
  have fresh_ne {a : Addr} {r : Span} (known : span a = some r) : a ≠ next := by
    rw [new]
    exact (half.tree.small a r known).ne
  have p_ne := fresh_ne here
  have child_of {x : Nat × Addr} := half.joined_child parent slot (x := x)
  have owned {x : Nat × Addr} (member : x ∈ before ++ (s.lo, n) :: (t.lo, child) :: behind) :
      ∃ r, span x.2 = some r := tiles_owned (half.joined slot) member
  have heights (a : Addr) (ne : a ≠ next) : height inner' a = height inner a := by
    by_cases same : a = p
    · rw [same, height_internode inner_p, height_internode inner_eq, height_p]
    · simp only [height, keep a same ne]
  have spans {a : Addr} (first : a ≠ p) (second : a ≠ next) :
      Function.update (Function.update span p (some ⟨sp.lo, key⟩)) next (some ⟨key, sp.hi⟩) a = span a := by
    rw [Function.update_of_ne second, Function.update_of_ne first]
  have span_p : Function.update (Function.update span p (some ⟨sp.lo, key⟩)) next (some ⟨key, sp.hi⟩) p =
      some ⟨sp.lo, key⟩ := by rw [Function.update_of_ne p_ne, Function.update_self]
  have span_next : Function.update (Function.update span p (some (⟨sp.lo, key⟩ : Span))) next
      (some ⟨key, sp.hi⟩) next = some ⟨key, sp.hi⟩ := Function.update_self ..
  -- what the parents know
  have outers {a : Addr} (ne : a ≠ next) : Function.update (Function.update (Function.update span p
      (some ⟨sp.lo, key⟩)) next (some ⟨key, sp.hi⟩)) p (some ⟨sp.lo, sp.hi⟩) a = span a := by
    by_cases same : a = p
    · rw [same, Function.update_self, here]
    · rw [Function.update_of_ne same, spans same ne]
  have tiles_new {lo hi : Nat} {l : List (Nat × Addr)} (h : Tiles (Owns span) lo hi l) :
      Tiles (Owns (Function.update (Function.update (Function.update span p (some ⟨sp.lo, key⟩)) next
        (some ⟨key, sp.hi⟩)) p (some ⟨sp.lo, sp.hi⟩))) lo hi l := by
    refine h.mono fun k c m _ _ _ owns => ?_
    rw [Owns, outers (fresh_ne owns)]
    exact owns
  have not_moved {a : Addr} (ne : a ≠ child) (above : up a ≠ some p) :
      a ∉ (slots key right).map Prod.snd := by
    intro member
    obtain ⟨x, inside, rfl⟩ := List.mem_map.mp member
    obtain ⟨-, -, same | ⟨-, parent⟩⟩ := child_of (div.mem.mpr (.inr inside))
    · exact ne same
    · exact above parent
  have up_left {x : Nat × Addr} (member : x ∈ slots sp.lo left) : up' x.2 = some p := by
    have out : x.2 ∉ (slots key right).map Prod.snd := by
      intro inside
      obtain ⟨y, member', same⟩ := List.mem_map.mp inside
      exact div.apart member member' same.symm
    have inside := div.mem.mpr (.inl member)
    obtain ⟨r, known⟩ := owned inside
    obtain ⟨-, -, same | ⟨other, above⟩⟩ := child_of inside
    · rw [same] at out ⊢
      exact stays out
    · rw [others _ other (fresh_ne known) out, above]
  have below {x : Nat × Addr} (member : x ∈ before ++ (s.lo, n) :: (t.lo, child) :: behind) :
      height inner' x.2 < i.height := by
    obtain ⟨r, known⟩ := owned member
    rw [heights _ (fresh_ne known)]
    exact (child_of member).2.1
  have ok_p : InnerOk up' inner' (Function.update (Function.update (Function.update span p
      (some ⟨sp.lo, key⟩)) next (some ⟨key, sp.hi⟩)) p (some ⟨sp.lo, sp.hi⟩)) p ⟨sp.lo, key⟩ left := by
    refine ⟨width, tiles_new div.before, fun x => up_left, fun x member => ?_, fun zero =>
      slot.hole (hole zero)⟩
    rw [height_p]
    exact below (div.mem.mpr (.inl member))
  have ok_next : InnerOk up' inner' (Function.update (Function.update (Function.update span p
      (some ⟨sp.lo, key⟩)) next (some ⟨key, sp.hi⟩)) p (some ⟨sp.lo, sp.hi⟩)) next ⟨key, sp.hi⟩ right := by
    refine ⟨width', tiles_new div.behind, moved, fun x member => ?_, fun zero => absurd zero div.first⟩
    rw [height_next]
    exact below (div.mem.mpr (.inr member))
  have p_ne_child : p ≠ child := slot.ne.2.symm
  have split {a : Addr} {r : Span} (known : Function.update (Function.update span p (some ⟨sp.lo, key⟩)) next
      (some ⟨key, sp.hi⟩) a = some r) : a = p ∧ r = ⟨sp.lo, key⟩ ∨ a = next ∧ r = ⟨key, sp.hi⟩ ∨
        a ≠ p ∧ a ≠ next ∧ span a = some r := by
    by_cases first : a = p
    · rw [first, span_p] at known
      exact .inl ⟨first, (Option.some.inj known).symm⟩
    · by_cases second : a = next
      · rw [second, span_next] at known
        exact .inr (.inl ⟨second, (Option.some.inj known).symm⟩)
      · rw [spans first second] at known
        exact .inr (.inr ⟨first, second, known⟩)
  have top_ne : top ≠ next := by
    have whole := half.tree.whole
    rw [Function.update_of_ne ne.symm] at whole
    exact fresh_ne whole
  have up_p {q : Addr} (above : up p = some q) : up' p = some q := by
    rw [others p p_ne_child p_ne, above]
    rintro member
    obtain ⟨x, inside, same⟩ := List.mem_map.mp member
    exact (child_of (div.mem.mpr (.inr inside))).1 same
  refine ⟨⟨?_, fun a r known => ?_, fun a r known => ?_, fun a r known => ?_, fun a r j known inner_a => ?_,
    fun a r known other ne' => ?_, ?_, ?_⟩, span_p, span_next, rfl, loose, ?_⟩
  · rw [outers]
    · exact half.null
    · rw [new]
      exact (Nat.zero_lt_of_lt (half.tree.small n s half.left)).ne
  · rcases split known with ⟨rfl, -⟩ | ⟨rfl, -⟩ | ⟨-, other, old⟩
    · obtain ⟨q, above⟩ := half.tree.known a sp here
      exact ⟨q, up_p above⟩
    · exact ⟨0, loose⟩
    · by_cases member : a ∈ (slots key right).map Prod.snd
      · obtain ⟨x, inside, rfl⟩ := List.mem_map.mp member
        exact ⟨next, moved x inside⟩
      · by_cases same : a = child
        · subst same
          exact ⟨p, stays member⟩
        · rw [others a same other member]
          exact half.tree.known a r old
  · rcases split known with ⟨rfl, -⟩ | ⟨rfl, -⟩ | ⟨-, -, old⟩
    · exact (half.tree.small a sp here).trans_le (Nat.le_add_right ..)
    · rw [new]
      exact Nat.lt_add_of_pos_right (by decide)
    · exact (half.tree.small a r old).trans_le (Nat.le_add_right ..)
  · rcases split known with ⟨-, rfl⟩ | ⟨-, rfl⟩ | ⟨-, -, old⟩
    · exact div.low
    · exact div.high
    · exact half.tree.wide a r old
  · rcases split known with ⟨rfl, rfl⟩ | ⟨rfl, rfl⟩ | ⟨first, second, old⟩
    · obtain rfl := Option.some.inj (inner_p.symm.trans inner_a)
      exact ok_p
    · obtain rfl := Option.some.inj (inner_next.symm.trans inner_a)
      exact ok_next
    · rw [keep a first second] at inner_a
      have ok := half.tree.node a r j old inner_a
      refine ok.transfer fun x member => ?_
      obtain ⟨apart, apart', r', known'⟩ := half.others old inner_a (by
        rw [parent]
        exact fun equal => first (Option.some.inj equal).symm) member
      have out : up x.2 ≠ some p := by
        rw [ok.parent x member]
        exact fun equal => first (Option.some.inj equal)
      refine ⟨?_, others _ apart' (fresh_ne known') (not_moved apart' out), heights _ (fresh_ne known')⟩
      rw [outers (fresh_ne known'), Function.update_of_ne apart]
  · have inside {r' : Span} (same : r' = r) (member : (r'.lo, a) ∈ before ++ (s.lo, n) :: (t.lo, child) :: behind) :
        ∃ q s' j, up' a = some q ∧ Function.update (Function.update span p (some ⟨sp.lo, key⟩)) next
          (some ⟨key, sp.hi⟩) q = some s' ∧ inner' q = some j ∧ (r.lo, a) ∈ slots s'.lo j := by
      subst same
      rcases div.mem.mp member with first | second
      · exact ⟨p, _, left, up_left first, span_p, inner_p, first⟩
      · exact ⟨next, _, right, moved _ second, span_next, inner_next, second⟩
    rcases split known with ⟨rfl, rfl⟩ | ⟨rfl, -⟩ | ⟨-, second, old⟩
    · obtain ⟨q, s', j, above, here', inner_q, member⟩ := half.tree.above a sp here other p_ne_child
      have apart : q ≠ a := by
        rintro rfl
        obtain rfl := Option.some.inj (inner_eq.symm.trans inner_q)
        have less := (half.tree.node q s' i here' inner_q).below _ member
        rw [height_internode inner_eq] at less
        exact Nat.lt_irrefl _ less
      have old := fresh_ne here'
      exact ⟨q, s', j, up_p above, by rw [spans apart old, here'], by rw [keep q apart old, inner_q], member⟩
    · exact absurd rfl ne'
    · by_cases same : a = child
      · subst same
        obtain rfl := Option.some.inj (half.right.symm.trans old)
        exact inside rfl (by simp)
      · obtain ⟨q, s', j, above, here', inner_q, member⟩ := half.tree.above a r old other same
        by_cases equal : q = p
        · subst equal
          obtain rfl := Option.some.inj (here.symm.trans here')
          obtain rfl := Option.some.inj (inner_eq.symm.trans inner_q)
          refine inside rfl ?_
          rw [slot.place.eq] at member
          simp only [List.mem_append, List.mem_cons] at member ⊢
          tauto
        · have out : up a ≠ some p := by
            rw [above]
            exact fun h => equal (Option.some.inj h)
          have fresh' := fresh_ne here'
          exact ⟨q, s', j, by rw [others a same second (not_moved same out), above],
            by rw [spans equal fresh', here'], by rw [keep q equal fresh', inner_q], member⟩
  · rw [outers top_ne]
    have whole := half.tree.whole
    rwa [Function.update_of_ne ne.symm] at whole
  · rw [others top half.child_ne_top.symm top_ne]
    · exact half.tree.root
    · refine not_moved half.child_ne_top.symm ?_
      rw [half.tree.root]
      exact fun zero => half.ne_zero here (Option.some.inj zero).symm
  · rw [height_internode inner_p, height_internode inner_next, height_p, height_next]

end Incll.Proof.Layers
