import Incll.Proof.Tree.Restart

/-! # The neighbours of a leaf in the tree -/

namespace Incll.Proof.Leaflink
open Incll.Lib Incll.Model Incll.Proof.Tree

/-! The leaves below a node. -/

/-- The lists of the children from `lo` on, one after another. -/
def joined (lists : Nat → List Addr) (lo n : Nat) : List Addr := (List.range' lo n).flatMap lists

section
variable (lists : Nat → List Addr)

theorem joined_zero (lo : Nat) : joined lists lo 0 = [] := rfl

theorem joined_succ (lo n : Nat) :
    joined lists lo (n + 1) = lists lo ++ joined lists (lo + 1) n := by
  simp [joined, List.range'_succ]

theorem joined_last (lo n : Nat) :
    joined lists lo (n + 1) = joined lists lo n ++ lists (lo + n) := by
  simp [joined, List.range'_1_concat]

/-- The lists before, at and behind child `j` of `n + 1`. -/
theorem joined_split {j n : Nat} (le : j ≤ n) :
    joined lists 0 (n + 1) = joined lists 0 j ++ (lists j ++ joined lists (j + 1) (n - j)) := by
  rw [← joined_succ, joined, joined, joined, ← List.flatMap_append]
  have halves : List.range' 0 j ++ List.range' (0 + j) (n - j + 1) =
      List.range' 0 (j + (n - j + 1)) := List.range'_append_1
  rw [Nat.zero_add, show j + (n - j + 1) = n + 1 by omega] at halves
  rw [halves]

end

/-- Below `p` hangs a tree with the root `a`; the lists are its nodes and, in order, its leaves. The
first child of an internode may be null if there is another one. -/
inductive Spans (kinds : Addr → Option Kind) : Addr → Addr → List Addr → List Addr → Prop
  | leaf {p a : Addr} {l : Leaf} :
      kinds a = some (.leaf l) → l.body.parent = p → Spans kinds p a [a] [a]
  | internode {p a : Addr} {i : Internode} (nodes leaves : Nat → List Addr) :
      kinds a = some (.internode i) → i.parent = p →
      (∀ j ≤ i.nkeys, i.child j ≠ 0 → Spans kinds a (i.child j) (nodes j) (leaves j)) →
      (∀ j ≤ i.nkeys, i.child j = 0 → j = 0 ∧ 0 < i.nkeys ∧ nodes j = [] ∧ leaves j = []) →
      Spans kinds p a (a :: joined nodes 0 (i.nkeys + 1)) (joined leaves 0 (i.nkeys + 1))

variable {kinds kinds' : Addr → Option Kind} {p a root : Addr} {nodes leaves total all : List Addr}

theorem spans_root (h : Spans kinds p a nodes leaves) : a ∈ nodes := by
  cases h <;> simp

theorem spans_parent (h : Spans kinds p a nodes leaves) : ∃ k, kinds a = some k ∧ k.parent = p := by
  cases h with
  | leaf here parent => exact ⟨_, here, parent⟩
  | internode _ _ here parent => exact ⟨_, here, parent⟩

theorem spans_kinds (h : Spans kinds p a nodes leaves) : ∀ b ∈ nodes, (kinds b).isSome := by
  induction h with
  | leaf here =>
      intro b member
      rw [List.mem_singleton.mp member, here]
      rfl
  | @internode p a i nodes leaves here parent children null ih =>
      intro b member
      obtain rfl | member := List.mem_cons.mp member
      · rw [here]
        rfl
      obtain ⟨j, bound, member⟩ := List.mem_flatMap.mp member
      rw [List.mem_range'_1] at bound
      by_cases child : i.child j = 0
      · rw [(null j (by omega) child).2.2.1] at member
        simp at member
      · exact ih j (by omega) child b member

theorem spans_leaf (h : Spans kinds p a nodes leaves) :
    ∀ b ∈ leaves, ∃ l, kinds b = some (.leaf l) := by
  induction h with
  | leaf here =>
      intro b member
      rw [List.mem_singleton.mp member]
      exact ⟨_, here⟩
  | @internode p a i nodes leaves here parent children null ih =>
      intro b member
      obtain ⟨j, bound, member⟩ := List.mem_flatMap.mp member
      rw [List.mem_range'_1] at bound
      by_cases child : i.child j = 0
      · rw [(null j (by omega) child).2.2.2] at member
        simp at member
      · exact ih j (by omega) child b member

/-- The last child is never null. -/
theorem last_child {i : Internode} {nodes leaves : Nat → List Addr}
    (null : ∀ j ≤ i.nkeys, i.child j = 0 → j = 0 ∧ 0 < i.nkeys ∧ nodes j = [] ∧ leaves j = []) :
    i.child i.nkeys ≠ 0 := by
  intro none
  obtain ⟨first, more, -⟩ := null i.nkeys le_rfl none
  omega

theorem spans_nonempty (h : Spans kinds p a nodes leaves) : leaves ≠ [] := by
  induction h with
  | leaf => simp
  | @internode p a i nodes leaves here parent children null ih =>
      rw [joined_last, Nat.zero_add]
      exact List.append_ne_nil_of_right_ne_nil _ (ih i.nkeys le_rfl (last_child null))

theorem joined_sublist {nodes leaves : Nat → List Addr} {lo n : Nat}
    (each : ∀ j, lo ≤ j → j < lo + n → (leaves j).Sublist (nodes j)) :
    (joined leaves lo n).Sublist (joined nodes lo n) := by
  induction n with
  | zero => exact .slnil
  | succ n ih =>
      rw [joined_last, joined_last]
      refine (ih fun j low high => each j low (by omega)).append (each _ (by omega) (by omega))

theorem spans_sublist (h : Spans kinds p a nodes leaves) : leaves.Sublist nodes := by
  induction h with
  | leaf => exact .refl _
  | @internode p a i nodes leaves here parent children null ih =>
      refine .cons _ (joined_sublist fun j _ bound => ?_)
      by_cases child : i.child j = 0
      · rw [(null j (by omega) child).2.2.2]
        exact List.nil_sublist _
      · exact ih j (by omega) child

/-- The same leaf or internode as far as child and parent pointers go. -/
inductive SameShape : Kind → Kind → Prop
  | leaf {l l' : Leaf} : l'.body.parent = l.body.parent → SameShape (.leaf l) (.leaf l')
  | internode {i i' : Internode} : i'.nkeys = i.nkeys → i'.child = i.child → i'.parent = i.parent →
      SameShape (.internode i) (.internode i')

theorem spans_shape (h : Spans kinds p a nodes leaves)
    (same : ∀ b ∈ nodes, ∀ k, kinds b = some k → ∃ k', kinds' b = some k' ∧ SameShape k k') :
    Spans kinds' p a nodes leaves := by
  induction h with
  | @leaf p a l here parent =>
      obtain ⟨k, after, shape⟩ := same a (by simp) _ here
      cases shape with
      | leaf parent' => exact .leaf after (parent'.trans parent)
  | @internode p a i nodes leaves here parent children null ih =>
      obtain ⟨k, after, shape⟩ := same a (by simp) _ here
      cases shape with
      | @internode i i' nkeys child parent' =>
          rw [← nkeys]
          refine .internode nodes leaves after (parent'.trans parent) ?_ ?_
          · rw [nkeys, child]
            refine fun j le nonnull => ih j le nonnull fun b member => same b ?_
            refine List.mem_cons_of_mem _ (List.mem_flatMap.mpr ⟨j, ?_, member⟩)
            exact List.mem_range'_1.mpr (by omega)
          · rw [nkeys, child]
            exact null

theorem sameKind_shape {k : Kind} (same : SameKind (some k) (kinds a)) :
    ∃ k', kinds a = some k' ∧ SameShape k k' := by
  generalize after : kinds a = k' at same
  cases same with
  | internode => exact ⟨_, rfl, .internode rfl rfl rfl⟩
  | leaf links =>
      refine ⟨_, rfl, .leaf ?_⟩
      rw [links]

/-- A tree does not depend on the links of its leaves. -/
theorem spans_same (h : Spans kinds p a nodes leaves) (same : ∀ b, SameKind (kinds b) (kinds' b)) :
    Spans kinds' p a nodes leaves :=
  spans_shape h fun b _ _ here => sameKind_shape (here ▸ same b)

/-! The place of a node in the tree: how many nodes are above it, and the leaves before and behind. -/

inductive Inside (kinds : Addr → Option Kind) (root : Addr) (total all : List Addr) :
    Nat → Addr → Addr → List Addr → List Addr → List Addr → List Addr → Prop
  | root : root ≠ 0 → Spans kinds 0 root total all →
      Inside kinds root total all 0 0 root total [] all []
  | child {above : Nat} {p a : Addr} {before after : List Addr} {i : Internode}
      {nodes leaves : Nat → List Addr} {j : Nat} :
      Inside kinds root total all above p a (a :: joined nodes 0 (i.nkeys + 1)) before
        (joined leaves 0 (i.nkeys + 1)) after →
      kinds a = some (.internode i) →
      (∀ j ≤ i.nkeys, i.child j ≠ 0 → Spans kinds a (i.child j) (nodes j) (leaves j)) →
      (∀ j ≤ i.nkeys, i.child j = 0 → j = 0 ∧ 0 < i.nkeys ∧ nodes j = [] ∧ leaves j = []) →
      j ≤ i.nkeys → i.child j ≠ 0 →
      Inside kinds root total all (above + 1) a (i.child j) (nodes j)
        (before ++ joined leaves 0 j) (leaves j)
        (joined leaves (j + 1) (i.nkeys - j) ++ after)

section
variable {above : Nat} {before after : List Addr}

theorem inside_spans (h : Inside kinds root total all above p a nodes before leaves after) :
    Spans kinds p a nodes leaves := by
  cases h with
  | root _ spans => exact spans
  | child _ _ children _ le child => exact children _ le child

theorem inside_nonnull (h : Inside kinds root total all above p a nodes before leaves after) :
    a ≠ 0 := by
  cases h with
  | root nonnull => exact nonnull
  | child _ _ _ _ _ child => exact child

theorem inside_all (h : Inside kinds root total all above p a nodes before leaves after) :
    all = before ++ leaves ++ after := by
  induction h with
  | root => simp
  | child _ _ _ _ le _ ih =>
      rw [ih, joined_split _ le]
      simp

theorem inside_sublist (h : Inside kinds root total all above p a nodes before leaves after) :
    nodes.Sublist total := by
  induction h with
  | root => exact .refl _
  | child _ _ _ _ le _ ih =>
      refine .trans ?_ ((List.sublist_cons_self _ _).trans ih)
      rw [joined_split _ le]
      exact (List.sublist_append_left _ _).trans (List.sublist_append_right _ _)

theorem inside_depth (h : Inside kinds root total all above p a nodes before leaves after) :
    above + nodes.length ≤ total.length := by
  induction h with
  | root => simp
  | child _ _ _ _ le _ ih =>
      rw [joined_split _ le] at ih
      simp only [List.length_cons, List.length_append] at ih
      omega

/-- Every leaf has its place. -/
theorem inside_leaf (h : Spans kinds p a nodes leaves)
    (place : Inside kinds root total all above p a nodes before leaves after) :
    ∀ b ∈ leaves, ∃ above p nodes before after,
      Inside kinds root total all above p b nodes before [b] after := by
  induction h generalizing above before after with
  | leaf =>
      intro b member
      obtain rfl := List.mem_singleton.mp member
      exact ⟨_, _, _, _, _, place⟩
  | @internode p a i nodes leaves here parent children null ih =>
      intro b member
      obtain ⟨j, bound, member⟩ := List.mem_flatMap.mp member
      rw [List.mem_range'_1] at bound
      have le : j ≤ i.nkeys := by omega
      by_cases child : i.child j = 0
      · rw [(null j le child).2.2.2] at member
        simp at member
      · exact ih j le child (.child place here children null le child) b member

end

/-- A child is found at its index. -/
theorem findChildIdx_child {i : Internode} {nodes leaves : Nat → List Addr}
    (children : ∀ j ≤ i.nkeys, i.child j ≠ 0 → Spans kinds a (i.child j) (nodes j) (leaves j))
    (distinct : (joined nodes 0 (i.nkeys + 1)).Nodup) {j : Nat} (le : j ≤ i.nkeys)
    (child : i.child j ≠ 0) : i.findChildIdx (i.child j) = some j := by
  rw [Internode.findChildIdx, List.find?_range_eq_some]
  refine ⟨by simp, List.mem_range.mpr (by omega), fun k earlier => ?_⟩
  simp only [Bool.not_eq_true', beq_eq_false_iff_ne]
  intro same
  have first := spans_root (children k (by omega) (same ▸ child))
  have second := spans_root (children j le child)
  rw [joined_split nodes le, List.nodup_append] at distinct
  refine distinct.2.2 _ ?_ _ (List.mem_append_left _ second) same
  exact List.mem_flatMap.mpr ⟨k, List.mem_range'_1.mpr (by omega), first⟩

/-! The walks of `get_prev_safe` and `get_next_safe`. -/

section run
variable {W : Type} {s : St W}

theorem node_run {k : Kind} (here : kindAt s a = some k) :
    ∃ n, s.heap a = some n ∧ n.kind = k ∧ (M.node a : M W Node) s = some (n, s) := by
  rw [kindAt, Option.map_eq_some_iff] at here
  obtain ⟨n, found, kind⟩ := here
  refine ⟨n, found, kind, ?_⟩
  simp only [M.node]
  rw [run_bind (show (get : M W (St W)) s = some (s, s) from rfl), found]
  rfl

theorem internode_run {i : Internode} (here : kindAt s a = some (.internode i)) :
    (M.internode a : M W Internode) s = some (i, s) := by
  obtain ⟨n, -, kind, run⟩ := node_run here
  simp only [M.internode]
  rw [run_bind run, kind]
  rfl

theorem fuel_run : (M.fuel : M W Nat) s = some (s.fresh, s) := rfl

theorem getMaxLeaf_run (h : Spans (kindAt s) p a nodes leaves) {fuel : Nat}
    (enough : nodes.length ≤ fuel) :
    ∃ b, leaves.getLast? = some b ∧ (M.getMaxLeaf fuel a : M W Addr) s = some (b, s) := by
  induction h generalizing fuel with
  | @leaf p a l here parent =>
      obtain ⟨fuel, rfl⟩ := Nat.exists_eq_add_of_le' enough
      obtain ⟨n, -, kind, run⟩ := node_run here
      refine ⟨a, rfl, ?_⟩
      simp only [List.length_singleton, M.getMaxLeaf]
      rw [run_bind run, kind]
      rfl
  | @internode p a i nodes leaves here parent children null ih =>
      have child := last_child null
      obtain ⟨n, -, kind, run⟩ := node_run here
      rw [joined_split nodes le_rfl] at enough
      simp only [List.length_cons, List.length_append] at enough
      obtain ⟨fuel, rfl⟩ := Nat.exists_eq_add_of_le' (show 1 ≤ fuel by omega)
      obtain ⟨b, last, rest⟩ := ih i.nkeys le_rfl child
        (show (nodes i.nkeys).length ≤ fuel by omega)
      refine ⟨b, ?_, ?_⟩
      · rw [joined_last, Nat.zero_add, List.getLast?_append, last]
        rfl
      · simp only [M.getMaxLeaf]
        rw [run_bind run, kind]
        exact rest

theorem getMinLeaf_run (h : Spans (kindAt s) p a nodes leaves) {fuel : Nat}
    (enough : nodes.length ≤ fuel) :
    ∃ b, leaves.head? = some b ∧ (M.getMinLeaf fuel a : M W Addr) s = some (b, s) := by
  induction h generalizing fuel with
  | @leaf p a l here parent =>
      obtain ⟨fuel, rfl⟩ := Nat.exists_eq_add_of_le' enough
      obtain ⟨n, -, kind, run⟩ := node_run here
      refine ⟨a, rfl, ?_⟩
      simp only [List.length_singleton, M.getMinLeaf]
      rw [run_bind run, kind]
      rfl
  | @internode p a i nodes leaves here parent children null ih =>
      obtain ⟨n, -, kind, run⟩ := node_run here
      obtain ⟨j, le, child, chosen, front⟩ : ∃ j ≤ i.nkeys, i.child j ≠ 0 ∧
          (if i.child 0 ≠ 0 then i.child 0 else i.child 1) = i.child j ∧ joined leaves 0 j = [] := by
        by_cases first : i.child 0 = 0
        · obtain ⟨-, more, -, empty⟩ := null 0 (Nat.zero_le _) first
          refine ⟨1, more, fun second => ?_, if_neg (not_not.mpr first), by simp [joined, empty]⟩
          have := (null 1 more second).1
          omega
        · exact ⟨0, Nat.zero_le _, first, if_pos first, rfl⟩
      rw [joined_split nodes le] at enough
      simp only [List.length_cons, List.length_append] at enough
      obtain ⟨fuel, rfl⟩ := Nat.exists_eq_add_of_le' (show 1 ≤ fuel by omega)
      obtain ⟨b, first, rest⟩ := ih j le child (show (nodes j).length ≤ fuel by omega)
      refine ⟨b, ?_, ?_⟩
      · rw [joined_split leaves le, front, List.nil_append, List.head?_append, first]
        rfl
      · simp only [M.getMinLeaf]
        rw [run_bind run, kind]
        simp only [chosen]
        exact rest

variable {above : Nat} {before after : List Addr}

theorem getPrevSafe_run
    (h : Inside (kindAt s) root total all above p a nodes before leaves after)
    (distinct : total.Nodup) (space : total.length ≤ s.fresh) {fuel : Nat} (enough : above < fuel) :
    (M.getPrevSafe fuel a : M W Addr) s = some (before.getLastD 0, s) := by
  induction h generalizing fuel with
  | root nonnull spans =>
      obtain ⟨fuel, rfl⟩ := Nat.exists_eq_add_of_le' enough
      obtain ⟨k, here, parent⟩ := spans_parent spans
      obtain ⟨n, -, kind, run⟩ := node_run here
      simp only [M.getPrevSafe]
      rw [run_bind run, kind, parent]
      rfl
  | @child above q c before after i nodes leaves j place here children null le child ih =>
      obtain ⟨fuel, rfl⟩ := Nat.exists_eq_add_of_le' (show 1 ≤ fuel by omega)
      obtain ⟨k, own, parent⟩ := spans_parent (children j le child)
      obtain ⟨n, -, kind, run⟩ := node_run own
      have nodup := (inside_sublist place).nodup distinct
      have index := findChildIdx_child children (List.nodup_cons.mp nodup).2 le child
      have length := (inside_depth place).trans space
      simp only [M.getPrevSafe]
      rw [run_bind run, kind, parent, if_neg (inside_nonnull place),
        run_bind (internode_run here), index]
      simp only
      by_cases side : 0 < j ∧ i.child (j - 1) ≠ 0
      · rw [if_pos side, run_bind fuel_run]
        rw [joined_split nodes (show j - 1 ≤ i.nkeys by omega)] at length
        simp only [List.length_cons, List.length_append] at length
        obtain ⟨b, last, walk⟩ := getMaxLeaf_run
          (children (j - 1) (by omega) side.2) (show (nodes (j - 1)).length ≤ s.fresh by omega)
        rw [walk, show j = j - 1 + 1 by omega, joined_last, Nat.zero_add,
          List.getLastD_eq_getLast?, List.getLast?_append, List.getLast?_append, last]
        rfl
      · have front : joined leaves 0 j = [] := by
          obtain _ | j := j
          · rfl
          · rw [Nat.add_sub_cancel, not_and, not_not] at side
            obtain ⟨rfl, -, -, empty⟩ := null j (by omega) (side (by omega))
            simp [joined, empty]
        rw [if_neg side, front, List.append_nil]
        exact ih (by omega)

theorem getNextSafe_run
    (h : Inside (kindAt s) root total all above p a nodes before leaves after)
    (distinct : total.Nodup) (space : total.length ≤ s.fresh) {fuel : Nat} (enough : above < fuel) :
    (M.getNextSafe fuel a : M W Addr) s = some (after.headD 0, s) := by
  induction h generalizing fuel with
  | root nonnull spans =>
      obtain ⟨fuel, rfl⟩ := Nat.exists_eq_add_of_le' enough
      obtain ⟨k, here, parent⟩ := spans_parent spans
      obtain ⟨n, -, kind, run⟩ := node_run here
      simp only [M.getNextSafe]
      rw [run_bind run, kind, parent]
      rfl
  | @child above q c before after i nodes leaves j place here children null le child ih =>
      obtain ⟨fuel, rfl⟩ := Nat.exists_eq_add_of_le' (show 1 ≤ fuel by omega)
      obtain ⟨k, own, parent⟩ := spans_parent (children j le child)
      obtain ⟨n, -, kind, run⟩ := node_run own
      have nodup := (inside_sublist place).nodup distinct
      have index := findChildIdx_child children (List.nodup_cons.mp nodup).2 le child
      have length := (inside_depth place).trans space
      simp only [M.getNextSafe]
      rw [run_bind run, kind, parent, if_neg (inside_nonnull place),
        run_bind (internode_run here), index]
      simp only
      by_cases side : j < i.nkeys
      · have next : i.child (j + 1) ≠ 0 := by
          intro none
          have := (null (j + 1) side none).1
          omega
        rw [if_pos side, run_bind fuel_run]
        rw [joined_split nodes (show j + 1 ≤ i.nkeys by omega)] at length
        simp only [List.length_cons, List.length_append] at length
        obtain ⟨b, first, walk⟩ := getMinLeaf_run
          (children (j + 1) side next) (show (nodes (j + 1)).length ≤ s.fresh by omega)
        rw [walk, show i.nkeys - j = i.nkeys - (j + 1) + 1 by omega, joined_succ,
          List.headD_eq_head?_getD, List.head?_append, List.head?_append, first]
        rfl
      · have back : i.nkeys - j = 0 := by omega
        rw [if_neg side, back, joined_zero, List.nil_append]
        exact ih (by omega)

end run

end Incll.Proof.Leaflink
