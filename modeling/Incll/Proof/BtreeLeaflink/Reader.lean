import Mathlib.Data.List.Sort
import Incll.Proof.BtreeLeaflink.Sound

/-! # The leaves that a reader meets

A reader that follows `next_` from the first leaf meets every leaf that is linked, whatever the calls
have stored so far, and after the last call the list is doubly linked. -/

namespace Incll.Proof.BtreeLeaflink
open Incll.Lib Incll.Model Incll.Model.BtreeLeaflink
open Incll.Model.Leaflink (Next Links inOrder)

/-- The leaves from `a` on: `next_` without its mark is followed up to null. -/
def Path (links : Addr → Links) : Addr → List Addr → Prop
  | a, [] => a = 0
  | a, b :: rest => a ≠ 0 ∧ b = a ∧ Path links (links a).next.ptr rest

section
variable {order : List Addr} {gone : Addr → Prop} {links : Addr → Links} {pc : Addr → Pc}
  {a : Addr}

theorem Inv.next_ready (inv : Inv order gone links pc) (member : a ∈ order) (ready : Ready pc a) :
    Ready pc (links a).next.ptr :=
  fun m blank => inv.unreached m _ (linking_of_early (early_of_blank blank)) a member ready rfl

/-- The path from a leaf goes forward and leaves out only hidden leaves. -/
theorem Inv.path (inv : Inv order gone links pc) (fuel : Nat) (member : a ∈ order)
    (ready : Ready pc a) (enough : order.length < pos order a + fuel) :
    ∃ path, Path links a path ∧ (∀ b ∈ path, pos order a ≤ pos order b) ∧
      path.Pairwise (fun b c => pos order b < pos order c) ∧
      ∀ x ∈ order, pos order a ≤ pos order x → ¬ Dead gone pc x → ¬ Linking pc x → x ∈ path := by
  induction fuel generalizing a with
  | zero =>
      have bound : pos order a < order.length := List.idxOf_lt_length_of_mem member
      omega
  | succ fuel ih =>
      have shown (rest : List Addr)
          (following : ∀ x ∈ order, pos order a < pos order x → ¬ Dead gone pc x → ¬ Linking pc x →
            x ∈ rest) :
          ∀ x ∈ order, pos order a ≤ pos order x → ¬ Dead gone pc x → ¬ Linking pc x →
            x ∈ a :: rest := by
        intro x xMember from_a alive linked
        rcases from_a.eq_or_lt with same | after
        · exact (pos_inj member same) ▸ List.mem_cons_self
        · exact List.mem_cons_of_mem _ (following x xMember after alive linked)
      by_cases last : (links a).next.ptr = 0
      · refine ⟨[a], ⟨ne_zero inv member, rfl, last⟩, by simp, by simp, shown [] ?_⟩
        intro x xMember after alive linked
        exact ((inv.hidden a member ready x xMember after fun nonnull => absurd last nonnull).elim
          alive linked).elim
      · obtain ⟨nextMember, onward⟩ := inv.skip a member ready last
        obtain ⟨rest, path, above, sorted, meets⟩ :=
          ih nextMember (inv.next_ready member ready) (by omega)
        refine ⟨a :: rest, ⟨ne_zero inv member, rfl, path⟩, ?_, ?_, shown rest ?_⟩
        · exact List.forall_mem_cons.mpr ⟨le_rfl, fun b isIn => onward.le.trans (above b isIn)⟩
        · exact List.pairwise_cons.mpr ⟨fun b isIn => onward.trans_le (above b isIn), sorted⟩
        · intro x xMember after alive linked
          by_cases skipped : pos order x < pos order (links a).next.ptr
          · exact ((inv.hidden a member ready x xMember after fun _ => skipped).elim
              alive linked).elim
          · exact meets x xMember (Nat.le_of_not_lt skipped) alive linked

end

theorem pairwise_pos {order : List Addr} (distinct : order.Nodup) :
    order.Pairwise fun a b => pos order a < pos order b := by
  rw [List.pairwise_iff_getElem]
  intro i j left right before
  rw [pos, pos, distinct.idxOf_getElem, distinct.idxOf_getElem]
  exact before

variable {chain : List Addr} {s : State}

theorem Sound.first_ready (sound : Sound chain s) {first : Addr}
    (head : (everLinked chain s.calls).head? = some first) : Ready s.pc first := by
  intro m blank
  have split := (sound.inv.behind m first (linking_of_early (early_of_blank blank))).1
  obtain ⟨rest, order⟩ := List.head?_eq_some_iff.mp head
  rw [order, pos, pos, List.idxOf_cons_self] at split
  exact Nat.not_lt_zero _ split

theorem Sound.sublist (sound : Sound chain s) :
    (leavesAfter chain s.calls).Sublist (everLinked chain s.calls) := by
  rw [sound.leaves]
  exact List.filter_sublist

theorem Sound.reader (sound : Sound chain s) :
    ∃ path, Path s.links (chain.headD 0) path ∧
      ∀ settled : List Addr, settled.Sublist (leavesAfter chain s.calls) →
        (∀ a ∈ settled, ¬ Linking s.pc a) → settled.Sublist path := by
  have head := sound.head
  cases chain with
  | nil =>
      refine ⟨[], rfl, fun settled sub _ => ?_⟩
      have shorter := sub.trans sound.sublist
      rwa [List.head?_eq_none_iff.mp head] at shorter
  | cons first rest =>
      have member := List.mem_of_head? head
      obtain ⟨path, isPath, -, sorted, meets⟩ := sound.inv.path
        ((everLinked (first :: rest) s.calls).length + 1) member (sound.first_ready head) (by omega)
      have front : pos (everLinked (first :: rest) s.calls) first = 0 := by
        obtain ⟨others, order⟩ := List.head?_eq_some_iff.mp head
        rw [order, pos, List.idxOf_cons_self]
      refine ⟨path, isPath, fun settled sub linked => ?_⟩
      have within := sub.trans sound.sublist
      have antisymm : Std.Antisymm fun b c =>
          pos (everLinked (first :: rest) s.calls) b < pos (everLinked (first :: rest) s.calls) c :=
        ⟨fun _ _ before after => absurd before after.asymm⟩
      refine List.sublist_of_subperm_of_pairwise (List.subperm_of_subset ?_ fun a isIn => ?_)
        ((pairwise_pos sound.distinct).sublist within) sorted
      · exact sound.distinct.sublist within
      · refine meets a (within.subset isIn) (front ▸ Nat.zero_le _) (fun dead => ?_) (linked a isIn)
        exact (sound.mem_leaves.mp (sub.subset isIn)).2 dead.1

/-! With no call under way. -/

theorem quiet_linked (quiet : ∀ n, s.pc n = .idle) (a : Addr) : ¬ Linking s.pc a :=
  fun ⟨m, linking⟩ => by simp [quiet m, Pc.linking] at linking

section
variable (sound : Sound chain s) (quiet : ∀ n, s.pc n = .idle)
include sound quiet

theorem Sound.quiet_acting {a : Addr} (member : a ∈ leavesAfter chain s.calls) :
    Acting (Gone s) s.pc (everLinked chain s.calls) a := by
  obtain ⟨known, alive⟩ := sound.mem_leaves.mp member
  exact ⟨known, fun dead => alive dead.1, by rw [quiet a]; rfl,
    fun m early => quiet_linked quiet a ⟨m, linking_of_early early⟩⟩

/-- No leaf stands between a leaf and the one it points to. -/
theorem Sound.quiet_next {a b : Addr} (left : a ∈ leavesAfter chain s.calls)
    (right : b ∈ leavesAfter chain s.calls)
    (after : pos (everLinked chain s.calls) a < pos (everLinked chain s.calls) b) :
    (s.links a).next.ptr ≠ 0 ∧ pos (everLinked chain s.calls) (s.links a).next.ptr ≤
      pos (everLinked chain s.calls) b := by
  have acts := sound.quiet_acting quiet left
  obtain ⟨known, alive⟩ := sound.mem_leaves.mp right
  by_contra skipped
  refine (sound.inv.hidden a acts.member acts.ready b known after fun nonnull => ?_).elim
    (fun dead => alive dead.1) (quiet_linked quiet b)
  exact Nat.lt_of_not_le fun le => skipped ⟨nonnull, le⟩

theorem Sound.quiet_target {a : Addr} (member : a ∈ leavesAfter chain s.calls)
    (nonnull : (s.links a).next.ptr ≠ 0) :
    (s.links a).next.ptr ∈ leavesAfter chain s.calls ∧
      pos (everLinked chain s.calls) a < pos (everLinked chain s.calls) (s.links a).next.ptr := by
  have acts := sound.quiet_acting quiet member
  obtain ⟨known, onward⟩ := sound.inv.skip a acts.member acts.ready nonnull
  refine ⟨sound.mem_leaves.mpr ⟨known, fun gone => ?_⟩, onward⟩
  exact sound.inv.alive a acts nonnull ⟨gone, quiet _⟩

/-- A leaf points to the one behind it in the sequence. -/
theorem Sound.quiet_ptr {xs ys : List Addr} {a : Addr}
    (split : leavesAfter chain s.calls = xs ++ a :: ys) : (s.links a).next.ptr = ys.headD 0 := by
  have member : a ∈ leavesAfter chain s.calls := by simp [split]
  have sorted := (pairwise_pos sound.distinct).sublist sound.sublist
  rw [split, List.pairwise_append, List.pairwise_cons] at sorted
  obtain ⟨-, ⟨after, sortedRest⟩, before⟩ := sorted
  -- a leaf with a higher place than `a` stands behind it
  have behind {b : Addr} (isIn : b ∈ leavesAfter chain s.calls)
      (high : pos (everLinked chain s.calls) a < pos (everLinked chain s.calls) b) : b ∈ ys := by
    rw [split] at isIn
    rcases List.mem_append.mp isIn with left | right
    · exact absurd (before b left a List.mem_cons_self) high.asymm
    · exact (List.mem_cons.mp right).resolve_left fun eq => lt_irrefl _ (eq ▸ high)
  cases ys with
  | nil =>
      by_contra nonnull
      obtain ⟨target, onward⟩ := sound.quiet_target quiet member nonnull
      cases behind target onward
  | cons y rest =>
      have yMember : y ∈ leavesAfter chain s.calls := by simp [split]
      obtain ⟨nonnull, le⟩ := sound.quiet_next quiet member yMember (after y List.mem_cons_self)
      obtain ⟨target, onward⟩ := sound.quiet_target quiet member nonnull
      rcases List.mem_cons.mp (behind target onward) with eq | later
      · exact eq
      · have beyond := (List.pairwise_cons.mp sortedRest).1 _ later
        exact absurd le (Nat.not_le_of_lt beyond)

/-- The first leaf is never unlinked. -/
theorem Sound.quiet_front {ys : List Addr} {n : Addr}
    (split : leavesAfter chain s.calls = n :: ys) : pos (everLinked chain s.calls) n = 0 := by
  have known := (sound.quiet_acting quiet (a := n) (by simp [split])).member
  cases order : everLinked chain s.calls with
  | nil =>
      rw [order] at known
      cases known
  | cons first rest =>
      have front : pos (everLinked chain s.calls) first = 0 := by
        rw [order, pos, List.idxOf_cons_self]
      have isLeaf : first ∈ leavesAfter chain s.calls := by
        refine sound.mem_leaves.mpr ⟨by simp [order], fun gone => ?_⟩
        have inside := (sound.inv.known first gone).2
        omega
      rw [← order]
      rw [split] at isLeaf
      rcases List.mem_cons.mp isLeaf with eq | later
      · rw [← eq, front]
      · have sorted := (pairwise_pos sound.distinct).sublist sound.sublist
        rw [split] at sorted
        have below := (List.pairwise_cons.mp sorted).1 first later
        omega

theorem Sound.quiet_links {xs ys : List Addr} {n : Addr}
    (split : leavesAfter chain s.calls = xs ++ n :: ys) : s.links n = inOrder xs ys := by
  have member : n ∈ leavesAfter chain s.calls := by simp [split]
  have acts := sound.quiet_acting quiet member
  have ptr := sound.quiet_ptr quiet split
  have mark : (s.links n).next.mark = false := by
    by_contra marked
    rcases sound.inv.marked n acts.member acts.ready (by simpa using marked) with
      dead | owner | ⟨m, taken⟩
    · exact acts.alive dead
    · exact owner (by rw [quiet n]; rfl)
    · simp [quiet m, Pc.taken] at taken
  have prev : (s.links n).prev = xs.getLastD 0 := by
    rcases List.eq_nil_or_concat' xs with rfl | ⟨before, p, rfl⟩
    · exact sound.inv.first n acts.member (sound.quiet_front quiet split)
    · have pSplit : leavesAfter chain s.calls = before ++ p :: n :: ys := by simp [split]
      have pPtr : (s.links p).next.ptr = n := sound.quiet_ptr quiet pSplit
      have back := sound.inv.back p (sound.quiet_acting quiet (by simp [pSplit]))
        (pPtr ▸ ne_zero sound.inv acts.member) (by simp [quiet p])
      rw [pPtr] at back
      simp [back]
  cases links : s.links n with
  | mk next prev' =>
      cases next
      simp_all [inOrder]

end

/-- At every step a reader meets, in order, all leaves that are neither being unlinked nor still being
linked in, and reaches the end; with no call under way the leaves after the calls are doubly linked,
without a mark. -/
theorem links_kept (distinct : chain.Nodup) (null : 0 ∉ chain)
    (reachable : (machine chain).Reachable Machine.anyStep s) :
    (∃ path, Path s.links (chain.headD 0) path ∧
      ∀ settled : List Addr, settled.Sublist (leavesAfter chain s.calls) →
        (∀ a ∈ settled, ¬ Linking s.pc a) → settled.Sublist path) ∧
    ((∀ n, s.pc n = .idle) → ∀ xs n ys, leavesAfter chain s.calls = xs ++ n :: ys →
      s.links n = inOrder xs ys) := by
  have sound := sound_of_reachable distinct null reachable
  exact ⟨sound.reader, fun quiet _ _ _ split => sound.quiet_links quiet split⟩

def threeLeaves : State where
  links
    | 1 => ⟨⟨2, false⟩, 0⟩
    | 2 => ⟨⟨3, false⟩, 1⟩
    | 3 => ⟨⟨0, false⟩, 2⟩
    | _ => ⟨⟨0, false⟩, 0⟩
  locked _ := false
  pc _ := .idle
  calls := []

/-- Leaf 1 is split while leaf 2 is unlinked, through the new leaf 4 that is not linked yet. -/
def crossing : List Label :=
  [.call (.linkSplit 1 4), .call (.unlink 2)] ++ List.replicate 4 (.go 1) ++
    List.replicate 6 (.go 2) ++ [.go 1]

theorem start_threeLeaves : Start [1, 2, 3] threeLeaves where
  linked xs n ys split := by
    rcases xs with _ | ⟨x, _ | ⟨x', _ | ⟨x'', rest⟩⟩⟩ <;> simp at split
    · obtain ⟨rfl, rfl⟩ := split
      rfl
    · obtain ⟨rfl, rfl, rfl⟩ := split
      rfl
    · obtain ⟨rfl, rfl, rfl, rfl⟩ := split
      rfl
  locked _ := rfl
  pc _ := rfl
  calls := rfl

theorem links_kept_crossing :
    ∃ s path, (machine [1, 2, 3]).Reachable Machine.anyStep s ∧
      leavesAfter [1, 2, 3] s.calls = [1, 4, 3] ∧ s.links 4 = inOrder [1] [3] ∧
      Path s.links 1 path ∧ [1, 4, 3].Sublist path := by
  have start : (machine [1, 2, 3]).Reachable Machine.anyStep threeLeaves :=
    .initial start_threeLeaves
  obtain ⟨s, reachable, ended⟩ := start.exists_run crossing
    (fun s => leavesAfter [1, 2, 3] s.calls == [1, 4, 3] &&
      everLinked [1, 2, 3] s.calls == [1, 4, 2, 3] && [1, 4, 2, 3].all fun n => s.pc n == .idle)
    (by decide)
  simp only [Bool.and_eq_true, beq_iff_eq, List.all_eq_true] at ended
  obtain ⟨⟨leaves, known⟩, idle⟩ := ended
  have quiet (n : Addr) : s.pc n = .idle := by
    by_contra busy
    have member := (sound_of_reachable (by decide) (by decide) reachable).inv.target n busy
    rw [known] at member
    exact busy (idle n member)
  obtain ⟨⟨path, isPath, meets⟩, linked⟩ :=
    @links_kept [1, 2, 3] s (by decide) (by decide) reachable
  refine ⟨s, path, reachable, leaves, linked quiet [1] 4 [3] leaves, isPath, ?_⟩
  exact meets [1, 4, 3] (leaves ▸ List.Sublist.refl _) fun a _ => quiet_linked quiet a

end Incll.Proof.BtreeLeaflink
