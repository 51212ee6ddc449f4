import Incll.Proof.BtreeLeaflink.Calls

/-! # The invariant in every run -/

namespace Incll.Proof.BtreeLeaflink
open Incll.Lib Incll.Model Incll.Model.BtreeLeaflink
open Incll.Model.Leaflink (Next Links inOrder)

variable {chain : List Addr} {s s' : State} {n nr : Addr}

theorem leavesAfter_append (calls : List Call) (c : Call) :
    leavesAfter chain (calls ++ [c]) = c.apply (leavesAfter chain calls) := by
  rw [leavesAfter, List.foldl_append]
  rfl

theorem everLinked_linkSplit (calls : List Call) :
    everLinked chain (calls ++ [.linkSplit n nr]) =
      (Call.linkSplit n nr).apply (everLinked chain calls) := by
  rw [everLinked, List.filter_append]
  exact leavesAfter_append _ _

theorem everLinked_unlink (calls : List Call) :
    everLinked chain (calls ++ [.unlink n]) = everLinked chain calls := by
  rw [everLinked, List.filter_append]
  exact congrArg (leavesAfter chain) (List.append_nil _)

/-- `unlink` has been called. -/
def Gone (s : State) (a : Addr) : Prop := Call.unlink a ∈ s.calls

/-- The leaf behind, when its `prev_` is about to be stored. -/
def storing : Pc → Option Addr
  | .storeNextPrev _ next | .unlinkNextPrev next _ => some next
  | _ => none

structure Sound (chain : List Addr) (s : State) : Prop where
  inv : Inv (everLinked chain s.calls) (Gone s) s.links s.pc
  distinct : (everLinked chain s.calls).Nodup
  head : (everLinked chain s.calls).head? = chain.head?
  leaves : leavesAfter chain s.calls =
    (everLinked chain s.calls).filter fun a => Call.unlink a ∉ s.calls
  free : ∀ a, s.locked a = false → s.pc a = .idle ∧ ¬ Linking s.pc a
  nonnull : ∀ a next, storing (s.pc a) = some next → next ≠ 0

theorem Sound.mem_leaves (sound : Sound chain s) {a : Addr} :
    a ∈ leavesAfter chain s.calls ↔ a ∈ everLinked chain s.calls ∧ ¬ Gone s a := by
  rw [sound.leaves, List.mem_filter, decide_eq_true_eq]
  rfl

theorem Sound.begin_free (sound : Sound chain s) (member : n ∈ leavesAfter chain s.calls)
    (unlocked : s.locked n = false) : Free (everLinked chain s.calls) (Gone s) s.pc n :=
  ⟨(sound.mem_leaves.mp member).1, (sound.mem_leaves.mp member).2, (sound.free n unlocked).1,
    (sound.free n unlocked).2⟩

theorem filter_linkSplit {order : List Addr} (distinct : order.Nodup) (member : n ∈ order)
    {p : Addr → Bool} (left : p n = true) (right : p nr = true) :
    ((Call.linkSplit n nr).apply order).filter p = (Call.linkSplit n nr).apply (order.filter p) := by
  obtain ⟨xs, ys, rfl, before, after⟩ := split_at distinct member
  have outside {zs : List Addr} (notIn : n ∉ zs) : n ∉ zs.filter p :=
    fun isIn => notIn (List.mem_filter.mp isIn).1
  rw [apply_linkSplit before after, List.filter_append, List.filter_append,
    List.filter_cons_of_pos left, List.filter_cons_of_pos left, List.filter_cons_of_pos right,
    apply_linkSplit (outside before) (outside after)]

theorem Sound.linkSplit (sound : Sound chain s) (member : n ∈ leavesAfter chain s.calls)
    (unlocked : s.locked n = false) (nonnull : nr ≠ 0) (new : nr ∉ everLinked chain s.calls) :
    Sound chain (((s.setPrev nr n).begin (.linkSplit n nr) n (.linkSplit nr)).setLocked nr true) := by
  have free := sound.begin_free member unlocked
  have inserted : Inserted (everLinked chain s.calls)
      ((Call.linkSplit n nr).apply (everLinked chain s.calls)) n nr :=
    ⟨fun a => mem_linkSplit sound.distinct free.member, pos_new sound.distinct free.member new,
      fun a old => pos_old sound.distinct free.member new old⟩
  have inv := sound.inv.beginSplit free nonnull new inserted
  have gone : Gone (((s.setPrev nr n).begin (.linkSplit n nr) n (.linkSplit nr)).setLocked nr true) =
      Gone s := by
    funext a
    simp [Gone, State.begin, State.setLocked, State.goto, State.setPrev]
  constructor
  case inv =>
    rw [gone]
    change Inv (everLinked chain (s.calls ++ [.linkSplit n nr])) _ _ _
    rw [everLinked_linkSplit]
    exact inv
  case distinct =>
    change (everLinked chain (s.calls ++ [.linkSplit n nr])).Nodup
    rw [everLinked_linkSplit]
    exact nodup_linkSplit sound.distinct free.member new
  case head =>
    change (everLinked chain (s.calls ++ [.linkSplit n nr])).head? = _
    rw [everLinked_linkSplit, head_linkSplit sound.distinct free.member]
    exact sound.head
  case leaves =>
    change leavesAfter chain (s.calls ++ [.linkSplit n nr]) =
      (everLinked chain (s.calls ++ [.linkSplit n nr])).filter
        fun a => Call.unlink a ∉ s.calls ++ [.linkSplit n nr]
    have alive : Call.unlink nr ∉ s.calls := fun isGone => new (sound.inv.known nr isGone).1
    rw [leavesAfter_append, everLinked_linkSplit, sound.leaves]
    simp only [List.mem_append, List.mem_singleton, reduceCtorEq, or_false]
    exact (filter_linkSplit sound.distinct free.member (by simpa [Gone] using free.alive)
      (by simpa using alive)).symm
  case free =>
    intro a open_a
    simp only [State.begin, State.setLocked, State.goto, State.setPrev] at open_a ⊢
    have notNew : a ≠ nr := by
      rintro rfl
      simp at open_a
    have notHere : a ≠ n := by
      rintro rfl
      simp [Function.update_of_ne notNew] at open_a
    rw [Function.update_of_ne notNew, Function.update_of_ne notHere] at open_a
    obtain ⟨idle, linked⟩ := sound.free a open_a
    refine ⟨by rwa [Function.update_of_ne notHere], fun ⟨m, linking⟩ => ?_⟩
    by_cases at_split : m = n
    · rw [at_split, Function.update_self] at linking
      exact notNew (Option.some.inj linking).symm
    · rw [Function.update_of_ne at_split] at linking
      exact linked ⟨m, linking⟩
  case nonnull =>
    intro a next isStoring
    refine sound.nonnull a next ?_
    rwa [← apply_update s.pc (n := n) (f := storing) (p := .load (.linkSplit nr))
      (by rw [free.idle]; rfl) a]

theorem Sound.unlink (sound : Sound chain s) (member : n ∈ leavesAfter chain s.calls)
    (unlocked : s.locked n = false) (notFirst : chain.head? ≠ some n) :
    Sound chain (s.begin (.unlink n) n .unlink) := by
  have free := sound.begin_free member unlocked
  have inside : 0 < pos (everLinked chain s.calls) n := by
    rw [← sound.head] at notFirst
    cases order : everLinked chain s.calls with
    | nil =>
        rw [order] at free
        cases free.member
    | cons a rest =>
        rw [order] at notFirst
        have other : a ≠ n := fun eq => notFirst (by rw [List.head?_cons, eq])
        rw [pos, List.idxOf_cons_ne _ other]
        exact Nat.succ_pos _
  have inv := sound.inv.beginUnlink free inside
  have gone : Gone (s.begin (.unlink n) n .unlink) = fun a => Gone s a ∨ a = n := by
    funext a
    simp [Gone, State.begin, State.setLocked, State.goto]
  constructor
  case inv =>
    rw [gone]
    change Inv (everLinked chain (s.calls ++ [.unlink n])) _ _ _
    rw [everLinked_unlink]
    exact inv
  case distinct =>
    change (everLinked chain (s.calls ++ [.unlink n])).Nodup
    rw [everLinked_unlink]
    exact sound.distinct
  case head =>
    change (everLinked chain (s.calls ++ [.unlink n])).head? = _
    rw [everLinked_unlink]
    exact sound.head
  case leaves =>
    change leavesAfter chain (s.calls ++ [.unlink n]) =
      (everLinked chain (s.calls ++ [.unlink n])).filter
        fun a => Call.unlink a ∉ s.calls ++ [.unlink n]
    rw [leavesAfter_append, everLinked_unlink, sound.leaves, Call.apply, List.filter_filter]
    refine List.filter_congr fun a _ => ?_
    simp [and_comm]
  case free =>
    intro a open_a
    simp only [State.begin, State.setLocked, State.goto] at open_a ⊢
    have notHere : a ≠ n := by
      rintro rfl
      simp at open_a
    rw [Function.update_of_ne notHere] at open_a
    obtain ⟨idle, linked⟩ := sound.free a open_a
    refine ⟨by rwa [Function.update_of_ne notHere], ?_⟩
    rintro ⟨m, linking⟩
    by_cases at_unlink : m = n
    · rw [at_unlink, Function.update_self] at linking
      cases linking
    · rw [Function.update_of_ne at_unlink] at linking
      exact linked ⟨m, linking⟩
  case nonnull =>
    intro a next isStoring
    refine sound.nonnull a next ?_
    rwa [← apply_update s.pc (n := n) (f := storing) (p := .load .unlink)
      (by rw [free.idle]; rfl) a]

theorem withNext_self {links : Addr → Links} {next : Next} (same : (links n).next = next) :
    withNext links n next = links := by
  rw [withNext, ← same]
  exact Function.update_eq_self n links

/-- A step of a call that does not return. -/
theorem Sound.goto (sound : Sound chain s) {links : Addr → Links} {p : Pc} (same : Same (s.pc n) p)
    (inv : Inv (everLinked chain s.calls) (Gone s) links (Function.update s.pc n p))
    (nonnull : ∀ next, storing p = some next → next ≠ 0) :
    Sound chain { s with links := links, pc := Function.update s.pc n p } where
  inv := inv
  distinct := sound.distinct
  head := sound.head
  leaves := sound.leaves
  free a open_a := by
    obtain ⟨idle, linked⟩ := sound.free a open_a
    have other : a ≠ n := fun eq => same.busyBefore (eq ▸ idle)
    change Function.update s.pc n p a = .idle ∧ ¬ Linking (Function.update s.pc n p) a
    rw [Function.update_of_ne other, linking_update same]
    exact ⟨idle, linked⟩
  nonnull a next isStoring := by
    change storing (Function.update s.pc n p a) = some next at isStoring
    by_cases here : a = n
    · rw [here, Function.update_self] at isStoring
      exact nonnull next isStoring
    · rw [Function.update_of_ne here] at isStoring
      exact sound.nonnull a next isStoring

/-- The call on `n` returns. -/
theorem Sound.finish (sound : Sound chain s) {links : Addr → Links} {locked : Addr → Bool}
    (busy : s.pc n ≠ .idle)
    (inv : Inv (everLinked chain s.calls) (Gone s) links (Function.update s.pc n .idle))
    (opened : ∀ a ≠ n, locked a = false → s.locked a = false ∨ Pc.linking (s.pc n) = some a) :
    Sound chain { s with links := links, pc := Function.update s.pc n .idle, locked := locked } where
  inv := inv
  distinct := sound.distinct
  head := sound.head
  leaves := sound.leaves
  free a open_a := by
    have still {m : Addr} (linking : Pc.linking (Function.update s.pc n .idle m) = some a) :
        m ≠ n ∧ Pc.linking (s.pc m) = some a := by
      by_cases here : m = n
      · rw [here, Function.update_self] at linking
        cases linking
      · rw [Function.update_of_ne here] at linking
        exact ⟨here, linking⟩
    by_cases here : a = n
    · subst here
      refine ⟨Function.update_self .., fun ⟨m, linking⟩ => ?_⟩
      exact sound.inv.not_linking busy ⟨m, (still linking).2⟩
    · change Function.update s.pc n .idle a = .idle ∧ ¬ Linking (Function.update s.pc n .idle) a
      rw [Function.update_of_ne here]
      rcases opened a here open_a with free | new
      · obtain ⟨idle, linked⟩ := sound.free a free
        exact ⟨idle, fun ⟨m, linking⟩ => linked ⟨m, (still linking).2⟩⟩
      · refine ⟨(sound.inv.linking n a new).2.2.2.1, fun ⟨m, linking⟩ => ?_⟩
        exact (still linking).1 (sound.inv.split_unique (still linking).2 new)
  nonnull a next isStoring := by
    change storing (Function.update s.pc n .idle a) = some next at isStoring
    by_cases here : a = n
    · rw [here, Function.update_self] at isStoring
      cases isStoring
    · rw [Function.update_of_ne here] at isStoring
      exact sound.nonnull a next isStoring

theorem same_resume {caller : Caller} {next : Addr} {p : Pc}
    (before : p = .load caller ∨ p = .mark next caller) : Same p (caller.resume next) := by
  constructor <;> rcases before with before | before <;> cases caller <;>
    simp [before, Caller.resume, Pc.linking, Pc.unlinking, newLeaf]

theorem Sound.load (sound : Sound chain s) {caller : Caller} (at_n : s.pc n = .load caller)
    (stepped : go s n = some s') : Sound chain s' := by
  simp only [go, at_n] at stepped
  split_ifs at stepped with null marked <;> cases stepped
  · have inv := sound.inv.lock (.inl at_n) null
    rw [withNext_self (show (s.links n).next = lockedLink 0 from null)] at inv
    exact sound.goto (same_resume (.inl at_n)) inv (by cases caller <;> simp [Caller.resume, storing])
  · exact sound
  · have nonnull : (s.links n).next.ptr ≠ 0 := fun zero => null (by
      cases next : (s.links n).next
      simp_all)
    have same : Same (s.pc n) (.mark (s.links n).next.ptr caller) := by
      constructor <;> simp [at_n, Pc.linking, Pc.unlinking]
    refine sound.goto same (sound.inv.goto same ?_ ?_ ?_ ?_ ?_ ?_ ?_ ?_) (by simp [storing])
    all_goals simp [at_n, Pc.early, Pc.blank, Pc.stale, Pc.lockedNext, Pc.taken, Pc.prev]
    exact nonnull

theorem Sound.mark (sound : Sound chain s) {next : Addr} {caller : Caller}
    (at_n : s.pc n = .mark next caller) (stepped : go s n = some s') : Sound chain s' := by
  simp only [go, at_n] at stepped
  split_ifs at stepped with points <;> cases stepped
  · have nonnull := sound.inv.markNext n next caller at_n
    have inv := sound.inv.lock (.inr at_n) points
    rw [lockedLink, decide_eq_true nonnull] at inv
    exact sound.goto (same_resume (.inr at_n)) inv (by cases caller <;> simp [Caller.resume, storing])
  · have same : Same (s.pc n) (.load caller) := by
      constructor <;> simp [at_n, Pc.linking, Pc.unlinking]
    refine sound.goto same (sound.inv.goto same ?_ ?_ ?_ ?_ ?_ ?_ ?_ ?_) (by simp [storing])
    all_goals simp [at_n, Pc.early, Pc.blank, Pc.stale, Pc.lockedNext, Pc.taken, Pc.prev]

theorem Sound.storeNrNext (sound : Sound chain s) {nr next : Addr}
    (at_n : s.pc n = .storeNrNext nr next) (stepped : go s n = some s') : Sound chain s' := by
  simp only [go, at_n] at stepped
  cases stepped
  have inv := sound.inv.storeNrNext at_n
  split_ifs with null
  · have last := inv.storeNextPrev (Function.update_self ..)
    rw [storePrev, if_pos null, Function.update_idem] at last
    exact sound.goto (by constructor <;> simp [at_n, Pc.linking, Pc.unlinking]) last
      (by simp [storing])
  · exact sound.goto (by constructor <;> simp [at_n, Pc.linking, Pc.unlinking]) inv
      (by simpa [storing] using null)

theorem Sound.storeNextPrev (sound : Sound chain s) {nr next : Addr}
    (at_n : s.pc n = .storeNextPrev nr next) (stepped : go s n = some s') : Sound chain s' := by
  have nonnull : next ≠ 0 := sound.nonnull n next (by rw [at_n]; rfl)
  simp only [go, at_n] at stepped
  cases stepped
  have inv := sound.inv.storeNextPrev at_n
  rw [storePrev, if_neg nonnull] at inv
  exact sound.goto (by constructor <;> simp [at_n, Pc.linking, Pc.unlinking]) inv
    (by simp [storing])

theorem Sound.storeNext (sound : Sound chain s) {nr next : Addr}
    (at_n : s.pc n = .storeNext nr next) (stepped : go s n = some s') : Sound chain s' := by
  simp only [go, at_n] at stepped
  cases stepped
  refine sound.finish (by simp [at_n]) (sound.inv.storeNext at_n) fun a other opened => ?_
  by_cases new : a = nr
  · exact .inr (by rw [at_n, new]; rfl)
  · refine .inl ?_
    simpa [State.setLocked, State.finish, State.setNext, State.goto, new, other] using opened

theorem Sound.readPrev (sound : Sound chain s) {next : Addr} (at_n : s.pc n = .readPrev next)
    (stepped : go s n = some s') : Sound chain s' := by
  simp only [go, at_n] at stepped
  cases stepped
  have same : Same (s.pc n) (.swapPrevNext next (s.links n).prev) := by
    constructor <;> simp [at_n, Pc.linking, Pc.unlinking]
  obtain ⟨member, inside⟩ := sound.inv.known n (sound.inv.unlinking n (by rw [at_n]; rfl))
  refine sound.goto same (sound.inv.goto same ?_ ?_ ?_ ?_ ?_ ?_ ?_ ?_) (by simp [storing])
  case refine_8 =>
    rintro prev reads
    cases reads
    exact ⟨sound.inv.prev n member inside, fun m early => (sound.inv.early m _ early).1 n member rfl⟩
  all_goals simp [at_n, Pc.early, Pc.blank, Pc.stale, Pc.lockedNext, Pc.taken]

theorem Sound.swapPrevNext (sound : Sound chain s) {next prev : Addr}
    (at_n : s.pc n = .swapPrevNext next prev) (stepped : go s n = some s') : Sound chain s' := by
  simp only [go, at_n] at stepped
  split_ifs at stepped with points null <;> cases stepped
  · have inv := (sound.inv.swapPrevNext at_n points).unlinkNextPrev (Function.update_self ..)
    rw [storePrev, if_pos null, Function.update_idem] at inv
    exact sound.goto (by constructor <;> simp [at_n, Pc.linking, Pc.unlinking]) inv
      (by simp [storing])
  · exact sound.goto (by constructor <;> simp [at_n, Pc.linking, Pc.unlinking])
      (sound.inv.swapPrevNext at_n points) (by simpa [storing] using null)
  · have same : Same (s.pc n) (.readPrev next) := by
      constructor <;> simp [at_n, Pc.linking, Pc.unlinking]
    refine sound.goto same (sound.inv.goto same ?_ ?_ ?_ ?_ ?_ ?_ ?_ ?_) (by simp [storing])
    all_goals simp [at_n, Pc.early, Pc.blank, Pc.stale, Pc.lockedNext, Pc.taken, Pc.prev]

theorem Sound.unlinkNextPrev (sound : Sound chain s) {next prev : Addr}
    (at_n : s.pc n = .unlinkNextPrev next prev) (stepped : go s n = some s') : Sound chain s' := by
  have nonnull : next ≠ 0 := sound.nonnull n next (by rw [at_n]; rfl)
  simp only [go, at_n] at stepped
  cases stepped
  have inv := sound.inv.unlinkNextPrev at_n
  rw [storePrev, if_neg nonnull] at inv
  exact sound.goto (by constructor <;> simp [at_n, Pc.linking, Pc.unlinking]) inv
    (by simp [storing])

theorem Sound.unlinkPrevNext (sound : Sound chain s) {next prev : Addr}
    (at_n : s.pc n = .unlinkPrevNext next prev) (stepped : go s n = some s') : Sound chain s' := by
  simp only [go, at_n] at stepped
  cases stepped
  refine sound.finish (by simp [at_n]) (sound.inv.unlinkPrevNext at_n) fun a other opened => .inl ?_
  simpa [State.setLocked, State.finish, State.setNext, State.goto, other] using opened

theorem Sound.go (sound : Sound chain s) (stepped : go s n = some s') : Sound chain s' := by
  cases at_n : s.pc n with
  | idle => simp [BtreeLeaflink.go, at_n] at stepped
  | load caller => exact sound.load at_n stepped
  | mark next caller => exact sound.mark at_n stepped
  | storeNrNext nr next => exact sound.storeNrNext at_n stepped
  | storeNextPrev nr next => exact sound.storeNextPrev at_n stepped
  | storeNext nr next => exact sound.storeNext at_n stepped
  | readPrev next => exact sound.readPrev at_n stepped
  | swapPrevNext next prev => exact sound.swapPrevNext at_n stepped
  | unlinkNextPrev next prev => exact sound.unlinkNextPrev at_n stepped
  | unlinkPrevNext next prev => exact sound.unlinkPrevNext at_n stepped

theorem Sound.step (sound : Sound chain s) {l : Label} (stepped : step chain s l = some s') :
    Sound chain s' := by
  match l with
  | .call (.linkSplit n nr) =>
      simp only [BtreeLeaflink.step, Option.ite_none_right_eq_some] at stepped
      obtain ⟨⟨member, unlocked, nonnull, new⟩, stepped⟩ := stepped
      cases stepped
      exact sound.linkSplit member unlocked nonnull new
  | .call (.unlink n) =>
      simp only [BtreeLeaflink.step, Option.ite_none_right_eq_some] at stepped
      obtain ⟨⟨member, unlocked, notFirst⟩, stepped⟩ := stepped
      cases stepped
      exact sound.unlink member unlocked notFirst
  | .go n => exact sound.go stepped

/-- The links of a leaf between two others, and where these stand. -/
theorem start_around (distinct : chain.Nodup) (start : Start chain s) {a : Addr}
    (member : a ∈ chain) :
    ∃ xs ys, chain = xs ++ a :: ys ∧ s.links a = inOrder xs ys ∧ pos chain a = xs.length := by
  obtain ⟨xs, ys, split, notBefore, -⟩ := split_at distinct member
  refine ⟨xs, ys, split, start.linked xs a ys split, ?_⟩
  rw [pos, split, List.idxOf_append_of_notMem notBefore, List.idxOf_cons_self, Nat.add_zero]

theorem start_inv (distinct : chain.Nodup) (null : 0 ∉ chain) (start : Start chain s) :
    Inv chain (fun _ => False) s.links s.pc := by
  have idle := start.pc
  have next {a : Addr} (member : a ∈ chain) (nonnull : (s.links a).next.ptr ≠ 0) :
      (s.links a).next.ptr ∈ chain ∧ pos chain (s.links a).next.ptr = pos chain a + 1 ∧
        (s.links (s.links a).next.ptr).prev = a := by
    obtain ⟨xs, ys, split, links, place⟩ := start_around distinct start member
    cases ys with
    | nil =>
        rw [links] at nonnull
        exact absurd rfl nonnull
    | cons b rest =>
        have ptr : (s.links a).next.ptr = b := by rw [links]; rfl
        have split' : chain = (xs ++ [a]) ++ b :: rest := by simp [split]
        have isIn : b ∈ chain := by simp [split]
        have notBefore : b ∉ xs ++ [a] := by
          rw [split', List.nodup_append] at distinct
          exact fun before => distinct.2.2 b before b (by simp) rfl
        rw [ptr, start.linked _ b rest split']
        refine ⟨isIn, ?_, by simp [inOrder]⟩
        rw [place, pos, split', List.idxOf_append_of_notMem notBefore, List.idxOf_cons_self]
        simp
  constructor
  all_goals try simp only [idle, Pc.linking, Pc.early, Pc.unlinking, Pc.lockedNext, Pc.taken,
    Pc.prev, Dead, reduceCtorEq, false_and, not_false_eq_true, implies_true, IsEmpty.forall_iff,
    ne_eq, not_true_eq_false]
  case null => exact null
  case skip =>
    intro a member _ nonnull
    obtain ⟨isIn, place, -⟩ := next member nonnull
    exact ⟨isIn, by omega⟩
  case hidden =>
    intro a member _ x xMember after upTo
    exfalso
    by_cases last : (s.links a).next.ptr = 0
    · obtain ⟨xs, ys, split, links, place⟩ := start_around distinct start member
      have single : ys = [] := by
        cases ys with
        | nil => rfl
        | cons b rest =>
            rw [links] at last
            have zero : b = 0 := last
            have isIn : b ∈ chain := by simp [split]
            exact absurd (zero ▸ isIn) null
      have bound := List.idxOf_lt_length_of_mem xMember
      rw [split, single, List.length_append, List.length_singleton] at bound
      rw [place] at after
      have same : pos chain x = (xs ++ [a]).idxOf x := by rw [pos, split, single]
      omega
    · have place := (next member last).2.1
      have before := upTo last
      omega
  case marked =>
    intro a member _ mark
    obtain ⟨xs, ys, -, links, -⟩ := start_around distinct start member
    rw [links] at mark
    cases mark
  case first =>
    intro a member front
    obtain ⟨xs, ys, -, links, place⟩ := start_around distinct start member
    obtain rfl : xs = [] := List.eq_nil_of_length_eq_zero (place.symm.trans front)
    rw [links]
    rfl
  case prev =>
    intro a member inside
    obtain ⟨xs, ys, split, links, place⟩ := start_around distinct start member
    have nonempty : xs ≠ [] := fun eq => by simp [eq] at place; omega
    rw [links, split]
    simp only [inOrder, List.getLastD_eq_getLast?, List.getLast?_eq_some_getLast nonempty]
    exact List.mem_append_left _ (List.getLast_mem nonempty)
  case back => exact fun a acts nonnull _ => (next acts.member nonnull).2.2

theorem start_sound (distinct : chain.Nodup) (null : 0 ∉ chain) (start : Start chain s) :
    Sound chain s where
  inv := by
    have gone : Gone s = fun _ => False := by
      funext a
      simp [Gone, start.calls]
    rw [gone, start.calls]
    exact start_inv distinct null start
  distinct := by rwa [start.calls]
  head := by rw [start.calls]; rfl
  leaves := by simp [start.calls, everLinked]
  free a _ := ⟨start.pc a, fun ⟨m, linking⟩ => by simp [start.pc m, Pc.linking] at linking⟩
  nonnull a next isStoring := by simp [start.pc a, storing] at isStoring

theorem sound_of_reachable (distinct : chain.Nodup) (null : 0 ∉ chain)
    (reachable : (machine chain).Reachable Machine.anyStep s) : Sound chain s :=
  reachable.invariant (fun _ start => start_sound distinct null start)
    fun _ _ _ sound _ stepped => sound.step stepped

end Incll.Proof.BtreeLeaflink
