import Incll.Proof.BtreeLeaflink.Invariant

/-! # Each step keeps the invariant -/

namespace Incll.Proof.BtreeLeaflink
open Incll.Lib Incll.Model Incll.Model.BtreeLeaflink
open Incll.Model.Leaflink (Next Links)

variable {order : List Addr} {gone : Addr → Prop} {links : Addr → Links} {pc : Addr → Pc}
  {n : Addr} {p : Pc}

/-- A step that stores nothing and acquires nothing. -/
theorem Inv.goto (inv : Inv order gone links pc) (same : Same (pc n) p)
    (early : Pc.early p = Pc.early (pc n)) (blank : Pc.blank p = Pc.blank (pc n))
    (stale : Pc.stale p = Pc.stale (pc n)) (lockedNext : Pc.lockedNext p = Pc.lockedNext (pc n))
    (notTaken : Pc.taken p = none ∧ Pc.taken (pc n) = none)
    (notFresh : ∀ nr next, p ≠ .storeNextPrev nr next)
    (mark : ∀ next caller, p = .mark next caller → next ≠ 0)
    (read : ∀ prev, Pc.prev p = some prev → prev ∈ order ∧ ∀ m, Pc.early (pc m) ≠ some prev) :
    Inv order gone links (Function.update pc n p) := by
  have linkings := fun m => apply_update pc same.linking m
  have unlinkings := fun m => apply_update pc same.unlinking m
  have earlies := fun m => apply_update pc early m
  have locks := fun m => apply_update pc lockedNext m
  have takens := fun m => apply_update pc (notTaken.1.trans notTaken.2.symm) m
  have ready := ready_update blank
  have acting := fun a => @acting_update order gone pc n _ same early stale a
  have inPlace : ∀ next prev, p ≠ .unlinkPrevNext next prev ∧ pc n ≠ .unlinkPrevNext next prev := by
    grind [Pc.taken]
  constructor
  all_goals
    try simp only [linkings, unlinkings, earlies, locks, takens, dead_update same,
      linking_update same, ready, acting]
  case null => exact inv.null
  case target =>
    have target := inv.target
    have busy := same.busyBefore
    grind
  case known => exact inv.known
  case unlinking => exact inv.unlinking
  case linking =>
    intro m nr linking
    obtain ⟨member, alive, split, idle, back⟩ := inv.linking m nr linking
    have other : nr ≠ n := fun eq => same.busyBefore (eq ▸ idle)
    exact ⟨member, alive, split, by rwa [Function.update_of_ne other], back⟩
  case behind => exact inv.behind
  case skip => exact inv.skip
  case hidden => exact inv.hidden
  case unreached => exact inv.unreached
  case markNext =>
    have marks := inv.markNext
    grind
  case locked => exact inv.locked
  case taken => exact inv.taken
  case marked => exact inv.marked
  case dead => exact inv.dead
  case fresh =>
    have fresh := inv.fresh
    grind
  case first => exact inv.first
  case prev => exact inv.prev
  case read =>
    have reads := inv.read
    grind
  case early =>
    intro m nr new
    obtain ⟨links, reads⟩ := inv.early m nr new
    refine ⟨links, fun u => ?_⟩
    have known := read nr
    grind
  case back =>
    have back := inv.back
    grind
  case moved =>
    have moved := inv.moved
    grind
  case alive => exact inv.alive

theorem ptr_withNext {next : Next} (same : next.ptr = (links n).next.ptr) (a : Addr) :
    (withNext links n next a).next.ptr = (links a).next.ptr := by
  rw [withNext_next]
  split_ifs with here
  · rw [here, same]
  · rfl

/-- `lock_next` returns. -/
theorem Inv.lock (inv : Inv order gone links pc) {next : Addr} {caller : Caller}
    (at_n : pc n = .load caller ∨ pc n = .mark next caller)
    (before : (links n).next = ⟨next, false⟩) :
    Inv order gone (withNext links n (lockedLink next))
      (Function.update pc n (caller.resume next)) := by
  have same : Same (pc n) (caller.resume next) := by
    constructor <;> rcases at_n with at_n | at_n <;> cases caller <;>
      simp [at_n, Caller.resume, Pc.linking, Pc.unlinking, newLeaf]
  have early : Pc.early (caller.resume next) = Pc.early (pc n) := by
    rcases at_n with at_n | at_n <;> cases caller <;> simp [at_n, Caller.resume, Pc.early, newLeaf]
  have blank : Pc.blank (caller.resume next) = Pc.blank (pc n) := by
    rcases at_n with at_n | at_n <;> cases caller <;> simp [at_n, Caller.resume, Pc.blank, newLeaf]
  have stale : Pc.stale (caller.resume next) = Pc.stale (pc n) := by
    rcases at_n with at_n | at_n <;> cases caller <;> simp [at_n, Caller.resume, Pc.stale]
  have notTaken : Pc.taken (caller.resume next) = Pc.taken (pc n) := by
    rcases at_n with at_n | at_n <;> cases caller <;> simp [at_n, Caller.resume, Pc.taken]
  have read : Pc.prev (caller.resume next) = Pc.prev (pc n) := by
    rcases at_n with at_n | at_n <;> cases caller <;> simp [at_n, Caller.resume, Pc.prev]
  have locks : Pc.lockedNext (caller.resume next) = some next := by
    cases caller <;> rfl
  have unlocked : Pc.lockedNext (pc n) = none := by
    rcases at_n with at_n | at_n <;> rw [at_n] <;> rfl
  have shape : (∀ next' prev, caller.resume next ≠ .unlinkPrevNext next' prev) ∧
      (∀ nr next', caller.resume next ≠ .storeNextPrev nr next') ∧
      (∀ next' caller', caller.resume next ≠ .mark next' caller') := by
    cases caller <;> simp [Caller.resume]
  have linkings := fun m => apply_update pc same.linking m
  have unlinkings := fun m => apply_update pc same.unlinking m
  have earlies := fun m => apply_update pc early m
  have takens := fun m => apply_update pc notTaken m
  have reads := fun m => apply_update pc read m
  have ready := ready_update blank
  have acting := fun a => @acting_update order gone pc n _ same early stale a
  have ptr : ∀ a, (withNext links n (lockedLink next) a).next.ptr = (links a).next.ptr :=
    ptr_withNext (by rw [before]; rfl)
  constructor
  all_goals
    try simp only [linkings, unlinkings, earlies, takens, reads, dead_update same,
      linking_update same, ready, acting, ptr, withNext_prev]
  case null => exact inv.null
  case target =>
    have target := inv.target
    have busy := same.busyBefore
    grind
  case known => exact inv.known
  case unlinking => exact inv.unlinking
  case linking =>
    intro m nr linking
    obtain ⟨member, alive, split, idle, back⟩ := inv.linking m nr linking
    have other : nr ≠ n := fun eq => same.busyBefore (eq ▸ idle)
    exact ⟨member, alive, split, by rwa [Function.update_of_ne other], back⟩
  case behind => exact inv.behind
  case skip => exact inv.skip
  case hidden => exact inv.hidden
  case unreached => exact inv.unreached
  case markNext =>
    have marks := inv.markNext
    grind
  case locked =>
    have locked := inv.locked
    grind [withNext_next]
  case taken =>
    intro m prev taken
    obtain ⟨points, free, acting⟩ := inv.taken m prev taken
    have other : prev ≠ n := by
      rintro rfl
      rw [before] at points
      cases points
    rw [withNext_next, if_neg other, Function.update_of_ne other]
    exact ⟨points, free, acting⟩
  case marked =>
    intro a member known mark
    by_cases here : a = n
    · rw [here, Function.update_self, locks]
      simp
    · rw [withNext_next, if_neg here] at mark
      rw [Function.update_of_ne here]
      exact inv.marked a member known mark
  case dead =>
    intro a dead
    have other : a ≠ n := by
      rintro rfl
      exact same.busyBefore dead.2
    rw [withNext_next, if_neg other]
    exact inv.dead a dead
  case fresh =>
    intro m nr next' at_m
    have other : m ≠ n := by
      rintro rfl
      rw [Function.update_self] at at_m
      exact shape.2.1 _ _ at_m
    rw [Function.update_of_ne other] at at_m
    have points := inv.fresh m nr next' at_m
    have notNew : nr ≠ n := by
      rintro rfl
      exact inv.not_linking same.busyBefore ⟨m, by rw [at_m]; rfl⟩
    rwa [withNext_next, if_neg notNew]
  case first => exact inv.first
  case prev => exact inv.prev
  case read => exact inv.read
  case early => exact inv.early
  case back =>
    have back := inv.back
    have unlinked : ∀ next' prev, pc n ≠ .unlinkPrevNext next' prev := by grind
    grind
  case moved =>
    have moved := inv.moved
    grind
  case alive => exact inv.alive

/-- The store to `nr->next_`. -/
theorem Inv.storeNrNext (inv : Inv order gone links pc) {nr next : Addr}
    (at_n : pc n = .storeNrNext nr next) :
    Inv order gone (withNext links nr ⟨next, false⟩)
      (Function.update pc n (.storeNextPrev nr next)) := by
  have same : Same (pc n) (.storeNextPrev nr next) := by constructor <;> simp [at_n] <;> rfl
  have early : Pc.early (.storeNextPrev nr next) = Pc.early (pc n) := by rw [at_n]; rfl
  have stale : Pc.stale (.storeNextPrev nr next) = Pc.stale (pc n) := by rw [at_n]; rfl
  have locks : Pc.lockedNext (.storeNextPrev nr next) = Pc.lockedNext (pc n) := by rw [at_n]; rfl
  have notTaken : Pc.taken (.storeNextPrev nr next) = Pc.taken (pc n) := by rw [at_n]; rfl
  have read : Pc.prev (.storeNextPrev nr next) = Pc.prev (pc n) := by rw [at_n]; rfl
  have linkings := fun m => apply_update pc same.linking m
  have unlinkings := fun m => apply_update pc same.unlinking m
  have earlies := fun m => apply_update pc early m
  have lockeds := fun m => apply_update pc locks m
  have takens := fun m => apply_update pc notTaken m
  have reads := fun m => apply_update pc read m
  have acting := fun a => @acting_update order gone pc n _ same early stale a
  have linking : Pc.linking (pc n) = some nr := by rw [at_n]; rfl
  have first : Pc.early (pc n) = some nr := by rw [at_n]; rfl
  obtain ⟨newMember, newAlive, -, newIdle, -⟩ := inv.linking n nr linking
  obtain ⟨split, next_to⟩ := inv.behind n nr linking
  have here := inv.acting_busy same.busyBefore (by rw [at_n]; rfl)
  have points : (links n).next = lockedLink next := inv.locked n next (by rw [at_n]; rfl)
  have ptr : (links n).next.ptr = next := by rw [points]; rfl
  have ready (a : Addr) (known : Ready (Function.update pc n (.storeNextPrev nr next)) a) :
      a = nr ∨ a ≠ nr ∧ Ready pc a := by
    by_cases new : a = nr
    · exact .inl new
    · refine .inr ⟨new, fun m blank => ?_⟩
      by_cases at_split : m = n
      · rw [at_split, at_n] at blank
        exact new (Option.some.inj blank).symm
      · exact known m (by rwa [Function.update_of_ne at_split])
  constructor
  all_goals
    try simp only [linkings, unlinkings, earlies, lockeds, takens, reads, dead_update same,
      linking_update same, acting, withNext_prev]
  case null => exact inv.null
  case target =>
    have target := inv.target
    have busy := same.busyBefore
    grind
  case known => exact inv.known
  case unlinking => exact inv.unlinking
  case linking =>
    intro m nr' linking
    obtain ⟨member, alive, split, idle, back⟩ := inv.linking m nr' linking
    have other : nr' ≠ n := fun eq => same.busyBefore (eq ▸ idle)
    exact ⟨member, alive, split, by rwa [Function.update_of_ne other], back⟩
  case behind => exact inv.behind
  case skip =>
    intro a member known nonnull
    rw [withNext_next] at nonnull ⊢
    obtain rfl | ⟨other, known⟩ := ready a known
    · simp only [if_true] at nonnull ⊢
      obtain ⟨nextMember, onward⟩ := inv.skip n here.member here.ready (ptr ▸ nonnull)
      rw [ptr] at nextMember onward
      refine ⟨nextMember, lt_of_le_of_ne (next_to next nextMember onward) fun eq => ?_⟩
      exact inv.unreached n a linking n here.member here.ready (ptr.trans (pos_inj newMember eq).symm)
    · rw [if_neg other] at nonnull ⊢
      exact inv.skip a member known nonnull
  case hidden =>
    intro a member known x xMember after upTo
    rw [withNext_next] at upTo
    obtain rfl | ⟨other, known⟩ := ready a known
    · simp only [if_true] at upTo
      exact inv.hidden n here.member here.ready x xMember (split.trans after) (ptr.symm ▸ upTo)
    · rw [if_neg other] at upTo
      exact inv.hidden a member known x xMember after upTo
  case unreached =>
    intro m nr' linking' a member known
    rw [withNext_next]
    obtain rfl | ⟨other, known⟩ := ready a known
    · simp only [if_true]
      exact ptr ▸ inv.unreached m nr' linking' n here.member here.ready
    · rw [if_neg other]
      exact inv.unreached m nr' linking' a member known
  case markNext =>
    have marks := inv.markNext
    grind
  case locked =>
    intro m next' locked
    have other : m ≠ nr := by
      rintro rfl
      rw [newIdle] at locked
      cases locked
    rw [withNext_next, if_neg other]
    exact inv.locked m next' locked
  case taken =>
    intro m prev taken
    obtain ⟨points, free, acting⟩ := inv.taken m prev taken
    have other : prev ≠ nr := fun eq => acting.reached n (eq ▸ first)
    rw [withNext_next, if_neg other]
    exact ⟨points, free, acting⟩
  case marked =>
    intro a member known mark
    rw [withNext_next] at mark
    obtain rfl | ⟨other, known⟩ := ready a known
    · simp at mark
    · rw [if_neg other] at mark
      exact inv.marked a member known mark
  case dead =>
    intro a dead
    have other : a ≠ nr := fun eq => newAlive (eq ▸ dead.1)
    rw [withNext_next, if_neg other]
    exact inv.dead a dead
  case fresh =>
    intro m nr' next' at_m
    by_cases at_split : m = n
    · rw [at_split, Function.update_self] at at_m
      cases at_m
      rw [withNext_next, if_pos rfl]
    · rw [Function.update_of_ne at_split] at at_m
      have other : nr' ≠ nr := fun eq =>
        at_split (inv.split_unique (by rw [at_m, ← eq]; rfl) linking)
      rw [withNext_next, if_neg other]
      exact inv.fresh m nr' next' at_m
  case first => exact inv.first
  case prev => exact inv.prev
  case read => exact inv.read
  case early => exact inv.early
  case back =>
    intro a acting
    have other : a ≠ nr := fun eq => acting.reached n (eq ▸ first)
    rw [withNext_next, if_neg other]
    have back := inv.back a acting
    grind
  case moved =>
    have moved := inv.moved
    grind
  case alive =>
    intro a acting
    have other : a ≠ nr := fun eq => acting.reached n (eq ▸ first)
    rw [withNext_next, if_neg other]
    exact inv.alive a acting

/-- The store to `prev_` of the leaf behind the new one. -/
theorem Inv.storeNextPrev (inv : Inv order gone links pc) {nr next : Addr}
    (at_n : pc n = .storeNextPrev nr next) :
    Inv order gone (storePrev links next nr) (Function.update pc n (.storeNext nr next)) := by
  have same : Same (pc n) (.storeNext nr next) := by constructor <;> simp [at_n] <;> rfl
  have blank : Pc.blank (.storeNext nr next) = Pc.blank (pc n) := by rw [at_n]; rfl
  have locks : Pc.lockedNext (.storeNext nr next) = Pc.lockedNext (pc n) := by rw [at_n]; rfl
  have notTaken : Pc.taken (.storeNext nr next) = Pc.taken (pc n) := by rw [at_n]; rfl
  have read : Pc.prev (.storeNext nr next) = Pc.prev (pc n) := by rw [at_n]; rfl
  have linkings := fun m => apply_update pc same.linking m
  have unlinkings := fun m => apply_update pc same.unlinking m
  have lockeds := fun m => apply_update pc locks m
  have takens := fun m => apply_update pc notTaken m
  have reads := fun m => apply_update pc read m
  have ready := ready_update blank
  have linking : Pc.linking (pc n) = some nr := by rw [at_n]; rfl
  have early (m : Addr) {nr' : Addr}
      (early : Pc.early (Function.update pc n (.storeNext nr next) m) = some nr') :
      nr' ≠ nr ∧ Pc.early (pc m) = some nr' := by
    by_cases at_split : m = n
    · rw [at_split, Function.update_self] at early
      cases early
    · rw [Function.update_of_ne at_split] at early
      refine ⟨fun eq => at_split ?_, early⟩
      exact inv.split_unique (linking_of_early (eq ▸ early)) linking
  obtain ⟨newMember, newAlive, -, newIdle, -⟩ := inv.linking n nr linking
  have here := inv.acting_busy same.busyBefore (by rw [at_n]; rfl)
  have points : (links n).next = lockedLink next := inv.locked n next (by rw [at_n]; rfl)
  have ptr : (links n).next.ptr = next := by rw [points]; rfl
  have newPoints := inv.fresh n nr next at_n
  have acting (a : Addr) (acts : Acting gone (Function.update pc n (.storeNext nr next)) order a) :
      a = nr ∨ a ≠ n ∧ Acting gone pc order a := by
    by_cases new : a = nr
    · exact .inl new
    · have other : a ≠ n := by
        rintro rfl
        have current := acts.current
        rw [Function.update_self] at current
        cases current
      refine .inr ⟨other, acts.member, fun dead => acts.alive ((dead_update same a).mpr dead), ?_,
        fun m reached => ?_⟩
      · have current := acts.current
        rwa [Function.update_of_ne other] at current
      · by_cases at_split : m = n
        · rw [at_split, at_n] at reached
          exact new (Option.some.inj reached).symm
        · exact acts.reached m (by rwa [Function.update_of_ne at_split])
  constructor
  all_goals
    try simp only [linkings, unlinkings, lockeds, takens, reads, dead_update same,
      linking_update same, ready, storePrev_next]
  case null => exact inv.null
  case target =>
    have target := inv.target
    have busy := same.busyBefore
    grind
  case known => exact inv.known
  case unlinking => exact inv.unlinking
  case linking =>
    intro m nr' linking'
    obtain ⟨member, alive, split, idle, back⟩ := inv.linking m nr' linking'
    have other : nr' ≠ n := fun eq => same.busyBefore (eq ▸ idle)
    have notNext : nr' ≠ next := fun eq =>
      inv.unreached m nr' linking' n here.member here.ready (ptr.trans eq.symm)
    refine ⟨member, alive, split, by rwa [Function.update_of_ne other], ?_⟩
    rwa [storePrev_prev, if_neg fun isNext => notNext isNext.2]
  case behind => exact inv.behind
  case skip => exact inv.skip
  case hidden => exact inv.hidden
  case unreached => exact inv.unreached
  case markNext =>
    have marks := inv.markNext
    grind
  case locked => exact inv.locked
  case taken =>
    intro m prev taken
    obtain ⟨points, free, acts⟩ := inv.taken m prev taken
    have other : prev ≠ n := by
      rintro rfl
      rw [at_n] at free
      cases free
    refine ⟨points, free, acts.member, fun dead => acts.alive ((dead_update same prev).mp dead), ?_,
      fun u reached => acts.reached u (early u reached).2⟩
    rw [Function.update_of_ne other]
    exact acts.current
  case marked => exact inv.marked
  case dead => exact inv.dead
  case fresh =>
    have fresh := inv.fresh
    grind
  case first =>
    intro a member front
    rw [storePrev_prev, if_neg ?_]
    · exact inv.first a member front
    · rintro ⟨nonnull, rfl⟩
      have onward := (inv.skip n here.member here.ready (ptr ▸ nonnull)).2
      rw [ptr] at onward
      omega
  case prev =>
    intro a member inside
    rw [storePrev_prev]
    split_ifs
    · exact newMember
    · exact inv.prev a member inside
  case read => exact inv.read
  case early =>
    intro m nr' reached
    obtain ⟨other, reached⟩ := early m reached
    obtain ⟨links, reads⟩ := inv.early m nr' reached
    refine ⟨fun a member => ?_, reads⟩
    rw [storePrev_prev]
    split_ifs
    · exact other.symm
    · exact links a member
  case back =>
    intro a acts nonnull notMoved
    obtain rfl | ⟨other, acts⟩ := acting a acts
    · rw [storePrev_prev, newPoints]
      rw [newPoints] at nonnull
      rw [if_pos ⟨nonnull, rfl⟩]
    · have notNext : (links a).next.ptr ≠ next := fun eq =>
        other (inv.unique acts here nonnull (eq.trans ptr.symm))
      rw [storePrev_prev, if_neg fun isNext => notNext isNext.2]
      rw [Function.update_of_ne other] at notMoved
      exact inv.back a acts nonnull notMoved
  case moved =>
    intro m next' prev at_m nonnull
    have other : m ≠ n := by
      rintro rfl
      rw [Function.update_self] at at_m
      cases at_m
    rw [Function.update_of_ne other] at at_m
    have acts := inv.acting_busy (n := m) (by simp [at_m]) (by rw [at_m]; rfl)
    have ptr' : (links m).next.ptr = next' := by
      rw [inv.locked m next' (by rw [at_m]; rfl)]
      rfl
    have notNext : next' ≠ next := fun eq =>
      other (inv.unique acts here (ptr' ▸ nonnull) (ptr'.trans (eq.trans ptr.symm)))
    rw [storePrev_prev, if_neg fun isNext => notNext isNext.2]
    exact inv.moved m next' prev at_m nonnull
  case alive =>
    intro a acts nonnull
    obtain rfl | ⟨-, acts⟩ := acting a acts
    · rw [newPoints] at nonnull ⊢
      have alive := inv.alive n here (ptr ▸ nonnull)
      rwa [ptr] at alive
    · exact inv.alive a acts nonnull

/-- The new leaf is linked. -/
theorem Inv.storeNext (inv : Inv order gone links pc) {nr next : Addr}
    (at_n : pc n = .storeNext nr next) :
    Inv order gone (withNext links n ⟨nr, false⟩) (Function.update pc n .idle) := by
  have busy : pc n ≠ .idle := by simp [at_n]
  have linking : Pc.linking (pc n) = some nr := by rw [at_n]; rfl
  obtain ⟨newMember, newAlive, alive, newIdle, newBack⟩ := inv.linking n nr linking
  obtain ⟨split, next_to⟩ := inv.behind n nr linking
  have member := inv.target n busy
  have unlinkings := fun m => apply_update pc (n := n) (f := Pc.unlinking) (p := .idle) (by rw [at_n]; rfl) m
  have earlies := fun m => apply_update pc (n := n) (f := Pc.early) (p := .idle) (by rw [at_n]; rfl) m
  have takens := fun m => apply_update pc (n := n) (f := Pc.taken) (p := .idle) (by rw [at_n]; rfl) m
  have reads := fun m => apply_update pc (n := n) (f := Pc.prev) (p := .idle) (by rw [at_n]; rfl) m
  have ready := fun a => @ready_update pc n .idle (by rw [at_n]; rfl) a
  have dead (a : Addr) : Dead gone (Function.update pc n .idle) a ↔ Dead gone pc a := by
    by_cases here : a = n
    · subst here
      simp [Dead, alive]
    · simp [Dead, here]
  have still (m : Addr) {nr' : Addr}
      (linking' : Pc.linking (Function.update pc n .idle m) = some nr') :
      m ≠ n ∧ Pc.linking (pc m) = some nr' := by
    by_cases at_split : m = n
    · rw [at_split, Function.update_self] at linking'
      cases linking'
    · rw [Function.update_of_ne at_split] at linking'
      exact ⟨at_split, linking'⟩
  have other (m : Addr) {q : Pc} (at_m : Function.update pc n .idle m = q) (working : q ≠ .idle) :
      m ≠ n ∧ pc m = q := by
    by_cases at_split : m = n
    · rw [at_split, Function.update_self] at at_m
      exact absurd at_m.symm working
    · rw [Function.update_of_ne at_split] at at_m
      exact ⟨at_split, at_m⟩
  have acting (a : Addr) (notHere : a ≠ n)
      (acts : Acting gone (Function.update pc n .idle) order a) : Acting gone pc order a := by
    refine ⟨acts.member, fun gone => acts.alive ((dead a).mpr gone), ?_, fun m => ?_⟩
    · have current := acts.current
      rwa [Function.update_of_ne notHere] at current
    · have reached := acts.reached m
      rwa [earlies] at reached
  constructor
  all_goals
    try simp only [unlinkings, earlies, takens, reads, ready, dead, withNext_prev]
  case null => exact inv.null
  case target =>
    have target := inv.target
    grind
  case known => exact inv.known
  case unlinking => exact inv.unlinking
  case linking =>
    intro m nr' linking'
    obtain ⟨member, alive, split, idle, back⟩ := inv.linking m nr' (still m linking').2
    have notHere : nr' ≠ n := fun eq => busy (eq ▸ idle)
    exact ⟨member, alive, split, by rwa [Function.update_of_ne notHere], back⟩
  case behind => exact fun m nr' linking' => inv.behind m nr' (still m linking').2
  case skip =>
    intro a member known nonnull
    rw [withNext_next] at nonnull ⊢
    split_ifs at nonnull ⊢ with here
    · rw [here]
      exact ⟨newMember, split⟩
    · exact inv.skip a member known nonnull
  case hidden =>
    intro a aMember known x xMember after upTo
    rw [withNext_next] at upTo
    split_ifs at upTo with here
    · rw [here] at after
      have before := upTo fun null => inv.null (null ▸ newMember)
      have between := next_to x xMember after
      simp only at before
      omega
    · refine (inv.hidden a aMember known x xMember after upTo).imp_right ?_
      rintro ⟨m, linking'⟩
      have differ : m ≠ n := by
        rintro rfl
        obtain rfl : nr = x := Option.some.inj (linking.symm.trans linking')
        exact here (inv.only_split linking aMember known after upTo)
      exact ⟨m, by rwa [Function.update_of_ne differ]⟩
  case unreached =>
    intro m nr' linking' a aMember known
    obtain ⟨differ, linking'⟩ := still m linking'
    rw [withNext_next]
    split_ifs with here
    · rintro rfl
      exact differ (inv.split_unique linking' linking)
    · exact inv.unreached m nr' linking' a aMember known
  case markNext =>
    intro m next' caller at_m
    exact inv.markNext m next' caller (other m at_m (by simp)).2
  case locked =>
    intro m next' locked
    have notHere : m ≠ n := by
      rintro rfl
      rw [Function.update_self] at locked
      cases locked
    rw [Function.update_of_ne notHere] at locked
    rw [withNext_next, if_neg notHere]
    exact inv.locked m next' locked
  case taken =>
    intro m prev taken
    obtain ⟨points, free, acts⟩ := inv.taken m prev taken
    have notHere : prev ≠ n := by
      rintro rfl
      rw [at_n] at free
      cases free
    rw [withNext_next, if_neg notHere, Function.update_of_ne notHere]
    refine ⟨points, free, acts.member, fun gone => acts.alive ((dead prev).mp gone), ?_, ?_⟩
    · rw [Function.update_of_ne notHere]
      exact acts.current
    · simpa only [earlies] using acts.reached
  case marked =>
    intro a aMember known mark
    rw [withNext_next] at mark
    split_ifs at mark with here
    rw [Function.update_of_ne here]
    exact inv.marked a aMember known mark
  case dead =>
    intro a gone
    have notHere : a ≠ n := fun eq => alive (eq ▸ gone.1)
    rw [withNext_next, if_neg notHere]
    exact inv.dead a gone
  case fresh =>
    intro m nr' next' at_m
    obtain ⟨-, storing⟩ := other m at_m (by simp)
    have notHere : nr' ≠ n := by
      rintro rfl
      exact inv.not_linking busy ⟨m, by rw [storing]; rfl⟩
    rw [withNext_next, if_neg notHere]
    exact inv.fresh m nr' next' storing
  case first => exact inv.first
  case prev => exact inv.prev
  case read => exact inv.read
  case early => exact inv.early
  case back =>
    intro a acts nonnull notMoved
    rw [withNext_next] at nonnull ⊢
    split_ifs at nonnull ⊢ with here
    · rw [here]
      exact newBack
    · rw [Function.update_of_ne here] at notMoved
      exact inv.back a (acting a here acts) nonnull notMoved
  case moved =>
    intro m next' prev at_m
    exact inv.moved m next' prev (other m at_m (by simp)).2
  case alive =>
    intro a acts nonnull
    rw [withNext_next] at nonnull ⊢
    split_ifs at nonnull ⊢ with here
    · exact fun gone => newAlive gone.1
    · exact inv.alive a (acting a here acts) nonnull

theorem ne_zero (inv : Inv order gone links pc) {a : Addr} (member : a ∈ order) : a ≠ 0 :=
  fun null => inv.null (null ▸ member)

/-- The exchange in `unlink`. -/
theorem Inv.swapPrevNext (inv : Inv order gone links pc) {next prev : Addr}
    (at_n : pc n = .swapPrevNext next prev) (before : (links prev).next = ⟨n, false⟩) :
    Inv order gone (withNext links prev ⟨n, true⟩)
      (Function.update pc n (.unlinkNextPrev next prev)) := by
  have same : Same (pc n) (.unlinkNextPrev next prev) := by constructor <;> simp [at_n] <;> rfl
  have early : Pc.early (.unlinkNextPrev next prev) = Pc.early (pc n) := by rw [at_n]; rfl
  have blank : Pc.blank (.unlinkNextPrev next prev) = Pc.blank (pc n) := by rw [at_n]; rfl
  have stale : Pc.stale (.unlinkNextPrev next prev) = Pc.stale (pc n) := by rw [at_n]; rfl
  have locks : Pc.lockedNext (.unlinkNextPrev next prev) = Pc.lockedNext (pc n) := by
    rw [at_n]; rfl
  have read : Pc.prev (.unlinkNextPrev next prev) = Pc.prev (pc n) := by rw [at_n]; rfl
  have linkings := fun m => apply_update pc same.linking m
  have unlinkings := fun m => apply_update pc same.unlinking m
  have earlies := fun m => apply_update pc early m
  have lockeds := fun m => apply_update pc locks m
  have reads := fun m => apply_update pc read m
  have ready := ready_update blank
  have acting := fun a => @acting_update order gone pc n _ same early stale a
  have ptr : ∀ a, (withNext links prev ⟨n, true⟩ a).next.ptr = (links a).next.ptr :=
    ptr_withNext (by rw [before])
  have reading : Pc.prev (pc n) = some prev := by rw [at_n]; rfl
  have unmarked (next' : Addr) : (links prev).next ≠ lockedLink next' := by
    rw [before]
    intro eq
    simp only [lockedLink, Next.mk.injEq] at eq
    obtain ⟨rfl, mark⟩ := eq
    exact ne_zero inv (inv.target n same.busyBefore) (by simpa using mark.symm)
  have free : Pc.lockedNext (pc prev) = none :=
    Option.eq_none_iff_forall_ne_some.mpr fun next' locked => unmarked next' (inv.locked prev next' locked)
  have notEarly (m : Addr) : Pc.early (pc m) ≠ some prev :=
    fun reached => (inv.early m prev reached).2 n reading
  have acts : Acting gone pc order prev := by
    refine ⟨inv.read n prev reading, fun dead => unmarked _ (inv.dead prev dead), ?_, notEarly⟩
    cases at_prev : pc prev <;> simp_all [Pc.stale, Pc.lockedNext]
  constructor
  all_goals
    try simp only [linkings, unlinkings, earlies, lockeds, reads, dead_update same,
      linking_update same, ready, acting, ptr, withNext_prev]
  case null => exact inv.null
  case target =>
    have target := inv.target
    have busy := same.busyBefore
    grind
  case known => exact inv.known
  case unlinking => exact inv.unlinking
  case linking =>
    intro m nr linking
    obtain ⟨member, alive, split, idle, back⟩ := inv.linking m nr linking
    have other : nr ≠ n := fun eq => same.busyBefore (eq ▸ idle)
    exact ⟨member, alive, split, by rwa [Function.update_of_ne other], back⟩
  case behind => exact inv.behind
  case skip => exact inv.skip
  case hidden => exact inv.hidden
  case unreached => exact inv.unreached
  case markNext =>
    have marks := inv.markNext
    grind
  case locked =>
    intro m next' locked
    have other : m ≠ prev := by
      rintro rfl
      rw [free] at locked
      cases locked
    rw [withNext_next, if_neg other]
    exact inv.locked m next' locked
  case taken =>
    intro m prev' taken
    by_cases at_unlink : m = n
    · rw [at_unlink, Function.update_self] at taken
      cases taken
      rw [withNext_next, if_pos rfl, at_unlink]
      exact ⟨rfl, free, acts⟩
    · rw [Function.update_of_ne at_unlink] at taken
      obtain ⟨points, free, acts⟩ := inv.taken m prev' taken
      have other : prev' ≠ prev := by
        rintro rfl
        rw [before] at points
        cases points
      rw [withNext_next, if_neg other]
      exact ⟨points, free, acts⟩
  case marked =>
    intro a member known mark
    rw [withNext_next] at mark
    split_ifs at mark with here
    · exact .inr (.inr ⟨n, by rw [Function.update_self, here]; rfl⟩)
    · refine (inv.marked a member known mark).imp_right fun owner => owner.imp_right ?_
      rintro ⟨m, taken⟩
      have other : m ≠ n := by
        rintro rfl
        rw [at_n] at taken
        cases taken
      exact ⟨m, by rwa [Function.update_of_ne other]⟩
  case dead =>
    intro a dead
    have other : a ≠ prev := fun eq => acts.alive (eq ▸ dead)
    rw [withNext_next, if_neg other]
    exact inv.dead a dead
  case fresh =>
    intro m nr next' at_m
    have working : m ≠ n := by
      rintro rfl
      rw [Function.update_self] at at_m
      cases at_m
    rw [Function.update_of_ne working] at at_m
    have other : nr ≠ prev := fun eq => notEarly m (by rw [at_m, ← eq]; rfl)
    rw [withNext_next, if_neg other]
    exact inv.fresh m nr next' at_m
  case first => exact inv.first
  case prev => exact inv.prev
  case read => exact inv.read
  case early => exact inv.early
  case back =>
    have back := inv.back
    grind
  case moved =>
    have moved := inv.moved
    grind
  case alive => exact inv.alive

/-- The store to `prev_` of the leaf behind the unlinked one. -/
theorem Inv.unlinkNextPrev (inv : Inv order gone links pc) {next prev : Addr}
    (at_n : pc n = .unlinkNextPrev next prev) :
    Inv order gone (storePrev links next prev)
      (Function.update pc n (.unlinkPrevNext next prev)) := by
  have same : Same (pc n) (.unlinkPrevNext next prev) := by constructor <;> simp [at_n] <;> rfl
  have early : Pc.early (.unlinkPrevNext next prev) = Pc.early (pc n) := by rw [at_n]; rfl
  have blank : Pc.blank (.unlinkPrevNext next prev) = Pc.blank (pc n) := by rw [at_n]; rfl
  have stale : Pc.stale (.unlinkPrevNext next prev) = Pc.stale (pc n) := by rw [at_n]; rfl
  have locks : Pc.lockedNext (.unlinkPrevNext next prev) = Pc.lockedNext (pc n) := by
    rw [at_n]; rfl
  have stillTaken : Pc.taken (.unlinkPrevNext next prev) = Pc.taken (pc n) := by rw [at_n]; rfl
  have read : Pc.prev (.unlinkPrevNext next prev) = Pc.prev (pc n) := by rw [at_n]; rfl
  have linkings := fun m => apply_update pc same.linking m
  have unlinkings := fun m => apply_update pc same.unlinking m
  have earlies := fun m => apply_update pc early m
  have lockeds := fun m => apply_update pc locks m
  have takens := fun m => apply_update pc stillTaken m
  have reads := fun m => apply_update pc read m
  have ready := ready_update blank
  have acting := fun a => @acting_update order gone pc n _ same early stale a
  have here := inv.acting_busy same.busyBefore (by rw [at_n]; rfl)
  have ptr : (links n).next.ptr = next := by
    rw [inv.locked n next (by rw [at_n]; rfl)]
    rfl
  have reading : Pc.prev (pc n) = some prev := by rw [at_n]; rfl
  constructor
  all_goals
    try simp only [linkings, unlinkings, earlies, lockeds, takens, reads, dead_update same,
      linking_update same, ready, acting, storePrev_next]
  case null => exact inv.null
  case target =>
    have target := inv.target
    have busy := same.busyBefore
    grind
  case known => exact inv.known
  case unlinking => exact inv.unlinking
  case linking =>
    intro m nr linking
    obtain ⟨member, alive, split, idle, back⟩ := inv.linking m nr linking
    have other : nr ≠ n := fun eq => same.busyBefore (eq ▸ idle)
    have notNext : nr ≠ next := fun eq =>
      inv.unreached m nr linking n here.member here.ready (ptr.trans eq.symm)
    refine ⟨member, alive, split, by rwa [Function.update_of_ne other], ?_⟩
    rwa [storePrev_prev, if_neg fun isNext => notNext isNext.2]
  case behind => exact inv.behind
  case skip => exact inv.skip
  case hidden => exact inv.hidden
  case unreached => exact inv.unreached
  case markNext =>
    have marks := inv.markNext
    grind
  case locked => exact inv.locked
  case taken => exact inv.taken
  case marked => exact inv.marked
  case dead => exact inv.dead
  case fresh =>
    have fresh := inv.fresh
    grind
  case first =>
    intro a member front
    rw [storePrev_prev, if_neg ?_]
    · exact inv.first a member front
    · rintro ⟨nonnull, rfl⟩
      have onward := (inv.skip n here.member here.ready (ptr ▸ nonnull)).2
      rw [ptr] at onward
      omega
  case prev =>
    intro a member inside
    rw [storePrev_prev]
    split_ifs
    · exact inv.read n prev reading
    · exact inv.prev a member inside
  case read => exact inv.read
  case early =>
    intro m nr reached
    obtain ⟨links, reads⟩ := inv.early m nr reached
    refine ⟨fun a member => ?_, reads⟩
    rw [storePrev_prev]
    split_ifs
    · exact fun eq => reads n (eq ▸ reading)
    · exact links a member
  case back =>
    intro a acts nonnull notMoved
    have other : a ≠ n := by
      rintro rfl
      exact notMoved next prev (Function.update_self ..)
    have notNext : (links a).next.ptr ≠ next := fun eq =>
      other (inv.unique acts here nonnull (eq.trans ptr.symm))
    rw [storePrev_prev, if_neg fun isNext => notNext isNext.2]
    rw [Function.update_of_ne other] at notMoved
    exact inv.back a acts nonnull notMoved
  case moved =>
    intro m next' prev' at_m nonnull
    rw [storePrev_prev]
    by_cases at_unlink : m = n
    · rw [at_unlink, Function.update_self] at at_m
      cases at_m
      rw [if_pos ⟨nonnull, rfl⟩]
    · rw [Function.update_of_ne at_unlink] at at_m
      have acts := inv.acting_busy (n := m) (by simp [at_m]) (by rw [at_m]; rfl)
      have ptr' : (links m).next.ptr = next' := by
        rw [inv.locked m next' (by rw [at_m]; rfl)]
        rfl
      have notNext : next' ≠ next := fun eq =>
        at_unlink (inv.unique acts here (ptr' ▸ nonnull) (ptr'.trans (eq.trans ptr.symm)))
      rw [if_neg fun isNext => notNext isNext.2]
      exact inv.moved m next' prev' at_m nonnull
  case alive => exact inv.alive

/-- The leaf is unlinked. -/
theorem Inv.unlinkPrevNext (inv : Inv order gone links pc) {next prev : Addr}
    (at_n : pc n = .unlinkPrevNext next prev) :
    Inv order gone (withNext links prev ⟨next, false⟩) (Function.update pc n .idle) := by
  have busy : pc n ≠ .idle := by simp [at_n]
  have isGone : gone n := inv.unlinking n (by rw [at_n]; rfl)
  have here := inv.acting_busy busy (by rw [at_n]; rfl)
  have points : (links n).next = lockedLink next := inv.locked n next (by rw [at_n]; rfl)
  have ptr : (links n).next.ptr = next := by rw [points]; rfl
  obtain ⟨before, free, acts⟩ := inv.taken n prev (by rw [at_n]; rfl)
  have ptrPrev : (links prev).next.ptr = n := by rw [before]
  have nonnull_n := ne_zero inv here.member
  have toHere : pos order prev < pos order n := by
    have onward := (inv.skip prev acts.member acts.ready (ptrPrev ▸ nonnull_n)).2
    rwa [ptrPrev] at onward
  have differ : prev ≠ n := by
    rintro rfl
    exact lt_irrefl _ toHere
  have linkings := fun m => apply_update pc (n := n) (f := Pc.linking) (p := .idle) (by rw [at_n]; rfl) m
  have earlies := fun m => apply_update pc (n := n) (f := Pc.early) (p := .idle) (by rw [at_n]; rfl) m
  have stales := fun m => apply_update pc (n := n) (f := Pc.stale) (p := .idle) (by rw [at_n]; rfl) m
  have ready := fun a => @ready_update pc n .idle (by rw [at_n]; rfl) a
  have dead (a : Addr) : Dead gone (Function.update pc n .idle) a ↔ Dead gone pc a ∨ a = n := by
    by_cases here : a = n
    · subst here
      simp [Dead, isGone]
    · simp [Dead, here]
  have other (m : Addr) {q : Pc} (at_m : Function.update pc n .idle m = q) (working : q ≠ .idle) :
      m ≠ n ∧ pc m = q := by
    by_cases at_unlink : m = n
    · rw [at_unlink, Function.update_self] at at_m
      exact absurd at_m.symm working
    · rw [Function.update_of_ne at_unlink] at at_m
      exact ⟨at_unlink, at_m⟩
  have acting (a : Addr) : Acting gone (Function.update pc n .idle) order a ↔
      a ≠ n ∧ Acting gone pc order a := by
    constructor
    · intro acts
      refine ⟨fun eq => acts.alive ((dead a).mpr (.inr eq)), acts.member,
        fun gone => acts.alive ((dead a).mpr (.inl gone)), ?_, ?_⟩
      · simpa only [stales] using acts.current
      · simpa only [earlies] using acts.reached
    · rintro ⟨notHere, acts⟩
      refine ⟨acts.member, fun gone => ((dead a).mp gone).elim acts.alive notHere, ?_, ?_⟩
      · simpa only [stales] using acts.current
      · simpa only [earlies] using acts.reached
  have linking (a : Addr) : Linking (Function.update pc n .idle) a ↔ Linking pc a := by
    simp only [Linking, linkings]
  constructor
  all_goals
    try simp only [linkings, earlies, ready, dead, acting, linking, withNext_prev]
  case null => exact inv.null
  case target =>
    have target := inv.target
    grind
  case known => exact inv.known
  case unlinking =>
    intro m unlinking
    have notHere : m ≠ n := by
      rintro rfl
      rw [Function.update_self] at unlinking
      cases unlinking
    rw [Function.update_of_ne notHere] at unlinking
    exact inv.unlinking m unlinking
  case linking =>
    intro m nr linking
    obtain ⟨member, alive, split, idle, back⟩ := inv.linking m nr linking
    have notHere : nr ≠ n := fun eq => busy (eq ▸ idle)
    exact ⟨member, alive, split, by rwa [Function.update_of_ne notHere], back⟩
  case behind => exact inv.behind
  case skip =>
    intro a member known nonnull
    rw [withNext_next] at nonnull ⊢
    split_ifs at nonnull ⊢ with atPrev
    · obtain ⟨nextMember, onward⟩ := inv.skip n here.member here.ready (ptr.symm ▸ nonnull)
      rw [ptr] at nextMember onward
      rw [atPrev]
      exact ⟨nextMember, toHere.trans onward⟩
    · exact inv.skip a member known nonnull
  case hidden =>
    intro a member known x xMember after upTo
    rw [withNext_next] at upTo
    split_ifs at upTo with atPrev
    · rw [atPrev] at after
      rcases Nat.lt_trichotomy (pos order x) (pos order n) with low | same | high
      · refine (inv.hidden prev acts.member acts.ready x xMember after fun _ => ?_).imp_left .inl
        rwa [ptrPrev]
      · exact .inl (.inr (pos_inj xMember same))
      · exact (inv.hidden n here.member here.ready x xMember high (ptr.symm ▸ upTo)).imp_left .inl
    · exact (inv.hidden a member known x xMember after upTo).imp_left .inl
  case unreached =>
    intro m nr linking a member known
    rw [withNext_next]
    split_ifs with atPrev
    · have apart := inv.unreached m nr linking n here.member here.ready
      rwa [ptr] at apart
    · exact inv.unreached m nr linking a member known
  case markNext =>
    intro m next' caller at_m
    exact inv.markNext m next' caller (other m at_m (by simp)).2
  case locked =>
    intro m next' locked
    have notHere : m ≠ n := by
      rintro rfl
      rw [Function.update_self] at locked
      cases locked
    rw [Function.update_of_ne notHere] at locked
    have notPrev : m ≠ prev := by
      rintro rfl
      rw [free] at locked
      cases locked
    rw [withNext_next, if_neg notPrev]
    exact inv.locked m next' locked
  case taken =>
    intro m prev' taken
    have notHere : m ≠ n := by
      rintro rfl
      rw [Function.update_self] at taken
      cases taken
    rw [Function.update_of_ne notHere] at taken
    obtain ⟨points', free', acts'⟩ := inv.taken m prev' taken
    have notPrev : prev' ≠ prev := by
      rintro rfl
      rw [before] at points'
      exact notHere (Next.mk.inj points').1.symm
    have alive : prev' ≠ n := by
      rintro rfl
      rw [at_n] at free'
      cases free'
    rw [withNext_next, if_neg notPrev, Function.update_of_ne alive]
    exact ⟨points', free', alive, acts'⟩
  case marked =>
    intro a member known mark
    rw [withNext_next] at mark
    split_ifs at mark with atPrev
    by_cases atHere : a = n
    · exact .inl (.inr atHere)
    · rw [Function.update_of_ne atHere]
      rcases inv.marked a member known mark with gone | owner | ⟨m, taken⟩
      · exact .inl (.inl gone)
      · exact .inr (.inl owner)
      · have notHere : m ≠ n := by
          rintro rfl
          rw [at_n] at taken
          exact atPrev (Option.some.inj taken).symm
        exact .inr (.inr ⟨m, by rwa [Function.update_of_ne notHere]⟩)
  case dead =>
    intro a gone
    have notPrev : a ≠ prev := by
      rintro rfl
      exact gone.elim acts.alive differ
    rw [withNext_next, if_neg notPrev]
    rcases gone with gone | rfl
    · exact inv.dead a gone
    · rw [ptr]
      exact points
  case fresh =>
    intro m nr next' at_m
    obtain ⟨-, storing⟩ := other m at_m (by simp)
    have notPrev : nr ≠ prev := fun eq => acts.reached m (by rw [storing, ← eq]; rfl)
    rw [withNext_next, if_neg notPrev]
    exact inv.fresh m nr next' storing
  case first => exact inv.first
  case prev => exact inv.prev
  case read =>
    intro m prev' reads
    have notHere : m ≠ n := by
      rintro rfl
      rw [Function.update_self] at reads
      cases reads
    rw [Function.update_of_ne notHere] at reads
    exact inv.read m prev' reads
  case early =>
    intro m nr reached
    obtain ⟨links, reads⟩ := inv.early m nr reached
    refine ⟨links, fun u reading => ?_⟩
    have notHere : u ≠ n := by
      rintro rfl
      rw [Function.update_self] at reading
      cases reading
    rw [Function.update_of_ne notHere] at reading
    exact reads u reading
  case back =>
    rintro a ⟨notHere, acts⟩ nonnull notMoved
    rw [withNext_next] at nonnull ⊢
    split_ifs at nonnull ⊢ with atPrev
    · rw [atPrev]
      exact inv.moved n next prev at_n nonnull
    · rw [Function.update_of_ne notHere] at notMoved
      exact inv.back a acts nonnull notMoved
  case moved =>
    intro m next' prev' at_m
    exact inv.moved m next' prev' (other m at_m (by simp)).2
  case alive =>
    rintro a ⟨notHere, acts'⟩ nonnull
    rw [withNext_next] at nonnull ⊢
    split_ifs at nonnull ⊢ with atPrev
    · rintro (gone | eq)
      · exact inv.alive n here (ptr.symm ▸ nonnull) (ptr.symm ▸ gone)
      · simp only at eq
        have onward := (inv.skip n here.member here.ready (ptr.symm ▸ nonnull)).2
        rw [ptr, eq] at onward
        exact lt_irrefl _ onward
    · rintro (gone | eq)
      · exact inv.alive a acts' nonnull gone
      · exact atPrev (inv.unique acts' acts nonnull (eq.trans ptrPrev.symm))

end Incll.Proof.BtreeLeaflink
