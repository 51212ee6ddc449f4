import Incll.Proof.BtreeLeaflink.Steps

/-! # A call begins -/

namespace Incll.Proof.BtreeLeaflink
open Incll.Lib Incll.Model Incll.Model.BtreeLeaflink
open Incll.Model.Leaflink (Next Links)

variable {order : List Addr} {gone : Addr → Prop} {links : Addr → Links} {pc : Addr → Pc}
  {n nr : Addr}

/-- The leaf of a call that begins. -/
structure Free (order : List Addr) (gone : Addr → Prop) (pc : Addr → Pc) (n : Addr) : Prop where
  member : n ∈ order
  alive : ¬ gone n
  idle : pc n = .idle
  linked : ¬ Linking pc n

theorem Inv.beginUnlink (inv : Inv order gone links pc) (free : Free order gone pc n)
    (inside : 0 < pos order n) :
    Inv order (fun a => gone a ∨ a = n) links (Function.update pc n (.load .unlink)) := by
  have idle := free.idle
  have linkings := fun m => apply_update pc (n := n) (f := Pc.linking) (p := .load .unlink)
    (by rw [idle]; rfl) m
  have earlies := fun m => apply_update pc (n := n) (f := Pc.early) (p := .load .unlink)
    (by rw [idle]; rfl) m
  have stales := fun m => apply_update pc (n := n) (f := Pc.stale) (p := .load .unlink)
    (by rw [idle]; rfl) m
  have lockeds := fun m => apply_update pc (n := n) (f := Pc.lockedNext) (p := .load .unlink)
    (by rw [idle]; rfl) m
  have takens := fun m => apply_update pc (n := n) (f := Pc.taken) (p := .load .unlink)
    (by rw [idle]; rfl) m
  have reads := fun m => apply_update pc (n := n) (f := Pc.prev) (p := .load .unlink)
    (by rw [idle]; rfl) m
  have ready := fun a => @ready_update pc n (.load .unlink) (by rw [idle]; rfl) a
  have linking (a : Addr) : Linking (Function.update pc n (.load .unlink)) a ↔ Linking pc a := by
    simp only [Linking, linkings]
  have dead (a : Addr) : Dead (fun a => gone a ∨ a = n) (Function.update pc n (.load .unlink)) a ↔
      Dead gone pc a := by
    by_cases here : a = n
    · subst here
      simp [Dead, free.alive]
    · simp [Dead, here]
  have acting (a : Addr) : Acting (fun a => gone a ∨ a = n)
      (Function.update pc n (.load .unlink)) order a ↔ Acting gone pc order a := by
    constructor
    · intro acts
      refine ⟨acts.member, fun gone => acts.alive ((dead a).mpr gone), ?_, ?_⟩
      · simpa only [stales] using acts.current
      · simpa only [earlies] using acts.reached
    · intro acts
      refine ⟨acts.member, fun gone => acts.alive ((dead a).mp gone), ?_, ?_⟩
      · simpa only [stales] using acts.current
      · simpa only [earlies] using acts.reached
  have still (m : Addr) {q : Pc} (at_m : Function.update pc n (.load .unlink) m = q)
      (other : q ≠ .load .unlink) : pc m = q := by
    by_cases here : m = n
    · rw [here, Function.update_self] at at_m
      exact absurd at_m.symm other
    · rwa [Function.update_of_ne here] at at_m
  constructor
  all_goals
    try simp only [linkings, earlies, lockeds, takens, reads, ready, linking, dead, acting]
  case null => exact inv.null
  case target =>
    intro m busy
    by_cases here : m = n
    · exact here ▸ free.member
    · exact inv.target m (by rwa [Function.update_of_ne here] at busy)
  case known =>
    rintro a (old | rfl)
    · exact inv.known a old
    · exact ⟨free.member, inside⟩
  case unlinking =>
    intro m unlinking
    by_cases here : m = n
    · exact .inr here
    · rw [Function.update_of_ne here] at unlinking
      exact .inl (inv.unlinking m unlinking)
  case linking =>
    intro m nr isNew
    obtain ⟨member, alive, split, nrIdle, back⟩ := inv.linking m nr isNew
    have notNew : nr ≠ n := fun eq => free.linked ⟨m, eq ▸ isNew⟩
    have notHere : m ≠ n := fun eq => busy_of_linking isNew (eq ▸ idle)
    refine ⟨member, fun gone => gone.elim alive notNew, fun gone => gone.elim split notHere, ?_, back⟩
    rwa [Function.update_of_ne notNew]
  case behind => exact inv.behind
  case skip => exact inv.skip
  case hidden => exact inv.hidden
  case unreached => exact inv.unreached
  case markNext => exact fun m next caller at_m => inv.markNext m next caller (still m at_m (by simp))
  case locked => exact inv.locked
  case taken => exact inv.taken
  case marked => exact inv.marked
  case dead => exact inv.dead
  case fresh => exact fun m nr next at_m => inv.fresh m nr next (still m at_m (by simp))
  case first => exact inv.first
  case prev => exact inv.prev
  case read => exact inv.read
  case early => exact inv.early
  case back =>
    intro a acts nonnull notMoved
    refine inv.back a acts nonnull fun next prev at_a => notMoved next prev ?_
    have notHere : a ≠ n := by
      rintro rfl
      rw [idle] at at_a
      cases at_a
    rwa [Function.update_of_ne notHere]
  case moved => exact fun m next prev at_m => inv.moved m next prev (still m at_m (by simp))
  case alive => exact inv.alive

/-- What the old leaves see of a new one. -/
structure Inserted (order order' : List Addr) (n nr : Addr) : Prop where
  member : ∀ a, a ∈ order' ↔ a ∈ order ∨ a = nr
  new : pos order' nr = pos order n + 1
  old : ∀ a ∈ order, pos order' a =
    if pos order a ≤ pos order n then pos order a else pos order a + 1

section
variable {order' : List Addr} (inserted : Inserted order order' n nr) {a b : Addr}
include inserted

theorem Inserted.lt_iff (left : a ∈ order) (right : b ∈ order) :
    pos order' a < pos order' b ↔ pos order a < pos order b := by
  rw [inserted.old a left, inserted.old b right]
  split_ifs <;> omega

theorem Inserted.lt_new (left : a ∈ order) :
    pos order' a < pos order' nr ↔ pos order a ≤ pos order n := by
  rw [inserted.old a left, inserted.new]
  split_ifs <;> omega

theorem Inserted.new_lt (right : b ∈ order) :
    pos order' nr < pos order' b ↔ pos order n < pos order b := by
  rw [inserted.old b right, inserted.new]
  split_ifs <;> omega

theorem Inserted.front (member : a ∈ order) : pos order' a = 0 ↔ pos order a = 0 := by
  rw [inserted.old a member]
  split_ifs with low
  · rfl
  · have inside : pos order a ≠ 0 := by omega
    simp [inside]

end

theorem Inv.beginSplit (inv : Inv order gone links pc) (free : Free order gone pc n)
    (nonnull : nr ≠ 0) (new : nr ∉ order) {order' : List Addr}
    (inserted : Inserted order order' n nr) :
    Inv order' gone (withPrev links nr n) (Function.update pc n (.load (.linkSplit nr))) := by
  have idle := free.idle
  have ne_new {a : Addr} (member : a ∈ order) : a ≠ nr := fun eq => new (eq ▸ member)
  have keep {a : Addr} (member : a ∈ order) : a ∈ order' := (inserted.member a).mpr (.inl member)
  have unlinkings := fun m => apply_update pc (n := n) (f := Pc.unlinking)
    (p := .load (.linkSplit nr)) (by rw [idle]; rfl) m
  have stales := fun m => apply_update pc (n := n) (f := Pc.stale)
    (p := .load (.linkSplit nr)) (by rw [idle]; rfl) m
  have lockeds := fun m => apply_update pc (n := n) (f := Pc.lockedNext)
    (p := .load (.linkSplit nr)) (by rw [idle]; rfl) m
  have takens := fun m => apply_update pc (n := n) (f := Pc.taken)
    (p := .load (.linkSplit nr)) (by rw [idle]; rfl) m
  have reads := fun m => apply_update pc (n := n) (f := Pc.prev)
    (p := .load (.linkSplit nr)) (by rw [idle]; rfl) m
  have dead (a : Addr) : Dead gone (Function.update pc n (.load (.linkSplit nr))) a ↔
      Dead gone pc a := by
    by_cases here : a = n
    · subst here
      simp [Dead, free.alive]
    · simp [Dead, here]
  have linking (m : Addr) {nr' : Addr}
      (linking : Pc.linking (Function.update pc n (.load (.linkSplit nr)) m) = some nr') :
      m = n ∧ nr' = nr ∨ m ≠ n ∧ Pc.linking (pc m) = some nr' := by
    by_cases here : m = n
    · rw [here, Function.update_self] at linking
      exact .inl ⟨here, (Option.some.inj linking).symm⟩
    · rw [Function.update_of_ne here] at linking
      exact .inr ⟨here, linking⟩
  have early (m : Addr) {nr' : Addr}
      (early : Pc.early (Function.update pc n (.load (.linkSplit nr)) m) = some nr') :
      m = n ∧ nr' = nr ∨ Pc.early (pc m) = some nr' := by
    by_cases here : m = n
    · rw [here, Function.update_self] at early
      exact .inl ⟨here, (Option.some.inj early).symm⟩
    · rw [Function.update_of_ne here] at early
      exact .inr early
  have notHere {m : Addr} (busy : pc m ≠ .idle) : m ≠ n := fun eq => busy (eq ▸ idle)
  have ready (a : Addr) (member : a ∈ order')
      (known : Ready (Function.update pc n (.load (.linkSplit nr))) a) : a ∈ order ∧ Ready pc a := by
    constructor
    · refine ((inserted.member a).mp member).resolve_right fun eq => known n ?_
      rw [Function.update_self, eq]
      rfl
    · intro m blank
      have busy : pc m ≠ .idle := fun eq => by simp [eq, Pc.blank] at blank
      exact known m (by rwa [Function.update_of_ne (notHere busy)])
  have acting (a : Addr) : Acting gone (Function.update pc n (.load (.linkSplit nr))) order' a ↔
      Acting gone pc order a := by
    constructor
    · intro acts
      have reached (m : Addr) : Pc.early (pc m) ≠ some a := by
        intro reached
        have busy : pc m ≠ .idle := fun eq => by simp [eq, Pc.early] at reached
        exact acts.reached m (by rwa [Function.update_of_ne (notHere busy)])
      refine ⟨(ready a acts.member acts.ready).1, fun gone => acts.alive ((dead a).mpr gone), ?_,
        reached⟩
      simpa only [stales] using acts.current
    · intro acts
      refine ⟨keep acts.member, fun gone => acts.alive ((dead a).mp gone), ?_, fun m reached => ?_⟩
      · simpa only [stales] using acts.current
      · rcases early m reached with ⟨-, eq⟩ | reached
        · exact ne_new acts.member eq
        · exact acts.reached m reached
  have prev {a : Addr} (member : a ∈ order) : (withPrev links nr n a).prev = (links a).prev := by
    rw [withPrev_prev, if_neg (ne_new member)]
  have old_prev (a : Addr) (member : a ∈ order) : (links a).prev ≠ nr := by
    by_cases front : pos order a = 0
    · rw [inv.first a member front]
      exact nonnull.symm
    · exact ne_new (inv.prev a member (Nat.pos_of_ne_zero front))
  have still (m : Addr) {q : Pc} (at_m : Function.update pc n (.load (.linkSplit nr)) m = q)
      (other : q ≠ .load (.linkSplit nr)) : pc m = q := by
    by_cases here : m = n
    · rw [here, Function.update_self] at at_m
      exact absurd at_m.symm other
    · rwa [Function.update_of_ne here] at at_m
  constructor
  all_goals
    try simp only [unlinkings, lockeds, takens, reads, dead, acting, withPrev_next]
  case null =>
    intro member
    rcases (inserted.member 0).mp member with member | eq
    · exact inv.null member
    · exact nonnull eq.symm
  case target =>
    intro m busy
    by_cases here : m = n
    · exact here ▸ keep free.member
    · exact keep (inv.target m (by rwa [Function.update_of_ne here] at busy))
  case known =>
    intro a isGone
    obtain ⟨member, inside⟩ := inv.known a isGone
    have front := inserted.front member
    exact ⟨keep member, by omega⟩
  case unlinking => exact inv.unlinking
  case linking =>
    intro m nr' linking'
    rcases linking m linking' with ⟨rfl, rfl⟩ | ⟨other, linking'⟩
    · refine ⟨(inserted.member nr').mpr (.inr rfl), fun isGone => new (inv.known nr' isGone).1,
        free.alive, ?_, by rw [withPrev_prev, if_pos rfl]⟩
      rw [Function.update_of_ne (ne_new free.member).symm]
      by_contra busy
      exact new (inv.target nr' busy)
    · obtain ⟨member, alive, split, nrIdle, back⟩ := inv.linking m nr' linking'
      have differ : nr' ≠ n := fun eq => free.linked ⟨m, eq ▸ linking'⟩
      exact ⟨keep member, alive, split, by rwa [Function.update_of_ne differ], by rwa [prev member]⟩
  case behind =>
    intro m nr' linking'
    rcases linking m linking' with ⟨rfl, rfl⟩ | ⟨other, linking'⟩
    · refine ⟨(inserted.lt_new free.member).mpr le_rfl, fun x member after => ?_⟩
      rcases (inserted.member x).mp member with member | rfl
      · exact ((inserted.new_lt member).mpr ((inserted.lt_iff free.member member).mp after)).le
      · exact le_rfl
    · have member := inv.target m (busy_of_linking linking')
      have nrMember := (inv.linking m nr' linking').1
      obtain ⟨split, next_to⟩ := inv.behind m nr' linking'
      refine ⟨(inserted.lt_iff member nrMember).mpr split, fun x xMember after => ?_⟩
      rcases (inserted.member x).mp xMember with xMember | rfl
      · have between := next_to x xMember ((inserted.lt_iff member xMember).mp after)
        have order_iff := inserted.lt_iff xMember nrMember
        omega
      · have differ : pos order m ≠ pos order n := fun eq => other (pos_inj member eq)
        have low := (inserted.lt_new member).mp after
        have between := next_to n free.member (by omega)
        have order_iff := inserted.new_lt nrMember
        omega
  case skip =>
    intro a member known nonnull
    obtain ⟨member, known⟩ := ready a member known
    obtain ⟨nextMember, onward⟩ := inv.skip a member known nonnull
    exact ⟨keep nextMember, (inserted.lt_iff member nextMember).mpr onward⟩
  case hidden =>
    intro a member known x xMember after upTo
    obtain ⟨member, known⟩ := ready a member known
    rcases (inserted.member x).mp xMember with xMember | rfl
    · refine (inv.hidden a member known x xMember ((inserted.lt_iff member xMember).mp after)
        fun nonnull => ?_).imp_right ?_
      · exact (inserted.lt_iff xMember (inv.skip a member known nonnull).1).mp (upTo nonnull)
      · rintro ⟨m, linking'⟩
        exact ⟨m, by rwa [Function.update_of_ne (notHere (busy_of_linking linking'))]⟩
    · exact .inr ⟨n, by rw [Function.update_self]; rfl⟩
  case unreached =>
    intro m nr' linking' a member known
    obtain ⟨oldMember, known'⟩ := ready a member known
    rcases linking m linking' with ⟨-, rfl⟩ | ⟨-, linking'⟩
    · intro eq
      exact new (eq ▸ (inv.skip a oldMember known' (eq ▸ nonnull)).1)
    · exact inv.unreached m nr' linking' a oldMember known'
  case markNext => exact fun m next caller at_m => inv.markNext m next caller (still m at_m (by simp))
  case locked => exact inv.locked
  case taken => exact inv.taken
  case marked =>
    intro a member known mark
    obtain ⟨member, known⟩ := ready a member known
    exact inv.marked a member known mark
  case dead => exact inv.dead
  case fresh => exact fun m nr' next at_m => inv.fresh m nr' next (still m at_m (by simp))
  case first =>
    intro a member front
    rcases (inserted.member a).mp member with member | rfl
    · rw [prev member]
      exact inv.first a member ((inserted.front member).mp front)
    · rw [inserted.new] at front
      cases front
  case prev =>
    intro a member inside
    rcases (inserted.member a).mp member with member | rfl
    · have front := inserted.front member
      rw [prev member]
      exact keep (inv.prev a member (by omega))
    · rw [withPrev_prev, if_pos rfl]
      exact keep free.member
  case read => exact fun m prev reads => keep (inv.read m prev reads)
  case early =>
    intro m nr' reached
    rcases early m reached with ⟨-, rfl⟩ | before
    · refine ⟨fun a member => ?_, fun u reads => new (inv.read u nr' reads)⟩
      rcases (inserted.member a).mp member with member | rfl
      · rw [prev member]
        exact old_prev a member
      · rw [withPrev_prev, if_pos rfl]
        exact ne_new free.member
    · obtain ⟨links, reads⟩ := inv.early m nr' before
      refine ⟨fun a member => ?_, reads⟩
      rcases (inserted.member a).mp member with member | rfl
      · rw [prev member]
        exact links a member
      · rw [withPrev_prev, if_pos rfl]
        exact fun eq => free.linked ⟨m, eq ▸ linking_of_early before⟩
  case back =>
    intro a acts nonnull notMoved
    rw [prev (inv.skip a acts.member acts.ready nonnull).1]
    refine inv.back a acts nonnull fun next prev at_a => notMoved next prev ?_
    rwa [Function.update_of_ne (notHere (by simp [at_a]))]
  case moved =>
    intro m next prev' at_m nonnull
    have at_m := still m at_m (by simp)
    have acts := inv.acting_busy (n := m) (by simp [at_m]) (by rw [at_m]; rfl)
    have ptr : (links m).next.ptr = next := by
      rw [inv.locked m next (by rw [at_m]; rfl)]
      rfl
    have member := (inv.skip m acts.member acts.ready (ptr.symm ▸ nonnull)).1
    rw [ptr] at member
    rw [prev member]
    exact inv.moved m next prev' at_m nonnull
  case alive => exact inv.alive

end Incll.Proof.BtreeLeaflink
