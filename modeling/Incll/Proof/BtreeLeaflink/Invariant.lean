import Incll.Proof.BtreeLeaflink.Order

/-! # What holds of the links at every step

A call owns the `next_` of its leaf from `lock_next` on, and `unlink` owns that of the leaf before it
from its exchange on. No pointer goes back, and a pointer skips only leaves that are not yet linked
or that have been unlinked. -/

namespace Incll.Proof.BtreeLeaflink
open Incll.Lib Incll.Model Incll.Model.BtreeLeaflink
open Incll.Model.Leaflink (Next Links)

/-- The new leaf of a split. -/
def newLeaf : Caller → Option Addr
  | .linkSplit nr => some nr
  | .unlink => none

namespace Pc

/-- The new leaf, until it is linked. -/
def linking : Pc → Option Addr
  | .load caller | .mark _ caller => newLeaf caller
  | .storeNrNext nr _ | .storeNextPrev nr _ | .storeNext nr _ => some nr
  | _ => none

/-- The new leaf, until another leaf points to it. -/
def early : Pc → Option Addr
  | .load caller | .mark _ caller => newLeaf caller
  | .storeNrNext nr _ | .storeNextPrev nr _ => some nr
  | _ => none

/-- The new leaf, until its `next_` is stored. -/
def blank : Pc → Option Addr
  | .load caller | .mark _ caller => newLeaf caller
  | .storeNrNext nr _ => some nr
  | _ => none

def unlinking : Pc → Bool
  | .load caller | .mark _ caller => caller = .unlink
  | .readPrev _ | .swapPrevNext .. | .unlinkNextPrev .. | .unlinkPrevNext .. => true
  | _ => false

/-- What `lock_next` has returned. -/
def lockedNext : Pc → Option Addr
  | .storeNrNext _ next | .storeNextPrev _ next | .storeNext _ next => some next
  | .readPrev next | .swapPrevNext next _ => some next
  | .unlinkNextPrev next _ | .unlinkPrevNext next _ => some next
  | _ => none

/-- The leaf that `unlink` has read from `prev_`. -/
def prev : Pc → Option Addr
  | .swapPrevNext _ prev | .unlinkNextPrev _ prev | .unlinkPrevNext _ prev => some prev
  | _ => none

/-- The leaf before, after the exchange. -/
def taken : Pc → Option Addr
  | .unlinkNextPrev _ prev | .unlinkPrevNext _ prev => some prev
  | _ => none

/-- The leaf still points to the leaf that its new leaf points to. -/
def stale : Pc → Bool
  | .storeNext .. => true
  | _ => false

end Pc

/-- The pointer in a leaf that `lock_next` has locked. -/
def lockedLink (next : Addr) : Next := ⟨next, next ≠ 0⟩

section
variable (gone : Addr → Prop) (pc : Addr → Pc)

/-- `unlink` has returned. -/
def Dead (a : Addr) : Prop := gone a ∧ pc a = .idle

def Linking (a : Addr) : Prop := ∃ n, Pc.linking (pc n) = some a

/-- The leaf has a `next_`. -/
def Ready (a : Addr) : Prop := ∀ n, Pc.blank (pc n) ≠ some a

/-- The leaf whose `next_` points to the leaf behind it, and `prev_` back. -/
structure Acting (order : List Addr) (a : Addr) : Prop where
  member : a ∈ order
  alive : ¬ Dead gone pc a
  current : Pc.stale (pc a) = false
  reached : ∀ n, Pc.early (pc n) ≠ some a

end

/-- `order` are the leaves in order, and those in `gone` have been passed to `unlink`. -/
structure Inv (order : List Addr) (gone : Addr → Prop) (links : Addr → Links) (pc : Addr → Pc) :
    Prop where
  null : 0 ∉ order
  target : ∀ n, pc n ≠ .idle → n ∈ order
  known : ∀ a, gone a → a ∈ order ∧ 0 < pos order a
  unlinking : ∀ n, Pc.unlinking (pc n) = true → gone n
  linking : ∀ n nr, Pc.linking (pc n) = some nr →
    nr ∈ order ∧ ¬ gone nr ∧ ¬ gone n ∧ pc nr = .idle ∧ (links nr).prev = n
  behind : ∀ n nr, Pc.linking (pc n) = some nr →
    pos order n < pos order nr ∧ ∀ x ∈ order, pos order n < pos order x → pos order nr ≤ pos order x
  -- the pointers go forward
  skip : ∀ a ∈ order, Ready pc a → (links a).next.ptr ≠ 0 →
    (links a).next.ptr ∈ order ∧ pos order a < pos order (links a).next.ptr
  hidden : ∀ a ∈ order, Ready pc a → ∀ x ∈ order, pos order a < pos order x →
    ((links a).next.ptr ≠ 0 → pos order x < pos order (links a).next.ptr) →
    Dead gone pc x ∨ Linking pc x
  unreached : ∀ n nr, Pc.linking (pc n) = some nr → ∀ a ∈ order, Ready pc a →
    (links a).next.ptr ≠ nr
  -- the marks
  markNext : ∀ n next caller, pc n = .mark next caller → next ≠ 0
  locked : ∀ n next, Pc.lockedNext (pc n) = some next → (links n).next = lockedLink next
  taken : ∀ n prev, Pc.taken (pc n) = some prev →
    (links prev).next = ⟨n, true⟩ ∧ Pc.lockedNext (pc prev) = none ∧ Acting gone pc order prev
  marked : ∀ a ∈ order, Ready pc a → (links a).next.mark = true →
    Dead gone pc a ∨ Pc.lockedNext (pc a) ≠ none ∨ ∃ n, Pc.taken (pc n) = some a
  dead : ∀ a, Dead gone pc a → (links a).next = lockedLink (links a).next.ptr
  fresh : ∀ n nr next, pc n = .storeNextPrev nr next → (links nr).next = ⟨next, false⟩
  -- the pointers back
  first : ∀ a ∈ order, pos order a = 0 → (links a).prev = 0
  prev : ∀ a ∈ order, 0 < pos order a → (links a).prev ∈ order
  read : ∀ n prev, Pc.prev (pc n) = some prev → prev ∈ order
  early : ∀ n nr, Pc.early (pc n) = some nr →
    (∀ a ∈ order, (links a).prev ≠ nr) ∧ ∀ m, Pc.prev (pc m) ≠ some nr
  back : ∀ a, Acting gone pc order a → (links a).next.ptr ≠ 0 →
    (∀ next prev, pc a ≠ .unlinkPrevNext next prev) → (links (links a).next.ptr).prev = a
  moved : ∀ n next prev, pc n = .unlinkPrevNext next prev → next ≠ 0 → (links next).prev = prev
  alive : ∀ a, Acting gone pc order a → (links a).next.ptr ≠ 0 → ¬ Dead gone pc (links a).next.ptr

variable {order : List Addr} {gone : Addr → Prop} {links : Addr → Links} {pc : Addr → Pc}
  {a b n nr : Addr}

theorem linking_of_early {p : Pc} (early : Pc.early p = some nr) : Pc.linking p = some nr := by
  cases p <;> simp_all [Pc.early, Pc.linking]

theorem early_of_blank {p : Pc} (blank : Pc.blank p = some nr) : Pc.early p = some nr := by
  cases p <;> simp_all [Pc.blank, Pc.early]

theorem Acting.ready (acting : Acting gone pc order a) : Ready pc a :=
  fun m blank => acting.reached m (early_of_blank blank)

theorem busy_of_linking {p : Pc} (linking : Pc.linking p = some nr) : p ≠ .idle := by
  rintro rfl
  simp [Pc.linking] at linking

theorem stale_of_linking {p : Pc} (linking : Pc.linking p = some nr)
    (reached : Pc.early p ≠ some nr) : Pc.stale p = true := by
  cases p <;> simp_all [Pc.linking, Pc.early, Pc.stale]

section
variable (inv : Inv order gone links pc)
include inv

/-- The leaf of a call is not new. -/
theorem Inv.not_linking (busy : pc n ≠ .idle) : ¬ Linking pc n :=
  fun ⟨m, linking⟩ => busy (inv.linking m n linking).2.2.2.1

theorem Inv.acting_busy (busy : pc n ≠ .idle) (current : Pc.stale (pc n) = false) :
    Acting gone pc order n where
  member := inv.target n busy
  alive dead := busy dead.2
  current := current
  reached m early := inv.not_linking busy ⟨m, linking_of_early early⟩

theorem Inv.split_unique (left : Pc.linking (pc a) = some nr) (right : Pc.linking (pc b) = some nr) :
    a = b :=
  (inv.linking a nr left).2.2.2.2.symm.trans (inv.linking b nr right).2.2.2.2

/-- No leaf before the new leaf points behind it, but the leaf that is being split. -/
theorem Inv.only_split (linking : Pc.linking (pc n) = some nr) (member : a ∈ order)
    (ready : Ready pc a) (before : pos order a < pos order nr)
    (past : (links a).next.ptr ≠ 0 → pos order nr < pos order (links a).next.ptr) : a = n := by
  obtain ⟨split, next⟩ := inv.behind n nr linking
  have busy := busy_of_linking linking
  by_contra other
  have low : pos order a < pos order n := by
    have notBetween := next a member
    have differ : pos order a ≠ pos order n := fun same => other (pos_inj member same)
    omega
  rcases inv.hidden a member ready n (inv.target n busy) low
      (fun nonnull => split.trans (past nonnull)) with dead | new
  · exact busy dead.2
  · exact inv.not_linking busy new

theorem Inv.not_before (left : Acting gone pc order a) (right : Acting gone pc order b)
    (nonnull : (links a).next.ptr ≠ 0) (same : (links a).next.ptr = (links b).next.ptr) :
    ¬ pos order a < pos order b := by
  intro before
  have onward := (inv.skip b right.member right.ready (same ▸ nonnull)).2
  rw [← same] at onward
  rcases inv.hidden a left.member left.ready b right.member before (fun _ => onward) with dead | new
  · exact right.alive dead
  · obtain ⟨n, linking⟩ := new
    have split := inv.only_split linking left.member left.ready before fun _ => onward
    have stale := stale_of_linking linking (right.reached n)
    rw [← split, left.current] at stale
    cases stale

/-- A leaf is the next one of one leaf only. -/
theorem Inv.unique (left : Acting gone pc order a) (right : Acting gone pc order b)
    (nonnull : (links a).next.ptr ≠ 0) (same : (links a).next.ptr = (links b).next.ptr) : a = b := by
  refine pos_inj left.member (Nat.le_antisymm ?_ ?_)
  · exact Nat.le_of_not_lt (inv.not_before right left (same ▸ nonnull) same.symm)
  · exact Nat.le_of_not_lt (inv.not_before left right nonnull same)

end

/-! A step of the call on `n` from `pc n` to `p`. -/

def withNext (links : Addr → Links) (n : Addr) (next : Next) : Addr → Links :=
  Function.update links n { links n with next := next }

def withPrev (links : Addr → Links) (n prev : Addr) : Addr → Links :=
  Function.update links n { links n with prev := prev }

@[simp] theorem withNext_prev (next : Next) : (withNext links n next a).prev = (links a).prev := by
  by_cases here : a = n
  · rw [here, withNext, Function.update_self]
  · rw [withNext, Function.update_of_ne here]

@[simp] theorem withPrev_next (prev : Addr) : (withPrev links n prev a).next = (links a).next := by
  by_cases here : a = n
  · rw [here, withPrev, Function.update_self]
  · rw [withPrev, Function.update_of_ne here]

theorem withNext_next (next : Next) :
    (withNext links n next a).next = if a = n then next else (links a).next := by
  by_cases here : a = n
  · rw [here, withNext, Function.update_self, if_pos rfl]
  · rw [withNext, Function.update_of_ne here, if_neg here]

theorem withPrev_prev (prev : Addr) :
    (withPrev links n prev a).prev = if a = n then prev else (links a).prev := by
  by_cases here : a = n
  · rw [here, withPrev, Function.update_self, if_pos rfl]
  · rw [withPrev, Function.update_of_ne here, if_neg here]

/-- The store to `next->prev_`, unless `next` is null. -/
def storePrev (links : Addr → Links) (next prev : Addr) : Addr → Links :=
  if next = 0 then links else withPrev links next prev

@[simp] theorem storePrev_next (next prev : Addr) :
    (storePrev links next prev a).next = (links a).next := by
  rw [storePrev]
  split_ifs <;> simp

theorem storePrev_prev (next prev : Addr) : (storePrev links next prev a).prev =
    if next ≠ 0 ∧ a = next then prev else (links a).prev := by
  rw [storePrev]
  split_ifs <;> simp_all [withPrev_prev]

/-- The call does not end. -/
structure Same (before after : Pc) : Prop where
  busyBefore : before ≠ .idle
  busy : after ≠ .idle
  linking : Pc.linking after = Pc.linking before
  unlinking : Pc.unlinking after = Pc.unlinking before

theorem apply_update (pc : Addr → Pc) {α : Type} {f : Pc → α} {p : Pc} (same : f p = f (pc n)) (m : Addr) :
    f (Function.update pc n p m) = f (pc m) := by
  by_cases here : m = n
  · rw [here, Function.update_self, same]
  · rw [Function.update_of_ne here]

theorem dead_update {p : Pc} (same : Same (pc n) p) (a : Addr) :
    Dead gone (Function.update pc n p) a ↔ Dead gone pc a := by
  by_cases here : a = n
  · subst here
    simp [Dead, same.busy, same.busyBefore]
  · simp [Dead, here]

theorem linking_update {p : Pc} (same : Same (pc n) p) (a : Addr) :
    Linking (Function.update pc n p) a ↔ Linking pc a := by
  simp only [Linking, apply_update pc same.linking]

theorem ready_update {p : Pc} (same : Pc.blank p = Pc.blank (pc n)) (a : Addr) :
    Ready (Function.update pc n p) a ↔ Ready pc a := by
  simp only [Ready, apply_update pc same]

theorem acting_update {p : Pc} (same : Same (pc n) p) (early : Pc.early p = Pc.early (pc n))
    (stale : Pc.stale p = Pc.stale (pc n)) (a : Addr) :
    Acting gone (Function.update pc n p) order a ↔ Acting gone pc order a := by
  constructor
  · intro acting
    refine ⟨acting.member, fun dead => acting.alive ((dead_update same a).mpr dead), ?_, ?_⟩
    · simpa only [apply_update pc stale] using acting.current
    · simpa only [apply_update pc early] using acting.reached
  · intro acting
    refine ⟨acting.member, fun dead => acting.alive ((dead_update same a).mp dead), ?_, ?_⟩
    · simpa only [apply_update pc stale] using acting.current
    · simpa only [apply_update pc early] using acting.reached

end Incll.Proof.BtreeLeaflink
