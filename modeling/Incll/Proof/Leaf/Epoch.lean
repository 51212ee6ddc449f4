import Incll.Lib.Machine
import Incll.Model.LeafBody
import Incll.Proof.Leaf.Crash

/-! # A crash in one epoch of a leaf -/

namespace Incll.Proof.Epoch
open Incll.Lib Incll.Model

/-- None of the three entries is valid. -/
structure NoEntry (c : Incll) : Prop where
  cl0 : c.cl0Idx = invalidIdx
  cl1 : c.lvCl1.isClValid = false
  cl2 : c.lvCl2.isClValid = false

theorem undone_noEntry {c : Incll} (none : NoEntry c) (e : Nat) (b : LeafBody) : undone e c b = b := by
  simp [undone, none.cl0, none.cl1, none.cl2]

theorem noEntry_invalidateCls (c : Incll) : NoEntry c.invalidateCls := by
  constructor <;> simp [Incll.invalidateCls]

section save
variable {l : Leaf} {e p : Nat} (first : l.incll.loggedepoch ≠ e) (bound : p < leafWidth)
include first bound

/-- The first save of an epoch keeps the old value of the slot. -/
theorem holds_saveCl12Update :
    HoldsValue (l.saveCl12Update e p).1.incll p (l.body.lv p) ∧
      Tagged (l.saveCl12Update e p).1.incll := by
  simp only [leafWidth] at bound
  simp only [Leaf.saveCl12Update, ne_eq, first, not_false_eq_true, if_true]
  refine ⟨?_, (tagged_updateEpochs ..).cl1, (tagged_updateEpochs ..).cl2⟩
  by_cases low : p < keyMid
  · have small : p < 7 := low
    constructor <;> simp [lvWord, lvSlot, low, Incll.updateEpochs, small, show p < 8 by omega]
  · have small : p - keyMid < 7 := by simp only [keyMid] at *; omega
    have whole := Nat.sub_add_cancel (Nat.le_of_not_lt low)
    constructor <;> simp [lvWord, lvSlot, low, Incll.updateEpochs, small,
      show p - keyMid < 8 by omega, whole]

omit bound in
theorem clear_saveCl12Update (none : NoEntry l.incll) :
    ¬ Shadowed (l.saveCl12Update e p).1.incll p := by
  have fields := saveCl12Update_first first p
  rintro (active | ⟨high, active⟩)
  · rw [fields.2.2.2.2.1] at active
    exact active none.cl0
  · rw [fields.2.2.2.2.2.2 high, none.cl1] at active
    cases active

end save

/-! The tag of a value. -/

/-- An update of slot `p` in epoch `e`. -/
def updated (l : Leaf) (e p : Nat) (v : Leafvalue) : Leaf :=
  let saved := (l.saveCl12Update e p).1
  { saved with body := saved.body.setValue p v }

/-- After a crash in epoch `fe` a visit gives back the old value if the update was made in that epoch,
and changes no other slot and nothing else. -/
def RestoresValue (l : Leaf) (e fe p : Nat) (v : Leafvalue) : Prop :=
  ((updated l e p v).lazyRecovery (fe + 1) fe).body.lv =
    if e = fe then l.body.lv else Function.update l.body.lv p v

theorem saveCl12Update_noEntry {l : Leaf} {e p : Nat} (none : NoEntry l.incll)
    (again : l.incll.loggedepoch = e) :
    NoEntry (l.saveCl12Update e p).1.incll ∧ (l.saveCl12Update e p).1.body = l.body := by
  rw [Leaf.saveCl12Update, if_neg (not_not.mpr again), Leaf.logAfterIncll]
  split
  · exact ⟨noEntry_invalidateCls _, rfl⟩
  · exact ⟨none, rfl⟩

section tag
variable {l : Leaf} {e fe p : Nat} {v : Leafvalue}

/-- What a visit finds if no entry is taken. -/
theorem restores_of_kept (kept : ((updated l e p v).lazyRecovery (fe + 1) fe).body =
    l.body.setValue p v) : RestoresValue l e fe p v ↔ (e = fe → v = l.body.lv p) := by
  rw [RestoresValue, kept]
  split
  · next same =>
      constructor
      · intro restored _
        have here := congrFun restored p
        simpa [LeafBody.setValue] using here
      · intro old
        rw [old same]
        exact Function.update_eq_self ..
  · next other => exact ⟨fun _ same => absurd same other, fun _ => rfl⟩

theorem restoresValue_again (none : NoEntry l.incll) (again : l.incll.loggedepoch = e) :
    RestoresValue l e fe p v ↔ (e = fe → v = l.body.lv p) := by
  obtain ⟨quiet, body⟩ := saveCl12Update_noEntry (p := p) none again
  refine restores_of_kept ?_
  rw [lazyRecovery_body, updated, undone_noEntry quiet, ite_self, body]

theorem restoresValue_first (none : NoEntry l.incll) (bound : p < leafWidth)
    (first : l.incll.loggedepoch ≠ e) :
    RestoresValue l e fe p v ↔ (e = fe → e < 128 ∨ v = l.body.lv p) := by
  obtain ⟨holds, tagged⟩ := holds_saveCl12Update first bound
  have clear := clear_saveCl12Update (p := p) first none
  have fields := saveCl12Update_first first p
  by_cases taken : e = fe ∧ e < 128
  · -- the entry is undone
    obtain ⟨rfl, small⟩ := taken
    refine iff_of_true ?_ fun _ => .inl small
    rw [RestoresValue, if_pos rfl, lazyRecovery_body, updated, if_pos fields.2.2.1.le,
      undone_value tagged fields.2.2.1 small holds clear, fields.1]
    funext q
    by_cases same : q = p
    · simp [LeafBody.setValue, same]
    · simp [LeafBody.setValue]
  · have kept : ((updated l e p v).lazyRecovery (fe + 1) fe).body = l.body.setValue p v := by
      rw [lazyRecovery_body, updated, fields.1]
      split
      · next low =>
          rw [fields.2.2.1] at low
          have cl0 : (l.saveCl12Update e p).1.incll.cl0Idx = invalidIdx := by
            rw [fields.2.2.2.2.1]
            exact none.cl0
          have tag : e % 128 ≠ fe := by omega
          rw [undone, if_neg fun h => h.2 cl0, if_neg, if_neg]
          · rintro ⟨epoch, valid⟩
            rw [tagged.cl2 valid, fields.2.2.1] at epoch
            exact tag epoch
          · rintro ⟨epoch, valid⟩
            rw [tagged.cl1 valid, fields.2.2.1] at epoch
            exact tag epoch
      · rfl
    rw [restores_of_kept kept]
    refine forall_congr' fun same => ?_
    have large : ¬ e < 128 := fun small => taken ⟨same, small⟩
    exact (or_iff_right large).symm

theorem value_restored_iff (none : NoEntry l.incll) (bound : p < leafWidth) :
    RestoresValue l e fe p v ↔
      (e = fe → (e < 128 ∧ l.incll.loggedepoch ≠ e) ∨ v = l.body.lv p) := by
  by_cases again : l.incll.loggedepoch = e
  · rw [restoresValue_again none again]
    simp [again]
  · rw [restoresValue_first none bound again]
    simp [again]

end tag

/-- A leaf that was made in epoch 0. -/
def oldLeaf : Leaf := ⟨.make 0, .make 0⟩

theorem oldLeaf_noEntry : NoEntry oldLeaf.incll := by constructor <;> decide

def someValue : Leafvalue := ⟨8#64, by decide⟩

theorem value_restored_iff_epoch_five :
    NoEntry oldLeaf.incll ∧ RestoresValue oldLeaf 5 5 9 someValue ∧
      RestoresValue oldLeaf 5 200 9 someValue :=
  ⟨oldLeaf_noEntry,
    (value_restored_iff oldLeaf_noEntry (by decide)).mpr fun _ => .inl (by decide),
    (value_restored_iff oldLeaf_noEntry (by decide)).mpr fun same => absurd same (by decide)⟩

/-- The tag of epoch 128 is 0. -/
theorem value_not_restored : NoEntry oldLeaf.incll ∧ ¬ RestoresValue oldLeaf 128 128 0 someValue := by
  refine ⟨oldLeaf_noEntry, fun restored => ?_⟩
  have old := (restoresValue_first oldLeaf_noEntry (by decide) (by decide)).mp restored rfl
  rcases old with small | same
  · exact absurd small (by decide)
  · exact absurd (congrArg Leafvalue.x same) (by decide)

/-! All changes of an epoch. -/

/-- A leaf in epoch `epoch`, with the images that were appended to the external log; `start` is its
content at the beginning of the epoch. -/
structure State where
  epoch : Nat
  start : LeafBody
  leaf : Leaf
  images : List Leaf

inductive Label where
  | update (p : Nat) (v : Leafvalue)
  | insert (k : Key) (v : Leafvalue) (i : Nat)
  | recordNode (write : LeafBody)

/-- The state after a logging call and the writes that follow it. -/
def State.logged (s : State) (r : Leaf × Option Leaf) (write : LeafBody) : State :=
  { s with leaf := { r.1 with body := write }, images := s.images ++ r.2.toList }

def step (s : State) : Label → Option State
  | .update p v =>
      if p < leafWidth then
        let r := s.leaf.saveCl12Update s.epoch p
        some (s.logged r (r.1.body.setValue p v))
      else none
  | .insert k v i =>
      if s.leaf.body.size < leafWidth then
        let r := s.leaf.saveCl0Insert s.epoch
        let p := r.1.body.permutation.back
        (r.1.body.assign p k false).map fun b =>
          let b := b.setValue p v
          s.logged r (b.publish i b)
      else none
  | .recordNode write => some (s.logged (s.leaf.recordNode s.epoch) write)

def machine : Machine State Label where
  initial s := s.epoch < 128 ∧ s.leaf.incll.loggedepoch < s.epoch ∧ NoEntry s.leaf.incll ∧
    PermValid s.start.permutation ∧ s.leaf.body = s.start ∧ s.images = []
  step := step

/-- The last image, if there is one, is copied back, and its entry of the epoch is undone. -/
def State.recovered (s : State) : Leaf :=
  (s.images.getLast?.getD s.leaf).undoIncll (s.epoch + 1) s.epoch

/-- The leaf is as it was; or its entry gives back what it was; or there is one image, and its entry
does. -/
inductive Phase (s : State) : Prop
  | untouched (old : s.leaf.incll.loggedepoch < s.epoch) (none : NoEntry s.leaf.incll)
      (same : s.leaf.body = s.start) (images : s.images = [])
  | incll (now : s.leaf.incll.loggedepoch = s.epoch) (waiting : s.leaf.incll.notLogged = true)
      (back : Agrees (undone s.epoch s.leaf.incll s.leaf.body) s.start) (images : s.images = [])
  | logged (now : s.leaf.incll.loggedepoch = s.epoch) (done : s.leaf.incll.notLogged = false)
      (image : Leaf) (back : Agrees (undone s.epoch image.incll image.body) s.start)
      (images : s.images = [image])

structure Inv (s : State) : Prop where
  small : s.epoch < 128
  valid : PermValid s.start.permutation
  phase : Phase s

theorem Phase.agrees {s : State} (phase : Phase s) : Agrees s.recovered.body s.start := by
  rw [State.recovered, undoIncll_body]
  cases phase with
  | untouched old none same images =>
      rw [images, List.getLast?_nil, Option.getD_none, undone_noEntry none, same]
      exact .refl _
  | incll now waiting back images =>
      rw [images, List.getLast?_nil, Option.getD_none]
      exact back
  | logged now done image back images =>
      rw [images, List.getLast?_singleton, Option.getD_some]
      exact back

/-- A logging call that is not the first one of the epoch. -/
theorem phase_again {s : State} {r : Leaf × Option Leaf} (phase : Phase s)
    (now : s.leaf.incll.loggedepoch = s.epoch)
    (call : r = if s.leaf.incll.notLogged = true then
      (afterLog s.epoch s.leaf, some (loggedImage s.leaf)) else (s.leaf, none))
    (write : LeafBody) : Phase (s.logged r write) := by
  cases phase with
  | untouched old none same images => exact absurd now old.ne
  | incll _ waiting back images =>
      rw [if_pos waiting] at call
      subst call
      refine .logged rfl rfl (loggedImage s.leaf) back ?_
      rw [State.logged, images]
      rfl
  | logged _ done image back images =>
      rw [if_neg (by rw [done]; exact Bool.false_ne_true)] at call
      subst call
      refine .logged now done image back ?_
      rw [State.logged, images]
      rfl

/-- The first logging call of an epoch, without an image. -/
theorem phase_first {s : State} {l : Leaf} {write : LeafBody} (images : s.images = [])
    (now : l.incll.loggedepoch = s.epoch) (waiting : l.incll.notLogged = true)
    (back : Agrees (undone s.epoch l.incll write) s.start) : Phase (s.logged (l, none) write) := by
  refine .incll now waiting back ?_
  rw [State.logged, images]
  rfl

/-- `assign` writes one entry and the suffixes. -/
theorem assign_entry {b b' : LeafBody} {p : Nat} {k : Key} {initializing : Bool}
    (h : b.assign p k initializing = some b') : ∃ ikey keylenx lv x ksuf iksuf,
      b' = { b.setEntry p ikey keylenx lv with extrasize64 := x, ksuf := ksuf, iksuf := iksuf } := by
  simp only [LeafBody.assign] at h
  split at h
  · simp only [LeafBody.assignKsuf] at h
    split at h
    · cases h
      exact ⟨_, _, _, _, _, _, rfl⟩
    · split at h
      · cases h
        exact ⟨_, _, _, _, _, _, rfl⟩
      · obtain ⟨bag, -, rfl⟩ := Option.map_eq_some_iff.mp h
        exact ⟨_, _, _, _, _, _, rfl⟩
  · cases h
    exact ⟨_, _, _, _, _, _, rfl⟩

/-- A new entry in a slot without one, behind the old permutation. -/
theorem agrees_inserted {b b' : LeafBody} {p i : Nat} {k : Key} {v : Leafvalue}
    (dead : p ∉ b.permutation.live) (assign : b.assign p k false = some b') :
    Agrees (((b'.setValue p v).publish i (b'.setValue p v)).setPermutation b.permutation) b := by
  obtain ⟨ikey, keylenx, lv, x, ksuf, iksuf, rfl⟩ := assign_entry assign
  have other {q : Nat} (live : q ∈ b.permutation.live) : q ≠ p := fun same => dead (same ▸ live)
  rw [publish_self]
  refine ⟨rfl, fun q live => ?_, fun q live => ?_, fun q live => ?_⟩
  · exact Function.update_of_ne (other live) ..
  · exact Function.update_of_ne (other live) ..
  · exact (Function.update_of_ne (other live) ..).trans (Function.update_of_ne (other live) ..)

theorem inv_step {s s' : State} {label : Label} (inv : Inv s) (h : step s label = some s') :
    Inv s' := by
  obtain ⟨small, valid, phase⟩ := inv
  have first {l : Leaf} (other : s.leaf.incll.loggedepoch ≠ s.epoch) (same : s.leaf = l) :
      NoEntry l.incll ∧ l.body = s.start ∧ s.images = [] := by
    subst same
    cases phase with
    | untouched old none same images => exact ⟨none, same, images⟩
    | incll now => exact absurd now other
    | logged now => exact absurd now other
  cases label with
  | update p v =>
      simp only [step, Option.ite_none_right_eq_some, Option.some.injEq] at h
      obtain ⟨bound, rfl⟩ := h
      refine ⟨small, valid, ?_⟩
      by_cases now : s.leaf.incll.loggedepoch = s.epoch
      · refine phase_again phase now ?_ _
        rw [Leaf.saveCl12Update, if_neg (not_not.mpr now), logAfterIncll_eq now]
      · obtain ⟨none, same, images⟩ := first now rfl
        have fields := saveCl12Update_first now p
        obtain ⟨holds, tagged⟩ := holds_saveCl12Update now bound
        have pair : s.leaf.saveCl12Update s.epoch p =
            ((s.leaf.saveCl12Update s.epoch p).1, Option.none) := Prod.ext rfl fields.2.1
        rw [pair]
        refine phase_first images fields.2.2.1 fields.2.2.2.1 ?_
        rw [undone_value tagged fields.2.2.1 small holds (clear_saveCl12Update now none),
          setValue_setValue, fields.1, setValue_self, same]
        exact .refl _
  | insert k v i =>
      simp only [step, Option.ite_none_right_eq_some, Option.map_eq_some_iff] at h
      obtain ⟨room, b, assign, rfl⟩ := h
      refine ⟨small, valid, ?_⟩
      by_cases now : s.leaf.incll.loggedepoch = s.epoch
      · refine phase_again phase now ?_ _
        rw [Leaf.saveCl0Insert, if_neg (not_not.mpr now), logAfterIncll_eq now]
      · obtain ⟨none, same, images⟩ := first now rfl
        have fields := saveCl0Insert_first now
        have ready := insertReady_saveCl0Insert now room
        have pair : s.leaf.saveCl0Insert s.epoch =
            ((s.leaf.saveCl0Insert s.epoch).1, Option.none) := Prod.ext rfl fields.2
        rw [pair]
        refine phase_first images ready.epoch ready.notLogged ?_
        have body : (s.leaf.saveCl0Insert s.epoch).1.body = s.leaf.body := by rw [fields.1]
        rw [body] at assign
        rw [undone_cl0 ready.epoch ready.valid, ready.copy, body, ← same]
        exact agrees_inserted ((same ▸ valid).back_not_live room) assign
  | recordNode write =>
      cases h
      refine ⟨small, valid, ?_⟩
      by_cases now : s.leaf.incll.loggedepoch = s.epoch
      · refine phase_again phase now ?_ _
        rw [recordNode_eq]
        simp [now]
      · obtain ⟨none, same, images⟩ := first now rfl
        rw [recordNode_eq, if_pos (.inl now)]
        refine .logged rfl rfl (loggedImage s.leaf) ?_ ?_
        · have quiet : NoEntry (loggedImage s.leaf).incll := ⟨none.cl0, none.cl1, none.cl2⟩
          rw [undone_noEntry quiet]
          show Agrees s.leaf.body s.start
          rw [same]
          exact .refl _
        · rw [State.logged, images]
          rfl

/-- After a crash at any time in the epoch. -/
theorem epoch_undone {s : State} (reachable : machine.Reachable Machine.anyStep s) :
    Agrees s.recovered.body s.start := by
  have inv : Inv s := by
    refine reachable.invariant ?_ fun _ _ _ inv _ h => inv_step inv h
    rintro s ⟨small, old, none, valid, same, images⟩
    exact ⟨small, valid, .untouched old none same images⟩
  exact inv.phase.agrees

/-- An update, an insertion that appends the image with the entry of the update, and one more update. -/
theorem epoch_undone_late_image : ∃ s : State, machine.Reachable Machine.anyStep s ∧
    s.images.length = 1 ∧ s.leaf.body.permutation ≠ s.start.permutation ∧
    Agrees s.recovered.body s.start := by
  have start : machine.Reachable Machine.anyStep ⟨5, .make 0, oldLeaf, []⟩ :=
    .initial ⟨by decide, by decide, oldLeaf_noEntry, ⟨by decide, by decide⟩, rfl, rfl⟩
  obtain ⟨s, reachable, view⟩ := start.exists_run
    [.update 3 someValue, .insert (.ofNat 20) someValue 0, .update 3 .empty]
    (fun s => s.images.length = 1 ∧ s.leaf.body.permutation.size ≠ s.start.permutation.size)
    (by decide)
  obtain ⟨images, size⟩ := of_decide_eq_true view
  exact ⟨s, reachable, images, fun same => size (congrArg Kpermuter.size same),
    epoch_undone reachable⟩

end Incll.Proof.Epoch
