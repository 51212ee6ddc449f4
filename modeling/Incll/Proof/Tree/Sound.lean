import Incll.Proof.Tree.Micro

/-! # Facts that every change keeps -/

namespace Incll.Proof.Tree
open Incll.Lib Incll.Model

variable {W : Type}

/-- The logging words of a leaf in epoch `ge`. -/
structure LeafSound (ge : Nat) (logged recorded : Bool) (l : Leaf) : Prop where
  epoch : l.incll.loggedepoch ≤ ge
  tagged : Tagged l.incll
  valid : BodyValid l.body
  copy : l.incll.cl0Idx ≠ invalidIdx → PermValid l.incll.permCl0
  logged : l.incll.loggedepoch = ge → l.incll.notLogged = false → logged = true
  recorded : recorded = true → l.incll.loggedepoch = ge ∧ l.incll.notLogged = false

structure InternodeSound (ge : Nat) (logged recorded : Bool) (i : Internode) : Prop where
  epoch : i.loggedepoch ≤ ge
  logged : i.loggedepoch = ge → logged = true
  recorded : recorded = true → i.loggedepoch = ge

def KindSound (ge : Nat) (logged recorded : Bool) : Kind → Prop
  | .leaf l => LeafSound ge logged recorded l
  | .internode i => InternodeSound ge logged recorded i

/-- A node that carries the current epoch is logged or new. -/
structure Sound (s : St W) : Prop where
  epochs : s.failedepoch < s.globalepoch
  kind : ∀ a k, kindAt s a = some k → KindSound s.globalepoch (s.isLogged a) (s.isRecorded a) k
  old : ∀ a, (s.saved a).isSome → a < s.fresh
  below : ∀ a, (kindAt s a).isSome → a < s.fresh
  null : kindAt s 0 = none
  positive : 0 < s.fresh

theorem Sound.leaf {s : St W} (sound : Sound s) {a : Addr} {l : Leaf}
    (here : kindAt s a = some (.leaf l)) :
    LeafSound s.globalepoch (s.isLogged a) (s.isRecorded a) l := sound.kind a _ here

theorem Sound.internode {s : St W} (sound : Sound s) {a : Addr} {i : Internode}
    (here : kindAt s a = some (.internode i)) :
    InternodeSound s.globalepoch (s.isLogged a) (s.isRecorded a) i := sound.kind a _ here

/-- A body that takes the place of another one, with the same logging words. -/
theorem LeafSound.setBody {ge : Nat} {logged recorded : Bool} {l : Leaf}
    (sound : LeafSound ge logged recorded l) {b : LeafBody} (valid : BodyValid b) :
    LeafSound ge logged recorded { l with body := b } :=
  ⟨sound.epoch, sound.tagged, valid, sound.copy, sound.logged, sound.recorded⟩

theorem LeafSound.visit {ge fe : Nat} {logged recorded : Bool} {l : Leaf} (epochs : fe < ge)
    (sound : LeafSound ge logged recorded l) :
    LeafSound ge logged recorded (l.lazyRecovery ge fe) := by
  cases pending : l.pending fe with
  | false => rwa [lazyRecovery_of_not_pending pending]
  | true =>
      have words : (l.lazyRecovery ge fe).incll = l.incll.recoverFinal ge :=
        lazyRecovery_epoch pending
      have low : l.incll.loggedepoch ≤ fe := by
        simp only [Leaf.pending, Bool.and_eq_true, decide_eq_true_eq] at pending
        exact pending.1
      refine ⟨?_, ?_, ⟨?_, ?_, ?_⟩, ?_, ?_, ?_⟩
      · rw [words]
        exact Nat.sub_le ..
      · rw [words]
        exact tagged_updateEpochs ..
      · rcases lazyRecovery_permutation ge fe l with same | ⟨same, active⟩
        · rw [same]
          exact sound.valid.permutation
        · rw [same]
          exact sound.copy active
      · have same := lazyRecovery_frame (·.iksuf) (fun _ _ => rfl) (fun _ _ _ => rfl) ge fe l
        exact same ▸ sound.valid.iksuf
      · have same := lazyRecovery_frame (·.ksuf) (fun _ _ => rfl) (fun _ _ _ => rfl) ge fe l
        rw [same]
        exact sound.valid.ksuf
      · rw [words]
        exact fun active => absurd rfl active
      · rw [words]
        intro epoch
        simp only [Incll.recoverFinal, Incll.updateEpochs] at epoch
        omega
      · intro recorded
        have := (sound.recorded recorded).1
        omega

theorem setParent_valid {b : LeafBody} (valid : BodyValid b) (p : Addr) :
    BodyValid { b with parent := p } := ⟨valid.permutation, valid.iksuf, valid.ksuf⟩

theorem setValue_valid {b : LeafBody} (valid : BodyValid b) (p : Nat) (v : Leafvalue) :
    BodyValid (b.setValue p v) := ⟨valid.permutation, valid.iksuf, valid.ksuf⟩

theorem setPermutation_valid {b : LeafBody} (valid : BodyValid b) {perm : Kpermuter}
    (permutation : PermValid perm) : BodyValid (b.setPermutation perm) :=
  ⟨permutation, valid.iksuf, valid.ksuf⟩

theorem harmless_valid {b : LeafBody} {f : LeafBody → LeafBody} (harmless : Harmless f)
    (valid : BodyValid b) : BodyValid (f b) := by
  rw [harmless b]
  exact ⟨valid.permutation, valid.iksuf, valid.ksuf⟩

theorem kindSound_step {s : St W} (epochs : s.failedepoch < s.globalepoch) {a : Addr} {k k' : Kind}
    {f : Kind → Kind} (step : KindStep s a k k' f)
    (sound : KindSound s.globalepoch (s.isLogged a) (s.isRecorded a) k) :
    KindSound s.globalepoch (s.isLogged a) (s.isRecorded a) k' := by
  cases step with
  | visit => exact LeafSound.visit epochs sound
  | saveInsert first visited =>
      rw [(saveCl0Insert_first first).1]
      refine ⟨le_rfl, ⟨(tagged_updateEpochs ..).cl1, (tagged_updateEpochs ..).cl2⟩, sound.valid,
        fun _ => sound.valid.permutation, ?_, ?_⟩
      · exact fun _ waiting => nomatch waiting
      · exact fun recorded => absurd (sound.recorded recorded).1 first
  | @saveUpdate l p first visited slot stale =>
      have fields := saveCl12Update_first first p
      have ready := updateReady_saveCl12Update first (sound.valid.permutation.live_lt slot) slot
      refine ⟨ready.epoch.le, ready.tagged, ?_, ?_, ?_, ?_⟩
      · rw [fields.1]
        exact sound.valid
      · rw [fields.2.2.2.2.1, fields.2.2.2.2.2.1]
        exact sound.copy
      · rw [ready.notLogged]
        exact fun _ waiting => nomatch waiting
      · exact fun recorded => absurd (sound.recorded recorded).1 first
  | entry ready assign =>
      exact sound.setBody (copyEntry_valid sound.valid (assign_spec sound.valid assign).1.valid)
  | value v ready => exact sound.setBody (setValue_valid sound.valid ..)
  | insert ready place =>
      rw [publish_self]
      exact sound.setBody (setPermutation_valid sound.valid
        (sound.valid.permutation.insertFromBack place ready.room))
  | links harmless => exact sound.setBody (harmless_valid harmless sound.valid)
  | body logged visited valid agrees => exact sound.setBody (valid sound.valid)
  | @internode i f logged same => exact ⟨same ▸ sound.epoch, fun _ => logged, same ▸ sound.recorded⟩
  | parent p logged =>
      cases k with
      | leaf l => exact LeafSound.setBody sound (setParent_valid sound.valid p)
      | internode i => exact ⟨sound.epoch, sound.logged, sound.recorded⟩

theorem kindSound_log {s : St W} {k image k' : Kind} {f : Kind → Kind} {logged recorded : Bool}
    (step : LogStep s k image k' f) (sound : KindSound s.globalepoch logged recorded k) :
    KindSound s.globalepoch true true k' := by
  cases step with
  | leaf due visited =>
      refine ⟨le_rfl, ?_, sound.valid, fun active => absurd rfl active, fun _ _ => rfl,
        fun _ => ⟨rfl, rfl⟩⟩
      apply tagged_of_invalid <;> simp [afterLog, Incll.invalidateCls]
  | internode due => exact ⟨le_rfl, fun _ => rfl, fun _ => rfl⟩

theorem kindSound_new {s : St W} {k : Kind} (new : NewNode s k) (recorded : Bool) :
    KindSound s.globalepoch true recorded k := by
  cases new with
  | leaf valid =>
      refine ⟨le_rfl, ?_, valid, fun active => absurd rfl active, fun _ _ => rfl,
        fun _ => ⟨rfl, rfl⟩⟩
      apply tagged_of_invalid <;> simp [Incll.make, IncllLv.make]
  | internode epoch => exact ⟨epoch.le, fun _ => rfl, fun _ => epoch⟩

theorem Sound.new_logged {s : St W} (sound : Sound s) : s.isLogged s.fresh = true := by
  have none : (s.saved s.fresh).isSome = false := by
    by_contra old
    rw [Bool.not_eq_false] at old
    exact absurd (sound.old s.fresh old) (Nat.lt_irrefl _)
  simp only [St.isLogged, Bool.or_eq_true]
  left
  simpa using none

variable [NodeImage W]

theorem sound_micro {s s' : St W} (sound : Sound s) (h : Micro s s') : Sound s' := by
  have grows := h.grows
  have logged {a : Addr} (same : s'.isRecorded a = s.isRecorded a) :
      s'.isLogged a = s.isLogged a := by
    simp only [St.isLogged, grows.saved, same]
  constructor
  · rw [grows.failedepoch, grows.globalepoch]
    exact sound.epochs
  · intro a k' here
    rw [grows.globalepoch]
    cases h.at here with
    | same old _ recorded =>
        rw [logged recorded, recorded]
        exact sound.kind a k' old
    | new fresh node _ _ _ =>
        rw [fresh, grows.isLogged sound.new_logged]
        exact kindSound_new node _
    | write old step _ recorded =>
        rw [logged recorded, recorded]
        exact kindSound_step sound.epochs step (sound.kind a _ old)
    | log old step _ recorded =>
        have covered : s'.isLogged a = true := by simp [St.isLogged, recorded]
        rw [covered, recorded]
        exact kindSound_log step (sound.kind a _ old)
  · intro a old
    rw [grows.saved] at old
    exact Nat.lt_of_lt_of_le (sound.old a old) grows.fresh
  · intro a here
    obtain ⟨k', here⟩ := Option.isSome_iff_exists.mp here
    have old {k : Kind} (old : kindAt s a = some k) : a < s'.fresh :=
      Nat.lt_of_lt_of_le (sound.below a (by simp [old])) grows.fresh
    cases h.at here with
    | same before _ _ => exact old before
    | write before _ _ _ => exact old before
    | log before _ _ _ => exact old before
    | new here _ _ _ fresh =>
        rw [here, fresh]
        exact Nat.lt_succ_self _
  · rw [Option.eq_none_iff_forall_ne_some]
    intro k here
    have null {k : Kind} (old : kindAt s 0 = some k) : False := by
      rw [sound.null] at old
      cases old
    cases h.at here with
    | same before _ _ => exact null before
    | write before _ _ _ => exact null before
    | log before _ _ _ => exact null before
    | new here _ _ _ _ => exact Nat.ne_of_lt sound.positive here
  · exact Nat.lt_of_lt_of_le sound.positive grows.fresh

theorem sound_steps {s s' : St W} (sound : Sound s) (h : Steps s s') : Sound s' := by
  induction h with
  | refl => exact sound
  | tail _ micro ih => exact sound_micro ih micro

/-! Leaves that were visited. -/

/-- The leaf at `a`, if there is one, was visited since the restart. -/
def Visited (s : St W) (a : Addr) : Prop :=
  ∀ l, kindAt s a = some (.leaf l) → l.pending s.failedepoch = false

theorem pending_congr {fe : Nat} {l l' : Leaf} (same : l'.incll = l.incll) :
    l'.pending fe = l.pending fe := by
  simp only [Leaf.pending, Leaf.holdsEntry, same]

omit [NodeImage W] in
theorem visited_step {s : St W} (epochs : s.failedepoch < s.globalepoch) {a : Addr} {k : Kind}
    {l' : Leaf} {f : Kind → Kind} (step : KindStep s a k (.leaf l') f)
    (visited : ∀ l, k = .leaf l → l.pending s.failedepoch = false) :
    l'.pending s.failedepoch = false := by
  have keeps {l l' : Leaf} (leaf : k = .leaf l) (words : l'.incll = l.incll) :
      l'.pending s.failedepoch = false := (pending_congr words).trans (visited l leaf)
  generalize same : Kind.leaf l' = k' at step
  cases step with
  | visit =>
      cases same
      exact not_pending_lazyRecovery ..
  | saveInsert first _ =>
      cases same
      rw [(saveCl0Insert_first first).1]
      exact not_pending_of_epoch epochs
  | @saveUpdate l p first _ slot stale =>
      cases same
      refine not_pending_of_epoch ?_
      rw [(saveCl12Update_first first p).2.2.1]
      exact epochs
  | entry ready assign =>
      cases same
      exact keeps rfl rfl
  | value v ready =>
      cases same
      exact keeps rfl rfl
  | insert ready place =>
      cases same
      exact keeps rfl rfl
  | links harmless =>
      cases same
      exact keeps rfl rfl
  | body logged _ valid agrees =>
      cases same
      exact keeps rfl rfl
  | internode logged _ => cases same
  | parent p logged =>
      cases k with
      | leaf l =>
          cases same
          exact keeps rfl rfl
      | internode i => cases same

theorem visited_micro {s s' : St W} (epochs : s.failedepoch < s.globalepoch) (h : Micro s s')
    {a : Addr} (visited : Visited s a) : Visited s' a := by
  intro l' here
  rw [h.grows.failedepoch]
  cases h.at here with
  | same old _ _ => exact visited l' old
  | new _ node _ _ _ =>
      cases node
      exact not_pending_of_epoch epochs
  | write old step _ _ =>
      refine visited_step epochs step fun l leaf => visited l ?_
      rw [old, leaf]
  | log old step _ _ =>
      cases step
      exact not_pending_of_epoch epochs

theorem visited_steps {s s' : St W} (sound : Sound s) (h : Steps s s') {a : Addr}
    (visited : Visited s a) : Visited s' a := by
  induction h with
  | refl => exact visited
  | tail first micro ih => exact visited_micro (sound_steps sound first).epochs micro ih

end Incll.Proof.Tree
