import Incll.Proof.Tree.Sample

/-! # No field of a checkpointed node is changed without a way back -/

namespace Incll.Proof.Tree
open Incll.Lib Incll.Model

variable {W : Type}

/-- The fields other than `modstate_`, `next_`, `prev_`, `parent_` and the logging words. -/
structure SameFields (b b' : LeafBody) : Prop where
  permutation : b'.permutation = b.permutation
  ikey0 : b'.ikey0 = b.ikey0
  keylenx : b'.keylenx = b.keylenx
  lv : b'.lv = b.lv
  extrasize64 : b'.extrasize64 = b.extrasize64
  ksuf : b'.ksuf = b.ksuf
  iksuf : b'.iksuf = b.iksuf

/-- The node was recorded or is new; or it is an internode that stays as it is; or it is a leaf with
the same parent and the same fields, or one whose in-cache-line entry gives back the permutation and
the entries of the checkpoint, with all suffixes still there. -/
inductive Covered (w : Write) : Prop
  | recorded (h : w.recorded = true)
  | new (h : w.saved = none)
  | internode (h : w.after = w.before)
  | leaf {l l' c : Leaf} (before : w.before = .leaf l) (after : w.after = .leaf l')
      (saved : w.saved = some (.leaf c)) (parent : l'.body.parent = l.body.parent)
      (fields : SameFields l.body l'.body ∨
        Agrees (undone w.globalepoch l'.incll l'.body) c.body ∧ KeepsKsuf l'.body c.body)

/-- What an unlogged node of the last checkpoint still holds. -/
def BackedKind (ge fe : Nat) : Kind → Kind → Prop
  | .leaf l, .leaf c => Agrees (afterCrash ge fe l) c.body ∧ KeepsKsuf l.body c.body ∧
      l.body.parent = c.body.parent
  | .internode i, .internode i₀ => i = i₀
  | _, _ => False

def Backed (s : St W) : Prop := ∀ a k₀, s.saved a = some k₀ → s.isRecorded a = false →
  ∃ k, kindAt s a = some k ∧ BackedKind s.globalepoch s.failedepoch k k₀

/-- The branches that change a parent which is not logged, and the one that leaves an older entry in
front of the new one. -/
def uncovered : List Hazard := [.collapse, .lockedChild, .staleEntry]

theorem afterCrash_ikey (ge fe : Nat) (l : Leaf) : (afterCrash ge fe l).keylenx = l.body.keylenx := by
  rw [afterCrash, undone_frame (·.keylenx) (fun _ _ => rfl) (fun _ _ _ => rfl)]
  exact lazyRecovery_frame (·.keylenx) (fun _ _ => rfl) (fun _ _ _ => rfl) ge fe l

theorem keepsKsuf_step {s : St W} {a : Addr} {l l' : Leaf} {c : LeafBody} {f : Kind → Kind}
    (epochs : s.failedepoch < s.globalepoch)
    (sound : LeafSound s.globalepoch (s.isLogged a) (s.isRecorded a) l)
    (step : KindStep s a (.leaf l) (.leaf l') f) (unlogged : s.isLogged a = false)
    (agrees : Agrees (afterCrash s.globalepoch s.failedepoch l) c) (keeps : KeepsKsuf l.body c) :
    KeepsKsuf l'.body c := by
  have same {b : LeafBody} (ksuf : b.ksuf = l.body.ksuf) (iksuf : b.iksuf = l.body.iksuf) :
      KeepsKsuf b c := by
    intro p live suffix
    rw [← keeps p live suffix]
    simp only [LeafBody.getKsuf, ksuf, iksuf]
  generalize kind' : Kind.leaf l' = k' at step
  cases step with
  | visit =>
      cases kind'
      exact same (lazyRecovery_frame (·.ksuf) (fun _ _ => rfl) (fun _ _ _ => rfl) ..)
        (lazyRecovery_frame (·.iksuf) (fun _ _ => rfl) (fun _ _ _ => rfl) ..)
  | saveInsert first visited =>
      cases kind'
      rw [(saveCl0Insert_first first).1]
      exact keeps
  | @saveUpdate _ p first visited slot stale =>
      cases kind'
      rw [(saveCl12Update_first first p).1]
      exact keeps
  | entry ready assign =>
      cases kind'
      intro p live suffix
      have crash := afterCrash_insertReady epochs ready l.body
      have perm : c.permutation = l.body.permutation := by
        rw [← agrees.permutation]
        exact congrArg LeafBody.permutation crash
      have live' : p ∈ l.body.permutation.live := perm ▸ live
      have dead := sound.valid.permutation.back_not_live ready.room
      have suffix' : l.body.hasKsuf p = true := by
        have len := agrees.keylenx p (by rw [agrees.permutation]; exact live)
        rw [afterCrash_ikey] at len
        simpa only [LeafBody.hasKsuf, len] using suffix
      have other : p ≠ l.body.permutation.back := fun same => dead (same ▸ live')
      rw [← keeps p live suffix]
      exact (assign_spec sound.valid assign).2 rfl p live' other suffix'
  | value v ready =>
      cases kind'
      exact same rfl rfl
  | insert ready place =>
      cases kind'
      exact same rfl rfl
  | links harmless =>
      cases kind'
      apply same <;> simp only <;> rw [harmless]
  | body logged _ _ _ => simp [logged] at unlogged
  | parent p logged =>
      cases kind'
      exact same rfl rfl

theorem parent_step {s : St W} {a : Addr} {l l' : Leaf} {f : Kind → Kind}
    (avoided : Avoided s uncovered) (step : KindStep s a (.leaf l) (.leaf l') f)
    (unlogged : s.isLogged a = false) : l'.body.parent = l.body.parent := by
  generalize kind' : Kind.leaf l' = k' at step
  cases step with
  | visit =>
      cases kind'
      exact lazyRecovery_frame (·.parent) (fun _ _ => rfl) (fun _ _ _ => rfl) ..
  | saveInsert first visited =>
      cases kind'
      rw [(saveCl0Insert_first first).1]
  | @saveUpdate _ p first visited slot stale =>
      cases kind'
      rw [(saveCl12Update_first first p).1]
  | entry ready assign => cases kind'; rfl
  | value v ready => cases kind'; rfl
  | insert ready place => cases kind'; rfl
  | links harmless =>
      cases kind'
      simp only
      rw [harmless]
  | body logged _ _ _ => simp [logged] at unlogged
  | parent p logged =>
      rcases logged with logged | noted | noted
      · simp [logged] at unlogged
      · exact absurd noted (avoided _ (by simp [uncovered]))
      · exact absurd noted (avoided _ (by simp [uncovered]))

theorem backedKind_step {s : St W} {a : Addr} {k k' k₀ : Kind} {f : Kind → Kind}
    (epochs : s.failedepoch < s.globalepoch) (small : s.globalepoch < 128)
    (sound : KindSound s.globalepoch (s.isLogged a) (s.isRecorded a) k)
    (avoided : Avoided s uncovered) (step : KindStep s a k k' f) (unlogged : s.isLogged a = false)
    (backed : BackedKind s.globalepoch s.failedepoch k k₀) :
    BackedKind s.globalepoch s.failedepoch k' k₀ := by
  have fresh : Avoided s [.staleEntry] := by
    intro h member
    exact avoided h (by simp only [uncovered, List.mem_cons] at *; tauto)
  cases k with
  | leaf l =>
      obtain ⟨l', rfl⟩ : ∃ l', k' = .leaf l' := by
        cases step <;> exact ⟨_, rfl⟩
      cases k₀ with
      | leaf c =>
          obtain ⟨agrees, keeps, parent⟩ := backed
          have crash := afterCrash_step epochs small sound fresh step unlogged
          exact ⟨crash.trans agrees, keepsKsuf_step epochs sound step unlogged agrees keeps,
            (parent_step avoided step unlogged).trans parent⟩
      | internode i => exact backed
  | internode i =>
      cases step with
      | internode logged same => simp [logged] at unlogged
      | parent p logged =>
          rcases logged with logged | noted | noted
          · simp [logged] at unlogged
          · exact absurd noted (avoided _ (by simp [uncovered]))
          · exact absurd noted (avoided _ (by simp [uncovered]))

theorem isLogged_eq_false {s : St W} {a : Addr} {k₀ : Kind} (saved : s.saved a = some k₀)
    (unrecorded : s.isRecorded a = false) : s.isLogged a = false := by
  simp [St.isLogged, saved, unrecorded]

/-- Only the links of a leaf that still waits for its visit are written. -/
theorem sameFields_of_pending {s : St W} {a : Addr} {l l' : Leaf} {f : Kind → Kind}
    (epochs : s.failedepoch < s.globalepoch) (step : KindStep s a (.leaf l) (.leaf l') f)
    (pending : l'.pending s.failedepoch = true) : SameFields l.body l'.body := by
  have absurd_of {l₁ : Leaf} (now : l₁.incll.loggedepoch = s.globalepoch)
      (waiting : l₁.pending s.failedepoch = true) : False := by
    rw [not_pending_of_epoch (now ▸ epochs)] at waiting
    cases waiting
  generalize kind' : Kind.leaf l' = k' at step
  cases step with
  | visit =>
      cases kind'
      rw [not_pending_lazyRecovery] at pending
      cases pending
  | saveInsert first visited =>
      cases kind'
      refine (absurd_of ?_ pending).elim
      rw [(saveCl0Insert_first first).1]
      rfl
  | @saveUpdate _ p first visited slot stale =>
      cases kind'
      exact (absurd_of (saveCl12Update_first first p).2.2.1 pending).elim
  | entry ready assign =>
      cases kind'
      exact (absurd_of ready.epoch pending).elim
  | value v ready =>
      cases kind'
      exact (absurd_of (ready.elim (·.1.epoch) (·.1.epoch)) pending).elim
  | insert ready place =>
      cases kind'
      exact (absurd_of ready.epoch pending).elim
  | links harmless =>
      cases kind'
      constructor
      all_goals
        simp only
        rw [harmless]
  | body logged visited _ _ =>
      cases kind'
      have waiting : l.pending s.failedepoch = true := pending
      rw [visited] at waiting
      cases waiting
  | parent p logged =>
      cases kind'
      exact ⟨rfl, rfl, rfl, rfl, rfl, rfl, rfl⟩

variable [NodeImage W]

theorem backed_micro {s s' : St W} (sound : Sound s) (small : s.globalepoch < 128)
    (avoided : Avoided s' uncovered) (h : Micro s s') (backed : Backed s) : Backed s' := by
  have grows := h.grows
  have before := avoided.before grows
  intro a k₀ saved unrecorded
  rw [grows.saved] at saved
  have unrecorded₀ : s.isRecorded a = false := by
    by_contra recorded
    rw [Bool.not_eq_false] at recorded
    rw [grows.isRecorded recorded] at unrecorded
    cases unrecorded
  obtain ⟨k, here, backedKind⟩ := backed a k₀ saved unrecorded₀
  obtain ⟨k', here'⟩ := Option.isSome_iff_exists.mp (h.persists (a := a) (by simp [here]))
  refine ⟨k', here', ?_⟩
  rw [grows.globalepoch, grows.failedepoch]
  have same {k₁ : Kind} (at_a : kindAt s a = some k₁) : k₁ = k :=
    Option.some.inj (at_a.symm.trans here)
  cases h.at here' with
  | same at_a _ _ => exact same at_a ▸ backedKind
  | new fresh _ _ _ _ =>
      have := sound.below a (by simp [here])
      rw [fresh] at this
      exact absurd this (Nat.lt_irrefl _)
  | write at_a step _ _ =>
      cases same at_a
      exact backedKind_step sound.epochs small (sound.kind a _ here) before step
        (isLogged_eq_false saved unrecorded₀) backedKind
  | log _ _ _ recorded =>
      rw [recorded] at unrecorded
      cases unrecorded

omit [NodeImage W] in
/-- The write of a single step. -/
theorem covered_step {s : St W} {a : Addr} {k k' : Kind} {f : Kind → Kind} (sound : Sound s)
    (small : s.globalepoch < 128) (avoided : Avoided s uncovered) (backed : Backed s)
    (here : kindAt s a = some k) (step : KindStep s a k k' f) :
    Covered ⟨a, k, k', s.saved a, s.isRecorded a, s.globalepoch, s.failedepoch⟩ := by
  cases recorded : s.isRecorded a with
  | true => exact .recorded rfl
  | false =>
      cases saved : s.saved a with
      | none => exact .new rfl
      | some k₀ =>
          have unlogged := isLogged_eq_false saved recorded
          obtain ⟨k₁, at_a, backedKind⟩ := backed a k₀ saved recorded
          cases Option.some.inj (at_a.symm.trans here)
          have backed' := backedKind_step sound.epochs small (sound.kind a _ here) avoided step
            unlogged backedKind
          cases k with
          | internode i =>
              cases k' <;> cases k₀ <;> simp only [BackedKind] at backed' backedKind
              exact .internode (by rw [backed', backedKind])
          | leaf l =>
              obtain ⟨l', rfl⟩ : ∃ l', k' = .leaf l' := by
                cases step <;> exact ⟨_, rfl⟩
              cases k₀ with
              | internode i => exact absurd backed' id
              | leaf c =>
                  have parent := parent_step avoided step unlogged
                  refine .leaf rfl rfl rfl parent ?_
                  cases pending : l'.pending s.failedepoch with
                  | true => exact .inl (sameFields_of_pending sound.epochs step pending)
                  | false =>
                      right
                      rw [← afterCrash_visited pending]
                      exact ⟨backed'.1, backed'.2.1⟩

theorem covered_micro {s s' : St W} (sound : Sound s) (small : s.globalepoch < 128)
    (avoided : Avoided s' uncovered) (h : Micro s s') (backed : Backed s)
    (covered : ∀ w ∈ s.writes, Covered w) : ∀ w ∈ s'.writes, Covered w := by
  intro w member
  rcases h.writes member with old | ⟨a, k, k', f, here, -, ⟨step, rfl⟩ | ⟨image, step, rfl⟩⟩
  · exact covered w old
  · exact covered_step sound small (avoided.before h.grows) backed here step
  · exact .recorded rfl

/-- The invariant of a run. -/
structure CoverInv (s : St W) : Prop where
  sound : Sound s
  small : s.globalepoch < 128
  backed : Backed s
  covered : ∀ w ∈ s.writes, Covered w

theorem coverInv_steps {s s' : St W} (inv : CoverInv s) (h : Steps s s')
    (avoided : Avoided s' uncovered) : CoverInv s' := by
  induction h with
  | refl => exact inv
  | tail _ micro ih =>
      have inv' := ih (avoided.before micro.grows)
      exact ⟨sound_micro inv'.sound micro, micro.grows.globalepoch ▸ inv'.small,
        backed_micro inv'.sound inv'.small avoided micro inv'.backed,
        covered_micro inv'.sound inv'.small avoided micro inv'.backed inv'.covered⟩

omit [NodeImage W] in
theorem backed_checkpointed {s : St W} (h : Checkpointed s) (small : s.globalepoch < 128) :
    Backed s := by
  intro a k₀ saved _
  rw [h.saved, recovered_eq] at saved
  obtain ⟨k, here, rfl⟩ := Option.map_eq_some_iff.mp saved
  refine ⟨k, here, ?_⟩
  cases k with
  | internode i => rfl
  | leaf l =>
      have sound := h.sound.leaf here
      have visit := sound.visit h.epochs
      have frame {α : Type} (g : LeafBody → α) (perm : ∀ b p, g (b.setPermutation p) = g b)
          (lv : ∀ b p v, g (b.setValue p v) = g b) :
          g (l.lazyRecovery s.globalepoch s.failedepoch).body = g l.body :=
        lazyRecovery_frame g perm lv ..
      refine ⟨?_, ?_, (frame (·.parent) (fun _ _ => rfl) fun _ _ _ => rfl).symm⟩
      · have old : (l.lazyRecovery s.globalepoch s.failedepoch).incll.loggedepoch <
            s.globalepoch := by
          have epochs := h.epochs
          cases pending : l.pending s.failedepoch with
          | false =>
              rw [lazyRecovery_of_not_pending pending]
              exact (h.leaf a l here).1
          | true =>
              rw [lazyRecovery_epoch pending]
              simp only [Incll.recoverFinal, Incll.updateEpochs]
              omega
        rw [afterCrash, undone_old visit.tagged old small]
        exact .refl _
      · intro p _ _
        simp only [LeafBody.getKsuf, frame (·.ksuf) (fun _ _ => rfl) fun _ _ _ => rfl,
          frame (·.iksuf) (fun _ _ => rfl) fun _ _ _ => rfl]

theorem coverInv_of_reachable {s : St W}
    (reachable : (operations W).Reachable (Avoids uncovered · · = true) s) : CoverInv s := by
  refine reachable.invariant ?_ ?_
  · rintro s ⟨checkpointed, small, writes, -⟩
    refine ⟨checkpointed.sound, small, backed_checkpointed checkpointed small, ?_⟩
    simp [writes]
  · intro s l s' inv avoids h
    obtain ⟨small, avoided⟩ := avoids_iff avoids h
    by_cases advance : l = .advance
    · subst advance
      have state := step_advance h
      have checkpointed := checkpointed_advanced inv.sound
      subst state
      exact ⟨checkpointed.sound, small, backed_checkpointed checkpointed small, inv.covered⟩
    · exact coverInv_steps inv (exec_steps inv.sound advance h) avoided

/-- Node 2 has the children 3 and 4. -/
def chain : List Sample :=
  [.internode 2 [100] [2, 5] 0, .internode 1 [50] [3, 4] 1, .leaf (.make 1) [10] 2 0 4,
    .leaf (.make 1) [50] 2 3 5, .leaf (.make 1) [100] 1 4 0]

def parentLost (w : Write) : Bool :=
  !w.recorded && w.saved.isSome && w.before.parent != w.after.parent

theorem not_covered_of_parentLost {w : Write} (lost : parentLost w = true) : ¬ Covered w := by
  simp only [parentLost, Bool.and_eq_true, Bool.not_eq_true', bne_iff_ne] at lost
  obtain ⟨⟨unrecorded, saved⟩, moved⟩ := lost
  intro covered
  cases covered with
  | recorded h => simp [h] at unrecorded
  | new h => simp [h] at saved
  | internode h => exact moved (by rw [h])
  | leaf before after _ parent _ =>
      rw [before, after] at moved
      exact moved parent.symm

end Incll.Proof.Tree
