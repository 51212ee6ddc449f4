import Incll.Proof.Tree.Walk

/-! # What a crash in the current epoch would leave of a node -/

namespace Incll.Proof.Tree
open Incll.Lib Incll.Model

variable {W : Type}

/-- The entries of the leaf after a crash in epoch `ge` and a visit. -/
def afterCrash (ge fe : Nat) (l : Leaf) : LeafBody :=
  undone ge (l.lazyRecovery ge fe).incll (l.lazyRecovery ge fe).body

theorem afterCrash_visited {ge fe : Nat} {l : Leaf} (visited : l.pending fe = false) :
    afterCrash ge fe l = undone ge l.incll l.body := by
  rw [afterCrash, lazyRecovery_of_not_pending visited]

theorem undone_recoverFinal (e ge : Nat) (c : Incll) (b : LeafBody) :
    undone e (c.recoverFinal ge) b = b := by
  simp [undone, Incll.recoverFinal, Incll.updateEpochs, Incll.invalidateCls]

theorem afterCrash_pending {ge fe : Nat} {l : Leaf} (pending : l.pending fe = true) :
    afterCrash ge fe l = undone fe l.incll l.body := by
  have low : l.incll.loggedepoch ≤ fe := by
    simp only [Leaf.pending, Bool.and_eq_true, decide_eq_true_eq] at pending
    exact pending.1
  rw [afterCrash, lazyRecovery_epoch pending, undone_recoverFinal, lazyRecovery_body, if_pos low]

theorem afterCrash_agrees {ge fe : Nat} {l l' : Leaf} (incll : l.incll = l'.incll)
    (perm : l.body.permutation = l'.body.permutation) (ikey0 : l.body.ikey0 = l'.body.ikey0)
    (keylenx : l.body.keylenx = l'.body.keylenx) (lv : l.body.lv = l'.body.lv) :
    Agrees (afterCrash ge fe l) (afterCrash ge fe l') := by
  have same : l.pending fe = l'.pending fe := pending_congr incll
  cases pending : l.pending fe with
  | false =>
      rw [afterCrash_visited pending, afterCrash_visited (same ▸ pending), incll]
      exact undone_agrees _ _ perm ikey0 keylenx lv
  | true =>
      rw [afterCrash_pending pending, afterCrash_pending (same ▸ pending), incll]
      exact undone_agrees _ _ perm ikey0 keylenx lv

/-- A leaf that was not logged in this epoch. -/
theorem afterCrash_old {ge fe : Nat} {l : Leaf} (visited : l.pending fe = false)
    (tagged : Tagged l.incll) (old : l.incll.loggedepoch < ge) (small : ge < 128) :
    afterCrash ge fe l = l.body := by
  rw [afterCrash_visited visited, undone_old tagged old small]

section ready
variable {ge fe : Nat} {l : Leaf} (epochs : fe < ge)
include epochs

theorem afterCrash_insertReady (ready : InsertReady ge l) (b : LeafBody) :
    afterCrash ge fe { l with body := b } = b.setPermutation l.body.permutation := by
  have visited : Leaf.pending fe { l with body := b } = false :=
    not_pending_of_epoch (by rw [ready.epoch]; exact epochs)
  rw [afterCrash_visited visited, undone_cl0 ready.epoch ready.valid, ready.copy]

theorem afterCrash_updateReady {p : Nat} (small : ge < 128) (ready : UpdateReady ge l p)
    (clear : ¬ Shadowed l.incll p) (b : LeafBody) :
    afterCrash ge fe { l with body := b } = b.setValue p (l.body.lv p) := by
  have visited : Leaf.pending fe { l with body := b } = false :=
    not_pending_of_epoch (by rw [ready.epoch]; exact epochs)
  rw [afterCrash_visited visited, undone_value ready.tagged ready.epoch small ready.holds clear]

end ready

/-- Branches of the operations that were not taken. -/
def Avoided (s : St W) (bad : List Hazard) : Prop := ∀ h ∈ bad, h ∉ s.hazards

theorem Avoided.before {s s' : St W} {bad : List Hazard} (avoided : Avoided s' bad)
    (grows : Grows s s') : Avoided s bad :=
  fun h member noted => avoided h member (grows.hazards.subset noted)

/-- A store that comes without a record keeps what a crash would leave. -/
theorem afterCrash_step {s : St W} {a : Addr} {l l' : Leaf} {f : Kind → Kind}
    (epochs : s.failedepoch < s.globalepoch) (small : s.globalepoch < 128)
    (sound : LeafSound s.globalepoch (s.isLogged a) (s.isRecorded a) l)
    (avoided : Avoided s [.staleEntry]) (step : KindStep s a (.leaf l) (.leaf l') f)
    (unlogged : s.isLogged a = false) :
    Agrees (afterCrash s.globalepoch s.failedepoch l')
      (afterCrash s.globalepoch s.failedepoch l) := by
  have clear {c : Incll} {p : Nat} (stale : Shadowed c p → .staleEntry ∈ s.hazards) :
      ¬ Shadowed c p := fun shadowed => avoided _ (by simp) (stale shadowed)
  generalize kind' : Kind.leaf l' = k' at step
  cases step with
  | visit =>
      cases kind'
      rw [afterCrash, lazyRecovery_idem]
      exact .refl _
  | saveInsert first visited =>
      cases kind'
      have old : l.incll.loggedepoch < s.globalepoch := Nat.lt_of_le_of_ne sound.epoch first
      have seen : (l.saveCl0Insert s.globalepoch).1.pending s.failedepoch = false := by
        rw [(saveCl0Insert_first first).1]
        exact not_pending_of_epoch epochs
      rw [afterCrash_old visited sound.tagged old small, afterCrash_visited seen,
        undone_saveCl0Insert first]
      exact .refl _
  | @saveUpdate _ p first visited slot stale =>
      cases kind'
      have old : l.incll.loggedepoch < s.globalepoch := Nat.lt_of_le_of_ne sound.epoch first
      have bound := sound.valid.permutation.live_lt slot
      have fields := saveCl12Update_first first p
      have ready := updateReady_saveCl12Update first bound slot
      have free : ¬ Shadowed (l.saveCl12Update s.globalepoch p).1.incll p := by
        rintro (active | ⟨high, active⟩)
        · rw [fields.2.2.2.2.1] at active
          exact clear stale (.inl active)
        · rw [fields.2.2.2.2.2.2 high] at active
          exact clear stale (.inr ⟨high, active⟩)
      have crash : afterCrash s.globalepoch s.failedepoch (l.saveCl12Update s.globalepoch p).1 =
          l.body := by
        refine (afterCrash_updateReady epochs small ready free _).trans ?_
        rw [setValue_self, fields.1]
      rw [afterCrash_old visited sound.tagged old small, crash]
      exact .refl _
  | entry ready assign =>
      cases kind'
      have dead := sound.valid.permutation.back_not_live ready.room
      have before := afterCrash_insertReady epochs ready l.body
      rw [afterCrash_insertReady epochs ready]
      exact before ▸ Agrees.copyEntry_dead dead _
  | value v ready =>
      cases kind'
      rcases ready with ⟨ready, rfl⟩ | ⟨ready, stale⟩
      · have dead := sound.valid.permutation.back_not_live ready.room
        have before := afterCrash_insertReady epochs ready l.body
        rw [afterCrash_insertReady epochs ready]
        exact before ▸ Agrees.setValue_dead dead v
      · have before := afterCrash_updateReady epochs small ready (clear stale) l.body
        rw [afterCrash_updateReady epochs small ready (clear stale), setValue_setValue]
        exact before ▸ .refl _
  | insert ready place =>
      cases kind'
      have before := afterCrash_insertReady epochs ready l.body
      rw [afterCrash_insertReady epochs ready, publish_self]
      exact before ▸ .refl _
  | @links _ g harmless =>
      cases kind'
      refine afterCrash_agrees ?_ ?_ ?_ ?_ ?_
      · rfl
      all_goals
        simp only
        rw [harmless]
  | body logged _ _ _ => simp [logged] at unlogged
  | parent p logged =>
      cases kind'
      exact afterCrash_agrees rfl rfl rfl rfl rfl

end Incll.Proof.Tree
