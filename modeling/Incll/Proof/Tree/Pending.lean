import Incll.Proof.Tree.Sample

/-! # An entry of the failed epoch stays until the leaf is visited -/

namespace Incll.Proof.Tree
open Incll.Lib Incll.Model

variable {W : Type}

/-- A store to a leaf with an entry of the failed epoch undoes that entry, or leaves the logging
words, the permutation and the values alone. -/
def Kept (w : Write) : Prop :=
  ∀ l, w.before = .leaf l → l.holdsEntry w.failedepoch = true → ∃ l', w.after = .leaf l' ∧
    (l' = l.undoIncll w.globalepoch w.failedepoch ∨ l'.incll = l.incll ∧
      l'.body.permutation = l.body.permutation ∧ l'.body.lv = l.body.lv)

/-- No image in the log holds such an entry. -/
def ImagesVisited (s : St W) : Prop :=
  ∀ r ∈ s.recorded, ∀ l, r.2.kind = .leaf l → l.holdsEntry s.failedepoch = false

theorem pending_eq_holdsEntry {ge fe : Nat} {logged recorded : Bool} {l : Leaf}
    (sound : LeafSound ge logged recorded l) (small : ge < 128) :
    l.pending fe = l.holdsEntry fe := by
  have epoch := sound.epoch
  have whole : l.incll.loggedepoch % 128 = l.incll.loggedepoch := by omega
  have tagged := sound.tagged
  cases entry : l.holdsEntry fe with
  | false => simp [Leaf.pending, entry]
  | true =>
      have low : l.incll.loggedepoch ≤ fe := by
        simp only [Leaf.holdsEntry, Bool.or_eq_true, Bool.and_eq_true, beq_iff_eq] at entry
        rcases entry with (⟨same, -⟩ | ⟨same, valid⟩) | ⟨same, valid⟩
        · exact same.le
        · rw [← same, tagged.cl1 valid, whole]
        · rw [← same, tagged.cl2 valid, whole]
      simp [Leaf.pending, entry, low]

theorem kept_step {s : St W} {a : Addr} {k k' : Kind} {f : Kind → Kind} {recorded : Bool}
    (sound : Sound s) (small : s.globalepoch < 128) (here : kindAt s a = some k)
    (step : KindStep s a k k' f) :
    Kept ⟨a, k, k', s.saved a, recorded, s.globalepoch, s.failedepoch⟩ := by
  rintro l rfl entry
  have pending : l.pending s.failedepoch = true := by
    rw [pending_eq_holdsEntry (sound.leaf here) small]
    exact entry
  have low : l.incll.loggedepoch ≤ s.failedepoch := by
    simp only [Leaf.pending, Bool.and_eq_true, decide_eq_true_eq] at pending
    exact pending.1
  have late (now : l.incll.loggedepoch = s.globalepoch) : False := by
    have := sound.epochs
    omega
  have seen (visited : l.pending s.failedepoch = false) : False := by
    rw [pending] at visited
    cases visited
  cases step with
  | visit => exact ⟨_, rfl, .inl (by rw [Leaf.lazyRecovery, if_pos low])⟩
  | saveInsert first visited => exact (seen visited).elim
  | saveUpdate first visited slot stale => exact (seen visited).elim
  | entry ready assign => exact (late ready.epoch).elim
  | value v ready => exact (late (ready.elim (·.1.epoch) (·.1.epoch))).elim
  | insert ready place => exact (late ready.epoch).elim
  | links harmless =>
      refine ⟨_, rfl, .inr ⟨rfl, ?_, ?_⟩⟩
      all_goals
        simp only
        rw [harmless]
  | body logged visited valid agrees => exact (seen visited).elim
  | parent p logged => exact ⟨_, rfl, .inr ⟨rfl, rfl, rfl⟩⟩

theorem image_visited {s : St W} {a : Addr} {k image k' : Kind} {f : Kind → Kind} (sound : Sound s)
    (small : s.globalepoch < 128) (avoided : Avoided s [.pendingChild])
    (here : kindAt s a = some k) (step : LogStep s k image k' f) {l : Leaf}
    (leaf : k = .leaf l ∨ image = .leaf l) : l.holdsEntry s.failedepoch = false := by
  cases step with
  | internode due => rcases leaf with leaf | leaf <;> cases leaf
  | leaf due visited =>
      have seen := visited.resolve_right (avoided _ (by simp))
      rw [pending_eq_holdsEntry (sound.leaf here) small] at seen
      rcases leaf with leaf | leaf
      · cases leaf
        exact seen
      · cases leaf
        exact seen

variable [NodeImage W]

/-- The invariant of a run. -/
structure KeptInv (s : St W) : Prop where
  sound : Sound s
  small : s.globalepoch < 128
  writes : ∀ w ∈ s.writes, Kept w
  images : ImagesVisited s

theorem keptInv_micro {s s' : St W} (inv : KeptInv s) (avoided : Avoided s' [.pendingChild])
    (h : Micro s s') : KeptInv s' := by
  have before := avoided.before h.grows
  refine ⟨sound_micro inv.sound h, h.grows.globalepoch ▸ inv.small, ?_, ?_⟩
  · intro w member
    rcases h.writes member with old | ⟨a, k, k', f, here, -, ⟨step, rfl⟩ | ⟨image, step, rfl⟩⟩
    · exact inv.writes w old
    · exact kept_step inv.sound inv.small here step
    · intro l leaf entry
      rw [image_visited inv.sound inv.small before here step (.inl leaf)] at entry
      cases entry
  · intro r member
    rw [h.grows.failedepoch]
    rcases h.recorded member with old | ⟨k, image, k', f, here, step, kind⟩
    · exact inv.images r old
    · intro l leaf
      exact image_visited inv.sound inv.small before here step (.inr (kind ▸ leaf))

theorem keptInv_steps {s s' : St W} (inv : KeptInv s) (h : Steps s s')
    (avoided : Avoided s' [.pendingChild]) : KeptInv s' := by
  induction h with
  | refl => exact inv
  | tail _ micro ih => exact keptInv_micro (ih (avoided.before micro.grows)) avoided micro

theorem keptInv_of_reachable {s : St W}
    (reachable : (operations W).Reachable (Avoids [.pendingChild] · · = true) s) : KeptInv s := by
  refine reachable.invariant ?_ ?_
  · rintro s ⟨checkpointed, small, writes, -⟩
    refine ⟨checkpointed.sound, small, by simp [writes], ?_⟩
    simp [ImagesVisited, checkpointed.recorded]
  · intro s l s' inv avoids h
    obtain ⟨small, avoided⟩ := avoids_iff avoids h
    by_cases advance : l = .advance
    · subst advance
      have state := step_advance h
      subst state
      exact ⟨(checkpointed_advanced inv.sound).sound, small, inv.writes,
        by simp [ImagesVisited, advanced]⟩
    · exact keptInv_steps inv (exec_steps inv.sound advance h) avoided

/-- The logging words of a leaf whose only key was inserted in epoch 1. -/
def insertedOnce : Incll := { Incll.make 1 with cl0Idx := 0, permCl0 := .makeSorted 0 }

def waiting (w : Write) : Bool := w.before.leaf?.any (·.holdsEntry w.failedepoch)

/-- A root with 16 leaves: the first one is full, and the last one was changed in epoch 1. -/
def wide : List Sample :=
  .internode 1 ((List.range 15).map fun i => 100 * (i + 1)) ((List.range 16).map (· + 2)) 0 ::
  .leaf (.make 1) ((List.range 14).map (· + 1)) 1 0 3 ::
  ((List.range 14).map fun i => .leaf (.make 1) [100 * (i + 1)] 1 (i + 2) (i + 4)) ++
  [.leaf insertedOnce [1500] 1 16 0]

def entryLost (w : Write) : Bool :=
  match w.before, w.after with
  | .leaf l, .leaf l' => l.holdsEntry w.failedepoch && l'.incll != l.incll &&
      l'.incll != (l.undoIncll w.globalepoch w.failedepoch).incll
  | _, _ => false

theorem not_kept_of_entryLost {w : Write} (lost : entryLost w = true) : ¬ Kept w := by
  intro kept
  simp only [entryLost] at lost
  split at lost
  · next l l' before after =>
      simp only [Bool.and_eq_true, bne_iff_ne] at lost
      obtain ⟨⟨entry, changed⟩, notUndone⟩ := lost
      obtain ⟨l₁, leaf, undone | ⟨same, -⟩⟩ := kept l before entry
      · cases after.symm.trans leaf
        exact notUndone (by rw [undone])
      · cases after.symm.trans leaf
        exact changed same
  · cases lost

end Incll.Proof.Tree
