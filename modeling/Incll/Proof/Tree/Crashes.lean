import Incll.Proof.Tree.Coverage
import Incll.Proof.Tree.Restart

/-! # What operations see of the leaves after any number of crashes -/

namespace Incll.Proof.Tree
open Incll.Lib Incll.Model Incll.Proof.Log

variable {W : Type}

/-! Entries of two nodes. -/

/-- The nodes are of the same sort, and leaves hold the same entries. -/
def KindAgrees : Kind → Kind → Prop
  | .leaf l, .leaf c => Agrees l.body c.body
  | .internode _, .internode _ => True
  | _, _ => False

theorem KindAgrees.refl (k : Kind) : KindAgrees k k := by
  cases k with
  | leaf l => exact Agrees.refl l.body
  | internode i => trivial

theorem KindAgrees.trans {k₁ k₂ k₃ : Kind} (h : KindAgrees k₁ k₂) (h' : KindAgrees k₂ k₃) :
    KindAgrees k₁ k₃ := by
  cases k₁ <;> cases k₂ <;> cases k₃ <;> first | exact Agrees.trans h h' | trivial

/-- The node after a crash in epoch `ge` and a visit. -/
def crashedKind (ge fe : Nat) : Kind → Kind
  | .leaf l => .leaf { l with body := afterCrash ge fe l }
  | .internode i => .internode i

/-- A leaf that was not logged in epoch `ge`. -/
theorem agrees_crashed_old {ge fe : Nat} {l : Leaf} (small : ge < 128)
    (old : l.incll.loggedepoch < ge) (tagged : Tagged l.incll) :
    afterCrash ge fe l = (l.lazyRecovery ge fe).body := by
  cases pending : l.pending fe with
  | false =>
      rw [afterCrash_old pending tagged old small, lazyRecovery_of_not_pending pending]
  | true =>
      have words : (l.lazyRecovery ge fe).incll = l.incll.recoverFinal ge :=
        lazyRecovery_epoch pending
      rw [afterCrash, words, undone_recoverFinal]

/-- What a visit after a crash in epoch `ge` finds is what the crash left. -/
theorem lazyRecovery_crashed {ge fe : Nat} {l : Leaf} (epoch : l.incll.loggedepoch ≤ ge)
    (visited : l.pending fe = false) :
    (l.lazyRecovery (ge + 1) ge).body = afterCrash ge fe l := by
  rw [afterCrash_visited visited, lazyRecovery_body, if_pos epoch]

theorem lazyRecovery_body_epoch (ge ge' fe : Nat) (l : Leaf) :
    (l.lazyRecovery ge fe).body = (l.lazyRecovery ge' fe).body := by
  rw [lazyRecovery_body, lazyRecovery_body]

theorem kindAgrees_lazyRecovery_epoch (ge ge' fe : Nat) (k : Kind) :
    KindAgrees (k.lazyRecovery ge fe) (k.lazyRecovery ge' fe) := by
  cases k with
  | internode i => trivial
  | leaf l =>
      show Agrees (l.lazyRecovery ge fe).body (l.lazyRecovery ge' fe).body
      rw [lazyRecovery_body_epoch ge ge']
      exact .refl _

theorem lazyRecovery_agrees {ge fe : Nat} {l l' : Leaf} (incll : l.incll = l'.incll)
    (perm : l.body.permutation = l'.body.permutation) (ikey0 : l.body.ikey0 = l'.body.ikey0)
    (keylenx : l.body.keylenx = l'.body.keylenx) (lv : l.body.lv = l'.body.lv) :
    Agrees (l.lazyRecovery ge fe).body (l'.lazyRecovery ge fe).body := by
  rw [lazyRecovery_body, lazyRecovery_body, incll]
  split
  · exact undone_agrees _ _ perm ikey0 keylenx lv
  · exact Agrees.of_same perm ikey0 keylenx lv

/-- The committed content follows every store. -/
theorem kindAgrees_step {s : St W} {a : Addr} {k k' c : Kind} {f : Kind → Kind}
    (epochs : s.failedepoch < s.globalepoch)
    (sound : KindSound s.globalepoch (s.isLogged a) (s.isRecorded a) k) (step : KindStep s a k k' f)
    (agrees : KindAgrees (k.lazyRecovery s.globalepoch s.failedepoch) c) :
    KindAgrees (k'.lazyRecovery s.globalepoch s.failedepoch) (f c) := by
  have seen {l : Leaf} (visited : l.pending s.failedepoch = false) :
      l.lazyRecovery s.globalepoch s.failedepoch = l := lazyRecovery_of_not_pending visited
  have current {l : Leaf} (now : l.incll.loggedepoch = s.globalepoch) :
      l.lazyRecovery s.globalepoch s.failedepoch = l :=
    seen (not_pending_of_epoch (by rw [now]; exact epochs))
  have edit {l : Leaf} {b : LeafBody} (visited : l.pending s.failedepoch = false)
      {g : LeafBody → LeafBody} (follows : ∀ c, Agrees l.body c → Agrees b (g c))
      (agrees : KindAgrees ((Kind.leaf l).lazyRecovery s.globalepoch s.failedepoch) c) :
      KindAgrees ((Kind.leaf { l with body := b }).lazyRecovery s.globalepoch s.failedepoch)
        (c.mapBody g) := by
    cases c with
    | internode i => exact agrees
    | leaf c =>
        have after : Leaf.pending s.failedepoch { l with body := b } = false :=
          (pending_congr rfl).trans visited
        change Agrees (Leaf.lazyRecovery _ _ l).body c.body at agrees
        change Agrees (Leaf.lazyRecovery _ _ { l with body := b }).body (g c.body)
        rw [seen visited] at agrees
        rw [seen after]
        exact follows _ agrees
  have late {l : Leaf} (now : l.incll.loggedepoch = s.globalepoch) :
      l.pending s.failedepoch = false := not_pending_of_epoch (by rw [now]; exact epochs)
  cases step with
  | visit =>
      cases c with
      | internode i => exact agrees
      | leaf c =>
          change Agrees ((Leaf.lazyRecovery _ _ _).lazyRecovery _ _).body c.body
          rw [lazyRecovery_idem]
          exact agrees
  | @saveInsert l first visited =>
      have now : (l.saveCl0Insert s.globalepoch).1.incll.loggedepoch = s.globalepoch := by
        rw [(saveCl0Insert_first first).1]
        rfl
      have body : (l.saveCl0Insert s.globalepoch).1.body = l.body := by
        rw [(saveCl0Insert_first first).1]
      cases c with
      | internode i => exact agrees
      | leaf c =>
          change Agrees (Leaf.lazyRecovery _ _ _).body c.body at agrees
          change Agrees (Leaf.lazyRecovery _ _ _).body c.body
          rw [current now, body]
          rw [seen visited] at agrees
          exact agrees
  | @saveUpdate l p first visited slot stale =>
      have fields := saveCl12Update_first first p
      cases c with
      | internode i => exact agrees
      | leaf c =>
          change Agrees (Leaf.lazyRecovery _ _ _).body c.body at agrees
          change Agrees (Leaf.lazyRecovery _ _ _).body c.body
          rw [current fields.2.2.1, fields.1]
          rw [seen visited] at agrees
          exact agrees
  | @entry l k b ready assign =>
      exact edit (b := b.copyEntry l.body.permutation.back l.body) (late ready.epoch)
        (fun c h => h.copyEntry _ _) agrees
  | @value l p v ready =>
      exact edit (b := l.body.setValue p v) (late (ready.elim (·.1.epoch) (·.1.epoch)))
        (fun c h => h.setValue _ _) agrees
  | @insert l i ready place =>
      exact edit (b := l.body.publish i l.body) (late ready.epoch)
        (fun c h => h.publish sound.valid.permutation place ready.room) agrees
  | @links l g harmless =>
      cases c with
      | internode i => exact agrees
      | leaf c =>
          have entries (b : LeafBody) : Agrees (g b) b := by
            rw [harmless b]
            exact Agrees.of_same rfl rfl rfl rfl
          have words : Agrees (Leaf.lazyRecovery s.globalepoch s.failedepoch
              { l with body := g l.body }).body
              (l.lazyRecovery s.globalepoch s.failedepoch).body := by
            refine lazyRecovery_agrees rfl ?_ ?_ ?_ ?_
            all_goals
              simp only
              rw [harmless]
          exact (words.trans agrees).trans (entries c.body).symm
  | @body l g logged visited valid follows =>
      exact edit (b := g l.body) visited (fun c h => follows c sound.valid h) agrees
  | internode logged keeps =>
      cases c with
      | internode i => trivial
      | leaf c => exact agrees
  | parent p logged =>
      cases k with
      | internode i =>
          cases c with
          | internode i => trivial
          | leaf c => exact agrees
      | leaf l =>
          cases c with
          | internode i => exact agrees
          | leaf c =>
              have words : Agrees (Leaf.lazyRecovery s.globalepoch s.failedepoch
                  { l with body := { l.body with parent := p } }).body
                  (l.lazyRecovery s.globalepoch s.failedepoch).body :=
                lazyRecovery_agrees rfl rfl rfl rfl rfl
              exact (words.trans agrees).trans (Agrees.of_same rfl rfl rfl rfl)

theorem crashedKind_step {s : St W} {a : Addr} {k k' : Kind} {f : Kind → Kind}
    (epochs : s.failedepoch < s.globalepoch) (small : s.globalepoch < 128)
    (sound : KindSound s.globalepoch (s.isLogged a) (s.isRecorded a) k)
    (avoided : Avoided s [.staleEntry]) (step : KindStep s a k k' f) (unlogged : s.isLogged a = false) :
    KindAgrees (crashedKind s.globalepoch s.failedepoch k')
      (crashedKind s.globalepoch s.failedepoch k) := by
  cases k with
  | leaf l =>
      obtain ⟨l', rfl⟩ : ∃ l', k' = .leaf l' := by
        cases step <;> exact ⟨_, rfl⟩
      exact afterCrash_step epochs small sound avoided step unlogged
  | internode i =>
      obtain ⟨i', rfl⟩ : ∃ i', k' = .internode i' := by
        cases step <;> exact ⟨_, rfl⟩
      trivial

/-! The invariant of a run. -/

/-- An image in the log: the node of the last checkpoint, up to an entry of this epoch. -/
structure GoodImage (s : St W) (r : Addr × Node) : Prop where
  node : (kindAt s r.1).isSome
  backed : ∀ k₀, s.saved r.1 = some k₀ →
    KindAgrees (crashedKind s.globalepoch s.failedepoch r.2.kind) k₀
  leaf : ∀ l, r.2.kind = .leaf l → l.pending s.failedepoch = false ∧
    l.incll.loggedepoch ≤ s.globalepoch ∧ Tagged l.incll ∧ BodyValid l.body ∧
      (l.incll.cl0Idx ≠ invalidIdx → PermValid l.incll.permCl0)
  internode : ∀ i, r.2.kind = .internode i → i.loggedepoch ≤ s.globalepoch

/-- What an operation has seen of a leaf are the entries without the changes of failed epochs. -/
def SeenClean (o : Observation) : Prop := ∃ c, o.clean = some (.leaf c) ∧ Agrees o.body c.body

variable [NodeImage W]

structure RolledBack (s : St W) : Prop where
  sound : Sound s
  small : s.globalepoch < 128
  space : s.fresh ≤ 2 ^ 64
  ring : Ring s.log (entries s)
  backed : ∀ a k₀, s.saved a = some k₀ → s.isRecorded a = false →
    ∃ k, kindAt s a = some k ∧ KindAgrees (crashedKind s.globalepoch s.failedepoch k) k₀
  images : ∀ r ∈ s.recorded, GoodImage s r
  committed : ∀ a, Option.Rel KindAgrees (s.saved a) (s.committed a)
  clean : ∀ a, Option.Rel (fun k c => KindAgrees (k.lazyRecovery s.globalepoch s.failedepoch) c)
    (kindAt s a) (s.clean a)
  observed : ∀ o ∈ s.observed, SeenClean o

/-- The branches that lose an entry, or the image of a node. -/
def losing : List Hazard := [.overrun, .staleEntry, .pendingChild]

omit [NodeImage W] in
theorem avoided_losing {s : St W} (avoided : Avoided s losing) :
    Avoided s [.staleEntry] ∧ Avoided s [.pendingChild] := by
  constructor
  all_goals
    intro h member
    refine avoided h ?_
    rw [List.mem_singleton.mp member]
    simp [losing]

theorem ring_micro {s s' : St W} (sound : Sound s) (space : s.fresh ≤ 2 ^ 64)
    (avoided : Avoided s' losing) (h : Micro s s') (ring : Ring s.log (entries s)) :
    Ring s'.log (entries s') := by
  cases h with
  | version v here => exact ring
  | root r => exact ring
  | note h cond => exact ring
  | observe here leaf visited => exact ring
  | alloc space new => exact ring
  | write here step => exact ring
  | @log a n image k f log here step record =>
      have addr : a < 2 ^ 64 :=
        Nat.lt_of_lt_of_le (sound.below a (by rw [kindAt_of_heap here]; rfl)) space
      have benign : PExtNodeLogger.Benign s.log (entryOf a { n with kind := image }) = true := by
        by_contra other
        refine avoided .overrun (by simp [losing]) ?_
        simp only [appended, St.append, St.write, St.setNode, St.noteRecord, St.note,
          Bool.not_eq_true _ ▸ other]
        simp
      have more := ring_record ring addr benign record
      have list : entries ((appended s log a { n with kind := image }).write a n k f) =
          entries s ++ [entryOf a { n with kind := image }] := by
        simp [entries, appended, St.append, St.write, St.setNode, St.noteRecord, St.note]
      rw [list]
      exact more

theorem space_micro {s s' : St W} (h : Micro s s') (space : s.fresh ≤ 2 ^ 64) :
    s'.fresh ≤ 2 ^ 64 := by
  cases h with
  | alloc room new => exact room
  | _ => exact space

theorem observed_micro {s s' : St W} (h : Micro s s')
    (clean : ∀ a, Option.Rel (fun k c => KindAgrees (k.lazyRecovery s.globalepoch s.failedepoch) c)
      (kindAt s a) (s.clean a))
    (observed : ∀ o ∈ s.observed, SeenClean o) : ∀ o ∈ s'.observed, SeenClean o := by
  cases h with
  | @observe a n l here leaf visited =>
      intro o member
      rcases List.mem_append.mp member with old | new
      · exact observed o old
      · rw [List.mem_singleton.mp new]
        have rel := clean a
        rw [kindAt_of_heap here, leaf] at rel
        cases known : s.clean a with
        | none => rw [known] at rel; cases rel
        | some c =>
            rw [known] at rel
            cases rel with
            | some agrees =>
                cases c with
                | internode i => exact agrees.elim
                | leaf c =>
                    refine ⟨c, rfl, ?_⟩
                    change Agrees (l.lazyRecovery _ _).body c.body at agrees
                    rw [lazyRecovery_of_not_pending visited] at agrees
                    exact agrees
  | _ => exact observed

theorem images_micro {s s' : St W} (inv : RolledBack s) (avoided : Avoided s' losing)
    (h : Micro s s') : ∀ r ∈ s'.recorded, GoodImage s' r := by
  have grows := h.grows
  intro r member
  rcases h.recorded member with old | ⟨k, image, k', f, here, step, kind⟩
  · obtain ⟨node, backed, leaf, internode⟩ := inv.images r old
    refine ⟨h.persists node, ?_, ?_, ?_⟩
    · rw [grows.saved, grows.globalepoch, grows.failedepoch]
      exact backed
    · rw [grows.globalepoch, grows.failedepoch]
      exact leaf
    · rw [grows.globalepoch]
      exact internode
  · -- the node had no record before
    have unrecorded : s.isRecorded r.1 = false := by
      have sound := inv.sound.kind r.1 k here
      by_contra recorded
      rw [Bool.not_eq_false] at recorded
      cases step with
      | leaf due visited =>
          obtain ⟨now, logged⟩ := sound.recorded recorded
          rcases due with other | waiting
          · exact other now
          · rw [logged] at waiting
            cases waiting
      | internode due => exact due (sound.recorded recorded)
    have before := (avoided_losing (avoided.before grows)).2
    refine ⟨h.persists (by rw [here]; rfl), ?_, ?_, ?_⟩
    · rw [grows.saved, grows.globalepoch, grows.failedepoch]
      intro k₀ saved
      obtain ⟨k₁, at_r, agrees⟩ := inv.backed r.1 k₀ saved unrecorded
      cases Option.some.inj (at_r.symm.trans here)
      rw [kind]
      cases step with
      | internode due => exact agrees
      | @leaf l due visited =>
          have seen := visited.resolve_right (before _ (by simp))
          have same : afterCrash s.globalepoch s.failedepoch (loggedImage l) =
              afterCrash s.globalepoch s.failedepoch l := by
            rw [afterCrash_visited seen, afterCrash_visited (l := loggedImage l) seen]
            rfl
          cases k₀ with
          | internode i => exact agrees
          | leaf c =>
              change Agrees (afterCrash _ _ _) c.body at agrees
              change Agrees (afterCrash _ _ _) c.body
              rw [same]
              exact agrees
    · rw [grows.globalepoch, grows.failedepoch, kind]
      rintro l rfl
      cases step with
      | leaf due visited =>
          have sound := inv.sound.leaf here
          exact ⟨visited.resolve_right (before _ (by simp)), sound.epoch,
            ⟨sound.tagged.cl1, sound.tagged.cl2⟩, sound.valid, sound.copy⟩
    · rw [grows.globalepoch, kind]
      rintro i rfl
      cases step with
      | internode due => exact (inv.sound.internode here).epoch

/-- A free address has no content. -/
theorem Micro.clean_none {s s' : St W} (h : Micro s s') {a : Addr} (none : kindAt s' a = none) :
    s'.clean a = s.clean a := by
  cases h with
  | alloc space new =>
      by_cases same : a = s.fresh
      · rw [same, kindAt_alloc, Function.update_self] at none
        cases none
      · rw [clean_alloc, Function.update_of_ne same]
  | @write b n k f here step =>
      by_cases same : a = b
      · rw [same, kindAt_write, Function.update_self] at none
        cases none
      · rw [clean_write, Function.update_of_ne same]
  | @log b n image k f log here step record =>
      by_cases same : a = b
      · rw [same, kindAt_write, Function.update_self] at none
        cases none
      · rw [clean_write, Function.update_of_ne same, clean_appended]
  | _ => rfl

theorem clean_micro {s s' : St W} (inv : RolledBack s) (avoided : Avoided s' losing)
    (h : Micro s s') (a : Addr) :
    Option.Rel (fun k c => KindAgrees (k.lazyRecovery s'.globalepoch s'.failedepoch) c)
      (kindAt s' a) (s'.clean a) := by
  have grows := h.grows
  have epochs := inv.sound.epochs
  have before := (avoided_losing (avoided.before grows)).2
  rw [grows.globalepoch, grows.failedepoch]
  cases here : kindAt s' a with
  | none =>
      have old : kindAt s a = none := by
        by_contra some
        have persists := h.persists (Option.isSome_iff_ne_none.mpr some)
        rw [here] at persists
        cases persists
      have rel := inv.clean a
      rw [old] at rel
      rw [h.clean_none here]
      generalize s.clean a = c at rel
      cases rel
      exact .none
  | some k' =>
      have known {k : Kind} (old : kindAt s a = some k) : ∃ c, s.clean a = some c ∧
          KindAgrees (k.lazyRecovery s.globalepoch s.failedepoch) c := by
        have rel := inv.clean a
        rw [old] at rel
        generalize s.clean a = c at rel
        cases rel with
        | some agrees => exact ⟨_, rfl, agrees⟩
      cases h.at here with
      | same old clean recorded =>
          obtain ⟨c, found, agrees⟩ := known old
          rw [clean, found]
          exact .some agrees
      | new fresh node clean recorded next =>
          rw [clean]
          refine .some ?_
          cases node with
          | internode epoch => trivial
          | leaf valid =>
              show Agrees (Leaf.lazyRecovery _ _ _).body _
              rw [lazyRecovery_of_not_pending (not_pending_of_epoch epochs)]
              exact .refl _
      | write old step clean recorded =>
          obtain ⟨c, found, agrees⟩ := known old
          rw [clean, found]
          exact .some (kindAgrees_step epochs (inv.sound.kind a _ old) step agrees)
      | log old step clean recorded =>
          obtain ⟨c, found, agrees⟩ := known old
          rw [clean, found]
          refine .some ?_
          cases step with
          | internode due =>
              cases c with
              | internode i => trivial
              | leaf c => exact agrees
          | leaf due visited =>
              cases c with
              | internode i => exact agrees
              | leaf c =>
                  have seen := visited.resolve_right (before _ (by simp))
                  change Agrees (Leaf.lazyRecovery _ _ _).body c.body at agrees
                  show Agrees (Leaf.lazyRecovery _ _ _).body c.body
                  rw [lazyRecovery_of_not_pending (not_pending_of_epoch epochs)]
                  rw [lazyRecovery_of_not_pending seen] at agrees
                  exact agrees

theorem backed_rolled {s s' : St W} (inv : RolledBack s) (avoided : Avoided s' losing)
    (h : Micro s s') (a : Addr) (k₀ : Kind) (saved : s'.saved a = some k₀)
    (unrecorded : s'.isRecorded a = false) : ∃ k, kindAt s' a = some k ∧
      KindAgrees (crashedKind s'.globalepoch s'.failedepoch k) k₀ := by
  have grows := h.grows
  rw [grows.saved] at saved
  have unrecorded₀ : s.isRecorded a = false := by
    by_contra recorded
    rw [Bool.not_eq_false] at recorded
    rw [grows.isRecorded recorded] at unrecorded
    cases unrecorded
  obtain ⟨k, here, agrees⟩ := inv.backed a k₀ saved unrecorded₀
  obtain ⟨k', here'⟩ := Option.isSome_iff_exists.mp (h.persists (a := a) (by simp [here]))
  refine ⟨k', here', ?_⟩
  rw [grows.globalepoch, grows.failedepoch]
  have same {k₁ : Kind} (at_a : kindAt s a = some k₁) : k₁ = k :=
    Option.some.inj (at_a.symm.trans here)
  cases h.at here' with
  | same at_a _ _ => exact same at_a ▸ agrees
  | new fresh _ _ _ _ =>
      have := inv.sound.below a (by simp [here])
      rw [fresh] at this
      exact absurd this (Nat.lt_irrefl _)
  | write at_a step _ _ =>
      cases same at_a
      exact (crashedKind_step inv.sound.epochs inv.small (inv.sound.kind a _ here)
        (avoided_losing (avoided.before grows)).1 step
        (isLogged_eq_false saved unrecorded₀)).trans agrees
  | log _ _ _ recorded =>
      rw [recorded] at unrecorded
      cases unrecorded

theorem rolledBack_micro {s s' : St W} (inv : RolledBack s) (avoided : Avoided s' losing)
    (h : Micro s s') : RolledBack s' := by
  have grows := h.grows
  refine ⟨sound_micro inv.sound h, ?_, space_micro h inv.space, ?_, backed_rolled inv avoided h,
    images_micro inv avoided h, ?_, clean_micro inv avoided h, ?_⟩
  · rw [grows.globalepoch]
    exact inv.small
  · exact ring_micro inv.sound inv.space avoided h inv.ring
  · rw [grows.saved, grows.committed]
    exact inv.committed
  · exact observed_micro h inv.clean inv.observed

theorem rolledBack_steps {s s' : St W} (inv : RolledBack s) (h : Steps s s')
    (avoided : Avoided s' losing) : RolledBack s' := by
  induction h with
  | refl => exact inv
  | tail _ micro ih => exact rolledBack_micro (ih (avoided.before micro.grows)) avoided micro

/-! Checkpoints. -/

omit [NodeImage W] in
/-- A node without an entry of the current epoch. -/
theorem crashedKind_old {s : St W} {k : Kind} (small : s.globalepoch < 128)
    (old : ∀ l, k = .leaf l → l.incll.loggedepoch < s.globalepoch ∧ Tagged l.incll) :
    KindAgrees (crashedKind s.globalepoch s.failedepoch k)
        (k.lazyRecovery s.globalepoch s.failedepoch) ∧
      KindAgrees (k.lazyRecovery s.globalepoch s.failedepoch)
        (crashedKind s.globalepoch s.failedepoch k) := by
  cases k with
  | internode i => exact ⟨trivial, trivial⟩
  | leaf l =>
      obtain ⟨epoch, tagged⟩ := old l rfl
      have same : afterCrash s.globalepoch s.failedepoch l =
          (l.lazyRecovery s.globalepoch s.failedepoch).body :=
        agrees_crashed_old small epoch tagged
      constructor
      · show Agrees (afterCrash _ _ _) (Leaf.lazyRecovery _ _ _).body
        rw [same]
        exact .refl _
      · show Agrees (Leaf.lazyRecovery _ _ _).body (afterCrash _ _ _)
        rw [same]
        exact .refl _

theorem rolledBack_advanced {s : St W} (inv : RolledBack s) (small : s.globalepoch + 1 < 128) :
    RolledBack (advanced s) := by
  have checkpointed := checkpointed_advanced inv.sound
  have known (a : Addr) : Option.Rel
      (fun k c => KindAgrees (k.lazyRecovery (s.globalepoch + 1) s.failedepoch) c) (kindAt s a)
      ((advanced s).clean a) := by
    have rel := inv.clean a
    have content : (advanced s).clean a = (s.clean a).or
        ((kindAt s a).map (·.lazyRecovery (s.globalepoch + 1) s.failedepoch)) := by
      rw [show (advanced s).clean a = (s.clean a).or ((advanced s).recovered a) from rfl, recovered_eq]
      rfl
    rw [content]
    generalize kindAt s a = k at rel
    generalize s.clean a = c at rel
    cases rel with
    | none => exact .none
    | some agrees => exact .some ((kindAgrees_lazyRecovery_epoch _ _ _ _).trans agrees)
  have saved (a : Addr) : (advanced s).saved a =
      (kindAt s a).map (·.lazyRecovery (s.globalepoch + 1) s.failedepoch) :=
    recovered_eq (advanced s) a
  refine ⟨checkpointed.sound, small, inv.space, ?_, ?_, fun _ none => absurd none List.not_mem_nil,
    ?_, known, inv.observed⟩
  · exact ⟨inv.ring.aligned, inv.ring.bound, inv.ring.small, .straight rfl⟩
  · intro a k₀ content _
    rw [saved] at content
    obtain ⟨k, here, rfl⟩ := Option.map_eq_some_iff.mp content
    refine ⟨k, here, (crashedKind_old small ?_).1⟩
    rintro l rfl
    obtain ⟨old, tagged, -⟩ := checkpointed.leaf a l here
    exact ⟨old, tagged⟩
  · intro a
    have rel := known a
    rw [saved, show (advanced s).committed a = (advanced s).clean a from rfl]
    generalize kindAt s a = k at rel
    generalize (advanced s).clean a = c at rel
    cases rel with
    | none => exact .none
    | some agrees => exact .some agrees

/-! Restarts. -/

/-- No leaf holds an entry of the failed epoch. -/
def allVisited (s : St W) : Bool :=
  (List.range s.fresh).all fun a => (s.heap a).all fun n => n.kind.leaf?.all fun l =>
    !l.pending s.failedepoch

omit [NodeImage W] in
theorem allVisited_pending {s : St W} (sound : Sound s) (visited : allVisited s = true) {a : Addr}
    {l : Leaf} (here : kindAt s a = some (.leaf l)) : l.pending s.failedepoch = false := by
  have below := sound.below a (by rw [here]; rfl)
  have node := List.all_eq_true.mp visited a (List.mem_range.mpr below)
  obtain ⟨n, heap, kind⟩ := Option.map_eq_some_iff.mp here
  rw [heap, Option.all_some, kind] at node
  simpa [Kind.leaf?] using node

omit [NodeImage W] in
theorem LinksOnly.valid {b b' : LeafBody} (links : LinksOnly b b') (valid : BodyValid b) :
    BodyValid b' := by
  rw [links]
  exact ⟨valid.permutation, valid.iksuf, valid.ksuf⟩

/-- The node that a restart finds at `a`, up to its links. -/
theorem restored_good {s t : St W} (inv : RolledBack s) (visited : allVisited s = true)
    (restarted : Restarted s t) {a : Addr} {k : Kind} (here : kindAt t a = some k) :
    ∃ r : Addr × Node, r.1 = a ∧ GoodImage s r ∧ SameKind (some r.2.kind) (some k) := by
  have restored := restarted.kinds a
  rw [here] at restored
  cases restored with
  | image member at_a same => exact ⟨_, at_a, inv.images _ member, same⟩
  | kept unrecorded same =>
      cases before : s.heap a with
      | none =>
          rw [kindAt, before] at same
          cases same
      | some n =>
          have kind := kindAt_of_heap before
          rw [kind] at same
          refine ⟨(a, n), rfl, ⟨by rw [kind]; rfl, ?_, ?_, ?_⟩, same⟩
          · intro k₀ saved
            obtain ⟨k₁, at_a, agrees⟩ := inv.backed a k₀ saved unrecorded
            cases Option.some.inj (at_a.symm.trans kind)
            exact agrees
          · intro l leaf
            rw [leaf] at kind
            have sound := inv.sound.leaf kind
            exact ⟨allVisited_pending inv.sound visited kind, sound.epoch, sound.tagged, sound.valid,
              sound.copy⟩
          · intro i internode
            rw [internode] at kind
            exact (inv.sound.internode kind).epoch

theorem restarted_sound {s t : St W} (inv : RolledBack s) (visited : allVisited s = true)
    (restarted : Restarted s t) : Sound t := by
  have below (a : Addr) (here : (kindAt t a).isSome) : a < s.fresh := by
    obtain ⟨k, here⟩ := Option.isSome_iff_exists.mp here
    obtain ⟨r, rfl, good, -⟩ := restored_good inv visited restarted here
    exact inv.sound.below r.1 good.node
  refine ⟨?_, ?_, ?_, ?_, ?_, ?_⟩
  · rw [restarted.failedepoch, restarted.globalepoch]
    exact Nat.lt_succ_self _
  · intro a k here
    obtain ⟨r, -, good, same⟩ := restored_good inv visited restarted here
    have fresh : t.isRecorded a = false := by simp [St.isRecorded, restarted.recorded]
    rw [restarted.globalepoch, fresh]
    generalize image : some r.2.kind = o at same
    cases same with
    | internode =>
        have epoch := good.internode _ (Option.some.inj image)
        exact ⟨Nat.le_succ_of_le epoch, fun now => absurd now (by omega), by intros; contradiction⟩
    | leaf links =>
        obtain ⟨-, epoch, tagged, valid, copy⟩ := good.leaf _ (Option.some.inj image)
        exact ⟨Nat.le_succ_of_le epoch, tagged, links.valid valid, copy,
          fun now => absurd (a := _ = _) now (Nat.ne_of_lt (Nat.lt_succ_of_le epoch)), by intros; contradiction⟩
  · intro a old
    rw [restarted.fresh]
    rw [restarted.saved, Option.isSome_or, Bool.or_eq_true, recovered_eq, Option.isSome_map] at old
    exact old.elim (inv.sound.old a) (below a)
  · rw [restarted.fresh]
    exact below
  · by_contra some
    obtain ⟨k, here⟩ := Option.ne_none_iff_exists'.mp some
    obtain ⟨r, null, good, -⟩ := restored_good inv visited restarted here
    have node := good.node
    rw [null, inv.sound.null] at node
    cases node
  · rw [restarted.fresh]
    exact inv.sound.positive

omit [NodeImage W] in
/-- What a second crash would leave of a node is what the first one left. -/
theorem crashedKind_again {ge fe : Nat} {r : Addr × Node} {s : St W} {k : Kind}
    (epoch : ge = s.globalepoch) (failed : fe = s.failedepoch) (small : ge + 1 < 128)
    (good : GoodImage s r) (same : SameKind (some r.2.kind) (some k)) :
    KindAgrees (crashedKind (ge + 1) ge k) (crashedKind ge fe r.2.kind) := by
  subst epoch failed
  generalize image : r.2.kind = k₁ at same
  cases same with
  | internode => trivial
  | @leaf incll b b' links =>
      obtain ⟨visited, epoch, tagged, -⟩ := good.leaf _ image
      show Agrees (afterCrash _ _ _) (afterCrash _ _ _)
      rw [agrees_crashed_old (l := ⟨incll, b'⟩) small (Nat.lt_succ_of_le epoch) tagged,
        ← lazyRecovery_crashed epoch visited]
      refine lazyRecovery_agrees rfl ?_ ?_ ?_ ?_
      all_goals
        simp only
        rw [links]

theorem rolledBack_restarted {s t : St W} (inv : RolledBack s) (small : s.globalepoch + 1 < 128)
    (visited : allVisited s = true) (restarted : Restarted s t) : RolledBack t := by
  have sound := restarted_sound inv visited restarted
  have small' : t.globalepoch < 128 := by
    rw [restarted.globalepoch]
    exact small
  have old {a : Addr} {k : Kind} (here : kindAt t a = some k) (l : Leaf) (leaf : k = .leaf l) :
      l.incll.loggedepoch < t.globalepoch ∧ Tagged l.incll := by
    obtain ⟨r, -, good, same⟩ := restored_good inv visited restarted here
    rw [leaf] at same
    generalize image : some r.2.kind = o at same
    cases same with
    | leaf links =>
        obtain ⟨-, epoch, tagged, -⟩ := good.leaf _ (Option.some.inj image)
        rw [restarted.globalepoch]
        exact ⟨Nat.lt_succ_of_le epoch, tagged⟩
  have recovered (a : Addr) : t.recovered a =
      (kindAt t a).map (·.lazyRecovery t.globalepoch t.failedepoch) := recovered_eq t a
  have saved {a : Addr} {k₀ : Kind} (before : s.saved a = some k₀) : ∃ k, kindAt t a = some k ∧
      KindAgrees (crashedKind t.globalepoch t.failedepoch k) k₀ := by
    have some : (kindAt t a).isSome := by
      cases restarted.kinds a with
      | @image r member at_a same =>
          generalize kindAt t a = k at same
          generalize r.2.kind = k₁ at same
          cases same <;> rfl
      | kept unrecorded same =>
          obtain ⟨k₁, at_a, -⟩ := inv.backed a k₀ before unrecorded
          rw [at_a] at same
          generalize kindAt t a = k at same
          cases same <;> rfl
    obtain ⟨k, here⟩ := Option.isSome_iff_exists.mp some
    obtain ⟨r, rfl, good, same⟩ := restored_good inv visited restarted here
    refine ⟨k, here, ?_⟩
    rw [restarted.globalepoch, restarted.failedepoch]
    exact (crashedKind_again rfl rfl small good same).trans (good.backed k₀ before)
  have clean (a : Addr) : Option.Rel
      (fun k c => KindAgrees (k.lazyRecovery t.globalepoch t.failedepoch) c) (kindAt t a)
      (t.committed a) := by
    have rel := inv.committed a
    rw [restarted.committed, recovered]
    cases before : s.saved a with
    | none =>
        rw [before] at rel
        generalize s.committed a = c at rel
        cases rel
        cases kindAt t a with
        | none => exact .none
        | some k => exact .some (.refl _)
    | some k₀ =>
        obtain ⟨k, here, agrees⟩ := saved before
        rw [before] at rel
        generalize s.committed a = c at rel
        cases rel with
        | some follows =>
            rw [here]
            exact .some (((crashedKind_old small' (old here)).2.trans agrees).trans follows)
  refine ⟨sound, small', ?_, ?_, ?_, ?_, ?_, ?_, ?_⟩
  · rw [restarted.fresh]
    exact inv.space
  · rw [restarted.log, entries, restarted.recorded]
    exact ⟨inv.ring.aligned, inv.ring.bound, inv.ring.small, .straight rfl⟩
  · intro a k₀ content _
    rw [restarted.saved, recovered] at content
    cases before : s.saved a with
    | some k₁ =>
        rw [before] at content
        cases content
        exact saved before
    | none =>
        rw [before, Option.none_or] at content
        obtain ⟨k, here, rfl⟩ := Option.map_eq_some_iff.mp content
        exact ⟨k, here, (crashedKind_old small' (old here)).1⟩
  · rw [restarted.recorded]
    exact fun _ none => absurd none List.not_mem_nil
  · intro a
    have rel := inv.committed a
    rw [restarted.saved, restarted.committed]
    generalize s.saved a = k at rel
    generalize s.committed a = c at rel
    cases rel with
    | some agrees => exact .some agrees
    | none =>
        cases t.recovered a with
        | none => exact .none
        | some k => exact .some (.refl _)
  · rw [restarted.clean]
    exact clean
  · rw [restarted.observed]
    exact inv.observed

/-! Runs with crashes. -/

inductive Event where
  | operation (l : Label)
  | restart

def eventStep (s : St W) : Event → Option (St W)
  | .operation l => step s l
  | .restart => (M.restart s).map (·.2)

/-- Runs of operations, checkpoints, crashes and restarts. -/
def crashes (W : Type) [NodeImage W] : Machine (St W) Event where
  initial s := Checkpointed s ∧ s.globalepoch < 128 ∧ s.fresh ≤ 2 ^ 64 ∧ Ring s.log (entries s) ∧
    s.clean = s.recovered ∧ s.committed = s.recovered ∧ s.observed = []
  step := eventStep

/-- The epochs stay below 128, no operation takes one of the branches `losing`, and every leaf with an
entry of the failed epoch has been visited before the next crash. -/
def visitedInTime (s : St W) : Event → Bool
  | .operation l => Avoids losing s l
  | .restart => s.globalepoch + 1 < 128 && allVisited s

theorem rolledBack_initial {s : St W} (initial : (crashes W).initial s) : RolledBack s := by
  obtain ⟨checkpointed, small, space, ring, clean, committed, observed⟩ := initial
  have recovered (a : Addr) := recovered_eq s a
  refine ⟨checkpointed.sound, small, space, ring, ?_, ?_, ?_, ?_, ?_⟩
  · intro a k₀ saved _
    rw [checkpointed.saved, recovered] at saved
    obtain ⟨k, here, rfl⟩ := Option.map_eq_some_iff.mp saved
    refine ⟨k, here, (crashedKind_old small ?_).1⟩
    rintro l rfl
    obtain ⟨old, tagged, -⟩ := checkpointed.leaf a l here
    exact ⟨old, tagged⟩
  · rw [checkpointed.recorded]
    exact fun _ none => absurd none List.not_mem_nil
  · intro a
    rw [checkpointed.saved, committed]
    cases s.recovered a with
    | none => exact .none
    | some k => exact .some (.refl _)
  · intro a
    rw [clean, recovered]
    cases kindAt s a with
    | none => exact .none
    | some k => exact .some (.refl _)
  · rw [observed]
    exact fun _ none => absurd none List.not_mem_nil

theorem rolledBack_of_reachable {s : St W}
    (reachable : (crashes W).Reachable (visitedInTime · · = true) s) : RolledBack s := by
  refine reachable.invariant (fun _ initial => rolledBack_initial initial) ?_
  intro s event s' inv allowed h
  cases event with
  | operation l =>
      obtain ⟨small, avoided⟩ := avoids_iff allowed h
      by_cases advance : l = .advance
      · subst advance
        have state := step_advance h
        subst state
        exact rolledBack_advanced inv small
      · exact rolledBack_steps inv (exec_steps inv.sound advance h) avoided
  | restart =>
      simp only [visitedInTime, Bool.and_eq_true, decide_eq_true_eq] at allowed
      obtain ⟨⟨_, t⟩, run, rfl⟩ := Option.map_eq_some_iff.mp h
      exact rolledBack_restarted inv allowed.1 allowed.2 (restarted_restart inv.ring _ _ run)

theorem start_leaf (allowed : St Cell → Event → Prop) : (crashes Cell).Reachable allowed
    (sample [.leaf (.make 0) [10] 0 0 0] 1 1 0) := by
  refine .initial ⟨checkpointed_sample (by decide) (by decide), by decide, by decide, ?_, rfl, rfl, rfl⟩
  exact ⟨rfl, Nat.zero_le _, by decide, .straight rfl⟩

/-- The permutation that the last operation has seen, and the committed one. -/
def lastSizes (s : St Cell) : Option (Nat × Option Nat) :=
  s.observed.getLast?.map fun o =>
    (o.body.permutation.size, (o.clean.bind Kind.leaf?).map (·.body.permutation.size))

end Incll.Proof.Tree
