import Incll.Proof.Tree.Runs

/-! # The operations are made of the changes of `Micro` -/

namespace Incll.Proof.Tree
open Incll.Lib Incll.Model

variable {W : Type}

/-! The permutation of a leaf while other nodes are changed. -/

def permAt (s : St W) (a : Addr) : Option Kpermuter :=
  (kindAt s a).bind fun k => k.leaf?.map (·.body.permutation)

/-- No permutation changed. -/
def Still (s t : St W) : Prop := ∀ a perm, permAt s a = some perm → permAt t a = some perm

theorem Still.refl (s : St W) : Still s s := fun _ _ h => h

theorem Still.trans {s t u : St W} (h : Still s t) (h' : Still t u) : Still s u :=
  fun a perm here => h' a perm (h a perm here)

theorem still_of_kinds {s t : St W} (same : kindAt t = kindAt s) : Still s t := by
  intro a perm here
  simpa only [permAt, same] using here

theorem permAt_leaf {s : St W} {a : Addr} {l : Leaf} (here : kindAt s a = some (.leaf l)) :
    permAt s a = some l.body.permutation := by
  simp [permAt, here, Kind.leaf?]

theorem leaf_unique {s : St W} {a : Addr} {n : Node} {l l' : Leaf}
    (here : kindAt s a = some (.leaf l)) (at_a : s.heap a = some n) (leaf : n.kind = .leaf l') :
    l = l' := by
  rw [kindAt_of_heap at_a, leaf] at here
  cases here
  rfl

theorem Still.leaf {s t : St W} (still : Still s t) {a : Addr} {l l' : Leaf}
    (here : kindAt s a = some (.leaf l)) (here' : kindAt t a = some (.leaf l')) :
    l'.body.permutation = l.body.permutation := by
  have same := still a _ (permAt_leaf here)
  rw [permAt_leaf here'] at same
  exact Option.some.inj same

theorem Still.exists {s t : St W} (still : Still s t) {a : Addr} {l : Leaf}
    (here : kindAt s a = some (.leaf l)) : ∃ l', kindAt t a = some (.leaf l') := by
  have same := still a _ (permAt_leaf here)
  simp only [permAt, Option.bind_eq_some_iff, Option.map_eq_some_iff] at same
  obtain ⟨k, here', l', leaf, -⟩ := same
  cases k with
  | leaf l' => exact ⟨l', here'⟩
  | internode i => cases leaf

theorem still_stored {s t : St W} {a : Addr} {k k' : Kind} (here : kindAt s a = some k)
    (same : k'.leaf?.map (·.body.permutation) = k.leaf?.map (·.body.permutation))
    (stored : Stored s t a k') : Still s t := by
  intro b perm at_b
  rw [Stored] at stored
  by_cases eq : b = a
  · subst eq
    simpa only [permAt, stored, here, Function.update_self, Option.bind_some, same] using at_b
  · simpa only [permAt, stored, Function.update_of_ne eq] using at_b

theorem setParent_permutation (k : Kind) (p : Addr) :
    (k.setParent p).leaf?.map (·.body.permutation) = k.leaf?.map (·.body.permutation) := by
  cases k <;> rfl

theorem still_new {s t : St W} {k : Kind} (sound : Sound s) (stored : Stored s t s.fresh k) :
    Still s t := by
  intro b perm at_b
  rw [Stored] at stored
  have old : b ≠ s.fresh := by
    rintro rfl
    have none : kindAt s s.fresh = none := by
      by_contra here
      exact absurd (sound.below _ (Option.isSome_iff_ne_none.mpr here)) (Nat.lt_irrefl _)
    simp [permAt, none] at at_b
  simpa only [permAt, stored, Function.update_of_ne old] using at_b

variable [NodeImage W] {s : St W} {a : Addr}

theorem isLogged_steps {t : St W} (steps : Steps s t) {b : Addr} (logged : s.isLogged b = true) :
    t.isLogged b = true := (steps_grows steps).isLogged logged

theorem hazards_steps {t : St W} (steps : Steps s t) {h : Hazard} (noted : h ∈ s.hazards) :
    h ∈ t.hazards := (steps_grows steps).hazards.subset noted

/-! Logging. -/

theorem mapBody_id : Kind.mapBody id = id := by
  funext k
  cases k <;> rfl

omit [NodeImage W] in
theorem kindStep_same (s : St W) (a : Addr) (l : Leaf) : KindStep s a (.leaf l) (.leaf l) id := by
  rw [← mapBody_id]
  exact .links (f := id) fun _ => rfl

theorem runs_logLeaf_none {l l' : Leaf} (here : kindAt s a = some (.leaf l))
    (step : KindStep s a (.leaf l) (.leaf l') id) :
    Runs (M.logLeaf a (l', none)) s fun _ t => Stored s t a (.leaf l') := by
  simp only [M.logLeaf]
  refine runs_node fun n _ => runs_setKind fun k at_a => ?_
  rw [here] at at_a
  cases at_a
  exact step

theorem runs_logLeaf_some {l image l' : Leaf} (here : kindAt s a = some (.leaf l))
    (step : LogStep s (.leaf l) (.leaf image) (.leaf l') id) :
    Runs (M.logLeaf a (l', some image)) s fun _ t =>
      t.isLogged a = true ∧ Stored s t a (.leaf l') := by
  simp only [M.logLeaf]
  refine runs_node fun n at_a => ?_
  have kind : n.kind = .leaf l := by
    rw [kindAt_of_heap at_a] at here
    exact Option.some.inj here
  exact runs_record at_a (kind ▸ step)

/-- `record_node` and the calls that log a leaf which already carries the epoch. -/
theorem runs_log_due {l : Leaf} (here : kindAt s a = some (.leaf l))
    (visited : l.pending s.failedepoch = false ∨ .pendingChild ∈ s.hazards) :
    Runs (M.logLeaf a (l.recordNode s.globalepoch)) s fun _ t =>
      t.isLogged a = true ∧ Still s t := by
  intro sound
  rw [recordNode_eq]
  split
  · next due =>
      refine (runs_logLeaf_some here (.leaf due visited)).mono ?_ sound
      rintro _ t _ _ ⟨logged, stored⟩
      exact ⟨logged, still_stored here (by rfl) stored⟩
  · next done =>
      rw [not_or, not_not] at done
      refine (runs_logLeaf_none here (kindStep_same s a l)).mono ?_ sound
      intro _ t _ steps stored
      refine ⟨isLogged_steps steps ?_, still_stored here (by rfl) stored⟩
      exact (sound.leaf here).logged done.1 (by simpa using done.2)

theorem runs_recordNode (visited : Visited s a ∨ .pendingChild ∈ s.hazards) :
    Runs (M.recordNode a) s fun _ t => t.isLogged a = true ∧ Still s t := by
  intro sound
  refine runs_node (fun n at_a => runs_globalepoch ?_) sound
  have here := kindAt_of_heap at_a
  cases kind : n.kind with
  | leaf l =>
      rw [kind] at here
      exact runs_log_due here (visited.imp_left fun seen => seen l here)
  | internode i =>
      rw [kind] at here
      simp only
      split
      · next done =>
          exact runs_pure ⟨(sound.internode here).logged done, .refl s⟩
      · next due =>
          have step : LogStep s n.kind n.kind _ _ := kind ▸ LogStep.internode due
          refine (runs_record at_a step).mono ?_
          rintro _ t _ _ ⟨logged, stored⟩
          exact ⟨logged, still_stored here (by rfl) stored⟩

theorem saveCl0Insert_later {l : Leaf} {ge : Nat} (epoch : l.incll.loggedepoch = ge) :
    l.saveCl0Insert ge = l.recordNode ge := by
  rw [Leaf.saveCl0Insert, if_neg (not_not.mpr epoch), logAfterIncll_eq epoch, recordNode_eq]
  simp [epoch]

theorem saveCl12Update_later {l : Leaf} {ge : Nat} (epoch : l.incll.loggedepoch = ge) (p : Nat) :
    l.saveCl12Update ge p = l.recordNode ge := by
  rw [Leaf.saveCl12Update, if_neg (not_not.mpr epoch), logAfterIncll_eq epoch, recordNode_eq]
  simp [epoch]

theorem runs_saveCl0Insert (visited : Visited s a)
    (room : ∀ l, kindAt s a = some (.leaf l) → l.body.size < leafWidth) :
    Runs (M.saveCl0Insert a) s fun _ t => Still s t ∧ (t.isLogged a = true ∨
      ∃ l, kindAt t a = some (.leaf l) ∧ InsertReady s.globalepoch l) := by
  simp only [M.saveCl0Insert]
  refine runs_leaf fun n l at_a leaf => runs_globalepoch ?_
  have here : kindAt s a = some (.leaf l) := leaf ▸ kindAt_of_heap at_a
  by_cases epoch : l.incll.loggedepoch = s.globalepoch
  · rw [saveCl0Insert_later epoch]
    refine (runs_log_due here (.inl (visited l here))).mono ?_
    rintro _ t _ _ ⟨logged, still⟩
    exact ⟨still, .inl logged⟩
  · have saved : l.saveCl0Insert s.globalepoch = ((l.saveCl0Insert s.globalepoch).1, none) :=
      Prod.ext rfl (saveCl0Insert_first epoch).2
    rw [saved]
    refine (runs_logLeaf_none here (.saveInsert epoch (visited l here))).mono ?_
    intro _ t _ _ stored
    have same := (saveCl0Insert_first epoch).1
    refine ⟨still_stored here (by rw [same]; rfl) stored,
      .inr ⟨(l.saveCl0Insert s.globalepoch).1, ?_, ?_⟩⟩
    · rw [stored, Function.update_self]
    · exact insertReady_saveCl0Insert epoch (room l here)

theorem runs_saveCl12Update {p : Nat} (visited : Visited s a)
    (slot : ∀ l, kindAt s a = some (.leaf l) → p ∈ l.body.permutation.live) :
    Runs (M.saveCl12Update a p) s fun _ t => Still s t ∧ (t.isLogged a = true ∨
      ∃ l, kindAt t a = some (.leaf l) ∧ UpdateReady s.globalepoch l p ∧
        (Shadowed l.incll p → .staleEntry ∈ t.hazards)) := by
  simp only [M.saveCl12Update]
  refine runs_leaf fun n l at_a leaf => runs_globalepoch ?_
  have here : kindAt s a = some (.leaf l) := leaf ▸ kindAt_of_heap at_a
  refine (runs_hazard _ _).bind ?_
  rintro _ t sound steps ⟨kinds, noted⟩
  have grows := steps_grows steps
  have here' : kindAt t a = some (.leaf l) := kinds ▸ here
  have seen : l.pending t.failedepoch = false := grows.failedepoch ▸ visited l here
  rw [← grows.globalepoch] at noted ⊢
  by_cases epoch : l.incll.loggedepoch = t.globalepoch
  · rw [saveCl12Update_later epoch]
    refine (runs_log_due here' (.inl seen)).mono ?_
    rintro _ u _ _ ⟨logged, still⟩
    exact ⟨(still_of_kinds kinds).trans still, .inl logged⟩
  · have fields := saveCl12Update_first epoch p
    have saved : l.saveCl12Update t.globalepoch p = ((l.saveCl12Update t.globalepoch p).1, none) :=
      Prod.ext rfl fields.2.1
    have stale (shadowed : Shadowed l.incll p) : .staleEntry ∈ t.hazards := by
      apply noted
      rcases shadowed with active | ⟨high, active⟩
      · simp [epoch, active]
      · simp [epoch, high, active]
    rw [saved]
    refine (runs_logLeaf_none here' (.saveUpdate epoch seen (slot l here) stale)).mono ?_
    intro _ u _ steps' stored
    refine ⟨(still_of_kinds kinds).trans (still_stored here' ?_ stored),
      .inr ⟨(l.saveCl12Update t.globalepoch p).1, ?_, ?_, ?_⟩⟩
    · simp [Kind.leaf?, fields.1]
    · rw [stored, Function.update_self]
    · exact updateReady_saveCl12Update epoch
        ((sound.leaf here').valid.permutation.live_lt (slot l here)) (slot l here)
    · rintro (active | ⟨high, active⟩)
      · rw [fields.2.2.2.2.1] at active
        exact hazards_steps steps' (stale (.inl active))
      · rw [fields.2.2.2.2.2.2 high] at active
        exact hazards_steps steps' (stale (.inr ⟨high, active⟩))

theorem runs_lockPersistent (visited : Visited s a ∨ .pendingChild ∈ s.hazards) :
    Runs (M.lockPersistent a) s fun _ t => t.isLogged a = true ∧ Still s t := by
  simp only [M.lockPersistent]
  refine runs_lock_kinds.bind fun _ t _ steps kinds => ?_
  have grows := steps_grows steps
  refine (runs_recordNode ?_).mono fun _ u _ _ post => ⟨post.1, (still_of_kinds kinds).trans post.2⟩
  refine visited.imp ?_ (hazards_steps steps)
  intro seen l here
  rw [grows.failedepoch]
  exact seen l (kinds ▸ here)

theorem runs_lockedParent : Runs (M.lockedParent a) s fun p t =>
    Still s t ∧ (p = 0 ∨ t.isLogged p = true) := by
  simp only [M.lockedParent]
  refine runs_node fun n _ => ?_
  split
  · exact runs_pure ⟨.refl s, .inl rfl⟩
  · refine runs_internode fun m i at_p kind => ?_
    refine (runs_lockPersistent (.inl ?_)).bind fun _ t _ _ post => runs_pure ⟨post.2, .inr post.1⟩
    intro l here
    rw [kindAt_of_heap at_p, kind] at here
    cases here

/-! Searching. -/

theorem runs_lazyRecovery : Runs (M.lazyRecovery a) s fun _ t =>
    Visited t a ∧ ∀ n, s.heap a = some n → ∃ n', t.heap a = some n' ∧ n'.version = n.version := by
  simp only [M.lazyRecovery]
  refine runs_get (runs_leaf fun n l at_a leaf => ?_)
  have here : kindAt s a = some (.leaf l) := leaf ▸ kindAt_of_heap at_a
  refine (runs_setKind_eq fun k at_k => ?_).mono ?_
  · rw [here] at at_k
    cases at_k
    exact .visit
  · rintro _ t _ steps ⟨m, at_m, rfl⟩
    rw [at_a] at at_m
    cases at_m
    constructor
    · intro l' here'
      rw [kindAt_write, Function.update_self] at here'
      cases here'
      exact not_pending_lazyRecovery ..
    · intro m at_m
      rw [at_a] at at_m
      cases at_m
      exact ⟨_, heap_write .., rfl⟩

theorem runs_fixRoot : Runs (M.fixRoot) s fun _ t => kindAt t = kindAt s := by
  simp only [M.fixRoot]
  refine runs_get (runs_node fun n _ => ?_)
  split
  · exact runs_pure rfl
  · refine (runs_modify (fun _ => .root _) ?_).bind fun _ t _ _ kinds => runs_pure kinds
    rfl

theorem runs_climb (fuel : Nat) (a : Addr) : Runs (M.climb fuel a) s fun _ t => t = s := by
  induction fuel generalizing a with
  | zero => exact runs_failure
  | succ fuel ih =>
      simp only [M.climb]
      refine runs_stable fun n _ _ => ?_
      split
      · exact runs_pure rfl
      · exact runs_node fun m _ => ih _

theorem runs_descend (ikey fuel : Nat) (a : Addr) : Runs (M.descend ikey fuel a) s fun r t =>
    t = s ∧ ∃ n, s.heap r.1 = some n ∧ n.version = r.2 := by
  induction fuel generalizing a with
  | zero => exact runs_failure
  | succ fuel ih =>
      simp only [M.descend]
      refine runs_stable fun n at_a _ => runs_node fun m at_m => ?_
      cases m.kind with
      | leaf l => exact runs_pure ⟨rfl, n, at_a, rfl⟩
      | internode i =>
          simp only
          split
          · exact runs_failure
          · exact ih _

theorem runs_reachLeaf (root : Addr) (k : Key) : Runs (M.reachLeaf root k) s fun r t =>
    t = s ∧ ∃ n, s.heap r.1 = some n ∧ n.version = r.2 := by
  simp only [M.reachLeaf]
  refine runs_fuel ((runs_climb _ _).bind ?_)
  rintro top t _ _ rfl
  exact runs_fuel (runs_descend _ _ _)

/-- The leaf that a search has reached: visited, with the version that the search has read. -/
def Reached (s : St W) (r : Addr × Nodeversion) : Prop :=
  Visited s r.1 ∧ ∃ n, s.heap r.1 = some n ∧ n.version = r.2

theorem runs_reach (k : Key) : Runs (M.reach k) s fun r t => Reached t r := by
  simp only [M.reach]
  refine runs_fixRoot.bind fun root t _ _ _ => (runs_reachLeaf root k).bind ?_
  rintro ⟨a, v⟩ _ _ _ ⟨rfl, n, at_a, version⟩
  refine runs_lazyRecovery.bind ?_
  rintro _ u _ _ ⟨visited, kept⟩
  obtain ⟨n', at_a', same⟩ := kept n at_a
  exact runs_pure ⟨visited, n', at_a', same.trans version⟩

/-- The cursor that `find_locked` returns. -/
structure Found (s : St W) (c : Tcursor) : Prop where
  visited : Visited s c.n
  state : c.state ≠ 2
  place : ∃ l, kindAt s c.n = some (.leaf l) ∧ c.i ≤ l.body.size ∧
    (c.state = 1 → c.i < l.body.size ∧ c.p = l.body.permutation.get c.i)

theorem hasChanged_locked (v : Nodeversion) : { v with locked := true }.hasChanged v = false := by
  simp [Nodeversion.hasChanged]

theorem runs_observe (visited : Visited s a) :
    Runs (M.observe a) s fun _ t => t.heap = s.heap := by
  simp only [M.observe]
  refine runs_leaf fun n l at_a leaf => runs_modify (fun _ => .observe at_a leaf ?_) rfl
  exact visited l (leaf ▸ kindAt_of_heap at_a)

/-- No other operation runs in between, so the version is the one that was read. -/
theorem runs_forward (k : Key) (fuel : Nat) {v : Nodeversion} (reached : Reached s (a, v)) :
    Runs (M.forward k fuel a v) s fun r t => ∀ c, r = some c → Found t c := by
  obtain ⟨visited, n, at_a, version⟩ := reached
  cases fuel with
  | zero => exact runs_failure
  | succ fuel =>
      simp only [M.forward]
      split
      · exact runs_pure fun c none => nomatch none
      · refine (runs_observe visited).bind fun _ t _ steps heap => ?_
        refine runs_leaf fun m l at_m leaf => ?_
        rw [heap, at_a] at at_m
        cases at_m
        have visited' : Visited t a := by
          intro l here
          rw [(steps_grows steps).failedepoch]
          exact visited l (by simpa only [kindAt, heap] using here)
        refine runs_lock.bind ?_
        rintro _ u _ steps' ⟨m, at_m, rfl⟩
        rw [heap, at_a] at at_m
        cases at_m
        have here : kindAt (t.setNode a { n with version := { n.version with locked := true } }) a =
            some (.leaf l) := by
          simp [kindAt, St.setNode, leaf]
        have seen : Visited (t.setNode a { n with version := { n.version with locked := true } })
            a := by
          intro l' here'
          rw [here] at here'
          cases here'
          rw [(steps_grows steps').failedepoch]
          exact visited' l (by rw [kindAt, heap, at_a, Option.map_some, leaf])
        refine runs_version fun m at_m => ?_
        have locked : m.version = { v with locked := true } := by
          simp only [St.setNode, Function.update_self, Option.some.injEq] at at_m
          rw [← at_m, version]
        rw [locked, hasChanged_locked]
        simp only [Bool.false_eq_true, if_false]
        have low := lower_le l.body k
        cases slot : (l.body.lower k).2 with
        | none =>
            refine runs_pure fun c found => ?_
            cases found
            exact ⟨seen, by simp, l, here, low, by simp⟩
        | some p =>
            have place := lower_found slot
            simp only
            split
            · refine runs_pure fun c found => ?_
              cases found
              exact ⟨seen, by simp, l, here, low, fun _ => place⟩
            · refine runs_pure fun c found => ?_
              cases found
              exact ⟨seen, by simp, l, here, low, by simp⟩
            · exact runs_failure

theorem runs_findLocked (k : Key) : Runs (M.findLocked k) s fun c t => Found t c := by
  simp only [M.findLocked]
  refine (runs_reach k).bind ?_
  rintro ⟨a, v⟩ t _ _ reached
  refine runs_fuel ((runs_forward k _ reached).bind fun r u _ _ found => ?_)
  cases r with
  | none => exact runs_failure
  | some c => exact runs_pure (found c rfl)

theorem runs_findUnlocked (k : Key) : Runs (M.findUnlocked k) s fun _ _ => True := by
  simp only [M.findUnlocked]
  refine runs_get ((runs_reachLeaf _ _).bind ?_)
  rintro ⟨a, v⟩ _ _ _ ⟨rfl, -⟩
  refine runs_lazyRecovery.bind ?_
  rintro _ t _ _ ⟨visited, -⟩
  simp only
  split
  · exact runs_failure
  · refine (runs_observe visited).bind fun _ u _ _ _ => runs_leaf fun n l _ _ => ?_
    split
    · exact runs_pure trivial
    · split
      · exact runs_pure trivial
      · exact runs_pure trivial
      · exact runs_failure

/-! Inserting. -/

theorem runs_assign {p : Nat} {k : Key} (logged : s.isLogged a = true) (visited : Visited s a) :
    Runs (M.assign a p k) s fun _ t => Still s t := by
  simp only [M.assign]
  refine runs_leaf fun n l at_a leaf => ?_
  have here : kindAt s a = some (.leaf l) := leaf ▸ kindAt_of_heap at_a
  cases assign : l.body.assign p k false with
  | none => exact runs_failure
  | some b =>
      refine (runs_modifyBody fun l' here' => ?_).mono ?_
      · rw [here] at here'
        cases here'
        refine .body logged (visited l here) ?_ fun c _ agrees => agrees.copyEntry b p
        exact fun valid => copyEntry_valid valid (assign_spec valid assign).1.valid
      · rintro _ t _ _ ⟨l', here', stored⟩
        exact still_stored here' (by rfl) stored

theorem runs_links {f : LeafBody → LeafBody} (harmless : Harmless f) :
    Runs (M.modifyBody a f) s fun _ t => Still s t := by
  refine (runs_modifyBody fun l _ => .links harmless).mono ?_
  rintro _ t _ _ ⟨l, here, stored⟩
  have same : (f l.body).permutation = l.body.permutation := by rw [harmless]
  exact still_stored here (by simp [Kind.leaf?, same]) stored

theorem runs_parent {p : Addr}
    (logged : s.isLogged a = true ∨ .collapse ∈ s.hazards ∨ .lockedChild ∈ s.hazards) :
    Runs (M.setParent a p) s fun _ t => Still s t := by
  refine (runs_setParent logged).mono ?_
  rintro _ t _ _ ⟨k, here, stored⟩
  exact still_stored here (setParent_permutation k p) stored

theorem runs_internode_change {f : Internode → Internode} (logged : s.isLogged a = true)
    (same : ∀ i, (f i).loggedepoch = i.loggedepoch) :
    Runs (M.modifyInternode a f) s fun _ t => Still s t := by
  refine (runs_modifyInternode logged fun i _ => same i).mono ?_
  rintro _ t _ _ ⟨i, here, stored⟩
  exact still_stored here (by rfl) stored

theorem runs_linkSplit {nr : Addr} : Runs (M.linkSplit a nr) s fun _ t => Still s t := by
  simp only [M.linkSplit]
  refine runs_leaf fun n l _ _ => ?_
  refine (runs_links fun _ => rfl).bind fun _ t _ _ still => ?_
  split
  · refine (runs_links fun _ => rfl).bind fun _ u _ _ still' => ?_
    exact (runs_links fun _ => rfl).mono fun _ v _ _ still'' => (still.trans still').trans still''
  · exact (runs_links fun _ => rfl).mono fun _ u _ _ still' => still.trans still'

theorem runs_moveChildren (nr : Addr) (cs : List Addr) :
    Runs (M.moveChildren nr cs) s fun _ t => Still s t := by
  induction cs generalizing s with
  | nil => exact runs_pure (.refl s)
  | cons c cs ih =>
      simp only [M.moveChildren]
      refine runs_node fun n at_c => runs_get ?_
      split
      · refine (runs_hazard _ _).bind ?_
        rintro _ t _ steps ⟨kinds, noted⟩
        refine (runs_parent ?_).bind fun _ u _ _ still => ?_
        · cases logged : s.isLogged c with
          | true => exact .inl (isLogged_steps steps logged)
          | false => exact .inr (.inr (noted (by simp [logged])))
        · exact ih.mono fun _ v _ _ still' => ((still_of_kinds kinds).trans still).trans still'
      · refine (runs_hazard _ _).bind ?_
        rintro _ t _ steps ⟨kinds, noted⟩
        refine (runs_lockPersistent ?_).bind ?_
        · by_cases waiting : n.kind.leaf?.any (·.pending s.failedepoch) = true
          · exact .inr (noted waiting)
          · left
            intro l here
            rw [kinds, kindAt_of_heap at_c, Option.some.injEq] at here
            rw [(steps_grows steps).failedepoch]
            simpa [here, Kind.leaf?] using waiting
        · rintro _ u _ _ ⟨logged, still⟩
          refine runs_unlock.bind fun _ v _ steps' kinds' => ?_
          refine (runs_parent (.inl (isLogged_steps steps' logged))).bind fun _ w _ _ still' => ?_
          refine ih.mono fun _ x _ _ still'' => ?_
          exact ((((still_of_kinds kinds).trans still).trans (still_of_kinds kinds')).trans
            still').trans still''

theorem splitRight_epoch (i nr : Internode) (mid p ka : Nat) (value : Addr) :
    (i.splitRight nr mid p ka value).1.loggedepoch = nr.loggedepoch := by
  simp only [Internode.splitRight]
  split
  · rfl
  · split <;> rfl

theorem runs_splitOff {nr : Addr} {right : Internode} {nkeys : Nat} (logged : s.isLogged a = true)
    (new : s.isLogged nr = true)
    (epoch : ∀ i, kindAt s nr = some (.internode i) → right.loggedepoch = i.loggedepoch) :
    Runs (M.splitOff a nr right nkeys) s fun _ t => Still s t := by
  simp only [M.splitOff]
  refine (runs_modifyInternode new epoch).bind ?_
  rintro _ t _ steps ⟨i, here, stored⟩
  have still : Still s t := still_stored here (by rfl) stored
  refine (runs_moveChildren _ _).bind fun _ u _ steps' still' => ?_
  refine runs_markSplit.bind fun _ v _ steps'' kinds => ?_
  have logged' : v.isLogged a = true := isLogged_steps ((steps.trans steps').trans steps'') logged
  refine (runs_internode_change logged' fun _ => by rfl).mono fun _ w _ _ still'' => ?_
  exact ((still.trans still').trans (still_of_kinds kinds)).trans still''

theorem runs_splitInto {nr value : Addr} {p ka splitType : Nat} (logged : s.isLogged a = true)
    (new : s.isLogged nr = true) (moved : s.isLogged value = true) :
    Runs (M.splitInto a nr p ka value splitType) s fun _ t => Still s t := by
  simp only [M.splitInto]
  refine runs_internode fun n i _ _ => runs_internode fun m r at_nr kind => ?_
  have here : kindAt s nr = some (.internode r) := kind ▸ kindAt_of_heap at_nr
  generalize (if splitType = 2 then internodeWidth else (internodeWidth + 1) / 2) = mid
  split
  · refine (runs_setParent (.inl moved)).bind ?_
    rintro _ t _ steps ⟨k, at_value, stored⟩
    have still : Still s t := still_stored at_value (setParent_permutation k nr) stored
    refine (runs_splitOff (isLogged_steps steps logged) (isLogged_steps steps new) ?_).bind ?_
    · intro r' here'
      rw [splitRight_epoch]
      rw [Stored] at stored
      rw [stored] at here'
      by_cases same : nr = value
      · subst same
        rw [here] at at_value
        cases at_value
        rw [Function.update_self] at here'
        cases here'
        rfl
      · rw [Function.update_of_ne same, here] at here'
        cases here'
        rfl
    · exact fun _ u _ _ still' => runs_pure (still.trans still')
  · refine (runs_splitOff logged new ?_).bind fun _ t _ _ still => runs_pure still
    intro r' here'
    rw [here] at here'
    cases here'
    rw [splitRight_epoch]

theorem runs_makeParent {n child : Addr} {key height p kp : Nat} (logged : s.isLogged n = true)
    (new : s.isLogged child = true) (above : p = 0 ∨ s.isLogged p = true) :
    Runs (M.makeParent n child key height p kp) s fun _ t => Still s t := by
  intro sound
  simp only [M.makeParent]
  refine runs_globalepoch ((runs_alloc (.internode rfl)).bind ?_) sound
  rintro nn t _ steps ⟨fresh, _, stored⟩
  have still : Still s t := still_new sound (fresh ▸ stored)
  refine (runs_parent (.inl (isLogged_steps steps new))).bind fun _ u _ steps' still' => ?_
  have so_far : Still s u := still.trans still'
  have steps₂ : Steps s u := steps.trans steps'
  split
  · next some =>
      have above' := isLogged_steps steps₂ (above.resolve_left some)
      refine (runs_internode_change above' fun _ => by rfl).bind fun _ v _ steps'' still'' => ?_
      have logged' := isLogged_steps (steps₂.trans steps'') logged
      exact (runs_parent (.inl logged')).mono fun _ w _ _ last =>
        (so_far.trans still'').trans last
  · exact (runs_parent (.inl (isLogged_steps steps₂ logged))).mono fun _ v _ _ last =>
      so_far.trans last

theorem runs_insertChild {p kp key : Nat} {child : Addr} (new : s.isLogged child = true)
    (logged : s.isLogged p = true) :
    Runs (M.insertChild p kp key child) s fun _ t => Still s t := by
  simp only [M.insertChild]
  refine (runs_parent (.inl new)).bind fun _ t _ steps still => ?_
  exact (runs_internode_change (isLogged_steps steps logged) fun _ => by rfl).mono
    fun _ u _ _ still' => still.trans still'

/-- The nodes that an iteration of `make_split` leaves to the next one are logged. -/
def Hung (t : St W) (r : Addr × Option (Addr × Nat)) : Prop :=
  ∀ next, r.2 = some next → t.isLogged r.1 = true ∧ t.isLogged next.1 = true

theorem runs_hang {n child : Addr} {key height splitType : Nat} (logged : s.isLogged n = true)
    (new : s.isLogged child = true) :
    Runs (M.hang n child key height splitType) s fun r t => Still s t ∧ Hung t r := by
  simp only [M.hang]
  refine runs_lockedParent.bind ?_
  rintro p t _ steps ⟨still, above⟩
  have logged₁ := isLogged_steps steps logged
  have new₁ := isLogged_steps steps new
  split
  · refine (runs_makeParent logged₁ new₁ (.inl rfl)).bind fun _ u _ _ still' => ?_
    exact runs_pure ⟨still.trans still', fun _ none => nomatch none⟩
  · next some =>
      have above₁ := above.resolve_left some
      refine runs_internode fun m i _ _ => runs_markInsert.bind fun _ u sound steps' kinds => ?_
      have still₂ : Still s u := still.trans (still_of_kinds kinds)
      have logged₂ := isLogged_steps steps' logged₁
      have new₂ := isLogged_steps steps' new₁
      have above₂ := isLogged_steps steps' above₁
      split
      · refine (runs_makeParent logged₂ new₂ (.inr above₂)).bind fun _ v _ _ still' => ?_
        exact runs_pure ⟨still₂.trans still', fun _ none => nomatch none⟩
      · split
        · refine runs_version fun m' _ => runs_globalepoch ?_
          refine (runs_alloc (.internode rfl)).bind ?_
          rintro next v _ steps'' ⟨fresh, fromNew, stored⟩
          have still₃ : Still s v := still₂.trans (still_new sound (fresh ▸ stored))
          have above₃ := isLogged_steps steps'' above₂
          have new₃ := isLogged_steps steps'' new₂
          refine (runs_splitInto above₃ fromNew new₃).bind ?_
          rintro ⟨nextKey, rest⟩ w _ steps₃ still'
          have above₄ := isLogged_steps steps₃ above₃
          have fromNew₄ := isLogged_steps steps₃ fromNew
          cases rest with
          | none =>
              refine runs_pure ⟨still₃.trans still', ?_⟩
              rintro _ ⟨⟩
              exact ⟨above₄, fromNew₄⟩
          | some kp =>
              refine (runs_insertChild (isLogged_steps steps₃ new₃) above₄).bind ?_
              intro _ x _ steps₄ still''
              refine runs_pure ⟨(still₃.trans still').trans still'', ?_⟩
              rintro _ ⟨⟩
              exact ⟨isLogged_steps steps₄ above₄, isLogged_steps steps₄ fromNew₄⟩
        · refine (runs_insertChild new₂ above₂).bind fun _ v _ _ still' => ?_
          exact runs_pure ⟨still₂.trans still', fun _ none => nomatch none⟩

theorem runs_splitUp (fuel : Nat) {n child : Addr} {key height splitType : Nat}
    (logged : s.isLogged n = true) (new : s.isLogged child = true) :
    Runs (M.splitUp fuel n child key height splitType) s fun _ t => Still s t := by
  induction fuel generalizing s n child key height with
  | zero => exact runs_failure
  | succ fuel ih =>
      simp only [M.splitUp]
      refine (runs_hang logged new).bind ?_
      rintro ⟨p, more⟩ t _ _ ⟨still, hung⟩
      refine runs_unlock.bind fun _ u _ steps kinds => ?_
      refine runs_unlock.bind fun _ v _ steps' kinds' => ?_
      have still' : Still s v := (still.trans (still_of_kinds kinds)).trans (still_of_kinds kinds')
      cases more with
      | some next =>
          obtain ⟨above, fromNew⟩ := hung next rfl
          refine (ih (isLogged_steps (steps.trans steps') above)
            (isLogged_steps (steps.trans steps') fromNew)).mono fun _ w _ _ last => ?_
          exact still'.trans last
      | none =>
          simp only
          split
          · exact runs_pure still'
          · exact runs_unlock.mono fun _ w _ _ kinds'' => still'.trans (still_of_kinds kinds'')

/-- A logged leaf with a place for one more entry. -/
structure Placed (s : St W) (c : Tcursor) : Prop where
  logged : s.isLogged c.n = true
  visited : Visited s c.n
  room : ∃ perm, permAt s c.n = some perm ∧ c.i ≤ perm.size ∧ perm.size < leafWidth

theorem Placed.steps {s t : St W} {c : Tcursor} (h : Placed s c) (sound : Sound s)
    (steps : Steps s t) (still : Still s t) : Placed t c := by
  obtain ⟨perm, here, place, room⟩ := h.room
  exact ⟨isLogged_steps steps h.logged, visited_steps sound steps h.visited,
    perm, still _ _ here, place, room⟩

theorem back_exchange {perm : Kpermuter} (valid : PermValid perm) {i : Nat} (hi : i < leafWidth) :
    (perm.exchange i (leafWidth - 1)).back = perm.get i := by
  have full := valid.length
  have here := (valid.exchange hi (show leafWidth - 1 < leafWidth by decide)).get_eq
    (show leafWidth - 1 < leafWidth by decide)
  simp only [Kpermuter.exchange] at here
  rw [List.getElem?_set_self (by rw [List.length_set, full]; decide)] at here
  exact (Option.some.inj here).symm

theorem runs_setPermutation {perm : Kpermuter} {l : Leaf} (here : kindAt s a = some (.leaf l))
    (logged : s.isLogged a = true) (visited : Visited s a)
    (valid : PermValid l.body.permutation → PermValid perm)
    (sub : ∀ p ∈ perm.live, p ∈ l.body.permutation.live) :
    Runs (M.modifyBody a (.setPermutation perm)) s fun _ t =>
      Visited t a ∧ permAt t a = some perm ∧ ∀ b, b ≠ a → kindAt t b = kindAt s b := by
  intro sound
  refine ((runs_modifyBody fun l' here' => ?_).mono ?_) sound
  · rw [here] at here'
    cases here'
    refine .body logged (visited l here) ?_ fun c _ agrees => agrees.setPermutation sub
    exact fun whole => setPermutation_valid whole (valid whole.permutation)
  · rintro _ t _ steps ⟨l', _, stored⟩
    refine ⟨visited_steps sound steps visited, permAt_leaf (by rw [stored, Function.update_self]), ?_⟩
    intro b other
    rw [stored, Function.update_of_ne other]

theorem runs_exchangeSlot {c : Tcursor} {k : Key} {l : Leaf}
    (here : kindAt s c.n = some (.leaf l)) (logged : s.isLogged c.n = true)
    (visited : Visited s c.n) (place : c.i ≤ l.body.size) :
    Runs (M.exchangeSlot c k) s fun r t =>
      match r with
      | some c' => Placed t c' ∧ c'.state = c.state
      | none => t = s ∧ (l.body.size < leafWidth →
          l.body.permutation.get l.body.size = 0) := by
  refine runs_sound fun sound => ?_
  have whole := (sound.leaf here).valid
  simp only [M.exchangeSlot]
  refine runs_leaf fun n l' at_a leaf => ?_
  obtain rfl := leaf_unique here at_a leaf
  split
  · next room =>
      split
      · have live : (l.body.permutation.exchange l.body.size (leafWidth - 1)).live =
            l.body.permutation.live := live_exchange le_rfl (Nat.le_sub_one_of_lt room)
        refine (runs_setPermutation here logged visited ?_ ?_).bind ?_
        · exact fun valid => valid.exchange room (by decide)
        · exact fun p member => live ▸ member
        · rintro _ t sound' steps ⟨visited', permutation, _⟩
          have logged' := isLogged_steps steps logged
          refine (runs_assign logged' visited').bind fun _ u _ steps' still => runs_pure ⟨?_, rfl⟩
          exact ⟨isLogged_steps steps' logged', visited_steps sound' steps' visited', _,
            still _ _ permutation, place, room⟩
      · next zero =>
          refine runs_pure ⟨rfl, fun room => ?_⟩
          rw [← back_exchange whole.permutation room]
          simpa using zero
  · next full => exact runs_pure ⟨rfl, fun room => absurd room full⟩

/-- The sizes of the two leaves of a split, as `splitInto_spec` gives them. -/
def Halves (size sizer i mid splitType : Nat) : Prop :=
  1 ≤ mid ∧ mid ≤ size ∧ (splitType = 0 ∧ i < mid ∧ sizer = size + 1 - mid ∨
    splitType ≠ 0 ∧ mid ≤ i ∧ sizer = size - mid)

theorem runs_finishLeafSplit {nr : Addr} {c : Tcursor} {k : Key} {splitType mid : Nat}
    {perm permr : Kpermuter} (at_a : permAt s c.n = some perm) (at_nr : permAt s nr = some permr)
    (other : nr ≠ c.n) (logged : s.isLogged c.n = true) (new : s.isLogged nr = true)
    (visited : Visited s c.n) (visited' : Visited s nr) (place : c.i ≤ perm.size)
    (halves : Halves perm.size permr.size c.i mid splitType) :
    Runs (M.finishLeafSplit c.n nr c k splitType) s fun c' t =>
      Placed t c' ∧ c'.state = c.state := by
  obtain ⟨low, high, sizes⟩ := halves
  simp only [M.finishLeafSplit]
  refine runs_leaf fun n l heap leaf => runs_leaf fun m r heap' leaf' => ?_
  have here : kindAt s c.n = some (.leaf l) := leaf ▸ kindAt_of_heap heap
  have perm_eq : l.body.permutation = perm := by
    rw [permAt_leaf here] at at_a
    exact Option.some.inj at_a
  have permr_eq : r.body.permutation = permr := by
    rw [permAt_leaf (leaf' ▸ kindAt_of_heap heap')] at at_nr
    exact Option.some.inj at_nr
  simp only [LeafBody.size, perm_eq, permr_eq]
  generalize shrunk : (if perm.size ≠ leafWidth then
      (perm.setSize (perm.size - permr.size)).exchange (perm.setSize (perm.size - permr.size)).size
        (leafWidth - 1)
    else perm.setSize (perm.size - permr.size)) = perml
  have size : perml.size = perm.size - permr.size := by
    rw [← shrunk]
    split <;> rfl
  refine runs_sound fun sound => ?_
  have valid : PermValid perm := perm_eq ▸ (sound.leaf here).valid.permutation
  have bound := valid.size
  have small : PermValid (perm.setSize (perm.size - permr.size)) := valid.setSize (by omega)
  have validl : PermValid perml := by
    rw [← shrunk]
    split
    · next partial_ => exact small.exchange (by simp only [Kpermuter.setSize]; omega) (by decide)
    · exact small
  have live (p : Nat) (member : p ∈ perml.live) : p ∈ l.body.permutation.live := by
    rw [perm_eq]
    apply live_setSize (Nat.sub_le perm.size permr.size)
    rw [← shrunk] at member
    split at member
    · next partial_ =>
        rwa [live_exchange le_rfl (by simp only [Kpermuter.setSize, leafWidth] at *; omega)]
          at member
    · exact member
  refine runs_markSplit.bind fun _ t sound' steps kinds => ?_
  refine (runs_setPermutation (kinds ▸ here) (isLogged_steps steps logged)
    (visited_steps sound steps visited) (fun _ => validl) live).bind ?_
  rintro _ u sound'' steps' ⟨seen, permutation, elsewhere⟩
  have steps₂ : Steps s u := steps.trans steps'
  rcases sizes with ⟨left, before, sizer⟩ | ⟨right, after, sizer⟩
  · rw [if_pos left]
    refine (runs_assign (isLogged_steps steps₂ logged) seen).bind fun _ v _ steps'' still => ?_
    refine runs_pure ⟨⟨isLogged_steps (steps₂.trans steps'') logged,
      visited_steps sound'' steps'' seen, perml, still _ _ permutation, ?_, ?_⟩, rfl⟩
    · simp only
      omega
    · omega
  · rw [if_neg right]
    refine runs_pure ⟨⟨isLogged_steps steps₂ new, visited_steps sound steps₂ visited', permr, ?_, ?_,
      ?_⟩, rfl⟩
    · simpa only [permAt, elsewhere nr other, kinds] using at_nr
    · simp only
      omega
    · omega

omit [NodeImage W] in
theorem visited_new {b : LeafBody} {t : St W} (sound : Sound t)
    (here : kindAt t a = some (.leaf ⟨.make t.globalepoch, b⟩)) : Visited t a := by
  intro l here'
  rw [here] at here'
  cases here'
  exact not_pending_of_epoch sound.epochs

theorem runs_makeSplit {c : Tcursor} {k : Key} {l : Leaf} (here : kindAt s c.n = some (.leaf l))
    (logged : s.isLogged c.n = true) (visited : Visited s c.n) (place : c.i ≤ l.body.size)
    (last : l.body.size < leafWidth → l.body.permutation.back = 0) :
    Runs (M.makeSplit c k) s fun c' t => Placed t c' ∧ c'.state = c.state := by
  refine runs_sound fun sound => ?_
  have whole := (sound.leaf here).valid
  simp only [M.makeSplit]
  refine (runs_exchangeSlot here logged visited place).bind fun r t _ _ post => ?_
  cases r with
  | some c' => exact runs_pure post
  | none =>
      obtain ⟨rfl, zero⟩ := post
      have full : leafWidth ≤ l.body.size + 1 := by
        by_contra short
        have room : l.body.size < leafWidth := by omega
        have same : l.body.permutation.get l.body.size =
            l.body.permutation.get (leafWidth - 1) := (zero room).trans (last room).symm
        have := whole.permutation.get_inj room (by decide) same
        omega
      refine runs_node fun n _ => runs_leaf fun m l' at_m leaf => runs_globalepoch ?_
      obtain rfl := leaf_unique here at_m leaf
      split
      · exact runs_failure
      · next right key splitType split =>
          obtain ⟨validr, mid, low, high, sizes⟩ := splitInto_spec (bodyValid_make _) full
            whole.permutation.size place split
          refine (runs_alloc (.leaf validr)).bind ?_
          rintro child u sound₁ steps₁ ⟨fresh, new, stored⟩
          have old : child ≠ c.n := by
            intro same
            have := sound.below c.n (by rw [here]; rfl)
            rw [← same, fresh] at this
            exact Nat.lt_irrefl _ this
          have at_child : kindAt u child = some (.leaf ⟨.make u.globalepoch, right⟩) := by
            rw [stored, Function.update_self, (steps_grows steps₁).globalepoch]
          have visited₁ := visited_new sound₁ at_child
          have still₁ : Still t u := still_new sound (fresh ▸ stored)
          have logged₁ := isLogged_steps steps₁ logged
          refine runs_linkSplit.bind fun _ v sound₂ steps₂ still₂ => ?_
          refine (runs_hang (isLogged_steps steps₂ logged₁) (isLogged_steps steps₂ new)).bind ?_
          rintro ⟨p, more⟩ w sound₃ steps₃ ⟨still₃, hung⟩
          have steps₄ : Steps u w := steps₂.trans steps₃
          have still₄ : Still u w := still₂.trans still₃
          refine (runs_finishLeafSplit (still₄ _ _ (still₁ _ _ (permAt_leaf here)))
            (still₄ _ _ (permAt_leaf at_child)) old (isLogged_steps steps₄ logged₁)
            (isLogged_steps steps₄ new)
            (visited_steps sound (steps₁.trans steps₄) visited) (visited_steps sound₁ steps₄ visited₁)
            place ⟨low, high, sizes⟩).bind ?_
          rintro c' x sound₅ steps₅ ⟨placed, state⟩
          refine runs_unlock.bind fun _ y sound₆ steps₆ kinds => ?_
          have placed₆ := placed.steps sound₅ steps₆ (still_of_kinds kinds)
          cases more with
          | none =>
              simp only
              split
              · exact runs_pure ⟨placed₆, state⟩
              · refine runs_unlock.bind fun _ z _ steps₇ kinds' => runs_pure ⟨?_, state⟩
                exact placed₆.steps sound₆ steps₇ (still_of_kinds kinds')
          | some next =>
              obtain ⟨above, fromNew⟩ := hung next rfl
              refine runs_fuel ((runs_splitUp _ (isLogged_steps (steps₅.trans steps₆) above)
                (isLogged_steps (steps₅.trans steps₆) fromNew)).bind fun _ z _ steps₇ still => ?_)
              exact runs_pure ⟨placed₆.steps sound₆ steps₇ still, state⟩

/-- The leaf of the cursor is logged, or the in-cache-line log covers the change that follows. -/
def Prepared (s : St W) (c : Tcursor) : Prop :=
  Visited s c.n ∧ (c.state = 1 ∧ s.isLogged c.n = true ∨ c.state = 2 ∧ Placed s c ∨
    (c.state = 1 ∧ ∃ l, kindAt s c.n = some (.leaf l) ∧ UpdateReady s.globalepoch l c.p ∧
      (Shadowed l.incll c.p → .staleEntry ∈ s.hazards)) ∨
    c.state = 2 ∧ ∃ l, kindAt s c.n = some (.leaf l) ∧ InsertReady s.globalepoch l ∧
      c.p = l.body.permutation.back ∧ c.i ≤ l.body.size)

theorem runs_entry {k : Key} {l : Leaf} (here : kindAt s a = some (.leaf l))
    (ready : InsertReady s.globalepoch l) :
    Runs (M.assign a l.body.permutation.back k) s fun _ t => ∃ l', kindAt t a = some (.leaf l') ∧
      InsertReady s.globalepoch l' ∧ l'.body.permutation = l.body.permutation := by
  simp only [M.assign]
  refine runs_leaf fun n l' at_a leaf => ?_
  obtain rfl := leaf_unique here at_a leaf
  cases assign : l.body.assign l.body.permutation.back k false with
  | none => exact runs_failure
  | some b =>
      refine (runs_modifyBody fun m here' => ?_).mono ?_
      · rw [here] at here'
        cases here'
        exact .entry ready assign
      · rintro _ t _ _ ⟨m, here', stored⟩
        rw [here] at here'
        cases here'
        have here₂ : kindAt t a = some (.leaf _) := stored ▸ Function.update_self ..
        refine ⟨_, here₂, ?_, rfl⟩
        exact ⟨ready.epoch, ready.notLogged, ready.valid, ready.copy, ready.room⟩

theorem runs_insertAt {c : Tcursor} {k : Key} {l : Leaf} (state : c.state = 2)
    (here : kindAt s c.n = some (.leaf l)) (visited : Visited s c.n) (place : c.i ≤ l.body.size) :
    Runs (M.insertAt c k) s fun c t => Prepared t c := by
  refine runs_sound fun sound => ?_
  simp only [M.insertAt]
  refine runs_leaf fun n l' at_n leaf => ?_
  obtain rfl := leaf_unique here at_n leaf
  split
  · next room =>
      refine (runs_saveCl0Insert visited ?_).bind ?_
      · intro l' here'
        rw [here] at here'
        cases here'
        exact room.1
      · rintro _ t sound₁ steps₁ ⟨still₁, logged | ⟨l', here', ready⟩⟩
        · have seen := visited_steps sound steps₁ visited
          refine (runs_assign logged seen).bind fun _ u _ steps₂ still₂ => ?_
          have seen₂ := visited_steps sound₁ steps₂ seen
          refine runs_pure ⟨seen₂, .inr (.inl ⟨state, isLogged_steps steps₂ logged, seen₂, _,
            still₂ _ _ (still₁ _ _ (permAt_leaf here)), place, room.1⟩)⟩
        · rw [← (steps_grows steps₁).globalepoch] at ready
          rw [← still₁.leaf here here']
          refine (runs_entry here' ready).bind ?_
          rintro _ u _ steps₂ ⟨l₂, here₂, ready₂, kept⟩
          refine runs_pure ⟨visited_steps sound (steps₁.trans steps₂) visited,
            .inr (.inr (.inr ⟨state, l₂, here₂, ?_, ?_, ?_⟩))⟩
          · rw [(steps_grows steps₂).globalepoch]
            exact ready₂
          · rw [kept]
          · simp only [LeafBody.size, kept, still₁.leaf here here']
            exact place
  · next full =>
      refine (runs_recordNode (.inl visited)).bind ?_
      rintro _ t sound₁ steps₁ ⟨logged, still⟩
      have seen := visited_steps sound steps₁ visited
      obtain ⟨l₁, here₁⟩ := still.exists here
      have perms := still.leaf here here₁
      refine (runs_makeSplit here₁ logged seen ?_ ?_).mono ?_
      · simp only [LeafBody.size, perms]
        exact place
      · simp only [LeafBody.size, perms]
        intro room
        by_contra back
        exact full ⟨room, .inl back⟩
      · rintro c' u _ _ ⟨placed, same⟩
        exact ⟨placed.visited, .inr (.inl ⟨same.trans state, placed⟩)⟩

theorem runs_findInsert (k : Key) : Runs (M.findInsert k) s fun c t => Prepared t c := by
  simp only [M.findInsert]
  refine (runs_findLocked k).bind fun c t sound _ found => ?_
  obtain ⟨visited, state, l, here, place, position⟩ := found
  have valid := (sound.leaf here).valid
  split
  · next one =>
      obtain ⟨bound, slot⟩ := position one
      refine (runs_saveCl12Update visited ?_).bind ?_
      · intro l' here'
        rw [here] at here'
        cases here'
        rw [slot]
        exact valid.permutation.get_live bound
      · rintro _ u _ steps ⟨_, logged | ⟨l', at_n, ready, stale⟩⟩
        · exact runs_pure ⟨visited_steps sound steps visited, .inl ⟨one, logged⟩⟩
        · refine runs_pure ⟨visited_steps sound steps visited, .inr (.inr (.inl ⟨one, l', at_n, ?_,
            stale⟩))⟩
          exact (steps_grows steps).globalepoch ▸ ready
  · split
    · exact fun _ => wlp_bind wlp_failure
    · refine runs_leaf fun n₁ l₁ _ _ => ?_
      split
      · refine runs_markInsert.bind fun _ u sound' steps kinds => ?_
        refine (runs_links fun _ => rfl).bind fun _ v sound'' steps' still => ?_
        have still' : Still t v := (still_of_kinds kinds).trans still
        obtain ⟨l', here'⟩ := still'.exists here
        refine runs_insertAt rfl here' (visited_steps sound (steps.trans steps') visited) ?_
        simp only [LeafBody.size, still'.leaf here here']
        exact place
      · exact runs_insertAt rfl here visited place

/-- The first insertion of an epoch: the value, and then the permutation. -/
theorem runs_finishInsert {c : Tcursor} {l : Leaf} (here : kindAt s c.n = some (.leaf l))
    (ready : InsertReady s.globalepoch l) (place : c.i ≤ l.body.size) :
    Runs (M.finishInsert c) s fun _ _ => True := by
  simp only [M.finishInsert]
  refine runs_leaf fun n l' at_n leaf => ?_
  obtain rfl := leaf_unique here at_n leaf
  refine (runs_setKind fun k at_k => ?_).mono fun _ _ _ _ _ => trivial
  rw [here] at at_k
  cases at_k
  rw [← publish_self]
  exact .insert ready place

theorem runs_finishInsert_placed {c : Tcursor} (placed : Placed s c) :
    Runs (M.finishInsert c) s fun _ _ => True := by
  obtain ⟨perm, at_n, place, room⟩ := placed.room
  simp only [M.finishInsert]
  refine runs_leaf fun n l heap leaf => ?_
  have here : kindAt s c.n = some (.leaf l) := leaf ▸ kindAt_of_heap heap
  rw [permAt_leaf here] at at_n
  obtain rfl := Option.some.inj at_n
  refine (runs_setKind fun k at_k => ?_).mono fun _ _ _ _ _ => trivial
  rw [here] at at_k
  cases at_k
  rw [← publish_self]
  refine .body placed.logged (placed.visited l here) ?_ ?_
  · intro valid
    rw [publish_self]
    exact setPermutation_valid valid (valid.permutation.insertFromBack place room)
  · exact fun b valid agrees => agrees.publish valid.permutation place room

theorem runs_put (k : Key) (v : Leafvalue) : Runs (M.put k v) s fun _ _ => True := by
  simp only [M.put]
  refine (runs_findInsert k).bind ?_
  rintro c t sound _ ⟨visited, cases⟩
  have logged_value (logged : t.isLogged c.n = true) :
      Runs (M.modifyBody c.n (.setValue c.p v)) t fun _ u => Still t u := by
    refine (runs_modifyBody fun l here => ?_).mono ?_
    · exact .body logged (visited l here) (fun valid => setValue_valid valid ..)
        fun b _ agrees => agrees.setValue ..
    · rintro _ u _ _ ⟨l, here, stored⟩
      exact still_stored here (by rfl) stored
  rcases cases with ⟨one, logged⟩ | ⟨two, placed⟩ | ⟨one, l, here, ready, stale⟩ |
    ⟨two, l, here, ready, slot, place⟩
  · refine (logged_value logged).bind fun _ u _ _ _ => ?_
    rw [if_neg (by omega)]
    exact runs_unlock.mono fun _ _ _ _ _ => trivial
  · refine (logged_value placed.logged).bind fun _ u _ steps still => ?_
    rw [if_pos two]
    refine (runs_finishInsert_placed (placed.steps sound steps still)).bind fun _ _ _ _ _ => ?_
    exact runs_unlock.mono fun _ _ _ _ _ => trivial
  · refine (runs_modifyBody fun l' here' => ?_).bind fun _ u _ _ _ => ?_
    · rw [here] at here'
      cases here'
      exact .value v (.inr ⟨ready, stale⟩)
    · rw [if_neg (by omega)]
      exact runs_unlock.mono fun _ _ _ _ _ => trivial
  · refine (runs_modifyBody fun l' here' => ?_).bind ?_
    · rw [here] at here'
      cases here'
      exact .value v (.inl ⟨ready, slot⟩)
    · rintro _ u _ steps ⟨l', here', stored⟩
      rw [here] at here'
      cases here'
      rw [if_pos two]
      have here₂ : kindAt u c.n = some (.leaf { l with body := l.body.setValue c.p v }) := by
        rw [stored, Function.update_self]
      have ready₂ : InsertReady u.globalepoch { l with body := l.body.setValue c.p v } := by
        rw [(steps_grows steps).globalepoch]
        exact ⟨ready.epoch, ready.notLogged, ready.valid, ready.copy, ready.room⟩
      refine (runs_finishInsert here₂ ready₂ place).bind fun _ _ _ _ _ => ?_
      exact runs_unlock.mono fun _ _ _ _ _ => trivial

/-! Removing. -/

theorem runs_links_any {f : LeafBody → LeafBody} (harmless : Harmless f) :
    Runs (M.modifyBody a f) s fun _ _ => True :=
  (runs_links harmless).mono fun _ _ _ _ _ => trivial

theorem runs_unlinkFrom {prev next : Addr} :
    Runs (M.unlinkFrom a prev next) s fun _ _ => True := by
  simp only [M.unlinkFrom]
  refine runs_leaf fun n l _ _ => ?_
  split
  · split
    · refine (runs_links_any fun _ => rfl).bind fun _ _ _ _ _ => ?_
      exact runs_links_any fun _ => rfl
    · exact runs_links_any fun _ => rfl
  · exact runs_failure

theorem runs_unlink : Runs (M.unlink a) s fun _ _ => True := by
  simp only [M.unlink]
  refine runs_leaf fun n l _ _ => ?_
  split
  · exact (runs_links_any fun _ => rfl).bind fun _ _ _ _ _ => runs_unlinkFrom
  · exact runs_unlinkFrom

omit [NodeImage W] in
theorem logged_parent {p : Addr} {n : Node} (sound : Sound s) (here : s.heap p = some n)
    (above : p = 0 ∨ s.isLogged p = true) : s.isLogged p = true := by
  refine above.resolve_left ?_
  rintro rfl
  have null := sound.null
  rw [kindAt_of_heap here] at null
  cases null

theorem runs_redirectAt {ikey replacement p : Nat} (above : p = 0 ∨ s.isLogged p = true) :
    Runs (M.redirectAt ikey replacement p) s fun _ _ => True := by
  refine runs_sound fun sound => ?_
  simp only [M.redirectAt]
  refine runs_internode fun m i here _ => ?_
  split
  · refine (runs_internode_change (logged_parent sound here above) fun _ => by rfl).bind ?_
    exact fun _ _ _ _ _ => runs_pure trivial
  · exact runs_pure trivial

theorem runs_redirect (ikey replacement fuel : Nat) (n : Addr) (held : Bool) :
    Runs (M.redirect ikey replacement fuel n held) s fun _ _ => True := by
  induction fuel generalizing s n held with
  | zero => exact runs_failure
  | succ fuel ih =>
      simp only [M.redirect]
      refine runs_lockedParent.bind ?_
      rintro p t _ _ ⟨_, above⟩
      have last (more : Bool) {u : St W} : Runs (if more = true then
          M.redirect ikey replacement fuel p true else M.unlock p) u fun _ _ => True := by
        split
        · exact ih p true
        · exact runs_unlock.mono fun _ _ _ _ _ => trivial
      split
      · refine runs_unlock.bind fun _ u _ steps _ => ?_
        refine (runs_redirectAt (above.imp_right (isLogged_steps steps))).bind ?_
        exact fun more _ _ _ _ => last more
      · exact (runs_redirectAt above).bind fun more _ _ _ _ => last more

theorem runs_replaceChild {p kp : Nat} {replacement : Addr} (logged : s.isLogged p = true) :
    Runs (M.replaceChild p kp replacement) s fun _ _ => True := by
  simp only [M.replaceChild]
  refine (runs_internode_change logged fun _ => by rfl).bind fun _ t _ steps _ => ?_
  split
  · refine runs_get ((runs_hazard _ _).bind ?_)
    rintro _ u _ steps' ⟨_, noted⟩
    refine (runs_parent ?_).mono fun _ _ _ _ _ => trivial
    cases covered : t.isLogged replacement with
    | true => exact .inl (isLogged_steps steps' covered)
    | false => exact .inr (.inl (noted (by simp [covered])))
  · split
    · exact (runs_internode_change (isLogged_steps steps logged) fun _ => by rfl).mono
        fun _ _ _ _ _ => trivial
    · exact runs_pure trivial

theorem runs_removeChild {n replacement : Addr} {ikey : Nat} :
    Runs (M.removeChild n ikey replacement) s fun r t => t.isLogged r.1 = true := by
  simp only [M.removeChild]
  refine runs_lockedParent.bind ?_
  rintro p t _ _ ⟨_, above⟩
  refine runs_markInsert.bind fun _ u sound steps _ => runs_internode fun m i here _ => ?_
  have logged := logged_parent sound here (above.imp_right (isLogged_steps steps))
  refine (runs_replaceChild logged).bind fun _ v _ steps₁ _ => runs_internode fun m' i' _ _ => ?_
  have logged₁ := isLogged_steps steps₁ logged
  split
  · refine runs_fuel ((runs_redirect _ _ _ _ _).bind fun _ w _ steps₂ _ => ?_)
    exact runs_pure (isLogged_steps steps₂ logged₁)
  · exact runs_pure logged₁

theorem runs_removeUp (fuel : Nat) (n : Addr) (ikey : Nat) (replacement : Addr) :
    Runs (M.removeUp fuel n ikey replacement) s fun _ _ => True := by
  induction fuel generalizing s n ikey replacement with
  | zero => exact runs_failure
  | succ fuel ih =>
      simp only [M.removeUp]
      refine runs_removeChild.bind ?_
      rintro ⟨p, ikey'⟩ t _ _ logged
      refine runs_unlock.bind fun _ u _ steps _ => ?_
      refine runs_internode fun m i _ _ => runs_version fun m' _ => ?_
      have logged₁ := isLogged_steps steps logged
      generalize (if i.child 0 = 0 then 1 else 0) = empty
      split
      · exact runs_unlock.mono fun _ _ _ _ _ => trivial
      · refine runs_markDeleted.bind fun _ v _ steps₁ _ => ?_
        refine (runs_internode_change (isLogged_steps steps₁ logged₁) fun _ => by rfl).bind ?_
        exact fun _ _ _ _ _ => ih p _ _

theorem runs_removeLeaf : Runs (M.removeLeaf a) s fun _ _ => True := by
  simp only [M.removeLeaf]
  refine runs_leaf fun n l _ _ => ?_
  split
  · exact runs_pure trivial
  · refine runs_markDeleted.bind fun _ t _ _ _ => runs_unlink.bind fun _ u _ _ _ => ?_
    exact runs_fuel ((runs_removeUp _ _ _ _).bind fun _ _ _ _ _ => runs_pure trivial)

theorem runs_finishRemove {c : Tcursor} {l : Leaf} (here : kindAt s c.n = some (.leaf l))
    (logged : s.isLogged c.n = true) (visited : Visited s c.n) (place : c.i < l.body.size) :
    Runs (M.finishRemove c) s fun _ _ => True := by
  refine runs_sound fun sound => ?_
  simp only [M.finishRemove]
  refine runs_leaf fun n l' at_n leaf => ?_
  obtain rfl := leaf_unique here at_n leaf
  have rest {t : St W} {l' : Leaf} (here' : kindAt t c.n = some (.leaf l'))
      (same : l'.body.permutation = l.body.permutation) (logged : t.isLogged c.n = true)
      (visited : Visited t c.n) : Runs (do
        M.modifyBody c.n (.setPermutation (l.body.permutation.remove c.i))
        if (l.body.permutation.remove c.i).size ≠ 0 then return false else M.removeLeaf c.n) t
        fun _ _ => True := by
    have valid := (sound.leaf here).valid.permutation
    refine (runs_setPermutation here' logged visited ?_ ?_).bind fun _ u _ _ _ => ?_
    · exact fun _ => valid.remove place
    · rw [same]
      exact fun p member => valid.live_remove place member
    · split
      · exact runs_pure trivial
      · exact runs_removeLeaf
  split
  · refine runs_markInsert.bind fun _ t _ steps kinds => ?_
    refine (runs_links fun _ => rfl).bind fun _ u _ steps' still => ?_
    have still' : Still s u := (still_of_kinds kinds).trans still
    have steps₂ : Steps s u := steps.trans steps'
    obtain ⟨l', here'⟩ := still'.exists here
    exact rest here' (still'.leaf here here') (isLogged_steps steps₂ logged)
      (visited_steps sound steps₂ visited)
  · exact rest here rfl logged visited

theorem runs_remove (k : Key) : Runs (M.remove k) s fun _ _ => True := by
  simp only [M.remove]
  refine (runs_findLocked k).bind fun c t sound _ found => ?_
  obtain ⟨visited, state, l, here, place, position⟩ := found
  split
  · next one =>
      refine (runs_recordNode (.inl visited)).bind ?_
      rintro _ u _ steps ⟨logged, still⟩
      obtain ⟨l', here'⟩ := still.exists here
      refine (runs_finishRemove here' logged (visited_steps sound steps visited) ?_).bind ?_
      · simp only [LeafBody.size, still.leaf here here']
        exact (position one).1
      · intro gone v _ _ _
        split
        · exact runs_pure trivial
        · exact runs_unlock.mono fun _ _ _ _ _ => trivial
  · exact runs_unlock.mono fun _ _ _ _ _ => trivial

end Incll.Proof.Tree
