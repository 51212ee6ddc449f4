import Incll.Model.Timestamps

/-! # Order of the timestamps of a key -/

namespace Incll.Proof.Timestamps
open Incll.Lib Incll.Model Incll.Model.Timestamps

/-- A timestamp that is far from a wrap-around. -/
def Small (ts : Kvtimestamp) : Prop := ts.toNat < 2 ^ 62

instance (ts : Kvtimestamp) : Decidable (Small ts) := inferInstanceAs (Decidable (_ < _))

def Even (ts : Kvtimestamp) : Prop := ts.toNat % 2 = 0

instance (ts : Kvtimestamp) : Decidable (Even ts) := inferInstanceAs (Decidable (_ = _))

section
variable {a b ts old : Kvtimestamp}

theorem lessEqual_iff (small : a.toNat < 2 ^ 63) (small' : b.toNat < 2 ^ 63) :
    Kvtimestamp.lessEqual a b = true ↔ a.toNat ≤ b.toNat := by
  simp only [Kvtimestamp.lessEqual, decide_eq_true_eq,
    BitVec.toInt_eq_toNat_cond, BitVec.toNat_sub] at *
  split <;> omega

theorem less_iff (small : Small a) (small' : Small b) :
    Kvtimestamp.less a b = true ↔ a.toNat < b.toNat := by
  simp only [Kvtimestamp.less, Small, decide_eq_true_eq,
    BitVec.toInt_eq_toNat_cond, BitVec.toNat_sub] at *
  split <;> omega

/-- The next even timestamp. -/
theorem or_one_add_one (small : Small a) :
    ((a ||| 1) + 1).toNat = a.toNat / 2 * 2 + 2 := by
  simp only [Small] at small
  have odd : (a ||| 1).toNat = a.toNat / 2 * 2 + 1 := by
    rw [BitVec.toNat_or]
    show a.toNat ||| 1 = _
    have low : (a.toNat ||| 1) % 2 = 1 := by simp [Nat.or_mod_two_eq_one]
    have high : (a.toNat ||| 1) / 2 = a.toNat / 2 := by simp [Nat.or_div_two]
    omega
  rw [BitVec.toNat_add, odd]
  show (a.toNat / 2 * 2 + 1 + 1) % 2 ^ 64 = _
  omega

theorem updateTimestamp_spec (small : Small ts) (small' : Small old) (even : Even ts) :
    old.toNat < (updateTimestamp ts old).toNat ∧ Even (updateTimestamp ts old) ∧
    (updateTimestamp ts old).toNat ≤ max ts.toNat (old.toNat + 2) := by
  rw [updateTimestamp]
  split
  · rw [Even, or_one_add_one small']
    omega
  · next above =>
    simp only [Small] at small small'
    rw [lessEqual_iff (by omega) (by omega)] at above
    exact ⟨Nat.lt_of_not_le above, even, Nat.le_max_left _ _⟩

theorem observePhantoms_spec {m : LeafMemory} (small : Small ts) (small' : Small m.phantomEpoch)
    (even : Even ts) (even' : Even m.phantomEpoch) :
    m.phantomEpoch.toNat ≤ (observePhantoms ts m).toNat ∧ Even (observePhantoms ts m) := by
  rw [observePhantoms]
  split
  · exact ⟨Nat.le_refl _, even'⟩
  · next above =>
    rw [less_iff small small'] at above
    exact ⟨Nat.le_of_not_lt above, even⟩

/-- The leaf has never had an internal suffix bag, so no other data lies at `phantom_epoch_[0]`. -/
def NoBag (m : LeafMemory) : Prop := -1 ≤ m.body.extrasize64 ∧ m.body.extrasize64 ≤ 0

instance (m : LeafMemory) : Decidable (NoBag m) := inferInstanceAs (Decidable (_ ∧ _))

theorem NoBag.phantomEpoch {m : LeafMemory} (noBag : NoBag m) : m.phantomEpoch = m.spare :=
  if_neg (Int.not_lt.mpr noBag.2)

theorem NoBag.setPhantomEpoch {m : LeafMemory} (noBag : NoBag m) (w : Kvtimestamp) :
    NoBag (m.setPhantomEpoch w) ∧ (m.setPhantomEpoch w).phantomEpoch = w := by
  have set : m.setPhantomEpoch w = { m with spare := w } := if_neg (Int.not_lt.mpr noBag.2)
  rw [set]
  exact ⟨noBag, NoBag.phantomEpoch noBag⟩

/-- What `apply_remove` leaves in the leaf. -/
structure Removed (ts old : Kvtimestamp) (m : LeafMemory) : Prop where
  newer : old.toNat < (applyRemove ts old m).1.toNat
  even : Even (applyRemove ts old m).1
  noBag : NoBag (applyRemove ts old m).2
  evenPhantom : Even (applyRemove ts old m).2.phantomEpoch
  above : (applyRemove ts old m).1.toNat < (applyRemove ts old m).2.phantomEpoch.toNat
  grows : m.phantomEpoch.toNat ≤ (applyRemove ts old m).2.phantomEpoch.toNat

theorem applyRemove_spec {m : LeafMemory} (small : Small ts) (small' : Small old)
    (small'' : Small m.phantomEpoch) (even : Even ts) (even' : Even m.phantomEpoch) (noBag : NoBag m) :
    Removed ts old m := by
  obtain ⟨newer, evenNew, bound⟩ := updateTimestamp_spec small small' even
  simp only [Small] at small small' small''
  have compare := lessEqual_iff (a := m.phantomEpoch) (b := updateTimestamp ts old) (by omega) (by omega)
  have next : (updateTimestamp ts old + 2).toNat = (updateTimestamp ts old).toNat + 2 := by
    rw [BitVec.toNat_add]
    show ((updateTimestamp ts old).toNat + 2) % 2 ^ 64 = _
    omega
  by_cases behind : m.phantomEpoch.toNat ≤ (updateTimestamp ts old).toNat
  · have after : applyRemove ts old m =
        (updateTimestamp ts old, m.setPhantomEpoch (updateTimestamp ts old + 2)) := by
      simp only [applyRemove, compare.mpr behind, if_true]
    obtain ⟨kept, word⟩ := noBag.setPhantomEpoch (updateTimestamp ts old + 2)
    refine ⟨?_, ?_, ?_, ?_, ?_, ?_⟩ <;> rw [after]
    · exact newer
    · exact evenNew
    · exact kept
    · rw [word, Even, next]
      rw [Even] at evenNew
      omega
    · rw [word, next]
      exact Nat.lt_add_of_pos_right Nat.two_pos
    · rw [word, next]
      omega
  · have after : applyRemove ts old m = (updateTimestamp ts old, m) := by
      rw [applyRemove, if_neg (mt compare.mp behind)]
    refine ⟨?_, ?_, ?_, ?_, ?_, ?_⟩ <;> rw [after]
    · exact newer
    · exact evenNew
    · exact noBag
    · exact even'
    · exact Nat.lt_of_not_le behind

end

variable {n : Nat} {K : Type} [DecidableEq K] {s s' : State n K} {t : Fin n} {k : K}

/-- The timestamps of one key, the last one first. -/
structure Ordered (assigned : List Kvtimestamp) : Prop where
  increasing : assigned.Pairwise fun later earlier => earlier.toNat < later.toNat
  even : ∀ ts ∈ assigned, Even ts

/-- `put` or `remove` works on a leaf without other data at `phantom_epoch_[0]`, and no timestamp
wraps around. -/
def onLeaf (s : State n K) (k : K) : Prop :=
  ∀ m ∈ s.leaf (s.leafOf k), NoBag m ∧ Small m.phantomEpoch

instance (s : State n K) (k : K) : Decidable (onLeaf s k) := Option.decidableForallMem _

/-- No timestamp of the row wraps around. -/
def onRow (s : State n K) (k : K) : Prop := ∀ old ∈ s.row k, Small old

instance (s : State n K) (k : K) : Decidable (onRow s k) := Option.decidableForallMem _

/-- New leaves find an even word in their memory, and a key that was removed stays with its leaf until
it is inserted again. -/
def keepsPhantoms (s : State n K) : Label n K → Prop
  | .put t k | .replace t k =>
      Small (s.ts t) ∧ onRow s k ∧ (s.row k = none → onLeaf s k)
  | .remove t k => Small (s.ts t) ∧ onRow s k ∧ onLeaf s k
  | .makeLeaf _ _ spare => Even spare
  | .change _ _ => True
  | .pass k _ => s.row k = none → s.assigned k = []

structure Inv (s : State n K) : Prop where
  ts : ∀ t, Even (s.ts t)
  phantoms : ∀ l m, s.leaf l = some m → NoBag m → Even m.phantomEpoch
  row : ∀ k r, s.row k = some r → ∀ x ∈ s.assigned k, x.toNat ≤ r.toNat
  removed : ∀ k, s.row k = none → s.assigned k ≠ [] → ∃ m, s.leaf (s.leafOf k) = some m ∧ NoBag m ∧
    ∀ x ∈ s.assigned k, x.toNat < m.phantomEpoch.toNat
  ordered : ∀ k, Ordered (s.assigned k)

/-- What an assignment does to the other keys and threads, with a timestamp that is newer than those
of the key. -/
theorem inv_assign (inv : Inv s) {ts : Kvtimestamp} {row : Option Kvtimestamp}
    {leaf : Nat → Option LeafMemory} (newer : ∀ x ∈ s.assigned k, x.toNat < ts.toNat) (even : Even ts)
    (phantoms : ∀ l m, leaf l = some m → NoBag m → Even m.phantomEpoch)
    (kept : ∀ l m, s.leaf l = some m → NoBag m → ∃ m', leaf l = some m' ∧ NoBag m' ∧
      m.phantomEpoch.toNat ≤ m'.phantomEpoch.toNat)
    (own : match row with
      | some r => ts.toNat ≤ r.toNat
      | none => ∃ m, leaf (s.leafOf k) = some m ∧ NoBag m ∧ ts.toNat < m.phantomEpoch.toNat) :
    Inv { s.assignTimestamp t k ts row with leaf := leaf } := by
  refine ⟨fun u => ?_, phantoms, fun k' r here x member => ?_, fun k' none some => ?_, fun k' => ?_⟩
  · by_cases same : u = t
    · subst same
      simpa [State.assignTimestamp] using even
    · simpa [State.assignTimestamp, Function.update_of_ne same] using inv.ts u
  · by_cases same : k' = k
    · subst same
      simp only [State.assignTimestamp, Function.update_self] at here member
      subst here
      rcases List.mem_cons.mp member with rfl | old
      · exact own
      · exact (newer x old).le.trans own
    · simp only [State.assignTimestamp, Function.update_of_ne same] at here member
      exact inv.row k' r here x member
  · by_cases same : k' = k
    · subst same
      simp only [State.assignTimestamp, Function.update_self] at none
      subst none
      obtain ⟨m, here, noBag, above⟩ := own
      refine ⟨m, here, noBag, fun x member => ?_⟩
      simp only [State.assignTimestamp, Function.update_self] at member
      rcases List.mem_cons.mp member with rfl | old
      · exact above
      · exact (newer x old).trans above
    · simp only [State.assignTimestamp, Function.update_of_ne same] at none some ⊢
      obtain ⟨m, here, noBag, below⟩ := inv.removed k' none some
      obtain ⟨m', here', noBag', grows⟩ := kept _ m here noBag
      exact ⟨m', here', noBag', fun x member => (below x member).trans_le grows⟩
  · by_cases same : k' = k
    · subst same
      simp only [State.assignTimestamp, Function.update_self]
      have old := inv.ordered k'
      refine ⟨List.pairwise_cons.mpr ⟨newer, old.increasing⟩, fun x member => ?_⟩
      rcases List.mem_cons.mp member with rfl | member
      · exact even
      · exact old.even x member
    · simpa only [State.assignTimestamp, Function.update_of_ne same] using inv.ordered k'

theorem inv_runPut (inv : Inv s) (small : Small (s.ts t)) (row : onRow s k)
    (leaf : s.row k = none → onLeaf s k) (h : s.runPut t k = some s') : Inv s' := by
  obtain ⟨m, here, rfl⟩ := Option.map_eq_some_iff.mp h
  refine inv_assign inv (fun x member => ?_) ?_ inv.phantoms
    (fun l m here noBag => ⟨m, here, noBag, Nat.le_refl _⟩) (Nat.le_refl _)
  · cases found : s.row k with
    | some old =>
        have spec := updateTimestamp_spec small (row old found) (inv.ts t)
        exact (inv.row k old found x member).trans_lt spec.1
    | none =>
        obtain ⟨noBag, small'⟩ := leaf found m here
        have spec := observePhantoms_spec small small' (inv.ts t) (inv.phantoms _ m here noBag)
        obtain ⟨m', here', -, below⟩ := inv.removed k found (List.ne_nil_of_mem member)
        cases here.symm.trans here'
        exact (below x member).trans_le spec.1
  · cases found : s.row k with
    | some old => exact (updateTimestamp_spec small (row old found) (inv.ts t)).2.1
    | none =>
        obtain ⟨noBag, small'⟩ := leaf found m here
        exact (observePhantoms_spec small small' (inv.ts t) (inv.phantoms _ m here noBag)).2

theorem inv_runRemove (inv : Inv s) (small : Small (s.ts t)) (row : onRow s k)
    (leaf : onLeaf s k) (h : s.runRemove t k = some s') : Inv s' := by
  obtain ⟨m, here, h⟩ := Option.bind_eq_some_iff.mp h
  obtain ⟨old, found, rfl⟩ := Option.map_eq_some_iff.mp h
  obtain ⟨noBag, small'⟩ := leaf m here
  have spec := applyRemove_spec small (row old found) small' (inv.ts t) (inv.phantoms _ m here noBag) noBag
  refine inv_assign inv (fun x member => (inv.row k old found x member).trans_lt spec.newer) spec.even
    ?_ ?_ ⟨_, Function.update_self .., spec.noBag, spec.above⟩
  · intro l m' here' noBag'
    by_cases same : l = s.leafOf k
    · subst same
      rw [Function.update_self] at here'
      cases here'
      exact spec.evenPhantom
    · rw [Function.update_of_ne same] at here'
      exact inv.phantoms l m' here' noBag'
  · intro l m' here' noBag'
    by_cases same : l = s.leafOf k
    · subst same
      cases here.symm.trans here'
      exact ⟨_, Function.update_self .., spec.noBag, spec.grows⟩
    · exact ⟨m', (Function.update_of_ne same ..).trans here', noBag', Nat.le_refl _⟩

omit [DecidableEq K] in
/-- A leaf changes, and a leaf without other data at `phantom_epoch_[0]` keeps the word there. -/
theorem inv_setLeaf {l : Nat} {m : LeafMemory} (inv : Inv s) (even : NoBag m → Even m.phantomEpoch)
    (kept : ∀ m', s.leaf l = some m' → NoBag m' → NoBag m ∧ m.phantomEpoch = m'.phantomEpoch) :
    Inv { s with leaf := Function.update s.leaf l (some m) } := by
  refine ⟨inv.ts, fun l' m' here noBag => ?_, inv.row, fun k none some => ?_, inv.ordered⟩
  · by_cases same : l' = l
    · subst same
      simp only [Function.update_self, Option.some.injEq] at here
      subst here
      exact even noBag
    · simp only [Function.update_of_ne same] at here
      exact inv.phantoms l' m' here noBag
  · obtain ⟨m', here, noBag, below⟩ := inv.removed k none some
    by_cases same : s.leafOf k = l
    · obtain ⟨noBag', word⟩ := kept m' (same ▸ here) noBag
      refine ⟨m, ?_, noBag', word ▸ below⟩
      show Function.update s.leaf l _ (s.leafOf k) = _
      rw [same, Function.update_self]
    · exact ⟨m', (Function.update_of_ne same ..).trans here, noBag, below⟩

omit [DecidableEq K] in
theorem inv_change {l : Nat} {body : LeafBody} (inv : Inv s) (h : s.change l body = some s') : Inv s' := by
  obtain ⟨m, here, h⟩ := Option.bind_eq_some_iff.mp h
  simp only [Option.ite_none_right_eq_some, Option.some.injEq] at h
  obtain ⟨size, rfl⟩ := h
  have same : NoBag ⟨body, m.phantomEpoch⟩ ↔ NoBag m := by
    simp only [NoBag]
    omega
  refine inv_setLeaf inv (fun noBag => ?_) fun m' here' noBag => ?_
  · rw [noBag.phantomEpoch]
    exact inv.phantoms l m here (same.mp noBag)
  · cases here.symm.trans here'
    exact ⟨same.mpr noBag, (same.mpr noBag).phantomEpoch⟩

theorem inv_step {l : Label n K} (inv : Inv s) (ok : keepsPhantoms s l) (h : step s l = some s') :
    Inv s' := by
  cases l with
  | put t k | replace t k => exact inv_runPut inv ok.1 ok.2.1 ok.2.2 h
  | remove t k => exact inv_runRemove inv ok.1 ok.2.1 ok.2.2 h
  | makeLeaf l ksufsize spare =>
      simp only [step, Option.ite_none_right_eq_some, Option.some.injEq] at h
      obtain ⟨fresh, rfl⟩ := h
      refine inv_setLeaf inv (fun noBag => noBag.phantomEpoch ▸ ok) fun m' here => ?_
      rw [fresh] at here
      cases here
  | change l body => exact inv_change inv h
  | pass k l =>
      simp only [step, Option.ite_none_right_eq_some, Option.some.injEq] at h
      obtain ⟨-, rfl⟩ := h
      refine ⟨inv.ts, inv.phantoms, inv.row, fun k' none some => ?_, inv.ordered⟩
      have other : k' ≠ k := by
        rintro rfl
        exact some (ok none)
      simpa only [Function.update_of_ne other] using inv.removed k' none some

/-- In every run in which the phantom epochs are kept, the timestamps of each key are even and
strictly increase. -/
theorem timestamps_increase (reachable : (machine n K).Reachable keepsPhantoms s) (k : K) :
    Ordered (s.assigned k) := by
  have inv : Inv s := by
    refine reachable.invariant ?_ fun s l s' inv ok h => inv_step inv ok h
    rintro s ⟨ts, leaf, assigned⟩
    refine ⟨fun t => ?_, ?_, ?_, ?_, fun k => ?_⟩
    · rw [ts]
      exact (by decide : Even 2)
    · simp [leaf]
    · simp [assigned]
    · simp [assigned]
    · rw [assigned]
      exact ⟨.nil, by simp⟩
  exact inv.ordered k

instance (s : State n K) : (l : Label n K) → Decidable (keepsPhantoms s l)
  | .put t k | .replace t k => inferInstanceAs (Decidable (Small (s.ts t) ∧ onRow s k ∧
      (s.row k = none → onLeaf s k)))
  | .remove t k => inferInstanceAs (Decidable (Small (s.ts t) ∧ onRow s k ∧ onLeaf s k))
  | .makeLeaf _ _ spare => inferInstanceAs (Decidable (Even spare))
  | .change _ _ => .isTrue trivial
  | .pass k _ => inferInstanceAs (Decidable (s.row k = none → s.assigned k = []))

def started (n : Nat) (K : Type) : State n K :=
  ⟨fun _ => 2, fun _ => none, fun _ => 0, fun _ => none, fun _ => []⟩

/-- A key is inserted again after another thread has removed it. -/
theorem timestamps_increase_reinserted : ∃ s, (machine 2 Nat).Reachable keepsPhantoms s ∧
    s.assigned 7 = [6, 4, 2] ∧ Ordered (s.assigned 7) := by
  have start : (machine 2 Nat).Reachable keepsPhantoms (started 2 Nat) := .initial ⟨rfl, rfl, rfl⟩
  obtain ⟨s, reachable, assigned⟩ := start.exists_run
    [.makeLeaf 0 0 0, .put 0 7, .remove 1 7, .replace 0 7]
    (fun s => s.assigned 7 = [6, 4, 2]) (by decide +kernel)
  exact ⟨s, reachable, of_decide_eq_true assigned, timestamps_increase reachable 7⟩

/-- The bytes of a key; these have the same first slice. -/
def sliced (c : Nat) : List Nat := [97, 97, 97, 97, 97, 97, 97, 97, c]

/-- A key is removed, and then two keys with its slice are inserted: the second one makes a new layer.
When a third thread inserts the removed key again, the leaf of the layer knows nothing of the removal,
and the insertion is older than it. -/
theorem reinserted_in_layer : ∃ s, (machine 3 (List Nat)).Reachable Machine.anyStep s ∧
    s.assigned (sliced 1) = [2, 4, 2] ∧ ¬ Ordered (s.assigned (sliced 1)) := by
  have start : (machine 3 (List Nat)).Reachable Machine.anyStep (started 3 (List Nat)) :=
    .initial ⟨rfl, rfl, rfl⟩
  obtain ⟨s, reachable, assigned⟩ := start.exists_run
    [.makeLeaf 0 0 0, .put 0 (sliced 1), .remove 1 (sliced 1), .put 0 (sliced 2),
      .makeLeaf 1 0 0, .pass (sliced 1) 1, .pass (sliced 2) 1, .pass (sliced 3) 1,
      .put 0 (sliced 3), .put 2 (sliced 1)]
    (fun s => s.assigned (sliced 1) = [2, 4, 2]) (by decide +kernel)
  have assigned := of_decide_eq_true assigned
  refine ⟨s, reachable, assigned, fun ordered => ?_⟩
  rw [assigned] at ordered
  exact absurd (List.rel_of_pairwise_cons ordered.increasing (List.mem_cons_self)) (by decide)

end Incll.Proof.Timestamps
