import Incll.Model.PPP

/-! # A pointer cell is rolled back to the last completed epoch

`write` puts the high half of the epoch into bits 48 to 63 of `nextLog`, but the epoch is read back
with bits 40 to 47 in its place, which belong to the logged pointer. -/

namespace Incll.Proof.PPP
open Incll.Lib Incll.Model Incll.Model.PPP

/-! The bits of the masks. -/

theorem getLsbD_of_forall {x : BitVec 64} {p : Nat → Bool} (h : ∀ i : Fin 64, x.getLsbD i = p i)
    {i : Nat} (bound : i < 64) : x.getLsbD i = p i := h ⟨i, bound⟩

theorem getLsbD_pointerMask {i : Nat} (bound : i < 64) :
    pointerMask.getLsbD i = decide (4 ≤ i ∧ i < 48) :=
  getLsbD_of_forall (p := fun i => decide (4 ≤ i ∧ i < 48)) (by decide) bound

theorem getLsbD_lowMask {i : Nat} (bound : i < 64) :
    (0x0000FFFFFFFFFFFF#64).getLsbD i = decide (i < 48) :=
  getLsbD_of_forall (p := fun i => decide (i < 48)) (by decide) bound

theorem getLsbD_highMask {i : Nat} (bound : i < 64) :
    (0xFFFF000000000000#64).getLsbD i = decide (48 ≤ i) :=
  getLsbD_of_forall (p := fun i => decide (48 ≤ i)) (by decide) bound

theorem getLsbD_keepMask {i : Nat} (bound : i < 64) :
    (0xFFFF00000000000F#64).getLsbD i = decide (i < 4 ∨ 48 ≤ i) :=
  getLsbD_of_forall (p := fun i => decide (i < 4 ∨ 48 ≤ i)) (by decide) bound

theorem getLsbD_epochMask {i : Nat} (bound : i < 64) :
    (0xFF00#64).getLsbD i = decide (8 ≤ i ∧ i < 16) :=
  getLsbD_of_forall (p := fun i => decide (8 ≤ i ∧ i < 16)) (by decide) bound

theorem whole_iff (c : PPP) : c.whole = true ↔ c.next.getLsbD 0 = c.nextLog.getLsbD 0 := by
  simp only [whole, beq_iff_eq]
  constructor
  · intro same
    have bits := congrArg (·.getLsbD 0) same
    simpa only [BitVec.getLsbD_and, BitVec.getLsbD_one, decide_true, Bool.and_true,
      show (0 : Nat) < 64 by decide] using bits
  · intro same
    apply BitVec.eq_of_getLsbD_eq
    intro i bound
    simp only [BitVec.getLsbD_and, BitVec.getLsbD_one]
    by_cases zero : i = 0
    · rw [zero, same]
    · simp [zero]

theorem getLsbD_epoch (c : PPP) {i : Nat} (bound : i < 64) : c.epoch.getLsbD i =
    (c.next.getLsbD (48 + i) || (c.nextLog.getLsbD (32 + i) && decide (8 ≤ i ∧ i < 16))) := by
  simp [epoch, getLsbD_epochMask bound]

/-- The epoch that is read back from a cell that was written in epoch `e` and holds `p` in its log. -/
def decoded (e p : BitVec 64) : BitVec 64 := (e &&& 0xFFFF#64) ||| (p >>> 32 &&& 0xFF00#64)

theorem getLsbD_decoded (e p : BitVec 64) {i : Nat} (bound : i < 64) : (decoded e p).getLsbD i =
    (e.getLsbD i && decide (i < 16) || (p.getLsbD (32 + i) && decide (8 ≤ i ∧ i < 16))) := by
  have mask : (0xFFFF#64).getLsbD i = decide (i < 16) :=
    getLsbD_of_forall (p := fun i => decide (i < 16)) (by decide) bound
  simp [decoded, getLsbD_epochMask bound, mask]

/-- The epoch can be read back from a cell that holds `p` in its log. -/
def Fits (e p : BitVec 64) : Prop := e < BitVec.twoPow 64 16 ∧ (p >>> 32 &&& 0xFF00#64) &&& ~~~e = 0

instance (e p : BitVec 64) : Decidable (Fits e p) := by unfold Fits; infer_instance

theorem Fits.bit {e p : BitVec 64} (fits : Fits e p) {i : Nat} (low : 8 ≤ i) (high : i < 16)
    (set : p.getLsbD (32 + i) = true) : e.getLsbD i = true := by
  have bits := congrArg (·.getLsbD i) fits.2
  have bound : i < 64 := by omega
  simpa [getLsbD_epochMask bound, low, high, set, bound] using bits

theorem Fits.high {e p : BitVec 64} (fits : Fits e p) {i : Nat} (high : 16 ≤ i) :
    e.getLsbD i = false := by
  have small : e.toNat < 2 ^ 16 := by simpa [BitVec.lt_def] using fits.1
  apply Nat.testBit_lt_two_pow
  exact Nat.lt_of_lt_of_le small (Nat.pow_le_pow_right (by decide) high)

theorem Fits.decoded {e p : BitVec 64} (fits : Fits e p) : decoded e p = e := by
  apply BitVec.eq_of_getLsbD_eq
  intro i bound
  rw [getLsbD_decoded _ _ bound]
  by_cases small : i < 16
  · by_cases inside : 8 ≤ i ∧ i < 16
    · cases set : p.getLsbD (32 + i) with
      | false => simp [small]
      | true => simp [fits.bit inside.1 inside.2 set, small]
    · simp only [inside, decide_false, Bool.and_false, Bool.or_false]
      simp [small]
  · rw [fits.high (by omega)]
    simp [small]

/-- The cell holds `v`, written in epoch `e`, and `p` in its log. -/
structure Written (e v p : BitVec 64) (c : PPP) : Prop where
  whole : c.whole = true
  epoch : c.epoch = e
  next : c.next &&& pointerMask = v
  log : c.nextLog &&& pointerMask = p

/-- The two words that `write` stores when it logs: `q` is the part of `nextLog` below the epoch,
and `b` the validity bit of `next`. -/
theorem written_of_words (es : Epochs) (v : BitVec 64) {q b : BitVec 64}
    (bit : ∀ i, 0 < i → b.getLsbD i = false) (agree : b.getLsbD 0 = q.getLsbD 0) :
    Written (decoded es.globalepoch q) (v &&& pointerMask) (q &&& pointerMask)
      ⟨elow es ||| (v &&& pointerMask) ||| b, ehigh es ||| q⟩ := by
  refine ⟨?_, ?_, ?_, ?_⟩
  · rw [whole_iff]
    have zero : pointerMask.getLsbD 0 = false := by decide
    have zero' : (0xFFFF000000000000#64).getLsbD 0 = false := by decide
    simp only [elow, ehigh, BitVec.getLsbD_or, BitVec.getLsbD_and, BitVec.getLsbD_shiftLeft, zero,
      zero', agree]
    simp
  · apply BitVec.eq_of_getLsbD_eq
    intro i bound
    rw [getLsbD_epoch _ bound, getLsbD_decoded _ _ bound]
    by_cases small : i < 16
    · have outside : pointerMask.getLsbD (48 + i) = false := by
        rw [getLsbD_pointerMask (by omega)]
        simp
      have log : (8 ≤ i ∧ i < 16) → (ehigh es ||| q).getLsbD (32 + i) = q.getLsbD (32 + i) := by
        intro inside
        have masked : ¬ 48 ≤ 32 + i := by omega
        simp [ehigh, getLsbD_highMask (show 32 + i < 64 by omega), masked]
      have next : (elow es ||| (v &&& pointerMask) ||| b).getLsbD (48 + i) =
          es.globalepoch.getLsbD i := by
        simp only [elow, BitVec.getLsbD_or, BitVec.getLsbD_and, BitVec.getLsbD_shiftLeft, outside,
          bit (48 + i) (by omega)]
        simp [show 48 + i < 64 by omega]
      rw [next]
      by_cases inside : 8 ≤ i ∧ i < 16
      · rw [log inside]
        simp [small]
      · simp only [inside, decide_false, Bool.and_false, Bool.or_false]
        simp [small]
    · rw [BitVec.getLsbD_of_ge _ _ (by omega)]
      simp [small]
  · apply BitVec.eq_of_getLsbD_eq
    intro i bound
    simp only [elow, BitVec.getLsbD_or, BitVec.getLsbD_and, BitVec.getLsbD_shiftLeft,
      getLsbD_pointerMask bound]
    by_cases inside : 4 ≤ i ∧ i < 48
    · simp [inside, bit i (by omega)]
    · simp [inside]
  · apply BitVec.eq_of_getLsbD_eq
    intro i bound
    simp only [ehigh, BitVec.getLsbD_or, BitVec.getLsbD_and, getLsbD_highMask bound,
      getLsbD_pointerMask bound]
    by_cases inside : 4 ≤ i ∧ i < 48
    · simp [inside]
    · simp [inside]

theorem written_update {e v p : BitVec 64} {c : PPP} (written : Written e v p c) (v' : BitVec 64) :
    Written e (v' &&& pointerMask) p
      { c with next := (c.next &&& 0xFFFF00000000000F#64) ||| (v' &&& pointerMask) } := by
  have kept {i : Nat} (bound : i < 64) (outside : i < 4 ∨ 48 ≤ i) :
      ((c.next &&& 0xFFFF00000000000F#64) ||| (v' &&& pointerMask)).getLsbD i =
        c.next.getLsbD i := by
    have inside : ¬ (4 ≤ i ∧ i < 48) := by omega
    simp only [BitVec.getLsbD_or, BitVec.getLsbD_and, getLsbD_keepMask bound,
      getLsbD_pointerMask bound, outside, inside]
    simp
  refine ⟨?_, ?_, ?_, written.log⟩
  · rw [whole_iff, kept (by decide) (by decide)]
    exact (whole_iff c).mp written.whole
  · rw [← written.epoch]
    apply BitVec.eq_of_getLsbD_eq
    intro i bound
    rw [getLsbD_epoch _ bound, getLsbD_epoch _ bound]
    by_cases small : i < 16
    · rw [kept (by omega) (by omega)]
    · rw [BitVec.getLsbD_of_ge _ _ (by omega), BitVec.getLsbD_of_ge c.next _ (by omega)]
  · apply BitVec.eq_of_getLsbD_eq
    intro i bound
    simp only [BitVec.getLsbD_or, BitVec.getLsbD_and, getLsbD_keepMask bound,
      getLsbD_pointerMask bound]
    by_cases inside : 4 ≤ i ∧ i < 48
    · have outside : ¬ (i < 4 ∨ 48 ≤ i) := by omega
      simp [inside, outside]
    · simp [inside]

theorem and_mask_mask (x : BitVec 64) : (x &&& pointerMask) &&& pointerMask = x &&& pointerMask := by
  rw [BitVec.and_assoc, BitVec.and_self]

/-- Only the bits of the pointer matter. -/
theorem decoded_congr (e : BitVec 64) {p q : BitVec 64}
    (same : q &&& pointerMask = p &&& pointerMask) : decoded e q = decoded e p := by
  rw [decoded, decoded]
  congr 1
  apply BitVec.eq_of_getLsbD_eq
  intro i bound
  simp only [BitVec.getLsbD_and, BitVec.getLsbD_ushiftRight, getLsbD_epochMask bound]
  by_cases inside : 8 ≤ i ∧ i < 16
  · have bit := congrArg (·.getLsbD (32 + i)) same
    have mask : 4 ≤ 32 + i ∧ 32 + i < 48 := by omega
    simp only [BitVec.getLsbD_and, getLsbD_pointerMask (show 32 + i < 64 by omega), mask] at bit
    simpa [inside] using bit
  · simp [inside]

/-- The validity bit that `write` flips. -/
theorem flipped_bit (x : BitVec 64) :
    (∀ i, 0 < i → ((x &&& 1#64) ^^^ 1#64).getLsbD i = false) ∧
      ((x &&& 1#64) ^^^ 1#64).getLsbD 0 = !x.getLsbD 0 := by
  constructor
  · intro i positive
    have other : i ≠ 0 := by omega
    simp [BitVec.getLsbD_one, other]
  · simp

/-- The pointer of a word that is made of a pointer and a validity bit. -/
theorem pointer_of_word {x b : BitVec 64} (bit : ∀ i, 0 < i → b.getLsbD i = false) :
    ((x &&& pointerMask) ||| b) &&& pointerMask = x &&& pointerMask := by
  apply BitVec.eq_of_getLsbD_eq
  intro i bound
  simp only [BitVec.getLsbD_or, BitVec.getLsbD_and, getLsbD_pointerMask bound]
  by_cases inside : 4 ≤ i ∧ i < 48
  · simp [inside, bit i (by omega)]
  · simp [inside]

/-- The stores of `write` that log the pointer of the word `x`. -/
theorem written_of_log (es : Epochs) (x v nl : BitVec 64) :
    Written (decoded es.globalepoch (x &&& pointerMask)) (v &&& pointerMask) (x &&& pointerMask)
      ⟨elow es ||| (v &&& pointerMask) ||| ((nl &&& 1#64) ^^^ 1#64),
        ehigh es ||| (x &&& pointerMask) ||| ((nl &&& 1#64) ^^^ 1#64)⟩ := by
  obtain ⟨bit, -⟩ := flipped_bit nl
  have pointer := pointer_of_word (x := x) bit
  have agree : ((nl &&& 1#64) ^^^ 1#64).getLsbD 0 =
      ((x &&& pointerMask) ||| ((nl &&& 1#64) ^^^ 1#64)).getLsbD 0 := by
    have zero : pointerMask.getLsbD 0 = false := by decide
    simp only [BitVec.getLsbD_or, BitVec.getLsbD_and, zero, Bool.and_false, Bool.false_or]
  have written := written_of_words es v bit agree
  rw [decoded_congr _ (pointer.trans (and_mask_mask x).symm), pointer, ← BitVec.or_assoc] at written
  exact written

/-- The stores of `write` on a torn cell, which keep the log. -/
theorem written_of_torn (es : Epochs) (v nl : BitVec 64) :
    Written (decoded es.globalepoch (nl &&& pointerMask)) (v &&& pointerMask) (nl &&& pointerMask)
      ⟨elow es ||| (v &&& pointerMask) ||| (nl &&& 1#64),
        ehigh es ||| (nl &&& 0x0000FFFFFFFFFFFF#64)⟩ := by
  have pointer : (nl &&& 0x0000FFFFFFFFFFFF#64) &&& pointerMask = nl &&& pointerMask := by
    rw [BitVec.and_assoc]
    rfl
  have bit : ∀ i, 0 < i → (nl &&& 1#64).getLsbD i = false := by
    intro i positive
    have other : i ≠ 0 := by omega
    simp [BitVec.getLsbD_one, other]
  have written := written_of_words es v (q := nl &&& 0x0000FFFFFFFFFFFF#64) bit (by simp)
  rwa [decoded_congr _ (pointer.trans (and_mask_mask nl).symm), pointer] at written

/-! Runs. -/

/-- A cell that stands for its own pointer, or for the one in its log. -/
inductive Holds (s : Run) : Prop
  | current {e p : BitVec 64} (written : Written e s.value p s.cell)
      (log : e = s.epochs.globalepoch ∧ p = s.saved ∨ e < s.epochs.globalepoch ∧ s.value = s.saved)
      (valid : s.cell.failed s.epochs = true → p = s.value ∧ s.restarted = false)
  | rolled (back : s.cell.whole = false ∨ s.cell.failed s.epochs = true)
      (log : s.cell.nextLog &&& pointerMask = s.value) (same : s.value = s.saved)
      (restarted : s.restarted = true)

theorem read_of_holds {s : Run} (holds : Holds s) : s.cell.read s.epochs = s.value := by
  simp only [PPP.read]
  cases holds with
  | current written log valid =>
      rw [if_pos written.whole]
      split
      · next failed => rw [written.log, (valid failed).1]
      · exact written.next
  | rolled back log same restarted =>
      split
      · next whole =>
          rw [if_pos (back.resolve_left (by simp [whole]))]
          exact log
      · exact log

structure Inv (s : Run) : Prop where
  holds : Holds s
  bound : s.restarted = true ∨ s.epochs.globalepoch.toNat < 2 ^ 32
  exec : s.epochs.currexec ≤ s.epochs.globalepoch

/-- Epochs in which the cell is written can be read back. -/
def Recoverable (s : Run) : Label → Prop
  | .write _ | .tear _ => Fits s.epochs.globalepoch s.saved
  | _ => True

instance (s : Run) (l : Label) : Decidable (Recoverable s l) := by
  cases l <;> unfold Recoverable <;> infer_instance

theorem lt_of_failed {s : Run} (inv : Inv s) (failed : s.cell.failed s.epochs = true) :
    s.cell.epoch < s.epochs.globalepoch := by
  simp only [PPP.failed, Bool.and_eq_true, decide_eq_true_eq] at failed
  have early := failed.1
  have exec := inv.exec
  bv_omega

theorem Holds.saved {s : Run} (inv : Inv s)
    (other : s.cell.whole = false ∨ s.cell.failed s.epochs = true ∨
      s.cell.epoch ≠ s.epochs.globalepoch) : s.value = s.saved := by
  cases inv.holds with
  | rolled _ _ same _ => exact same
  | current written log valid =>
      rcases log with ⟨now, -⟩ | ⟨-, same⟩
      · rcases other with torn | failed | other
        · rw [written.whole] at torn
          cases torn
        · have := lt_of_failed inv failed
          rw [written.epoch, now] at this
          exact absurd this (BitVec.lt_irrefl _)
        · exact absurd (written.epoch.trans now) other
      · exact same

/-- The log of a cell that was torn or written in the failed epoch. -/
theorem log_of_back {s : Run} (inv : Inv s)
    (back : s.cell.whole = false ∨ s.cell.failed s.epochs = true) :
    s.cell.nextLog &&& pointerMask = s.saved := by
  have same := Holds.saved inv (back.imp_right .inl)
  cases inv.holds with
  | rolled _ log _ _ => rw [log, same]
  | current written log valid =>
      have failed := back.resolve_left (by simp [written.whole])
      rw [written.log, (valid failed).1, same]

/-- A cell that stands for its own pointer. -/
theorem next_of_current {s : Run} (inv : Inv s) (whole : s.cell.whole = true)
    (ok : s.cell.failed s.epochs = false) : ∃ p, Written s.cell.epoch s.value p s.cell ∧
      (s.cell.epoch = s.epochs.globalepoch → p = s.saved) := by
  cases inv.holds with
  | rolled back _ _ _ =>
      rcases back with torn | failed
      · rw [whole] at torn
        cases torn
      · rw [ok] at failed
        cases failed
  | @current e p written log valid =>
      refine ⟨p, written.epoch ▸ written, fun now => ?_⟩
      rcases log with ⟨-, saved⟩ | ⟨old, -⟩
      · exact saved
      · rw [← written.epoch, now] at old
        exact absurd old (BitVec.lt_irrefl _)

/-- The cell after `write v`. -/
theorem written_write {s : Run} {v : BitVec 64} (inv : Inv s)
    (fits : Fits s.epochs.globalepoch s.saved) (pointer : v &&& pointerMask = v) :
    Written s.epochs.globalepoch v s.saved ((write s.epochs s.cell v).foldl store s.cell) := by
  simp only [write]
  cases whole : s.cell.whole with
  | false =>
      have log := log_of_back inv (.inl whole)
      have written := written_of_torn s.epochs v s.cell.nextLog
      rw [pointer, log, fits.decoded] at written
      simpa [store, pointer] using written
  | true =>
      cases failed : s.cell.failed s.epochs with
      | true =>
          have log := log_of_back inv (.inr failed)
          have written := written_of_log s.epochs s.cell.nextLog v s.cell.nextLog
          rw [pointer, log, fits.decoded] at written
          simpa [store, pointer, log] using written
      | false =>
          obtain ⟨p, current, saved⟩ := next_of_current inv whole failed
          by_cases now : s.cell.epoch = s.epochs.globalepoch
          · have written := written_update current v
            rw [saved now, now, pointer] at written
            simpa [now, store, pointer] using written
          · have same := Holds.saved inv (.inr (.inr now))
            have log := current.next.trans same
            have written := written_of_log s.epochs s.cell.next v s.cell.nextLog
            rw [pointer, log, fits.decoded] at written
            simpa [now, store, pointer, log] using written

/-- The cell between the two stores that log the pointer of `x`. -/
theorem torn_of_log (es : Epochs) {c : PPP} (whole : c.whole = true) (x : BitVec 64) :
    let torn := { c with
      nextLog := ehigh es ||| (x &&& pointerMask) ||| ((c.nextLog &&& 1#64) ^^^ 1#64) }
    PPP.whole torn = false ∧ torn.nextLog &&& pointerMask = x &&& pointerMask := by
  obtain ⟨bit, flip⟩ := flipped_bit c.nextLog
  constructor
  · have zero : pointerMask.getLsbD 0 = false := by decide
    have zero' : (0xFFFF000000000000#64).getLsbD 0 = false := by decide
    have bits := (whole_iff c).mp whole
    rw [← Bool.not_eq_true, whole_iff]
    simp only [ehigh, BitVec.getLsbD_or, BitVec.getLsbD_and, zero, zero', flip, bits]
    simp
  · have high : ehigh es &&& pointerMask = 0 := by
      rw [ehigh, BitVec.and_assoc]
      exact BitVec.and_zero
    simp only
    rw [BitVec.or_assoc, BitVec.and_or_distrib_right, high, pointer_of_word bit]
    exact BitVec.zero_or

/-- A crash between the two stores leaves the validity bits different and the old pointer in the
log. -/
theorem torn_write {s : Run} {v : BitVec 64} {first second : Store} (inv : Inv s)
    (fresh : s.restarted = false) (stores : write s.epochs s.cell v = [first, second]) :
    (s.cell.store first).whole = false ∧
      (s.cell.store first).nextLog &&& pointerMask = s.saved := by
  have whole : s.cell.whole = true := by
    cases inv.holds with
    | current written _ _ => exact written.whole
    | rolled _ _ _ restarted =>
        rw [fresh] at restarted
        cases restarted
  simp only [write, whole, Bool.not_true, Bool.false_eq_true, if_false] at stores
  cases failed : s.cell.failed s.epochs with
  | true =>
      simp only [failed, if_true, List.cons.injEq] at stores
      obtain ⟨rfl, -⟩ := stores
      have torn := torn_of_log s.epochs whole s.cell.nextLog
      exact ⟨torn.1, torn.2.trans (log_of_back inv (.inr failed))⟩
  | false =>
      obtain ⟨p, current, -⟩ := next_of_current inv whole failed
      by_cases now : s.cell.epoch = s.epochs.globalepoch
      · simp [failed, now] at stores
      · simp only [failed, now, Bool.false_eq_true, if_false, List.cons.injEq] at stores
        obtain ⟨rfl, -⟩ := stores
        have torn := torn_of_log s.epochs whole s.cell.next
        exact ⟨torn.1, torn.2.trans (current.next.trans (Holds.saved inv (.inr (.inr now))))⟩

theorem inv_write {s : Run} {v : BitVec 64} (inv : Inv s)
    (fits : Fits s.epochs.globalepoch s.saved) (pointer : v &&& pointerMask = v) :
    Inv { s with cell := (write s.epochs s.cell v).foldl store s.cell, value := v } := by
  have written := written_write inv fits pointer
  refine ⟨.current written (.inl ⟨rfl, rfl⟩) fun failed => ?_, inv.bound, inv.exec⟩
  simp only [PPP.failed, written.epoch, Bool.and_eq_true, decide_eq_true_eq] at failed
  have early := failed.1
  have exec := inv.exec
  bv_omega

theorem inv_advance {s : Run} {e : BitVec 64} (inv : Inv s) (later : s.epochs.globalepoch < e)
    (bound : e < BitVec.twoPow 64 32) :
    Inv { s with epochs := { s.epochs with globalepoch := e }, saved := s.value } := by
  refine ⟨?_, ?_, ?_⟩
  · cases inv.holds with
    | @current e' p written log valid =>
        have old : e' < e := by
          rcases log with ⟨rfl, -⟩ | ⟨before, -⟩
          · exact later
          · bv_omega
        exact .current written (.inr ⟨old, rfl⟩) valid
    | rolled back log same restarted => exact .rolled back log rfl restarted
  · have small : e.toNat < 2 ^ 32 := by simpa [BitVec.lt_def] using bound
    exact .inr small
  · have exec := inv.exec
    simp only
    bv_omega

theorem restart_eq_some {s s' : Run} {cell : PPP} (h : s.restart cell = some s') :
    s.restarted = false ∧ s' = ⟨cell, s.epochs.restart, s.saved, s.saved, true⟩ := by
  simp only [Run.restart] at h
  cases restarted : s.restarted with
  | true => simp [restarted] at h
  | false =>
      simp only [restarted, Bool.false_eq_true, if_false, Option.some.injEq] at h
      exact ⟨rfl, h.symm⟩

theorem lt_restart {s : Run} (inv : Inv s) (fresh : s.restarted = false) :
    s.epochs.globalepoch < s.epochs.restart.globalepoch := by
  have bound := inv.bound.resolve_left (by simp [fresh])
  simp only [Epochs.restart]
  bv_omega

theorem inv_crash {s s' : Run} (inv : Inv s) (h : s.restart s.cell = some s') : Inv s' := by
  obtain ⟨fresh, rfl⟩ := restart_eq_some h
  have later := lt_restart inv fresh
  refine ⟨?_, .inl rfl, BitVec.le_refl _⟩
  cases inv.holds with
  | rolled _ _ _ restarted =>
      rw [fresh] at restarted
      cases restarted
  | @current e p written log valid =>
      rcases log with ⟨rfl, saved⟩ | ⟨old, same⟩
      · refine .rolled (.inr ?_) (written.log.trans saved) rfl rfl
        simp only [PPP.failed, written.epoch, epochIsValid, Bool.and_eq_true, decide_eq_true_eq]
        exact ⟨later, by simp [Epochs.restart]⟩
      · refine .current (same ▸ written) (.inr ⟨?_, rfl⟩) fun failed => ?_
        · simp only
          bv_omega
        · simp only [PPP.failed, written.epoch, epochIsValid, Epochs.restart, Bool.and_eq_true,
            Bool.not_eq_true', bne_eq_false_iff_eq] at failed
          rw [failed.2] at old
          exact absurd old (BitVec.lt_irrefl _)

theorem inv_tear {s s' : Run} {v : BitVec 64} {first second : Store} (inv : Inv s)
    (stores : write s.epochs s.cell v = [first, second])
    (h : s.restart (s.cell.store first) = some s') : Inv s' := by
  obtain ⟨fresh, rfl⟩ := restart_eq_some h
  obtain ⟨torn, log⟩ := torn_write inv fresh stores
  exact ⟨.rolled (.inl torn) log rfl rfl, .inl rfl, BitVec.le_refl _⟩

theorem inv_step {s s' : Run} {l : Label} (inv : Inv s) (ok : Recoverable s l)
    (h : step s l = some s') : Inv s' := by
  cases l with
  | write v =>
      simp only [step, Option.ite_none_right_eq_some, Option.some.injEq] at h
      obtain ⟨pointer, rfl⟩ := h
      exact inv_write inv ok (by simpa [aligned] using pointer)
  | advance e =>
      simp only [step, Option.ite_none_right_eq_some, Option.some.injEq] at h
      obtain ⟨⟨later, bound⟩, rfl⟩ := h
      exact inv_advance inv later bound
  | crash => exact inv_crash inv h
  | tear v =>
      simp only [step, Option.ite_none_right_eq_some] at h
      obtain ⟨-, h⟩ := h
      split at h
      · next first second stores => exact inv_tear inv stores h
      · cases h

theorem inv_initial {s : Run} (h : machine.initial s) : Inv s := by
  obtain ⟨cell, bound, exec, value, saved, fresh⟩ := h
  have small : s.epochs.globalepoch.toNat < 2 ^ 32 := by simpa [BitVec.lt_def] using bound
  have written : Written 0 s.value 0 s.cell := by
    rw [cell, value]
    exact ⟨by decide, by decide, by decide, by decide⟩
  refine ⟨.current written ?_ fun _ => ⟨value.symm, fresh⟩, .inr small, exec⟩
  by_cases zero : s.epochs.globalepoch = 0
  · exact .inl ⟨zero.symm, saved.symm⟩
  · right
    refine ⟨?_, value.trans saved.symm⟩
    bv_omega

theorem cell_rolled_back {s : Run} (reachable : machine.Reachable Recoverable s) :
    s.cell.read s.epochs = s.value := by
  refine read_of_holds (Inv.holds ?_)
  exact reachable.invariant (fun _ => inv_initial) fun _ _ _ inv ok h => inv_step inv ok h

/-- A cell of zeroes in the first execution. -/
def fresh : Run := ⟨⟨0, 0⟩, ⟨1, 0, 0⟩, 0, 0, false⟩

theorem fresh_initial : machine.initial fresh := by
  refine ⟨rfl, ?_, ?_, rfl, rfl, rfl⟩ <;> decide

/-- A crash between the two stores of the second write. -/
theorem cell_rolled_back_torn : ∃ s : Run, machine.Reachable Recoverable s ∧
    s.restarted = true ∧ s.value = 16 ∧ s.cell.read s.epochs = s.value := by
  have start : machine.Reachable Recoverable fresh := .initial fresh_initial
  obtain ⟨s, reachable, h⟩ := start.exists_run [.write 16, .advance 2, .tear 32]
    (fun s => s.restarted && s.value == 16) (by decide)
  simp only [Bool.and_eq_true, beq_iff_eq] at h
  exact ⟨s, reachable, h.1, h.2, cell_rolled_back reachable⟩

/-- Two pointers into the data region, written in epochs 1 and 2, and a crash in epoch 2: the epoch
of the cell is read as 0x2002. -/
theorem cell_not_rolled_back :
    ¬ ∀ s : Run, machine.Reachable Machine.anyStep s → s.cell.read s.epochs = s.value := by
  intro claim
  have start : machine.Reachable Machine.anyStep fresh := .initial fresh_initial
  obtain ⟨s, reachable, h⟩ := start.exists_run
    [.write 0x200000000010#64, .advance 2, .write 0x200000000020#64, .crash]
    (fun s => s.cell.read s.epochs != s.value) (by decide)
  simp [claim s reachable] at h

/-! Reading in the same execution. -/

/-- `write` leaves a cell whose epoch is not taken for the failed one, or the old and the new pointer
are the same. -/
def Distinct (es : Epochs) (c : PPP) (v : BitVec 64) : Prop :=
  (c.whole = true ∧ c.epoch = es.globalepoch) ∨ c.read es = v ∨
    decoded es.globalepoch (c.read es) ≠ es.failedepoch

theorem read_globalepoch (es : Epochs) (c : PPP) (e : BitVec 64) :
    c.read { es with globalepoch := e } = c.read es := rfl

theorem read_of_written {e v p : BitVec 64} {c : PPP} (es : Epochs) (written : Written e v p c)
    (exec : es.failedepoch < es.currexec) : c.read es = if e = es.failedepoch then p else v := by
  simp only [PPP.read, written.whole, if_true, PPP.failed, epochIsValid, written.epoch, written.next,
    written.log]
  by_cases same : e = es.failedepoch
  · simp [same, exec]
  · simp [same]

/-- The pointer that a write in a new epoch keeps in the log is the one that the cell stood for. -/
theorem written_of_new {es : Epochs} {c : PPP} {v : BitVec 64} (pointer : v &&& pointerMask = v)
    (other : ¬ (c.whole = true ∧ c.epoch = es.globalepoch)) :
    Written (decoded es.globalepoch (c.read es)) v (c.read es)
      ((write es c v).foldl store c) := by
  simp only [write, PPP.read]
  cases whole : c.whole with
  | false =>
      have written := written_of_torn es v c.nextLog
      rw [pointer] at written
      simpa [store, pointer] using written
  | true =>
      cases failed : c.failed es with
      | true =>
          have written := written_of_log es c.nextLog v c.nextLog
          rw [pointer] at written
          simpa [store, pointer] using written
      | false =>
          have now : c.epoch ≠ es.globalepoch := fun same => other ⟨whole, same⟩
          have written := written_of_log es c.next v c.nextLog
          rw [pointer] at written
          simpa [now, store, pointer] using written

theorem read_write (es : Epochs) (c : PPP) {v : BitVec 64}
    (exec : es.failedepoch < es.currexec ∧ es.currexec ≤ es.globalepoch)
    (bound : es.globalepoch < BitVec.twoPow 64 32) (pointer : aligned v = true) :
    (∀ e, es.globalepoch ≤ e → e < BitVec.twoPow 64 32 →
      ((write es c v).foldl store c).read { es with globalepoch := e } = v) ↔ Distinct es c v := by
  simp only [read_globalepoch]
  have mask : v &&& pointerMask = v := beq_iff_eq.mp pointer
  have later : es.failedepoch < es.globalepoch := by
    have := exec.1
    have := exec.2
    bv_omega
  have once : (∀ e, es.globalepoch ≤ e → e < BitVec.twoPow 64 32 →
      ((write es c v).foldl store c).read es = v) ↔ ((write es c v).foldl store c).read es = v :=
    ⟨fun h => h _ (BitVec.le_refl _) bound, fun h _ _ _ => h⟩
  rw [once, Distinct]
  by_cases now : c.whole = true ∧ c.epoch = es.globalepoch
  · obtain ⟨whole, now⟩ := now
    have valid : c.failed es = false := by
      have ne : es.globalepoch ≠ es.failedepoch := by bv_omega
      simp [PPP.failed, now, epochIsValid, ne]
    have current : Written c.epoch (c.next &&& pointerMask) (c.nextLog &&& pointerMask) c :=
      ⟨whole, rfl, rfl, rfl⟩
    have written := written_update current v
    have ne : c.epoch ≠ es.failedepoch := by
      rw [now]
      bv_omega
    have value := read_of_written es written exec.1
    rw [if_neg ne, mask] at value
    simpa [write, whole, valid, now, store, mask] using value
  · rw [read_of_written es (written_of_new mask now) exec.1]
    by_cases same : decoded es.globalepoch (c.read es) = es.failedepoch
    · simp [same, now]
    · simp [same]

/-- In epochs below 2^16 a cell reads its own writes. -/
theorem distinct_of_small {es : Epochs} (c : PPP) (v : BitVec 64)
    (exec : es.failedepoch < es.globalepoch) (small : es.globalepoch < BitVec.twoPow 64 16) :
    Distinct es c v := by
  refine .inr (.inr fun same => ?_)
  have mask : es.globalepoch &&& 0xFFFF#64 = es.globalepoch := by
    apply BitVec.eq_of_getLsbD_eq
    intro i inside
    have bit : (0xFFFF#64).getLsbD i = decide (i < 16) :=
      getLsbD_of_forall (p := fun i => decide (i < 16)) (by decide) inside
    rw [BitVec.getLsbD_and, bit]
    by_cases low : i < 16
    · simp [low]
    · have bound : es.globalepoch.toNat < 2 ^ 16 := by simpa [BitVec.lt_def] using small
      have zero : es.globalepoch.getLsbD i = false := Nat.testBit_lt_two_pow
        (Nat.lt_of_lt_of_le bound (Nat.pow_le_pow_right (by decide) (by omega)))
      simp [zero]
  have most : es.globalepoch ≤ decoded es.globalepoch (c.read es) := by
    rw [decoded, mask, BitVec.le_def, BitVec.toNat_or]
    exact Nat.left_le_or
  rw [same] at most
  bv_omega

/-- The 65537th epoch of an execution after a crash in epoch 1. -/
def wrapped : Epochs := ⟨65537, 2, 1⟩

theorem read_write_small : aligned 0x200000000010#64 = true ∧
    ∀ e, 3#64 ≤ e → e < BitVec.twoPow 64 32 →
      ((write ⟨3, 3, 2⟩ ⟨0, 0⟩ 0x200000000010#64).foldl store ⟨0, 0⟩).read ⟨e, 3, 2⟩ =
        0x200000000010#64 :=
  ⟨by decide, (read_write ⟨3, 3, 2⟩ ⟨0, 0⟩ (by decide) (by decide) (by decide)).mpr
    (.inr (.inr (by decide)))⟩

theorem read_not_written : ¬ ∀ (es : Epochs) (c : PPP) (v : BitVec 64),
    es.failedepoch < es.currexec ∧ es.currexec ≤ es.globalepoch →
    es.globalepoch < BitVec.twoPow 64 32 → aligned v = true →
    ((write es c v).foldl store c).read es = v := by
  intro claim
  exact absurd (claim wrapped ⟨0, 0⟩ 0x200000000010#64 (by decide) (by decide) (by decide)) (by decide)

end Incll.Proof.PPP
