import Incll.Model.Extflush
import Incll.Proof.Log.Undo

/-! # Which entries of the log survive a crash -/

namespace Incll.Proof.Log
open Incll.Lib Incll.Model Incll.Model.PExtNodeLogger

/-! The lines that `sync_range` flushes. -/

theorem write_eq_true {start stop b : Nat} {synced : Synced} :
    synced.write start stop b = true ↔ synced b = true ∧ ¬ (start ≤ b ∧ b < stop) := by
  simp only [Synced.write, Bool.and_eq_true, Bool.not_eq_true', Bool.and_eq_false_iff,
    decide_eq_false_iff_not]
  exact and_congr_right fun _ => by omega

theorem flush_eq_true {p b : Nat} {synced : Synced} :
    synced.flush p b = true ↔ synced b = true ∨ b / 64 = p / 64 := by
  simp [Synced.flush]

theorem next_line (start : Nat) : (start ||| 63) + 1 = 64 * (start / 64 + 1) := by
  have high : (start ||| 63) / 2 ^ 6 = start / 2 ^ 6 ||| 63 / 2 ^ 6 := Nat.or_div_two_pow
  have low : (start ||| 63) % 2 ^ 6 = start % 2 ^ 6 ||| 63 % 2 ^ 6 := Nat.or_mod_two_pow
  have ones : ∀ r : Fin 64, r.val ||| 63 = 63 := by decide
  have rest := ones ⟨start % 64, Nat.mod_lt _ (by decide)⟩
  simp only [Nat.reducePow, Nat.reduceDiv, Nat.reduceMod, Nat.or_zero] at high low rest
  omega

theorem flushAll_eq_true {line stop b : Nat} {synced : Synced} :
    synced.flushAll (64 * line) stop b = true ↔
      synced b = true ∨ line ≤ b / 64 ∧ 64 * (b / 64) < stop := by
  generalize gap : stop - 64 * line = n
  induction n using Nat.strong_induction_on generalizing line synced with
  | _ n ih =>
      rw [Synced.flushAll]
      split
      · rw [show 64 * line + 64 = 64 * (line + 1) by omega, ih _ (by omega) rfl, flush_eq_true]
        rw [or_assoc]
        exact or_congr_right (by omega)
      · exact (or_iff_left (by omega)).symm

theorem syncRange_eq_true {start stop b : Nat} {synced : Synced} :
    synced.syncRange start stop b = true ↔
      synced b = true ∨ b / 64 = start / 64 ∨ start / 64 < b / 64 ∧ 64 * (b / 64) < stop := by
  rw [Synced.syncRange, next_line, flushAll_eq_true, flush_eq_true, or_assoc]
  exact or_congr_right (by omega)

/-! Records. -/

variable {W : Type} [Word W]

theorem record_place (log : PExtNodeLogger W) (e : LogEntry W) :
    log.record e = (PLog.place log e).bind fun p =>
      (log.storeAll p.1 (entryWords p.2 e)).map fun log =>
        { log with curr := (p.1 + p.2) % 2 ^ 64 } := by
  simp only [PExtNodeLogger.record, PLog.place, bind, Option.map_eq_bind]
  split
  · cases log.load 0 <;> rfl
  · rfl

omit [Word W] in
theorem addr_aligned (p : PLog W) : p.addr % 64 = 0 := by
  simp only [PLog.addr, PLog.logRegionAddr, pbufSize]
  omega

/-- What one record does to the buffer and to the flushed bytes. -/
theorem record_parts {p p' : PLog W} {e : LogEntry W} (h : p.record e = some p') :
    ∃ start size, PLog.place p.log e = some (start, size) ∧
      start % 8 = 0 ∧ start + getEntrySize e ≤ p.log.bufSize ∧ p'.tid = p.tid ∧
      p'.log = { p.log with
        curr := (start + size) % 2 ^ 64
        buf := stored p.log.buf start (entryWords size e) } ∧
      ∀ b, p'.synced b = true ↔ b / 64 = p.addr / 64 ∨
        p.synced b = true ∧ ¬ (p.bufAddr + start ≤ b ∧ b < p.bufAddr + start + getEntrySize e) ∨
        b / 64 = (p.bufAddr + start + 24) / 64 ∨
        (p.bufAddr + start + 24) / 64 < b / 64 ∧
          64 * (b / 64) < p.bufAddr + start + getEntrySize e := by
  simp only [PLog.record, bind, Option.bind_eq_some_iff, pure, Option.some.injEq] at h
  obtain ⟨⟨start, size⟩, place, log, records, rfl⟩ := h
  rw [record_place, place, Option.bind_some, Option.map_eq_some_iff] at records
  obtain ⟨log, stores, rfl⟩ := records
  obtain ⟨rfl, bounds⟩ := storeAll_eq_some stores
  obtain ⟨aligned, bound⟩ := bounds (by simp [entryWords])
  refine ⟨start, size, place, aligned, ?_, rfl, rfl, fun b => ?_⟩
  · simp only [entryWords, List.length_cons] at bound
    simp only [getEntrySize, entryMetaSize]
    omega
  · have line := addr_aligned p
    simp only [syncRange_eq_true, write_eq_true, PLog.bufAddr, getEntrySize, entryMetaSize]
    cases p.synced b <;>
      simp only [Bool.false_eq_true, true_and, false_and, false_or] <;> omega

def plogStep (p : PLog W) : Label W → Option (PLog W)
  | .record e => p.record e
  | .checkpoint root => some (p.checkpoint root)

def plogMachine (W : Type) [Word W] : Machine (PLog W) (Label W) where
  initial p := ∃ tid buf synced, p = .init tid buf synced
  step := plogStep

/-- The first entry of the buffer has been flushed and is not written over by the next record, unless
that goes back to the beginning. -/
structure FirstKept (p : PLog W) : Prop where
  bufSize : p.log.bufSize = 2 ^ 28 - 32
  curr : p.log.curr ≤ p.log.bufSize
  size : p.log.curr = 0 ∨ Word.val (p.log.buf 0) ≤ p.log.curr
  synced : p.log.curr = 0 ∨ ∀ b, p.bufAddr ≤ b → b < p.bufAddr + Word.val (p.log.buf 0) →
    p.synced b = true

theorem place_cases {p : PLog W} {e : LogEntry W} {start size : Nat}
    (place : PLog.place p.log e = some (start, size)) :
    start = p.log.curr ∧ size = getEntrySize e ∨
      start = 0 ∧ size = Word.val (p.log.buf 0) ∧
        p.log.bufSize < (p.log.curr + getEntrySize e) % 2 ^ 64 := by
  simp only [PLog.place] at place
  split at place
  · rename_i wraps
    simp only [load, bind, Option.bind_eq_some_iff, Option.ite_none_right_eq_some, pure,
      Option.some.injEq, Prod.mk.injEq] at place
    obtain ⟨_, ⟨_, rfl⟩, rfl, rfl⟩ := place
    exact .inr ⟨rfl, rfl, by simpa [PExtNodeLogger.wraps] using wraps⟩
  · simp only [pure, Option.some.injEq, Prod.mk.injEq] at place
    exact .inl ⟨place.1.symm, place.2.symm⟩

/-- The header shares a line with the image or with `curr`. -/
theorem entry_synced {p p' : PLog W} {e : LogEntry W} {start size : Nat} (kept : FirstKept p)
    (h : p.record e = some p') (place : PLog.place p.log e = some (start, size))
    (shares : start < 32 ∨ (32 + start) % 64 < 40) {b : Nat} (low : p.bufAddr + start ≤ b)
    (high : b < p.bufAddr + start + size) : p'.synced b = true := by
  obtain ⟨start', size', place', aligned, bound, -, -, synced⟩ := record_parts h
  rw [place] at place'
  cases place'
  rw [synced]
  have line := addr_aligned p
  have buf : p.bufAddr = p.addr + 32 := rfl
  by_cases inside : b < p.bufAddr + start + getEntrySize e
  · omega
  · rcases place_cases place with ⟨rfl, rfl⟩ | ⟨rfl, rfl, wraps⟩
    · omega
    · have away : p.log.curr ≠ 0 := by
        intro zero
        rw [zero, Nat.zero_add] at wraps
        have := Nat.mod_le (getEntrySize e) (2 ^ 64)
        omega
      have before := kept.synced.resolve_left away b low high
      exact .inr (.inl ⟨before, by omega⟩)

/-- Otherwise its first byte lies in a line that no flush of the record reaches. -/
theorem header_not_synced {p p' : PLog W} {e : LogEntry W} {start size : Nat}
    (h : p.record e = some p') (place : PLog.place p.log e = some (start, size))
    (far : 32 ≤ start) (apart : 40 ≤ (32 + start) % 64) :
    p'.synced (p.bufAddr + start) = false := by
  obtain ⟨start', size', place', -, -, -, -, synced⟩ := record_parts h
  rw [place] at place'
  cases place'
  rw [Bool.eq_false_iff, Ne, synced]
  have line := addr_aligned p
  have buf : p.bufAddr = p.addr + 32 := rfl
  have header : 24 ≤ getEntrySize e := Nat.le_add_right ..
  omega

theorem stored_header (buf : Nat → W) {size : Nat} (small : size < 2 ^ 64) (e : LogEntry W) :
    Word.val (stored buf 0 (entryWords size e) 0) = size := by
  have header := written_stored buf 0 (entryWords size e) 0 (by simp [entryWords])
  simp only [Nat.mul_zero, Nat.add_zero] at header
  rw [header]
  exact Word.val_num size small

theorem firstKept_record {p p' : PLog W} {e : LogEntry W} (kept : FirstKept p)
    (h : p.record e = some p') : FirstKept p' := by
  obtain ⟨start, size, place, aligned, bound, tid, log, synced⟩ := record_parts h
  have addr : p'.bufAddr = p.bufAddr := by simp only [PLog.bufAddr, PLog.addr, tid]
  have bufSize := kept.bufSize
  have curr := kept.curr
  have header : 24 ≤ getEntrySize e := Nat.le_add_right ..
  -- an entry at the beginning is the first one from now on
  have fresh (at0 : start = 0) (fits : size ≤ p.log.bufSize) : FirstKept p' := by
    subst at0
    have first : Word.val (p'.log.buf 0) = size := by
      rw [log]
      exact stored_header _ (by omega) e
    have next : p'.log.curr = size := by
      rw [log]
      simp only
      omega
    refine ⟨by rw [log]; exact bufSize, by rw [next, log]; exact fits, .inr (by omega), .inr ?_⟩
    rw [addr, first]
    intro b low high
    exact entry_synced kept h place (.inl (by decide)) low (by omega)
  rcases place_cases place with ⟨rfl, rfl⟩ | ⟨rfl, rfl, wraps⟩
  · by_cases zero : p.log.curr = 0
    · exact fresh zero (by omega)
    · have before := kept.size.resolve_left zero
      have same : p'.log.buf 0 = p.log.buf 0 := by
        rw [log]
        exact stored_outside (.inl (by omega))
      have next : p'.log.curr = p.log.curr + getEntrySize e := by
        rw [log]
        simp only
        omega
      refine ⟨by rw [log]; exact bufSize, by rw [next, log]; exact bound, .inr ?_, .inr ?_⟩
      · rw [same, next]
        omega
      · rw [same, addr]
        intro b low high
        rw [synced]
        exact .inr (.inl ⟨kept.synced.resolve_left zero b low high, by omega⟩)
  · refine fresh rfl ?_
    rcases kept.size with zero | small
    · rw [zero, Nat.zero_add] at wraps
      have := Nat.mod_le (getEntrySize e) (2 ^ 64)
      omega
    · omega

omit [Word W] in
theorem synced_checkpoint {p : PLog W} {root : Addr} {b : Nat} (low : p.bufAddr ≤ b)
    (h : p.synced b = true) : (p.checkpoint root).synced b = true := by
  have line := addr_aligned p
  have buf : p.bufAddr = p.addr + 32 := rfl
  simp only [PLog.checkpoint, syncRange_eq_true, write_eq_true, h, true_and]
  omega

theorem firstKept_of_reachable {p : PLog W}
    (reachable : (plogMachine W).Reachable Machine.anyStep p) : FirstKept p := by
  refine reachable.invariant ?_ ?_
  · rintro _ ⟨tid, buf, synced, rfl⟩
    exact ⟨rfl, Nat.zero_le _, .inl rfl, .inl rfl⟩
  · intro p label p' kept _ h
    cases label with
    | record e => exact firstKept_record kept h
    | checkpoint root =>
        cases h
        obtain ⟨bufSize, curr, size, synced⟩ := kept
        refine ⟨bufSize, curr, size, synced.imp_right fun all b low high => ?_⟩
        exact synced_checkpoint low (all b low high)

/-- The entry is in flushed lines when `record` has flushed the new `curr` if and only if its header
shares a line with its image, or with `curr`. -/
theorem entry_synced_iff {p p' : PLog W}
    (reachable : (plogMachine W).Reachable Machine.anyStep p) {e : LogEntry W}
    (records : p.record e = some p') {start size : Nat}
    (place : PLog.place p.log e = some (start, size)) :
    (∀ b, p.bufAddr + start ≤ b → b < p.bufAddr + start + size → p'.synced b = true) ↔
      start < 32 ∨ (32 + start) % 64 < 40 := by
  have kept := firstKept_of_reachable reachable
  constructor
  · intro all
    by_contra apart
    have lost := header_not_synced records place (by omega) (by omega)
    rcases place_cases place with ⟨rfl, rfl⟩ | ⟨rfl, -, -⟩
    · have header : 24 ≤ getEntrySize e := Nat.le_add_right ..
      rw [all _ le_rfl (by omega)] at lost
      cases lost
    · omega
  · intro shares b low high
    exact entry_synced kept records place shares low high

theorem plog_record_straight {p : PLog W} {e : LogEntry W} (aligned : p.log.curr % 8 = 0)
    (small : p.log.bufSize < 2 ^ 63) (room : p.log.curr + getEntrySize e ≤ p.log.bufSize) :
    PLog.place p.log e = some (p.log.curr, getEntrySize e) ∧
      ∃ p', p.record e = some p' ∧ p'.log = appended p.log p.log.curr e := by
  have straight : p.log.wraps (getEntrySize e) = false := by
    simp only [PExtNodeLogger.wraps, decide_eq_false_iff_not]
    omega
  have place : PLog.place p.log e = some (p.log.curr, getEntrySize e) := by
    simp [PLog.place, straight]
  refine ⟨place, ?_⟩
  simp only [PLog.record, place, record_straight aligned small room, bind, Option.bind_some, pure,
    Option.some.injEq]
  exact ⟨_, rfl, rfl⟩

def freshLog : PLog (BitVec 64) := .init 0 (fun _ => 0) fun _ => false

theorem reachable_freshLog : (plogMachine (BitVec 64)).Reachable Machine.anyStep freshLog :=
  .initial ⟨0, _, _, rfl⟩

/-- The first record of a fresh log. -/
theorem record_freshLog : PLog.place freshLog.log leafEntry = some (0, 408) ∧
    ∃ p, freshLog.record leafEntry = some p ∧ p.log = appended freshLog.log 0 leafEntry :=
  plog_record_straight (p := freshLog) (e := leafEntry) rfl (by decide) (by decide)

theorem entry_synced_iff_first : ∃ p : PLog (BitVec 64), freshLog.record leafEntry = some p ∧
    ∀ b, freshLog.bufAddr ≤ b → b < freshLog.bufAddr + 408 → p.synced b = true := by
  obtain ⟨place, p, records, -⟩ := record_freshLog
  exact ⟨p, records, (entry_synced_iff reachable_freshLog records place).mpr (.inl (by decide))⟩

/-- The second leaf of a fresh log is at 408: its header ends in the line of its image, and begins in
the line before. -/
theorem second_header_lost :
    ¬ ∀ p p' : PLog (BitVec 64), (plogMachine _).Reachable Machine.anyStep p →
      ∀ e start size, p.record e = some p' → PLog.place p.log e = some (start, size) →
        ∀ b, p.bufAddr + start ≤ b → b < p.bufAddr + start + size → p'.synced b = true := by
  intro claim
  obtain ⟨-, p₁, first, log⟩ := record_freshLog
  have reachable : (plogMachine (BitVec 64)).Reachable Machine.anyStep p₁ :=
    reachable_freshLog.next (l := .record leafEntry) trivial first
  have curr : p₁.log.curr = 408 := by rw [log]; rfl
  have bufSize : p₁.log.bufSize = 2 ^ 28 - 32 := by rw [log]; rfl
  have leafSize : getEntrySize leafEntry = 408 := by decide
  obtain ⟨place, p₂, second, -⟩ := plog_record_straight (p := p₁) (e := leafEntry) (by omega)
    (by omega) (by omega)
  have lost := header_not_synced second place (by omega) (by omega)
  rw [claim p₁ p₂ reachable leafEntry _ _ second place _ le_rfl (by omega)] at lost
  cases lost

end Incll.Proof.Log
