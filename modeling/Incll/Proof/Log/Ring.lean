import Incll.Model.PExtNodeLogger

/-! # The entries since the last checkpoint lie in the ring from `last_flush` to `curr` -/

namespace Incll.Proof.Log
open Incll.Lib Incll.Model Incll.Model.PExtNodeLogger

variable {W : Type}

/-! Words in the buffer. -/

def stored (buf : Nat → W) (offset : Nat) : List W → Nat → W
  | [] => buf
  | w :: ws => stored (Function.update buf offset w) (offset + 8) ws

def Written (buf : Nat → W) (offset : Nat) (ws : List W) : Prop :=
  ∀ i (h : i < ws.length), buf (offset + 8 * i) = ws[i]

theorem Written.left {buf : Nat → W} {offset : Nat} {ws ws' : List W}
    (h : Written buf offset (ws ++ ws')) : Written buf offset ws := by
  intro i hi
  rw [h i (by simp; omega), List.getElem_append_left hi]

theorem stored_outside {ws : List W} {buf : Nat → W} {offset o : Nat}
    (out : o < offset ∨ offset + 8 * ws.length ≤ o) : stored buf offset ws o = buf o := by
  induction ws generalizing buf offset with
  | nil => rfl
  | cons w ws ih =>
      simp only [List.length_cons] at out
      simp only [stored]
      rw [ih (by omega), Function.update_of_ne (by omega)]

theorem written_stored (buf : Nat → W) (offset : Nat) (ws : List W) :
    Written (stored buf offset ws) offset ws := by
  induction ws generalizing buf offset with
  | nil => intro i h; simp at h
  | cons w ws ih =>
      intro i h
      cases i with
      | zero =>
          simp only [stored, Nat.mul_zero, Nat.add_zero, List.getElem_cons_zero]
          rw [stored_outside (.inl (by omega)), Function.update_self]
      | succ i =>
          have rest := ih (Function.update buf offset w) (offset + 8) i (by simpa using h)
          simp only [stored, List.getElem_cons_succ]
          rw [← rest]
          congr 1
          omega

theorem storeAll_eq_some {log log' : PExtNodeLogger W} {ws : List W} {offset : Nat}
    (h : log.storeAll offset ws = some log') :
    log' = { log with buf := stored log.buf offset ws } ∧
      (ws ≠ [] → offset % 8 = 0 ∧ offset + 8 * ws.length ≤ log.bufSize) := by
  induction ws generalizing log offset with
  | nil => cases h; exact ⟨rfl, by simp⟩
  | cons w ws ih =>
      simp only [storeAll, store, bind, Option.bind_eq_some_iff, Option.ite_none_right_eq_some,
        Option.some.injEq] at h
      obtain ⟨_, ⟨⟨aligned, bound⟩, rfl⟩, rest⟩ := h
      obtain ⟨rfl, more⟩ := ih rest
      refine ⟨rfl, fun _ => ⟨aligned, ?_⟩⟩
      by_cases last : ws = []
      · simp only [last, List.length_cons, List.length_nil]
        omega
      · have upto := (more last).2
        simp only [List.length_cons] at upto ⊢
        omega

theorem storeAll_stored {log : PExtNodeLogger W} {ws : List W} {offset : Nat}
    (aligned : offset % 8 = 0) (bound : offset + 8 * ws.length ≤ log.bufSize) :
    log.storeAll offset ws = some { log with buf := stored log.buf offset ws } := by
  induction ws generalizing log offset with
  | nil => rfl
  | cons w ws ih =>
      simp only [List.length_cons] at bound
      have place : offset % 8 = 0 ∧ offset + 8 ≤ log.bufSize := by omega
      simp only [storeAll, store, place, and_self, if_true, bind, Option.bind_some, stored]
      exact ih (by omega) (by simp only; omega)

theorem load_eq_some {log : PExtNodeLogger W} {offset : Nat} (aligned : offset % 8 = 0)
    (bound : offset + 8 ≤ log.bufSize) : log.load offset = some (log.buf offset) :=
  if_pos ⟨aligned, bound⟩

theorem loadAll_written {log : PExtNodeLogger W} {offset : Nat} {ws : List W}
    (aligned : offset % 8 = 0) (bound : offset + 8 * ws.length ≤ log.bufSize)
    (written : Written log.buf offset ws) : log.loadAll offset ws.length = some ws := by
  induction ws generalizing offset with
  | nil => rfl
  | cons w ws ih =>
      simp only [List.length_cons] at bound
      have first := written 0 (by simp)
      have rest : Written log.buf (offset + 8) ws := by
        intro i h
        have next := written (i + 1) (by simpa using h)
        simp only [List.getElem_cons_succ] at next
        rw [← next]
        congr 1
        omega
      have head : log.load offset = some (log.buf offset) := load_eq_some aligned (by omega)
      simp only [List.length_cons, loadAll, head, ih (by omega) (by omega) rest, bind,
        Option.bind_some, pure]
      simpa using first

theorem loadAll_lastFlush (log : PExtNodeLogger W) (flush offset n : Nat) :
    loadAll { log with lastFlush := flush } offset n = log.loadAll offset n := by
  induction n generalizing offset with
  | zero => rfl
  | succ n ih =>
      simp only [loadAll, ih]
      rfl

variable [Word W]

theorem entryAt_lastFlush (log : PExtNodeLogger W) (flush offset : Nat) :
    entryAt { log with lastFlush := flush } offset = log.entryAt offset := by
  simp only [entryAt, loadAll_lastFlush]
  rfl

/-! Entries in the buffer. -/

structure EntryAt (log : PExtNodeLogger W) (offset : Nat) (e : LogEntry W) : Prop where
  aligned : offset % 8 = 0
  bound : offset + getEntrySize e ≤ log.bufSize
  addr : e.nodeAddr < 2 ^ 64
  written : Written log.buf offset (entryWords (getEntrySize e) e)

/-- The entries lie one after the other from `start` to `stop`. -/
def Laid (log : PExtNodeLogger W) (start : Nat) : List (LogEntry W) → Nat → Prop
  | [], stop => start = stop
  | e :: es, stop => EntryAt log start e ∧ Laid log (start + getEntrySize e) es stop

theorem EntryAt.congr {log log' : PExtNodeLogger W} {offset : Nat} {e : LogEntry W}
    (h : EntryAt log offset e) (size : log'.bufSize = log.bufSize)
    (same : ∀ o, offset ≤ o → o < offset + getEntrySize e → log'.buf o = log.buf o) :
    EntryAt log' offset e := by
  refine ⟨h.aligned, size ▸ h.bound, h.addr, ?_⟩
  intro i hi
  rw [same _ (by omega)]
  · exact h.written i hi
  · simp only [entryWords, List.length_cons] at hi
    simp only [getEntrySize, entryMetaSize]
    omega

theorem Laid.le {log : PExtNodeLogger W} {start stop : Nat} {es : List (LogEntry W)}
    (h : Laid log start es stop) : start ≤ stop := by
  induction es generalizing start with
  | nil => exact Nat.le_of_eq h
  | cons e es ih => exact (Nat.le_add_right ..).trans (ih h.2)

theorem Laid.count {log : PExtNodeLogger W} {start stop : Nat}
    {es : List (LogEntry W)} (h : Laid log start es stop) :
    start + es.length ≤ stop ∧ (es ≠ [] → stop ≤ log.bufSize) := by
  induction es generalizing start with
  | nil => exact ⟨Nat.le_of_eq h, fun none => absurd rfl none⟩
  | cons e es ih =>
      obtain ⟨entry, rest⟩ := h
      have tail := ih rest
      have positive : 1 ≤ getEntrySize e := by simp only [getEntrySize, entryMetaSize]; omega
      refine ⟨by simp only [List.length_cons]; omega, fun _ => ?_⟩
      cases es with
      | nil => exact rest ▸ entry.bound
      | cons e' es => exact tail.2 (by simp)

theorem Laid.congr {log log' : PExtNodeLogger W} {start stop : Nat} {es : List (LogEntry W)}
    (h : Laid log start es stop) (size : log'.bufSize = log.bufSize)
    (same : ∀ o, start ≤ o → o < stop → log'.buf o = log.buf o) : Laid log' start es stop := by
  induction es generalizing start with
  | nil => exact h
  | cons e es ih =>
      obtain ⟨entry, rest⟩ := h
      have upto := rest.le
      refine ⟨entry.congr size fun o low high => same o low (by omega), ?_⟩
      exact ih rest fun o low high => same o (by omega) high

theorem Laid.append {log : PExtNodeLogger W} {start stop : Nat} {es : List (LogEntry W)}
    {e : LogEntry W} (h : Laid log start es stop) (entry : EntryAt log stop e) :
    Laid log start (es ++ [e]) (stop + getEntrySize e) := by
  induction es generalizing start with
  | nil =>
      cases h
      exact ⟨entry, rfl⟩
  | cons x xs ih => exact ⟨h.1, ih h.2⟩

/-! What the reader finds at an entry. -/

theorem EntryAt.header {log : PExtNodeLogger W} {offset : Nat} {e : LogEntry W}
    (h : EntryAt log offset e) :
    log.load offset = some (Word.num (getEntrySize e)) ∧
      log.load (offset + 8) = some (Word.num e.nodeAddr) ∧
      log.load (offset + 16) = some (Word.num entryValidMagic) := by
  have bound := h.bound
  have aligned := h.aligned
  simp only [getEntrySize, entryMetaSize] at bound
  have size := h.written 0 (by simp [entryWords])
  have addr := h.written 1 (by simp [entryWords])
  have magic := h.written 2 (by simp [entryWords])
  refine ⟨?_, ?_, ?_⟩
  · rw [load_eq_some aligned (by omega)]
    exact congrArg some size
  · rw [load_eq_some (by omega) (by omega)]
    exact congrArg some addr
  · rw [load_eq_some (by omega) (by omega)]
    exact congrArg some magic

theorem EntryAt.endsAt {log : PExtNodeLogger W} {offset : Nat} {e : LogEntry W}
    (h : EntryAt log offset e) (small : log.bufSize < 2 ^ 64) : log.endsAt offset = some false := by
  obtain ⟨size, -, magic⟩ := h.header
  have bound := h.bound
  have whole : (offset + getEntrySize e) % 2 ^ 64 = offset + getEntrySize e :=
    Nat.mod_eq_of_lt (by omega)
  simp only [PExtNodeLogger.endsAt, size, magic, bind, Option.bind_some, pure]
  rw [Word.val_num entryValidMagic (by decide), Word.val_num _ (by omega), whole]
  simpa using bound

theorem EntryAt.entryAt {log : PExtNodeLogger W} {offset : Nat} {e : LogEntry W}
    (h : EntryAt log offset e) (small : log.bufSize < 2 ^ 64) :
    log.entryAt offset = some (getEntrySize e, e) := by
  obtain ⟨size, addr, -⟩ := h.header
  have bound := h.bound
  have aligned := h.aligned
  have content : Written log.buf (offset + entryMetaSize) e.content := by
    intro i hi
    have word := h.written (i + 3) (by simpa [entryWords] using hi)
    simp only [entryWords, List.getElem_cons_succ] at word
    rw [← word]
    simp only [entryMetaSize]
    congr 1
    omega
  have all : log.loadAll (offset + entryMetaSize) e.content.length = some e.content := by
    apply loadAll_written _ _ content
    · simp only [entryMetaSize]
      omega
    · simp only [getEntrySize] at bound
      omega
  have words : (getEntrySize e - entryMetaSize) / 8 = e.content.length := by
    simp only [getEntrySize]
    omega
  have shape : ¬ (getEntrySize e < entryMetaSize ∨ getEntrySize e % 8 ≠ 0) := by
    simp only [getEntrySize, entryMetaSize]
    omega
  simp only [PExtNodeLogger.entryAt, size, addr, bind, Option.bind_some, pure]
  rw [Word.val_num _ (by omega), Word.val_num _ h.addr, if_neg shape, words, all]
  rfl

/-- `undo` folds `visit` over a stretch of entries that does not reach `curr`. -/
theorem undo_laid {S : Type} (visit : S → LogEntry W → Option S) {es : List (LogEntry W)}
    {log : PExtNodeLogger W} {start stop : Nat} (small : log.bufSize < 2 ^ 64)
    (laid : Laid log start es stop) (away : ∀ o, start ≤ o → o < stop → o ≠ log.curr) (fuel : Nat)
    (s : S) :
    undo visit (es.length + fuel) { log with lastFlush := start } s =
      (es.foldlM visit s).bind fun s => undo visit fuel { log with lastFlush := stop } s := by
  induction es generalizing start s with
  | nil =>
      cases laid
      simp [pure]
  | cons e es ih =>
      obtain ⟨entry, rest⟩ := laid
      have upto := rest.le
      have bound := entry.bound
      have positive : 0 < getEntrySize e := by simp only [getEntrySize, entryMetaSize]; omega
      have whole : (start + getEntrySize e) % 2 ^ 64 = start + getEntrySize e :=
        Nat.mod_eq_of_lt (by omega)
      have ends : PExtNodeLogger.endsAt { log with lastFlush := start } start = some false :=
        entry.endsAt small
      have found : PExtNodeLogger.entryAt { log with lastFlush := start } start =
          some (getEntrySize e, e) := (entryAt_lastFlush ..).trans (entry.entryAt small)
      rw [List.length_cons, Nat.add_right_comm]
      simp only [undo, away start le_rfl (by omega), if_false, ends, bind, Option.bind_some,
        Bool.false_eq_true, found, whole, List.foldlM_cons, Option.bind_assoc]
      congr 1
      funext s
      exact ih rest (fun o low high => away o (by omega) high) s

/-- At a place where the reader goes back, `undo` goes on as from the beginning of the buffer. -/
theorem undo_back {S : Type} (visit : S → LogEntry W → Option S) {log : PExtNodeLogger W}
    {offset : Nat} (ends : log.endsAt offset = some true) (ends0 : log.endsAt 0 = some false)
    (out : offset ≠ log.curr) (out0 : 0 ≠ log.curr) (fuel : Nat) (s : S) :
    undo visit (fuel + 1) { log with lastFlush := offset } s =
      undo visit (fuel + 1) { log with lastFlush := 0 } s := by
  have ends' : PExtNodeLogger.endsAt { log with lastFlush := offset } offset = some true := ends
  have ends0' : PExtNodeLogger.endsAt { log with lastFlush := 0 } 0 = some false := ends0
  simp only [undo, out, out0, if_false, ends', ends0', bind, Option.bind_some, if_true,
    Bool.false_eq_true, entryAt_lastFlush]

/-! The ring. -/

/-- The entries since the last checkpoint, in one stretch or in two. -/
inductive Layout (log : PExtNodeLogger W) (since : List (LogEntry W)) : Prop
  | straight : Laid log log.lastFlush since log.curr → Layout log since
  | wrapped {old new : List (LogEntry W)} {stop : Nat} :
      since = old ++ new → new ≠ [] → Laid log log.lastFlush old stop →
      log.endsAt stop = some true → Laid log 0 new log.curr → log.curr < log.lastFlush →
      Layout log since

structure Ring (log : PExtNodeLogger W) (since : List (LogEntry W)) : Prop where
  aligned : log.curr % 8 = 0
  bound : log.curr ≤ log.bufSize
  small : log.bufSize < 2 ^ 63
  layout : Layout log since

theorem Ring.count {log : PExtNodeLogger W} {since : List (LogEntry W)}
    (ring : Ring log since) : since.length ≤ log.bufSize := by
  have bound := ring.bound
  cases ring.layout with
  | straight laid =>
      have := laid.count.1
      omega
  | @wrapped old new stop parts _ laid _ laid' below =>
      have count := laid.count
      have count' := laid'.count
      rw [parts, List.length_append]
      by_cases none : old = []
      · simp only [none, List.length_nil]
        omega
      · have := count.2 none
        omega

theorem undo_done {S : Type} (visit : S → LogEntry W → Option S) (fuel : Nat)
    {log : PExtNodeLogger W} (done : log.lastFlush = log.curr) (s : S) :
    undo visit fuel log s = some (log, s) := by
  cases fuel <;> simp [undo, done]

theorem ring_undo {log : PExtNodeLogger W} {since : List (LogEntry W)} (ring : Ring log since)
    {S : Type} (visit : S → LogEntry W → Option S) {fuel : Nat} (enough : since.length ≤ fuel)
    (s : S) :
    undo visit fuel log s =
      (since.foldlM visit s).map fun s => ({ log with lastFlush := log.curr }, s) := by
  have small : log.bufSize < 2 ^ 64 := by have := ring.small; omega
  have finish (k : Nat) (s : S) :
      undo visit k { log with lastFlush := log.curr } s =
        some ({ log with lastFlush := log.curr }, s) := undo_done visit k rfl s
  obtain ⟨more, rfl⟩ := Nat.exists_eq_add_of_le enough
  cases ring.layout with
  | straight laid =>
      have run := undo_laid visit small laid (fun o _ high => Nat.ne_of_lt high) more s
      simp only [finish] at run
      rw [Option.map_eq_bind]
      exact run
  | @wrapped old new stop parts nonempty laid ends laid0 before =>
      subst parts
      have after := laid.le
      obtain ⟨e, es, rfl⟩ : ∃ e es, new = e :: es := List.exists_cons_of_ne_nil nonempty
      have upto := laid0.2.le
      have positive : 0 < getEntrySize e := by simp only [getEntrySize, entryMetaSize]; omega
      have first := undo_laid visit small laid (fun o low _ => by omega)
        ((e :: es).length + more) s
      have second (s : S) := undo_laid visit small laid0 (fun o _ high => Nat.ne_of_lt high) more s
      have back (s : S) := undo_back visit ends (laid0.1.endsAt small) (by omega) (by omega)
        (es.length + more) s
      simp only [List.length_cons, Nat.add_right_comm _ 1] at first second
      simp only [back, second, finish] at first
      rw [List.length_append, List.length_cons, Nat.add_assoc, Nat.add_right_comm _ 1,
        List.foldlM_append, Option.map_eq_bind]
      exact first.trans (Option.bind_assoc ..).symm

/-! Appending to the ring. -/

/-- The log after the entry was written at `start`. -/
def appended (log : PExtNodeLogger W) (start : Nat) (e : LogEntry W) : PExtNodeLogger W :=
  { log with
    curr := start + getEntrySize e
    buf := stored log.buf start (entryWords (getEntrySize e) e) }

theorem record_cases {log log' : PExtNodeLogger W} {e : LogEntry W} (benign : Benign log e = true)
    (small : log.bufSize < 2 ^ 63) (h : log.record e = some log') :
    ∃ start, start % 8 = 0 ∧ start + getEntrySize e ≤ log.bufSize ∧
      log' = appended log start e ∧
      (start = log.curr ∧ (log.lastFlush ≤ log.curr ∨ log.curr + getEntrySize e < log.lastFlush) ∨
        start = 0 ∧ log.endsAt log.curr = some true ∧ log.lastFlush ≤ log.curr ∧
          getEntrySize e < log.lastFlush) := by
  have words : 8 * (entryWords (getEntrySize e) e).length = getEntrySize e := by
    simp only [entryWords, List.length_cons, getEntrySize, entryMetaSize]
    omega
  have store (start : Nat) (log' : PExtNodeLogger W)
      (h : log.storeAll start (entryWords (getEntrySize e) e) = some log') :
      start % 8 = 0 ∧ start + getEntrySize e ≤ log.bufSize ∧
        log' = { log with buf := stored log.buf start (entryWords (getEntrySize e) e) } := by
    obtain ⟨rfl, place⟩ := storeAll_eq_some h
    obtain ⟨aligned, bound⟩ := place (by simp [entryWords])
    exact ⟨aligned, words ▸ bound, rfl⟩
  simp only [PExtNodeLogger.record] at h
  by_cases wraps : log.wraps (getEntrySize e) = true
  · simp only [Benign, wraps, if_true, Bool.and_eq_true, decide_eq_true_eq, beq_iff_eq] at benign
    obtain ⟨⟨⟨size, ends⟩, after⟩, room⟩ := benign
    cases first : log.load 0 with
    | none => simp [first] at size
    | some w =>
        simp only [first, Option.any_some, beq_iff_eq] at size
        simp only [wraps, if_true, first, bind, Option.bind_some, pure, size,
          Option.bind_eq_some_iff, Option.some.injEq] at h
        obtain ⟨log₁, stores, rfl⟩ := h
        obtain ⟨aligned, bound, rfl⟩ := store _ _ stores
        refine ⟨0, aligned, bound, ?_, .inr ⟨rfl, ends, after, room⟩⟩
        rw [Nat.mod_eq_of_lt (by omega), appended]
  · simp only [Benign, wraps, if_false, Bool.or_eq_true, decide_eq_true_eq, Bool.false_eq_true]
      at benign
    simp only [wraps, if_false, bind, pure, Option.bind_some, Option.bind_eq_some_iff,
      Option.some.injEq, Bool.false_eq_true] at h
    obtain ⟨log₁, stores, rfl⟩ := h
    obtain ⟨aligned, bound, rfl⟩ := store _ _ stores
    refine ⟨log.curr, aligned, bound, ?_, .inl ⟨rfl, benign⟩⟩
    rw [Nat.mod_eq_of_lt (by omega), appended]

theorem entryAt_appended {log : PExtNodeLogger W} {start : Nat} {e : LogEntry W}
    (aligned : start % 8 = 0) (bound : start + getEntrySize e ≤ log.bufSize)
    (addr : e.nodeAddr < 2 ^ 64) : EntryAt (appended log start e) start e :=
  ⟨aligned, bound, addr, fun _ _ => written_stored ..⟩

theorem appended_outside {log : PExtNodeLogger W} {start o : Nat} {e : LogEntry W}
    (out : o < start ∨ start + getEntrySize e ≤ o) : (appended log start e).buf o = log.buf o := by
  apply stored_outside
  simp only [entryWords, List.length_cons]
  simp only [getEntrySize, entryMetaSize] at out
  omega

theorem endsAt_congr {log log' : PExtNodeLogger W} {offset : Nat}
    (size : log'.bufSize = log.bufSize)
    (same : ∀ o, offset ≤ o → log'.buf o = log.buf o) : log'.endsAt offset = log.endsAt offset := by
  simp only [PExtNodeLogger.endsAt, load, size, same offset le_rfl,
    same (offset + 16) (Nat.le_add_right ..)]

theorem ring_record {log log' : PExtNodeLogger W} {since : List (LogEntry W)} {e : LogEntry W}
    (ring : Ring log since) (addr : e.nodeAddr < 2 ^ 64) (benign : Benign log e = true)
    (h : log.record e = some log') : Ring log' (since ++ [e]) := by
  obtain ⟨start, aligned, bound, rfl, place⟩ := record_cases benign ring.small h
  have entry : EntryAt (appended log start e) start e := entryAt_appended aligned bound addr
  have below {low high : Nat} {es : List (LogEntry W)} (laid : Laid log low es high)
      (before : high ≤ start) : Laid (appended log start e) low es high :=
    laid.congr rfl fun o _ upto => appended_outside (.inl (by omega))
  have above {low high : Nat} {es : List (LogEntry W)} (laid : Laid log low es high)
      (after : start + getEntrySize e ≤ low) : Laid (appended log start e) low es high :=
    laid.congr rfl fun o from_ _ => appended_outside (.inr (by omega))
  have aboveEnds {offset : Nat} (ends : log.endsAt offset = some true)
      (after : start + getEntrySize e ≤ offset) :
      (appended log start e).endsAt offset = some true := by
    rw [← ends]
    exact endsAt_congr rfl fun o low => appended_outside (.inr (by omega))
  refine ⟨?_, bound, ring.small, ?_⟩
  · simp only [appended, getEntrySize, entryMetaSize]
    omega
  rcases place with ⟨rfl, room⟩ | ⟨rfl, ends, after, room⟩
  · cases ring.layout with
    | straight laid => exact .straight ((below laid le_rfl).append entry)
    | wrapped parts nonempty laid ends laid0 before =>
        have upto := laid.le
        have short := room.resolve_left (by omega)
        subst parts
        refine .wrapped (List.append_assoc ..) (by simp) (above laid short.le)
          (aboveEnds ends (by omega)) ((below laid0 le_rfl).append entry) short
  · cases ring.layout with
    | straight laid =>
        have keep := above laid (by omega)
        refine .wrapped rfl (List.cons_ne_nil e []) keep (aboveEnds ends (by omega)) ⟨entry, rfl⟩ ?_
        simpa [appended] using room
    | wrapped _ _ _ _ _ before => omega

end Incll.Proof.Log
