import Incll.Proof.Log.Ring

/-! # `undo` visits the entries since the last checkpoint -/

namespace Incll.Proof.Log
open Incll.Lib Incll.Model Incll.Model.PExtNodeLogger

variable {W : Type} [Word W]

/-- A log with the entries recorded since the last checkpoint. -/
structure State (W : Type) where
  log : PExtNodeLogger W
  since : List (LogEntry W)

inductive Label (W : Type) where
  | record (e : LogEntry W)
  | checkpoint (root : Addr)

def step (s : State W) : Label W → Option (State W)
  | .record e =>
      if e.nodeAddr < 2 ^ 64 then
        (s.log.record e).map fun log => ⟨log, s.since ++ [e]⟩
      else none
  | .checkpoint root => some ⟨s.log.checkpoint root, []⟩

def machine (W : Type) [Word W] : Machine (State W) (Label W) where
  initial s := ∃ buf, s = ⟨.init buf, []⟩
  step := step

def BenignStep (s : State W) : Label W → Bool
  | .record e => Benign s.log e
  | .checkpoint _ => true

theorem ring_of_reachable {s : State W}
    (reachable : (machine W).Reachable (BenignStep · · = true) s) : Ring s.log s.since := by
  refine reachable.invariant ?_ ?_
  · rintro _ ⟨buf, rfl⟩
    exact ⟨rfl, Nat.zero_le _, by simp [init, pbufSize, fullFlushRange], .straight rfl⟩
  · intro s l s' ring benign h
    cases l with
    | record e =>
        simp only [machine, step, Option.ite_none_right_eq_some, Option.map_eq_some_iff] at h
        obtain ⟨addr, log, record, rfl⟩ := h
        exact ring_record ring addr benign record
    | checkpoint root =>
        cases h
        exact ⟨ring.aligned, ring.bound, ring.small, .straight rfl⟩

theorem undo_since_checkpoint {s : State W}
    (reachable : (machine W).Reachable (BenignStep · · = true) s) {S : Type}
    (visit : S → LogEntry W → Option S) (start : S) (fuel : Nat) (enough : s.since.length ≤ fuel) :
    undo visit fuel s.log start =
      (s.since.foldlM visit start).map fun s' => ({ s.log with lastFlush := s.log.curr }, s') :=
  ring_undo (ring_of_reachable reachable) visit enough start

/-! A run over a whole lap of the buffer. -/

theorem record_straight {log : PExtNodeLogger W} {e : LogEntry W} (aligned : log.curr % 8 = 0)
    (small : log.bufSize < 2 ^ 63) (room : log.curr + getEntrySize e ≤ log.bufSize) :
    log.record e = some (appended log log.curr e) := by
  have wraps : log.wraps (getEntrySize e) = false := by
    simp only [PExtNodeLogger.wraps, decide_eq_false_iff_not]
    omega
  have stores : log.storeAll log.curr (entryWords (getEntrySize e) e) =
      some { log with buf := stored log.buf log.curr (entryWords (getEntrySize e) e) } := by
    apply storeAll_stored aligned
    simp only [entryWords, List.length_cons]
    simp only [getEntrySize, entryMetaSize] at room
    omega
  simp only [PExtNodeLogger.record, wraps, Bool.false_eq_true, if_false, bind, Option.bind_some,
    pure, stores, appended]
  rw [Nat.mod_eq_of_lt (by omega)]

/-- `n` times the same entry, without reaching the end of the buffer. -/
theorem reachable_records {allowed : State W → Label W → Prop} {s : State W} {e : LogEntry W}
    (reachable : (machine W).Reachable allowed s) (addr : e.nodeAddr < 2 ^ 64)
    (aligned : s.log.curr % 8 = 0) (small : s.log.bufSize < 2 ^ 63) (n : Nat)
    (room : s.log.curr + n * getEntrySize e ≤ s.log.bufSize)
    (ok : ∀ k t, k < n → t.since = s.since ++ List.replicate k e →
      t.log.curr = s.log.curr + k * getEntrySize e → t.log.lastFlush = s.log.lastFlush →
      t.log.bufSize = s.log.bufSize → allowed t (.record e)) :
    ∃ t, (machine W).Reachable allowed t ∧ t.since = s.since ++ List.replicate n e ∧
      t.log.curr = s.log.curr + n * getEntrySize e ∧ t.log.lastFlush = s.log.lastFlush ∧
      t.log.bufSize = s.log.bufSize ∧
      ∀ o, o < s.log.curr ∨ s.log.curr + n * getEntrySize e ≤ o → t.log.buf o = s.log.buf o := by
  induction n with
  | zero => exact ⟨s, reachable, by simp, by simp, rfl, rfl, fun _ _ => rfl⟩
  | succ n ih =>
      rw [Nat.succ_mul] at room
      obtain ⟨t, reached, since, curr, flush, size, same⟩ := ih (by omega)
        (fun k t hk => ok k t (by omega))
      have words : getEntrySize e % 8 = 0 := by simp only [getEntrySize, entryMetaSize]; omega
      have lap : (n * getEntrySize e) % 8 = 0 := by rw [Nat.mul_mod, words]; simp
      have records : t.log.record e = some (appended t.log t.log.curr e) := by
        apply record_straight <;> omega
      refine ⟨⟨appended t.log t.log.curr e, t.since ++ [e]⟩, ?_, ?_, ?_, flush, size, ?_⟩
      · apply reached.next (ok n t (by omega) since curr flush size)
        simp only [machine, step, if_pos addr, records, Option.map_some]
      · rw [since, List.replicate_succ', List.append_assoc]
      · rw [Nat.succ_mul]
        simp only [appended, curr]
        omega
      · intro o out
        rw [Nat.succ_mul] at out
        rw [appended_outside (by omega)]
        exact same o (by omega)

def internodeEntry : LogEntry (BitVec 64) := ⟨4096, List.replicate 35 0⟩

def leafEntry : LogEntry (BitVec 64) := ⟨8192, List.replicate 48 0⟩

def collect (es : List (LogEntry (BitVec 64))) (e : LogEntry (BitVec 64)) :
    Option (List (LogEntry (BitVec 64))) := some (es ++ [e])

/-- The entries since the last checkpoint fit in the buffer. -/
def Fits (s : State W) : Label W → Bool
  | .record e => ((s.since ++ [e]).map getEntrySize).sum ≤ s.log.bufSize
  | .checkpoint _ => true

/-- A run up to the end of a fresh buffer: `first` and then `n` leaves, with a checkpoint after
`first` and another one at the end. -/
theorem reachable_lap (allowed : State (BitVec 64) → Label (BitVec 64) → Prop)
    {first : LogEntry (BitVec 64)} (addr : first.nodeAddr < 2 ^ 64) (n : Nat)
    (room : getEntrySize first + n * 408 ≤ 2 ^ 28 - 32)
    (begins : allowed ⟨.init fun _ => 0, []⟩ (.record first))
    (checkpoints : ∀ t root, allowed t (.checkpoint root))
    (records : ∀ k t, k < n → t.since = List.replicate k leafEntry →
      t.log.curr = getEntrySize first + k * 408 → t.log.lastFlush = getEntrySize first →
      t.log.bufSize = 2 ^ 28 - 32 → allowed t (.record leafEntry)) :
    ∃ t, (machine _).Reachable allowed t ∧ t.since = [] ∧
      t.log.curr = getEntrySize first + n * 408 ∧ t.log.lastFlush = t.log.curr ∧
      t.log.bufSize = 2 ^ 28 - 32 ∧ t.log.buf 0 = Word.num (getEntrySize first) ∧
      ∀ o, t.log.curr ≤ o → t.log.buf o = 0 := by
  let log₀ : PExtNodeLogger (BitVec 64) := .init fun _ => 0
  have small : log₀.bufSize = 2 ^ 28 - 32 := rfl
  have appends : log₀.record first = some (appended log₀ 0 first) :=
    record_straight rfl (by omega) (by simp only [log₀, init, Nat.zero_add] at *; omega)
  have start : (machine (BitVec 64)).Reachable allowed ⟨log₀, []⟩ := .initial ⟨_, rfl⟩
  have one : (machine (BitVec 64)).Reachable allowed ⟨appended log₀ 0 first, [first]⟩ := by
    apply start.next begins
    simp only [machine, step, if_pos addr, appends, Option.map_some, List.nil_append]
  have kept : (machine (BitVec 64)).Reachable allowed ⟨(appended log₀ 0 first).checkpoint 0, []⟩ :=
    one.next (checkpoints _ 0) rfl
  have flushed : ((appended log₀ 0 first).checkpoint 0).curr = getEntrySize first := by
    simp [checkpoint, appended]
  have words : getEntrySize first % 8 = 0 := by simp only [getEntrySize, entryMetaSize]; omega
  have leafSize : getEntrySize leafEntry = 408 := by decide
  obtain ⟨t, reached, -, curr, flush, size, same⟩ := reachable_records kept
    (show leafEntry.nodeAddr < 2 ^ 64 by decide) (by rw [flushed]; exact words)
    (show log₀.bufSize < 2 ^ 63 by omega) n
    (by rw [flushed, leafSize]; exact room)
    (by
      intro k t hk since curr flush size
      rw [flushed, leafSize] at curr
      exact records k t hk since curr (flush.trans flushed) size)
  simp only [flushed, leafSize] at curr same
  refine ⟨⟨t.log.checkpoint 0, []⟩, reached.next (checkpoints _ 0) rfl, rfl, curr, rfl, size, ?_, ?_⟩
  · have positive : 0 < getEntrySize first := by simp only [getEntrySize, entryMetaSize]; omega
    have entry : EntryAt (appended log₀ 0 first) 0 first := entryAt_appended rfl (by omega) addr
    have header := entry.header.1
    rw [load_eq_some rfl (by rw [show (appended log₀ 0 first).bufSize = 2 ^ 28 - 32 from rfl]; decide)] at header
    exact (same 0 (.inl positive)).trans (Option.some.inj header)
  · intro o high
    have high' : getEntrySize first + n * 408 ≤ o := curr ▸ high
    have out : 0 + getEntrySize first ≤ o := by omega
    exact (same o (.inr high')).trans (appended_outside (.inr out))

/-- A leaf recorded at the end of that lap goes to the beginning, with the size found there. -/
theorem record_back {log : PExtNodeLogger (BitVec 64)} {size : Nat} (bound : size < 2 ^ 28)
    (bufSize : log.bufSize = 2 ^ 28 - 32) (high : 2 ^ 28 - 32 < log.curr + 408)
    (curr : log.curr < 2 ^ 28) (first : log.buf 0 = Word.num size) :
    log.record leafEntry = some { log with
      curr := size
      buf := stored log.buf 0 (entryWords size leafEntry) } := by
  have leafSize : getEntrySize leafEntry = 408 := by decide
  have wraps : log.wraps (getEntrySize leafEntry) = true := by
    simp only [PExtNodeLogger.wraps, decide_eq_true_eq, leafSize]
    omega
  have found : log.load 0 = some (Word.num size) := by
    rw [load_eq_some rfl (by omega), first]
  have stores : log.storeAll 0 (entryWords size leafEntry) =
      some { log with buf := stored log.buf 0 (entryWords size leafEntry) } := by
    apply storeAll_stored rfl
    rw [bufSize]
    simp [entryWords, leafEntry]
  simp only [PExtNodeLogger.record, wraps, if_true, found, bind, Option.bind_some, pure, stores,
    Word.val_num size (by omega), Nat.zero_add, Nat.mod_eq_of_lt (show size < 2 ^ 64 by omega)]

theorem endsAt_zero {log : PExtNodeLogger (BitVec 64)} {offset : Nat} (aligned : offset % 8 = 0)
    (bound : offset + 24 ≤ log.bufSize) (zero : ∀ o, offset ≤ o → log.buf o = 0) :
    log.endsAt offset = some true := by
  simp only [PExtNodeLogger.endsAt, load_eq_some aligned (show offset + 8 ≤ log.bufSize by omega),
    load_eq_some (show (offset + 16) % 8 = 0 by omega)
      (show offset + 16 + 8 ≤ log.bufSize by omega), bind, Option.bind_some,
    zero (offset + 16) (by omega), pure]
  simp [Word.val, entryValidMagic]

/-- A lap of leaves of one size, a checkpoint, and one more leaf at the beginning of the buffer. -/
theorem reachable_back : ∃ s : State (BitVec 64),
    (machine _).Reachable (BenignStep · · = true) s ∧ s.since = [leafEntry] ∧
      s.log.curr = 408 ∧ s.log.lastFlush = 268435032 ∧ s.log.endsAt s.log.lastFlush = some true ∧
      s.log.load (s.log.lastFlush + 8) = some 0 := by
  have leafSize : getEntrySize leafEntry = 408 := by decide
  obtain ⟨s, reached, since, curr, flush, bufSize, first, zero⟩ := reachable_lap
    (BenignStep · · = true) (show leafEntry.nodeAddr < 2 ^ 64 by decide) 657928 (by decide)
    (by decide) (fun _ _ => rfl) (by
      intro k t hk _ curr flush bufSize
      have straight : t.log.wraps (getEntrySize leafEntry) = false := by
        simp only [PExtNodeLogger.wraps, decide_eq_false_iff_not, curr, leafSize, bufSize]
        rw [Nat.mod_eq_of_lt (by omega)]
        omega
      simp only [BenignStep, Benign, straight, Bool.false_eq_true, if_false, Bool.or_eq_true,
        decide_eq_true_eq]
      omega)
  rw [leafSize] at curr first
  have ends : s.log.endsAt s.log.curr = some true := endsAt_zero (by omega) (by omega) zero
  have records := record_back (by decide) bufSize (by omega) (by omega) first
  have outside {o : Nat} (high : s.log.curr ≤ o) :
      stored s.log.buf 0 (entryWords 408 leafEntry) o = 0 := by
    rw [stored_outside, zero o high]
    right
    simp only [entryWords, leafEntry, List.length_cons, List.length_replicate]
    omega
  refine ⟨⟨{ s.log with curr := 408, buf := stored s.log.buf 0 (entryWords 408 leafEntry) },
    [leafEntry]⟩, ?_, rfl, rfl, ?_, ?_, ?_⟩
  · apply reached.next (l := .record leafEntry)
    · have found : s.log.load 0 = some (Word.num 408) := by
        rw [load_eq_some rfl (by omega), first]
      have size : (Word.val (Word.num 408 : BitVec 64) == 408) = true := by decide
      simp only [BenignStep, Benign, leafSize, found, Option.any_some, size, ends, flush]
      simp [curr]
    · simp only [machine, step, if_pos (show leafEntry.nodeAddr < 2 ^ 64 by decide), records,
        Option.map_some, since, List.nil_append]
  · simp only [flush, curr]
  · refine endsAt_zero ?_ ?_ fun o high => outside (by simp only at high; omega) <;>
      simp only <;> omega
  · rw [load_eq_some (by simp only; omega) (by simp only; omega)]
    exact congrArg some (outside (by simp only; omega))

theorem undo_since_checkpoint_lap : ∃ s : State (BitVec 64),
    (machine _).Reachable (BenignStep · · = true) s ∧ s.log.curr < s.log.lastFlush ∧
      undo collect 1 s.log [] = some ({ s.log with lastFlush := s.log.curr }, [leafEntry]) := by
  obtain ⟨s, reachable, since, curr, flush, -, -⟩ := reachable_back
  refine ⟨s, reachable, by omega, ?_⟩
  rw [undo_since_checkpoint reachable collect [] 1 (by simp [since]), since]
  rfl

/-- An internode at the beginning of the buffer, a lap of leaves, and one more leaf: its entry gets
the size of the internode, and `undo` copies back 280 of its 384 bytes. -/
theorem undo_truncates :
    ¬ ∀ s : State (BitVec 64), (machine _).Reachable (Fits · · = true) s →
      ∀ (S : Type) (visit : S → LogEntry (BitVec 64) → Option S) (start : S) (fuel : Nat),
        s.since.length ≤ fuel → undo visit fuel s.log start =
          (s.since.foldlM visit start).map fun s' =>
            ({ s.log with lastFlush := s.log.curr }, s') := by
  intro claim
  have leafSize : getEntrySize leafEntry = 408 := by decide
  have internodeSize : getEntrySize internodeEntry = 304 := by decide
  obtain ⟨s, reached, since, curr, flush, bufSize, first, zero⟩ := reachable_lap
    (Fits · · = true) (show internodeEntry.nodeAddr < 2 ^ 64 by decide) 657929 (by decide)
    (by decide) (fun _ _ => rfl) (by
      intro k t hk since _ _ bufSize
      simp only [Fits, since, bufSize, List.map_append, List.map_replicate, List.sum_append,
        List.sum_replicate_nat, leafSize, List.map_cons, List.map_nil, List.sum_cons,
        List.sum_nil, decide_eq_true_eq]
      omega)
  rw [internodeSize] at curr first
  have records := record_back (by decide) bufSize (by omega) (by omega) first
  have reachable : (machine (BitVec 64)).Reachable (Fits · · = true)
      ⟨{ s.log with curr := 304, buf := stored s.log.buf 0 (entryWords 304 leafEntry) },
        [leafEntry]⟩ := by
    apply reached.next (l := .record leafEntry)
    · simp [Fits, since, bufSize, leafSize]
    · simp only [machine, step, if_pos (show leafEntry.nodeAddr < 2 ^ 64 by decide), records,
        Option.map_some, since, List.nil_append]
  have undone := claim _ reachable _ collect [] 1 le_rfl
  have short : EntryAt { s.log with
      curr := 304
      buf := stored s.log.buf 0 (entryWords 304 leafEntry) } 0 ⟨8192, List.replicate 35 0⟩ := by
    refine ⟨rfl, by simp [bufSize, getEntrySize, entryMetaSize], by decide, ?_⟩
    have parts : entryWords 304 leafEntry =
        entryWords 304 ⟨8192, List.replicate 35 0⟩ ++ List.replicate 13 0 := by decide
    have whole := written_stored s.log.buf 0 (entryWords 304 leafEntry)
    rw [parts] at whole
    exact parts ▸ whole.left
  have ends : PExtNodeLogger.endsAt { s.log with
      curr := 304
      buf := stored s.log.buf 0 (entryWords 304 leafEntry) } s.log.lastFlush = some true := by
    apply endsAt_zero
    · omega
    · simp only
      omega
    · intro o high
      simp only
      rw [stored_outside, zero o (by omega)]
      right
      simp only [entryWords, leafEntry, List.length_cons, List.length_replicate]
      omega
  have entry := short.entryAt (by simp [bufSize])
  have away : s.log.lastFlush ≠ 304 := by omega
  simp only [undo, away, if_false, ends, bind, Option.bind_some, if_true, entry, collect,
    List.nil_append] at undone
  simp [getEntrySize, entryMetaSize, leafEntry, pure, collect] at undone

end Incll.Proof.Log
