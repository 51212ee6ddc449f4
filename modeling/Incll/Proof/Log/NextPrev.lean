import Incll.Proof.Log.Undo

/-! # `undo` and `undo_next_prev` walk over the same entries -/

namespace Incll.Proof.Log
open Incll.Lib Incll.Model Incll.Model.PExtNodeLogger

variable {W : Type} [Word W]

/-- The reader comes from one offset to another. -/
inductive Passes (log : PExtNodeLogger W) : Nat → Nat → Prop
  | here (flush : Nat) : Passes log flush flush
  | next {flush offset start : Nat} {back : Bool} {size : W} :
      flush ≠ log.curr → log.endsAt flush = some back → (if back then 0 else flush) = start →
      log.load start = some size → Passes log ((start + Word.val size) % 2 ^ 64) offset →
      Passes log flush offset

def addrAt (log : PExtNodeLogger W) (offset : Nat) : Option Addr :=
  (log.load (offset + 8)).map Word.val

/-- Wherever the reader goes back, the header it leaves has the address of the first entry. -/
def SameAddr (log : PExtNodeLogger W) (flush : Nat) : Prop :=
  ∀ offset, Passes log flush offset → offset ≠ log.curr → log.endsAt offset = some true →
    addrAt log offset = addrAt log 0

def copied (as : List Addr) (e : LogEntry W) : Option (List Addr) := some (as ++ [e.nodeAddr])

def treated (as : List Addr) (a : Addr) : Option (List Addr) := some (as ++ [a])

theorem sameAddr_done {log : PExtNodeLogger W} {flush : Nat} (done : flush = log.curr) :
    SameAddr log flush := by
  intro offset passes away
  cases passes with
  | here => exact absurd done away
  | next more => exact absurd done more

theorem sameAddr_next {log : PExtNodeLogger W} {flush start : Nat} {back : Bool} {size : W}
    (more : flush ≠ log.curr) (ends : log.endsAt flush = some back)
    (from' : (if back then 0 else flush) = start) (header : log.load start = some size) :
    SameAddr log flush ↔ (back = true → addrAt log flush = addrAt log 0) ∧
      SameAddr log ((start + Word.val size) % 2 ^ 64) := by
  constructor
  · intro same
    refine ⟨fun goes => same flush (.here flush) more (goes ▸ ends), ?_⟩
    intro offset passes
    exact same offset (.next more ends from' header passes)
  · rintro ⟨first, rest⟩ offset passes away goes
    cases passes with
    | here =>
        rw [ends] at goes
        exact first (Option.some.inj goes)
    | next _ ends' from'' header' passes =>
        rw [ends] at ends'
        cases ends'
        subst from' from''
        rw [header] at header'
        cases header'
        exact rest offset passes away goes

theorem endsAt_bound {log : PExtNodeLogger W} {offset : Nat} {back : Bool}
    (ends : log.endsAt offset = some back) : offset % 8 = 0 ∧ offset + 24 ≤ log.bufSize := by
  simp only [PExtNodeLogger.endsAt, bind, Option.bind_eq_some_iff, load,
    Option.ite_none_right_eq_some] at ends
  obtain ⟨_, ⟨aligned, _⟩, _, ⟨bound, _⟩, _⟩ := ends
  omega

theorem entryAt_parts {log : PExtNodeLogger W} {offset size : Nat} {e : LogEntry W}
    (h : log.entryAt offset = some (size, e)) :
    (∃ w, log.load offset = some w ∧ Word.val w = size) ∧
      addrAt log offset = some e.nodeAddr := by
  simp only [PExtNodeLogger.entryAt, bind, Option.bind_eq_some_iff, Option.ite_none_left_eq_some,
    pure, Option.some.injEq, Prod.mk.injEq] at h
  obtain ⟨w, header, _, a, addr, content, _, rfl, rfl⟩ := h
  exact ⟨⟨w, header, rfl⟩, by simp [addrAt, addr]⟩

theorem endsAt_lastFlush (log : PExtNodeLogger W) (flush offset : Nat) :
    endsAt { log with lastFlush := flush } offset = log.endsAt offset := rfl

theorem undoNextPrev_done {S : Type} (visit : S → Addr → Option S) {log : PExtNodeLogger W}
    (fuel : Nat) {flush : Nat} (done : flush = log.curr) (s : S) :
    undoNextPrev visit log fuel flush s = some s := by
  cases fuel <;> simp [undoNextPrev, done]

/-- Both loops at once, by induction on the fuel of `undo`. -/
theorem walks {log log' : PExtNodeLogger W} {fuel flush : Nat} {as as' : List Addr}
    (h : undo copied fuel { log with lastFlush := flush } as = some (log', as')) (bs : List Addr) :
    ∃ xs ys, as' = as ++ xs ∧ undoNextPrev treated log fuel flush bs = some (bs ++ ys) ∧
      (ys = xs ↔ SameAddr log flush) := by
  induction fuel generalizing flush as bs with
  | zero =>
      simp only [undo, Option.ite_none_right_eq_some, Option.some.injEq, Prod.mk.injEq] at h
      obtain ⟨done, -, rfl⟩ := h
      exact ⟨[], [], by simp, by simp [undoNextPrev_done _ _ done], by simp [sameAddr_done done]⟩
  | succ fuel ih =>
      by_cases done : flush = log.curr
      · rw [undo, if_pos done] at h
        cases h
        exact ⟨[], [], by simp, by simp [undoNextPrev_done _ _ done], by simp [sameAddr_done done]⟩
      simp only [undo, if_neg done, bind, Option.bind_eq_some_iff, endsAt_lastFlush,
        entryAt_lastFlush, copied, Option.some.injEq] at h
      obtain ⟨back, ends, ⟨size, e⟩, entry, _, rfl, rest⟩ := h
      obtain ⟨⟨w, header, rfl⟩, addr⟩ := entryAt_parts entry
      obtain ⟨aligned, bound⟩ := endsAt_bound ends
      have own : log.load (flush + 8) = some (log.buf (flush + 8)) :=
        load_eq_some (by omega) (by omega)
      obtain ⟨xs, ys, rfl, walk, same⟩ := ih rest (bs ++ [Word.val (log.buf (flush + 8))])
      refine ⟨e.nodeAddr :: xs, Word.val (log.buf (flush + 8)) :: ys, by simp, ?_, ?_⟩
      · simp only [undoNextPrev, if_neg done, own, ends, header, treated, bind, Option.bind_some]
        rw [walk, List.append_assoc]
        rfl
      · rw [sameAddr_next done ends rfl header, ← same, List.cons.injEq]
        refine and_congr_left fun _ => ?_
        cases back with
        | false =>
            simp only [addrAt, Bool.false_eq_true, if_false, own, Option.map_some,
              Option.some.injEq] at addr
            simp [addr]
        | true =>
            have first : addrAt log flush = some (Word.val (log.buf (flush + 8))) := by
              simp [addrAt, own]
            rw [if_pos rfl] at addr
            rw [first, addr, Option.some.injEq]
            exact ⟨fun same _ => same, fun same => same rfl⟩

/-- The addresses that `undo_next_prev` treats are those that `undo` copies back if and only if the
header at which the reader goes back has the address of the first entry. -/
theorem same_walk_iff {log log' : PExtNodeLogger W} {fuel : Nat} {as : List Addr}
    (terminates : undo copied fuel log [] = some (log', as)) :
    undoNextPrev treated log fuel log.lastFlush [] = some as ↔ SameAddr log log.lastFlush := by
  have own : undo copied fuel { log with lastFlush := log.lastFlush } [] = some (log', as) :=
    terminates
  obtain ⟨xs, ys, rfl, walk, same⟩ := walks own []
  rw [walk, ← same]
  simp

/-- One leaf recorded in a fresh log. -/
theorem same_walk_iff_straight : ∃ log log' : PExtNodeLogger (BitVec 64),
    undo copied 1 log [] = some (log', [8192]) ∧
      undoNextPrev treated log 1 log.lastFlush [] = some [8192] := by
  let log : PExtNodeLogger (BitVec 64) := appended (.init fun _ => 0) 0 leafEntry
  have entry : EntryAt log 0 leafEntry := entryAt_appended rfl (by decide) (by decide)
  have ring : Ring log [leafEntry] :=
    ⟨by decide, by decide, by decide, .straight ⟨entry, rfl⟩⟩
  have undone := ring_undo ring copied (show [leafEntry].length ≤ 1 from le_rfl) []
  refine ⟨log, _, undone, (same_walk_iff undone).mpr ?_⟩
  have ends := entry.endsAt (by decide)
  exact (sameAddr_next (by decide) ends rfl entry.header.1).mpr ⟨nofun, sameAddr_done (by decide)⟩

/-- The header at the end of the lap was never written: `undo_next_prev` treats the null pointer. -/
theorem null_treated :
    ¬ ∀ s : State (BitVec 64), (machine _).Reachable (BenignStep · · = true) s →
      ∀ fuel log' as, undo copied fuel s.log [] = some (log', as) →
        undoNextPrev treated s.log fuel s.log.lastFlush [] = some as := by
  intro claim
  obtain ⟨s, reachable, since, curr, flush, ends, null⟩ := reachable_back
  have one : s.since.length ≤ 1 := by simp [since]
  have undone := ring_undo (ring_of_reachable reachable) copied one []
  rw [since] at undone
  have walk := claim s reachable 1 _ _ undone
  have away : s.log.lastFlush ≠ s.log.curr := by omega
  simp only [undoNextPrev, if_neg away, null, ends, treated, bind, Option.bind_some] at walk
  cases first : s.log.load 0 with
  | none => simp [first] at walk
  | some size =>
      exact absurd walk (by simp [first, Word.val, leafEntry])

end Incll.Proof.Log
