import Incll.Model.Logreplay
import Incll.Proof.Loginfo.Codec

/-! # The records of a file -/

namespace Incll.Proof.Replay
open Incll.Model Incll.Proof.Loginfo

/-- The bytes at the end of a file that do not make up a record. -/
def Torn (tail : List UInt8) : Prop :=
  tail.length < Record.sizeofBase ∨ Logrecord.field tail 4 4 < Record.sizeofBase ∨
    tail.length < Logrecord.field tail 4 4

/-- A record as the loggers write it: the size and the epoch have their widths, and the reader
accepts the key. -/
structure Proper (r : Record) : Prop where
  size : r.size < 256 ^ 4
  epoch : ∀ e, r.epoch? = some e → e < 256 ^ 8
  short : ShortKey r

/-- The same for a key of any length. -/
structure Sized (r : Record) : Prop where
  size : r.size < 256 ^ 4
  epoch : ∀ e, r.epoch? = some e → e < 256 ^ 8

theorem Proper.sized {r : Record} (proper : Proper r) : Sized r := ⟨proper.size, proper.epoch⟩

/-- The complete records of a file. -/
def Holds (buf : List UInt8) (rs : List Record) : Prop :=
  ∃ chunks tail, List.Forall₂ Stored rs chunks ∧ Torn tail ∧ buf = chunks.flatten ++ tail

def code : Record → Nat
  | .kv command _ _ _ => command.code
  | .kvdelta _ _ _ _ => Logcmd.modify
  | .epoch _ => Logcmd.epoch
  | .wake => Logcmd.wake
  | .quiesce => Logcmd.quiesce

theorem code_lt (r : Record) : code r < 256 ^ 4 := by
  cases r with
  | kv command => exact command_lt command
  | kvdelta => exact (by decide : Logcmd.modify < 256 ^ 4)
  | epoch => exact (by decide : Logcmd.epoch < 256 ^ 4)
  | wake => decide
  | quiesce => decide

theorem stored_header {r : Record} {chunk : List UInt8} (stored : Stored r chunk)
    (small : r.size < 256 ^ 4) (rest : List UInt8) :
    Logrecord.field (chunk ++ rest) 0 4 = code r ∧ Logrecord.field (chunk ++ rest) 4 4 = r.size ∧
      (chunk ++ rest).drop r.size = rest ∧ r.size ≤ (chunk ++ rest).length := by
  obtain ⟨size, slack, rfl⟩ := stored
  have header : ∃ y, r.bytes = littleEndian 4 (code r) ++ (littleEndian 4 r.size ++ y) := by
    cases r <;> simp only [Record.bytes, code, Record.size, List.append_assoc] <;> exact ⟨_, rfl⟩
  obtain ⟨y, bytes⟩ := header
  have fields := header_fields (y ++ slack ++ rest) (code_lt r) small
  refine ⟨?_, ?_, ?_, ?_⟩
  · rw [bytes]
    simpa only [List.append_assoc] using fields.1
  · rw [bytes]
    simpa only [List.append_assoc] using fields.2
  · rw [← size, List.drop_left]
  · rw [List.length_append, size]
    omega

theorem epoch_field {e : Nat} {chunk rest : List UInt8} (stored : Stored (.epoch e) chunk)
    (word : e < 256 ^ 8) : Logrecord.field (chunk ++ rest) 8 8 = e := by
  obtain ⟨-, slack, rfl⟩ := stored
  simp only [Record.bytes, List.append_assoc]
  rw [field_behind _ le_rfl, field_here, Nat.mod_eq_of_lt word]

theorem size_ge_base (r : Record) : Record.sizeofBase ≤ r.size := by
  cases r <;> simp [Record.size, Record.sizeofKv, Record.sizeofKvdelta, Record.sizeofEpoch,
    Record.sizeofBase] <;> omega

/-! `info`. -/

def noteRecord (x : InfoType) (r : Record) : InfoType :=
  match r with
  | .epoch e => Logreplay.noteEpoch { x with quiescent := false } e
  | .wake => { x with quiescent := false, wakeEpoch := x.lastEpoch }
  | .quiesce => { x with quiescent := true }
  | _ => { x with quiescent := false }

/-- `info` of the records. -/
def infoOf (rs : List Record) : InfoType := rs.foldl noteRecord ⟨0, 0, 0, 0, true⟩

theorem infoLoop_holds {rs : List Record} {chunks : List (List UInt8)} {tail : List UInt8}
    (stored : List.Forall₂ Stored rs chunks) (torn : Torn tail) (sized : ∀ r ∈ rs, Sized r)
    (x : InfoType) {fuel : Nat} (enough : rs.length ≤ fuel) :
    Logreplay.infoLoop fuel x (chunks.flatten ++ tail) = rs.foldl noteRecord x := by
  induction stored generalizing x fuel with
  | nil =>
      cases fuel with
      | zero => rfl
      | succ fuel => exact if_pos torn
  | @cons r chunk rs chunks here stored ih =>
      obtain ⟨fuel, rfl⟩ : ∃ f, fuel = f + 1 := ⟨fuel - 1, by simp at enough; omega⟩
      have good := sized r (by simp)
      obtain ⟨command, size, behind, long⟩ :=
        stored_header here good.size (chunks.flatten ++ tail)
      have base := size_ge_base r
      have left : rs.length ≤ fuel := by simpa using enough
      have rest (x : InfoType) := ih (fun q member => sized q (by simp [member])) x left
      rw [List.flatten_cons, List.append_assoc, List.foldl_cons]
      simp only [Logreplay.infoLoop, command, size, behind]
      rw [if_neg (by omega)]
      cases r with
      | kv c ts key value =>
          cases c <;> exact rest _
      | kvdelta ts prevTs key value => exact rest _
      | epoch e =>
          rw [epoch_field here (good.epoch e rfl)]
          exact rest _
      | wake => exact rest _
      | quiesce => exact rest _

theorem length_le_flatten {rs : List Record} {chunks : List (List UInt8)}
    (stored : List.Forall₂ Stored rs chunks) : rs.length ≤ chunks.flatten.length := by
  induction stored with
  | nil => exact le_rfl
  | cons here stored ih =>
      rename_i r chunk rs chunks
      have pos := size_pos r
      rw [List.flatten_cons, List.length_append, List.length_cons, here.1]
      omega

theorem info_holds {buf : List UInt8} {rs : List Record} (holds : Holds buf rs)
    (sized : ∀ r ∈ rs, Sized r) : Logreplay.info buf = infoOf rs := by
  obtain ⟨chunks, tail, stored, torn, rfl⟩ := holds
  have length := length_le_flatten stored
  exact infoLoop_holds stored torn sized _ (by rw [List.length_append]; omega)

/-! `min_post_quiescent_wake_epoch`. -/

def wakeOf (q : Nat) : Nat → List Record → Nat
  | _, [] => 0
  | e, .wake :: rs => if e ≠ 0 ∧ q ≤ e then e else wakeOf q e rs
  | e, r :: rs => wakeOf q (r.epochAfter e) rs

theorem wakeLoop_holds {q : Nat} {rs : List Record} {chunks : List (List UInt8)} {tail : List UInt8}
    (stored : List.Forall₂ Stored rs chunks) (torn : Torn tail) (sized : ∀ r ∈ rs, Sized r)
    (e : Nat) {fuel : Nat} (enough : rs.length ≤ fuel) :
    Logreplay.wakeLoop q fuel e (chunks.flatten ++ tail) = wakeOf q e rs := by
  induction stored generalizing e fuel with
  | nil =>
      cases fuel with
      | zero => rfl
      | succ fuel => exact if_pos torn
  | @cons r chunk rs chunks here stored ih =>
      obtain ⟨fuel, rfl⟩ : ∃ f, fuel = f + 1 := ⟨fuel - 1, by simp at enough; omega⟩
      have good := sized r (by simp)
      obtain ⟨command, size, behind, long⟩ :=
        stored_header here good.size (chunks.flatten ++ tail)
      have base := size_ge_base r
      have left : rs.length ≤ fuel := by simpa using enough
      have rest (e : Nat) := ih (fun q member => sized q (by simp [member])) e left
      rw [List.flatten_cons, List.append_assoc]
      simp only [Logreplay.wakeLoop, command, size, behind]
      rw [if_neg (by omega)]
      cases r with
      | kv c ts key value =>
          cases c <;> exact rest e
      | kvdelta ts prevTs key value => exact rest e
      | epoch e' =>
          rw [epoch_field here (good.epoch e' rfl)]
          exact rest e'
      | wake =>
          simp only [code, wakeOf, true_and, rest]
          rfl
      | quiesce => exact rest e

theorem minPostQuiescentWakeEpoch_holds {q : Nat} {buf : List UInt8} {rs : List Record}
    (holds : Holds buf rs) (sized : ∀ r ∈ rs, Sized r) :
    Logreplay.minPostQuiescentWakeEpoch q buf = wakeOf q 0 rs := by
  obtain ⟨chunks, tail, stored, torn, rfl⟩ := holds
  have length := length_le_flatten stored
  exact wakeLoop_holds stored torn sized _ (by rw [List.length_append]; omega)

/-! `replayandclean1`. -/

/-- The records from `repbegin` on, in front of `r`. -/
def keepFrom (min : Nat) (kept : Option (List Record)) (r : Record) : Option (List Record) :=
  match r.epoch? with
  | some e => if (min ≠ 0 ∧ e < min) ∨ (min = 0 ∧ kept = none) then some [] else kept
  | none => kept

/-- The epoch record where the log is cut. -/
def cuts (max : Nat) (r : Record) : Bool := r.epoch?.any (max ≤ ·)

/-- `replayandclean1` of the records: those that stay and those that are run. -/
def keep (min max : Nat) : Logrecord → Option (List Record) → List Logrecord → List Record →
    Option (List Record × List Logrecord)
  | _, kept, run, [] => some (kept.getD [], run)
  | lr, kept, run, r :: rs =>
      let lr := read lr r
      let kept := keepFrom min kept r
      if cuts max r then kept.map fun ks => (ks ++ [r], run)
      else if lr.epoch.toNat = 0 ∨ (min ≠ 0 ∧ lr.epoch.toNat < min) then
        keep min max lr (kept.map (· ++ [r])) run rs
      else if kept = none then none
      else
        keep min max lr (kept.map (· ++ [r]))
          (if lr.key ≠ [] ∧ Logreplay.isData lr then run ++ [lr] else run) rs

/-- The part of the file that stays. -/
def cut (buf : List UInt8) (p : Logreplay.Progress) : List UInt8 :=
  match p.repbegin with
  | none => []
  | some first => (buf.take (p.repend.getD p.pos)).drop first

/-- Behind `before`, the pointers delimit the records `kept`. -/
structure Marks (before : List UInt8) (kept : Option (List Record)) (p : Logreplay.Progress) :
    Prop where
  pos : p.pos = before.length
  absent : kept = none → p.repbegin = none
  present : ∀ ks, kept = some ks → ∃ first chunks, p.repbegin = some first ∧
    p.repend = some before.length ∧ first ≤ before.length ∧ List.Forall₂ Stored ks chunks ∧
    before.drop first = chunks.flatten

theorem Marks.cut {before : List UInt8} {kept : Option (List Record)} {p : Logreplay.Progress}
    (marks : Marks before kept p) (rest : List UInt8) : ∃ chunks, List.Forall₂ Stored (kept.getD []) chunks ∧
      cut (before ++ rest) p = chunks.flatten := by
  cases kept with
  | none =>
      refine ⟨[], .nil, ?_⟩
      rw [Replay.cut, marks.absent rfl]
      rfl
  | some ks =>
      obtain ⟨first, chunks, start, stop, -, stored, bytes⟩ := marks.present ks rfl
      refine ⟨chunks, stored, ?_⟩
      rw [← bytes, Replay.cut, start, stop, Option.getD_some, List.take_left]

theorem Marks.repbegin_none {before : List UInt8} {kept : Option (List Record)}
    {p : Logreplay.Progress} (marks : Marks before kept p) : p.repbegin = none ↔ kept = none := by
  constructor
  · intro none
    cases kept with
    | none => rfl
    | some ks =>
        obtain ⟨first, -, start, -⟩ := marks.present ks rfl
        rw [start] at none
        cases none
  · exact marks.absent

theorem read_epoch (lr : Logrecord) {r : Record} (proper : Proper r) :
    (read lr r).epoch.toNat = r.epochAfter lr.epoch.toNat := by
  cases r with
  | epoch e =>
      have word := proper.epoch e rfl
      show (BitVec.ofNat 64 e).toNat = e
      rw [BitVec.toNat_ofNat]
      exact Nat.mod_eq_of_lt (by omega)
  | _ => rfl

theorem read_command (lr : Logrecord) (r : Record) : (read lr r).command = code r := by
  cases r <;> rfl

theorem code_epoch (r : Record) : code r = Logcmd.epoch ↔ r.epoch?.isSome := by
  cases r with
  | kv command => cases command <;> simp [code, Command.code, Record.epoch?, Logcmd.put,
      Logcmd.replace, Logcmd.remove, Logcmd.epoch]
  | kvdelta => simp [code, Record.epoch?, Logcmd.modify, Logcmd.epoch]
  | epoch => simp [code, Record.epoch?]
  | wake => decide
  | quiesce => decide

theorem cuts_read {max : Nat} {lr : Logrecord} {r : Record} (proper : Proper r) :
    ((read lr r).command = Logcmd.epoch ∧ max ≤ (read lr r).epoch.toNat) ↔ cuts max r := by
  rw [read_command, code_epoch, read_epoch lr proper, cuts, Record.epochAfter]
  cases r.epoch? <;> simp

/-- An epoch record begins the part that stays, or nothing changes. -/
theorem beginAt_cases (min : Nat) {before : List UInt8} {kept : Option (List Record)}
    {p : Logreplay.Progress} (lr : Logrecord) {r : Record} (marks : Marks before kept p)
    (proper : Proper r) :
    (Logreplay.beginAt min p (read lr r) = some p.pos ∧ keepFrom min kept r = some []) ∨
      (Logreplay.beginAt min p (read lr r) = p.repbegin ∧ keepFrom min kept r = kept) := by
  simp only [Logreplay.beginAt, keepFrom, read_command, code_epoch, read_epoch lr proper,
    marks.repbegin_none]
  cases epoch : r.epoch? with
  | none => exact .inr ⟨by simp, rfl⟩
  | some e =>
      simp only [Record.epochAfter, epoch, Option.isSome_some, true_and, Option.getD_some]
      by_cases start : (min ≠ 0 ∧ e < min) ∨ (min = 0 ∧ kept = none)
      · exact .inl ⟨if_pos start, if_pos start⟩
      · exact .inr ⟨if_neg start, if_neg start⟩

/-- The pointers behind one more record. -/
theorem Marks.next {min : Nat} {before chunk : List UInt8} {kept : Option (List Record)}
    {p p' : Logreplay.Progress} {lr : Logrecord} {r : Record} (marks : Marks before kept p)
    (stored : Stored r chunk) (proper : Proper r) (pos : p'.pos = (before ++ chunk).length)
    (start : p'.repbegin = Logreplay.beginAt min p (read lr r))
    (stop : p'.repbegin ≠ none → p'.repend = some (before ++ chunk).length) :
    Marks (before ++ chunk) ((keepFrom min kept r).map (· ++ [r])) p' := by
  rcases beginAt_cases min lr marks proper with ⟨here, fresh⟩ | ⟨same, old⟩
  · rw [fresh]
    refine ⟨pos, nofun, ?_⟩
    rintro ks ⟨⟩
    refine ⟨before.length, [chunk], ?_, stop (by simp [start, here]), by simp, .cons stored .nil, ?_⟩
    · rw [start, here, marks.pos]
    · rw [List.drop_left, List.flatten_singleton]
  · rw [old]
    refine ⟨pos, ?_, ?_⟩
    · intro none
      rw [start, same]
      exact marks.absent (Option.map_eq_none_iff.mp none)
    · intro ks extended
      obtain ⟨ks, rfl, rfl⟩ := Option.map_eq_some_iff.mp extended
      obtain ⟨first, chunks, begin', -, bound, records, bytes⟩ := marks.present ks rfl
      refine ⟨first, chunks ++ [chunk], start.trans (same.trans begin'), ?_, ?_, ?_, ?_⟩
      · exact stop (by rw [start, same, begin']; simp)
      · rw [List.length_append]
        omega
      · exact List.rel_append records (.cons stored .nil)
      · rw [List.drop_append_of_le_length bound, bytes, List.flatten_append,
          List.flatten_singleton]

theorem extract_torn {lr : Logrecord} {tail : List UInt8} (torn : Torn tail) :
    lr.extract tail = lr.fail := by
  refine if_pos ?_
  rcases torn with short | small | long
  · exact .inl short
  · exact .inr (.inl small)
  · exact .inr (.inr (.inl long))

/-- The loop does what `keep` does. -/
def Matches (buf : List UInt8) (result : Option Logreplay.Progress) :
    Option (List Record × List Logrecord) → Prop
  | none => result = none
  | some (ks, run) => ∃ p chunks, result = some p ∧ p.run = run ∧ List.Forall₂ Stored ks chunks ∧
      cut buf p = chunks.flatten

theorem replayLoop_holds {min max : Nat} {rs : List Record} {chunks : List (List UInt8)}
    {tail : List UInt8} (stored : List.Forall₂ Stored rs chunks) (torn : Torn tail)
    (proper : ∀ r ∈ rs, Proper r) {before : List UInt8} {kept : Option (List Record)}
    {p : Logreplay.Progress} (marks : Marks before kept p) (lr : Logrecord) {fuel : Nat}
    (enough : rs.length ≤ fuel) :
    Matches (before ++ (chunks.flatten ++ tail))
      (Logreplay.replayLoop min max fuel lr (chunks.flatten ++ tail) p)
      (keep min max lr kept p.run rs) := by
  induction stored generalizing before kept p lr fuel with
  | nil =>
      have stop : Logreplay.replayLoop min max fuel lr ([].flatten ++ tail) p = some p := by
        cases fuel with
        | zero => rfl
        | succ fuel =>
            rw [Logreplay.replayLoop]
            split
            · rfl
            · exact if_pos (congrArg (fun x => x.1.command) (extract_torn torn))
      obtain ⟨chunks, records, bytes⟩ := marks.cut ([].flatten ++ tail)
      rw [stop]
      exact ⟨p, chunks, rfl, rfl, records, bytes⟩
  | @cons r chunk rs chunks here stored ih =>
      obtain ⟨fuel, rfl⟩ : ∃ f, fuel = f + 1 := ⟨fuel - 1, by simp at enough; omega⟩
      have good := proper r (by simp)
      have nonempty : chunk ++ (chunks.flatten ++ tail) ≠ [] := by
        have pos := size_pos r
        rw [← here.1] at pos
        exact List.append_ne_nil_of_left_ne_nil (List.length_pos_iff.mp pos) _
      have read' : lr.extract (chunk ++ (chunks.flatten ++ tail)) =
          (read lr r, chunks.flatten ++ tail) := extract_stored here good.size good.short
      have next : p.pos + ((chunk ++ (chunks.flatten ++ tail)).length -
          (chunks.flatten ++ tail).length) = (before ++ chunk).length := by
        simp only [marks.pos, List.length_append]
        omega
      rw [List.flatten_cons, List.append_assoc, ← List.append_assoc before]
      simp only [Logreplay.replayLoop, if_neg nonempty, read', next, if_neg (read_ne_none lr r),
        cuts_read good, keep]
      have left : rs.length ≤ fuel := by simpa using enough
      have rest {p' : Logreplay.Progress} (marks' : Marks (before ++ chunk)
          ((keepFrom min kept r).map (· ++ [r])) p') :=
        ih (fun q member => proper q (by simp [member])) marks' (read lr r) left
      have begins : Logreplay.beginAt min p (read lr r) = none ↔ keepFrom min kept r = none := by
        rcases beginAt_cases min lr marks good with ⟨here, fresh⟩ | ⟨same, old⟩
        · rw [here, fresh]
          simp
        · rw [same, old]
          exact marks.repbegin_none
      simp only [begins]
      split
      · cases first : keepFrom min kept r with
        | none => rfl
        | some ks =>
            let p' : Logreplay.Progress := ⟨(before ++ chunk).length,
              Logreplay.beginAt min p (read lr r), some (before ++ chunk).length, p.run⟩
            have marks' : Marks (before ++ chunk) ((keepFrom min kept r).map (· ++ [r])) p' :=
              marks.next here good rfl rfl fun _ => rfl
            rw [first] at marks'
            obtain ⟨chunks', records, bytes⟩ := marks'.cut (chunks.flatten ++ tail)
            exact ⟨_, chunks', rfl, rfl, records, bytes⟩
      · split
        · refine rest (marks.next here good rfl rfl fun some => ?_)
          exact if_neg fun none => some (begins.mpr none)
        · split
          · rfl
          · exact rest (marks.next here good rfl rfl fun _ => rfl)

theorem replayandclean1_holds (min max : Nat) {buf : List UInt8} {rs : List Record}
    (holds : Holds buf rs) (proper : ∀ r ∈ rs, Proper r) :
    match keep min max .make none [] rs with
    | none => Logreplay.replayandclean1 min max buf = none
    | some (ks, run) => ∃ chunks, List.Forall₂ Stored ks chunks ∧
        Logreplay.replayandclean1 min max buf = some (chunks.flatten, run) := by
  obtain ⟨chunks, tail, stored, torn, rfl⟩ := holds
  have length := length_le_flatten stored
  have start : Marks [] none ⟨0, none, none, []⟩ := ⟨rfl, fun _ => rfl, nofun⟩
  have loop : Matches _ (Logreplay.replayLoop min max (chunks.flatten ++ tail).length .make
      (chunks.flatten ++ tail) ⟨0, none, none, []⟩) (keep min max .make none [] rs) :=
    replayLoop_holds stored torn proper start .make (by rw [List.length_append]; omega)
  cases kept : keep min max .make none [] rs with
  | none =>
      rw [kept] at loop
      rw [Logreplay.replayandclean1, show _ = none from loop]
      rfl
  | some result =>
      obtain ⟨ks, run⟩ := result
      rw [kept] at loop
      obtain ⟨p, chunks', ended, rfl, records, bytes⟩ := loop
      refine ⟨chunks', records, ?_⟩
      rw [Logreplay.replayandclean1, ended, ← bytes, cut, Option.map_some]
      cases first : p.repbegin <;> rfl

/-- A file without an incomplete record at its end. -/
theorem holds_complete {rs : List Record} {chunks : List (List UInt8)}
    (stored : List.Forall₂ Stored rs chunks) : Holds chunks.flatten rs :=
  ⟨chunks, [], stored, .inl (by decide), (List.append_nil _).symm⟩

end Incll.Proof.Replay
