import Incll.Model.LogMapping

/-! # Log decoding stays inside the mapping

All decoders keep to the file, but for one read: the key length of a modify record is read before the
size of the record is compared with anything. -/

namespace Incll.Proof.LogMapping
open Incll.Model Incll.Model.LogMapping

section
variable (buf : List UInt8)

def command : Nat := Model.Logrecord.field buf 0 4

def size : Nat := Model.Logrecord.field buf 4 4

/-- The header is there, and so is all of the record. -/
def Framed : Prop :=
  Record.sizeofBase ≤ buf.length ∧ Record.sizeofBase ≤ size buf ∧ size buf ≤ buf.length

/-- A modify record, cut before the end of its key length. -/
def Torn : Prop := Framed buf ∧ command buf = Logcmd.modify ∧ buf.length < 28

/-- The sizes of a record fit each other. -/
def Accepted : Prop :=
  Framed buf ∧ command buf ≠ Logcmd.none ∧
  (command buf = Logcmd.put ∨ command buf = Logcmd.replace ∨ command buf = Logcmd.remove →
    Model.Logrecord.field buf 16 4 ≤ maxKeyLen ∧
      Record.sizeofKv + Model.Logrecord.field buf 16 4 ≤ size buf) ∧
  (command buf = Logcmd.modify →
    Model.Logrecord.field buf 24 4 ≤ maxKeyLen ∧
      Record.sizeofKvdelta + Model.Logrecord.field buf 24 4 ≤ size buf) ∧
  (command buf = Logcmd.epoch → Record.sizeofEpoch ≤ size buf)

end

/-- Where the records of a file begin, up to the first one that is not accepted. -/
inductive RecordAt (file : List UInt8) : Nat → Prop where
  | start : RecordAt file 0
  | next {pos : Nat} : RecordAt file pos → Accepted (file.drop pos) →
      RecordAt file (pos + size (file.drop pos))

/-- The commands with a `logrec_kv`. -/
def IsKv (command : Nat) : Prop :=
  command = Logcmd.put ∨ command = Logcmd.replace ∨ command = Logcmd.remove

theorem modify_ne : Logcmd.modify ≠ Logcmd.none ∧ ¬ IsKv Logcmd.modify ∧
    Logcmd.modify ≠ Logcmd.epoch := by
  unfold IsKv
  decide

theorem epoch_ne : Logcmd.epoch ≠ Logcmd.none ∧ ¬ IsKv Logcmd.epoch ∧
    Logcmd.epoch ≠ Logcmd.modify := by
  unfold IsKv
  decide

theorem isKv_ne {command : Nat} (kv : IsKv command) : command ≠ Logcmd.none ∧
    command ≠ Logcmd.modify ∧ command ≠ Logcmd.epoch := by
  rcases kv with rfl | rfl | rfl <;> decide

theorem isData_iff {command : Nat} :
    isData command = true ↔ IsKv command ∨ command = Logcmd.modify := by
  simp only [isData, IsKv, decide_eq_true_eq]
  tauto

variable {file : List UInt8} {pos : Nat}

theorem read_field {offset width : Nat} (inside : pos + offset + width ≤ file.length) :
    LogMapping.read file (pos + offset) width = .ok (Model.Logrecord.field (file.drop pos) offset width) := by
  rw [LogMapping.read, if_pos inside, Model.Logrecord.field, List.drop_drop]

theorem read_command (inside : pos + 4 ≤ file.length) :
    LogMapping.read file pos 4 = .ok (command (file.drop pos)) :=
  @read_field file pos 0 4 inside

theorem read_size (inside : pos + 8 ≤ file.length) :
    LogMapping.read file (pos + 4) 4 = .ok (size (file.drop pos)) :=
  read_field inside

theorem view_fail (lr : LogMapping.Logrecord) :
    (lr.view file).fail = ((fail file lr).1.view file, file.drop (fail file lr).2) := by
  simp [Model.Logrecord.fail, fail, Logrecord.view]

theorem framed_iff : Framed (file.drop pos) ↔ Record.sizeofBase ≤ file.length - pos ∧
    Record.sizeofBase ≤ size (file.drop pos) ∧ size (file.drop pos) ≤ file.length - pos := by
  rw [Framed, List.length_drop]

/-! One record. -/

/-- What `extract` has done when it read no byte outside of the mapping. -/
structure Extracted (file : List UInt8) (pos : Nat) (lr lr' : LogMapping.Logrecord) (next : Nat) :
    Prop where
  view : (lr.view file).extract (file.drop pos) = (lr'.view file, file.drop next)
  accepted : lr'.command ≠ Logcmd.none → Accepted (file.drop pos) ∧ next = pos + size (file.drop pos)
  failed : lr'.command = Logcmd.none → next = file.length
  slices : isData lr'.command = true → pos ≤ lr'.key.first ∧
    lr'.key.first + lr'.key.len ≤ lr'.val.first ∧ lr'.val.first + lr'.val.len ≤ next

theorem extracted_fail {lr lr' : LogMapping.Logrecord}
    (failed : (lr.view file).extract (file.drop pos) = (lr'.view file).fail) :
    Extracted file pos lr (fail file lr').1 (fail file lr').2 where
  view := by rw [failed, view_fail]
  accepted := fun some => absurd rfl some
  failed := fun _ => rfl
  slices := fun data => by cases (show isData Logcmd.none = true from data)

theorem extract_framed (lr : Model.Logrecord) (framed : Framed (file.drop pos))
    (some : command (file.drop pos) ≠ Logcmd.none) : lr.extract (file.drop pos) =
      { lr with command := command (file.drop pos) }.extractBody (file.drop pos)
        (size (file.drop pos)) := by
  obtain ⟨header, least, most⟩ := framed
  unfold Model.Logrecord.extract
  exact if_neg (by unfold command size at *; omega)

theorem extractKv_ok {lr : LogMapping.Logrecord} (framed : Framed (file.drop pos))
    (kv : IsKv (command (file.drop pos))) : ∃ lr' next,
    extractKv file { lr with command := command (file.drop pos) } pos (size (file.drop pos)) =
      .ok (lr', next) ∧ Extracted file pos lr lr' next := by
  have some := (isKv_ne kv).1
  have whole := extract_framed (lr.view file) framed some
  obtain ⟨header, least, most⟩ := framed_iff.mp framed
  unfold IsKv at kv
  simp only [Model.Logrecord.extractBody, if_pos kv] at whole
  by_cases short : size (file.drop pos) < Record.sizeofKv
  · rw [if_pos (.inl short)] at whole
    refine ⟨_, _, if_pos short, extracted_fail (whole.trans ?_)⟩
    rfl
  · have room : 24 ≤ size (file.drop pos) := Nat.le_of_not_lt short
    have keylen : LogMapping.read file (pos + 16) 4 = .ok (Model.Logrecord.field (file.drop pos) 16 4) :=
      read_field (by omega)
    have ts : LogMapping.read file (pos + 8) 8 = .ok (Model.Logrecord.field (file.drop pos) 8 8) :=
      read_field (by omega)
    simp only [extractKv, if_neg short, keylen, ts, bind, Except.bind]
    split
    · next beyond =>
      rw [if_pos (.inr beyond)] at whole
      exact ⟨_, _, rfl, extracted_fail whole⟩
    · next fits =>
      rw [if_neg (by tauto)] at whole
      refine ⟨_, _, rfl, ?_, ?_, ?_, ?_⟩
      · rw [whole]
        simp only [Logrecord.view, Slice.bytes, List.drop_drop, Nat.add_assoc]
      · exact fun _ => ⟨⟨framed, some, fun _ => by omega, fun modify => absurd modify (isKv_ne kv).2.1,
          fun epoch => absurd epoch (isKv_ne kv).2.2⟩, rfl⟩
      · exact fun none => absurd none some
      · exact fun _ => ⟨by simp only; omega, by simp only; omega, by simp only [Record.sizeofKv] at *; omega⟩

/-- Behind the size check, the fields of a delta record lie inside. -/
theorem extractKvdelta_ok {lr : LogMapping.Logrecord} (framed : Framed (file.drop pos))
    (modify : command (file.drop pos) = Logcmd.modify) (long : 28 ≤ file.length - pos) :
    ∃ lr' next,
    extractKvdelta file { lr with command := command (file.drop pos) } pos (size (file.drop pos)) =
      .ok (lr', next) ∧ Extracted file pos lr lr' next := by
  obtain ⟨some, other, apart⟩ : command (file.drop pos) ≠ Logcmd.none ∧
      ¬ IsKv (command (file.drop pos)) ∧ command (file.drop pos) ≠ Logcmd.epoch := modify ▸ modify_ne
  unfold IsKv at other
  have whole := extract_framed (lr.view file) framed some
  obtain ⟨header, least, most⟩ := framed_iff.mp framed
  simp only [Model.Logrecord.extractBody, if_neg other, if_pos modify] at whole
  have keylen : LogMapping.read file (pos + 24) 4 = .ok (Model.Logrecord.field (file.drop pos) 24 4) :=
    read_field (by omega)
  have ts : LogMapping.read file (pos + 8) 8 = .ok (Model.Logrecord.field (file.drop pos) 8 8) :=
    read_field (by omega)
  have prevTs : LogMapping.read file (pos + 16) 8 = .ok (Model.Logrecord.field (file.drop pos) 16 8) :=
    read_field (by omega)
  simp only [extractKvdelta, keylen, ts, prevTs, bind, Except.bind]
  split
  · next beyond =>
    rw [if_pos beyond] at whole
    exact ⟨_, _, rfl, extracted_fail whole⟩
  · next fits =>
    rw [if_neg fits] at whole
    refine ⟨_, _, rfl, ?_, ?_, ?_, ?_⟩
    · rw [whole]
      simp only [Logrecord.view, Slice.bytes, List.drop_drop, Nat.add_assoc]
    · exact fun _ => ⟨⟨framed, some, fun kv => absurd kv other, fun _ => by omega,
        fun epoch => absurd epoch apart⟩, rfl⟩
    · exact fun none => absurd none some
    · exact fun _ => ⟨by simp only; omega, by simp only; omega,
        by simp only [Record.sizeofKvdelta] at *; omega⟩

theorem extractEpoch_ok {lr : LogMapping.Logrecord} (framed : Framed (file.drop pos))
    (epoch : command (file.drop pos) = Logcmd.epoch) : ∃ lr' next,
    extractEpoch file { lr with command := command (file.drop pos) } pos (size (file.drop pos)) =
      .ok (lr', next) ∧ Extracted file pos lr lr' next := by
  obtain ⟨some, other, apart⟩ : command (file.drop pos) ≠ Logcmd.none ∧
      ¬ IsKv (command (file.drop pos)) ∧ command (file.drop pos) ≠ Logcmd.modify := epoch ▸ epoch_ne
  unfold IsKv at other
  have whole := extract_framed (lr.view file) framed some
  obtain ⟨header, least, most⟩ := framed_iff.mp framed
  simp only [Model.Logrecord.extractBody, if_neg other, if_neg apart, if_pos epoch] at whole
  by_cases short : size (file.drop pos) < Record.sizeofEpoch
  · rw [if_pos short] at whole
    exact ⟨_, _, if_pos short, extracted_fail whole⟩
  · have room : 16 ≤ size (file.drop pos) := Nat.le_of_not_lt short
    have word : LogMapping.read file (pos + 8) 8 = .ok (Model.Logrecord.field (file.drop pos) 8 8) :=
      read_field (by omega)
    rw [if_neg short] at whole
    simp only [extractEpoch, if_neg short, word, bind, Except.bind]
    refine ⟨_, _, rfl, ?_, ?_, ?_, ?_⟩
    · rw [whole]
      simp only [Logrecord.view, Slice.bytes, List.drop_drop]
    · exact fun _ => ⟨⟨framed, some, fun kv => absurd kv other, fun modify => absurd modify apart,
        fun _ => room⟩, rfl⟩
    · exact fun none => absurd none some
    · intro data
      rcases isData_iff.mp data with same | same
      · exact absurd same other
      · exact absurd same apart

theorem extract_ok (lr : LogMapping.Logrecord) (whole : ¬ Torn (file.drop pos)) :
    ∃ lr' next, extract file lr pos = .ok (lr', next) ∧ Extracted file pos lr lr' next := by
  have failing (bad : ¬ Framed (file.drop pos) ∨ command (file.drop pos) = Logcmd.none)
      (c : Nat) : Extracted file pos lr (fail file { lr with command := c }).1
        (fail file { lr with command := c }).2 := by
    refine extracted_fail ?_
    unfold Model.Logrecord.extract
    refine (if_pos ?_).trans rfl
    unfold Framed command size at bad
    rw [List.length_drop] at *
    omega
  unfold extract
  by_cases short : file.length - pos < Record.sizeofBase
  · refine ⟨_, _, if_pos short, failing (.inl fun framed => ?_) lr.command⟩
    exact absurd (framed_iff.mp framed).1 (Nat.not_le.mpr short)
  have room : 8 ≤ file.length - pos := Nat.le_of_not_lt short
  have room' : pos + 8 ≤ file.length := by omega
  have enough : pos + 4 ≤ file.length := by omega
  simp only [if_neg short, read_size room',
    read_command enough, bind, Except.bind]
  by_cases cut : size (file.drop pos) < Record.sizeofBase ∨ file.length - pos < size (file.drop pos)
  · refine ⟨_, _, if_pos cut, failing (.inl fun framed => ?_) lr.command⟩
    obtain ⟨-, least, most⟩ := framed_iff.mp framed
    omega
  have framed : Framed (file.drop pos) := framed_iff.mpr ⟨room, by omega, by omega⟩
  simp only [if_neg cut]
  by_cases none : command (file.drop pos) = Logcmd.none
  · exact ⟨_, _, if_pos none, failing (.inr none) _⟩
  simp only [if_neg none]
  by_cases kv : command (file.drop pos) = Logcmd.put ∨ command (file.drop pos) = Logcmd.replace ∨
      command (file.drop pos) = Logcmd.remove
  · rw [if_pos kv]
    exact extractKv_ok framed kv
  rw [if_neg kv]
  by_cases modify : command (file.drop pos) = Logcmd.modify
  · rw [if_pos modify]
    refine extractKvdelta_ok framed modify (Nat.le_of_not_lt fun few => whole ⟨framed, modify, ?_⟩)
    rw [List.length_drop]
    exact few
  rw [if_neg modify]
  by_cases epoch : command (file.drop pos) = Logcmd.epoch
  · rw [if_pos epoch]
    exact extractEpoch_ok framed epoch
  rw [if_neg epoch]
  refine ⟨_, _, rfl, ?_, ?_, ?_, ?_⟩
  · rw [extract_framed _ framed none]
    simp only [Model.Logrecord.extractBody, if_neg kv, if_neg modify, if_neg epoch, List.drop_drop]
    rfl
  · exact fun _ => ⟨⟨framed, none, fun same => absurd same kv, fun same => absurd same modify,
      fun same => absurd same epoch⟩, rfl⟩
  · exact fun same => absurd same none
  · intro data
    rcases isData_iff.mp data with same | same
    · exact absurd same kv
    · exact absurd same modify

theorem extract_torn (lr : LogMapping.Logrecord) (torn : Torn (file.drop pos)) :
    extract file lr pos = .error .outside := by
  obtain ⟨framed, modify, few⟩ := torn
  obtain ⟨room, least, most⟩ := framed_iff.mp framed
  rw [List.length_drop] at few
  have header : 8 ≤ file.length - pos := room
  have room' : pos + 8 ≤ file.length := by omega
  have enough : pos + 4 ≤ file.length := by omega
  have outside : LogMapping.read file (pos + 24) 4 = .error .outside := if_neg (by omega)
  obtain ⟨some, other, -⟩ := modify_ne
  unfold IsKv at other
  rw [extract, if_neg (Nat.not_lt.mpr room)]
  simp only [read_size room',
    read_command enough, bind, Except.bind]
  rw [if_neg (by omega), modify, if_neg some, if_neg other, if_pos rfl]
  simp only [extractKvdelta, outside, bind, Except.bind]

/-! The loops. -/

/-- The tests at the head of the loops, on positions and on bytes. -/
theorem stops_iff (header : pos + 8 ≤ file.length) :
    (file.length - pos < Record.sizeofBase ∨
      Model.Logrecord.field (file.drop pos) 4 4 < Record.sizeofBase ∨
      file.length - pos < Model.Logrecord.field (file.drop pos) 4 4) ↔
    (size (file.drop pos) < Record.sizeofBase ∨ file.length < pos + size (file.drop pos)) := by
  unfold size Record.sizeofBase
  omega

theorem infoLoop_eq (fuel : Nat) (x : InfoType) (enough : file.length ≤ pos + fuel) :
    infoLoop file (fuel + 1) x pos = .ok (Logreplay.infoLoop fuel x (file.drop pos)) := by
  induction fuel generalizing x pos with
  | zero =>
      rw [infoLoop, if_neg (by unfold Record.sizeofBase; omega)]
      rfl
  | succ fuel ih =>
      rw [infoLoop, Logreplay.infoLoop, List.length_drop]
      by_cases header : pos + Record.sizeofBase ≤ file.length
      · have room : pos + 8 ≤ file.length := header
        rw [if_pos header, if_congr (stops_iff room) rfl rfl]
        simp only [read_size room, read_command (show pos + 4 ≤ file.length by omega), bind, Except.bind]
        by_cases stop : size (file.drop pos) < Record.sizeofBase ∨ file.length < pos + size (file.drop pos)
        · rw [if_pos stop, if_pos stop]
          rfl
        · have least : 8 ≤ size (file.drop pos) := Nat.le_of_not_lt fun short => stop (.inl short)
          have next (y : InfoType) : infoLoop file (fuel + 1) y (pos + size (file.drop pos)) =
              .ok (Logreplay.infoLoop fuel y ((file.drop pos).drop (size (file.drop pos)))) := by
            rw [ih y (by omega), List.drop_drop]
          rw [if_neg stop, if_neg stop, apply_ite Except.ok]
          refine if_congr Iff.rfl ?_ ?_
          · rw [apply_ite Except.ok]
            by_cases short : size (file.drop pos) < Record.sizeofEpoch
            · exact (if_pos short).trans (if_pos short).symm
            · have long : 16 ≤ size (file.drop pos) := Nat.le_of_not_lt short
              refine (if_neg short).trans (.trans ?_ (if_neg short).symm)
              rw [read_field (by omega)]
              exact next _
          · rw [apply_ite Except.ok, apply_ite Except.ok, next, next]
            rfl
      · have outside : file.length - pos < Record.sizeofBase := by
          unfold Record.sizeofBase at *
          omega
        rw [if_neg header, if_pos (.inl outside)]
        rfl

theorem wakeLoop_eq (quiescentEpoch fuel e : Nat) (enough : file.length ≤ pos + fuel) :
    wakeLoop file quiescentEpoch (fuel + 1) e pos =
      .ok (Logreplay.wakeLoop quiescentEpoch fuel e (file.drop pos)) := by
  induction fuel generalizing e pos with
  | zero =>
      rw [wakeLoop, if_neg (by unfold Record.sizeofBase; omega)]
      rfl
  | succ fuel ih =>
      rw [wakeLoop, Logreplay.wakeLoop, List.length_drop]
      by_cases header : pos + Record.sizeofBase ≤ file.length
      · have room : pos + 8 ≤ file.length := header
        rw [if_pos header, if_congr (stops_iff room) rfl rfl]
        simp only [read_size room, read_command (show pos + 4 ≤ file.length by omega), bind, Except.bind]
        by_cases stop : size (file.drop pos) < Record.sizeofBase ∨ file.length < pos + size (file.drop pos)
        · rw [if_pos stop, if_pos stop]
          rfl
        · have least : 8 ≤ size (file.drop pos) := Nat.le_of_not_lt fun short => stop (.inl short)
          have next (e : Nat) :
              wakeLoop file quiescentEpoch (fuel + 1) e (pos + size (file.drop pos)) =
                .ok (Logreplay.wakeLoop quiescentEpoch fuel e
                  ((file.drop pos).drop (size (file.drop pos)))) := by
            rw [ih e (by omega), List.drop_drop]
          rw [if_neg stop, if_neg stop, apply_ite Except.ok]
          refine if_congr Iff.rfl ?_ ?_
          · rw [apply_ite Except.ok]
            by_cases short : size (file.drop pos) < Record.sizeofEpoch
            · exact (if_pos short).trans (if_pos short).symm
            · have long : 16 ≤ size (file.drop pos) := Nat.le_of_not_lt short
              refine (if_neg short).trans (.trans ?_ (if_neg short).symm)
              rw [read_field (by omega)]
              exact next _
          · rw [apply_ite Except.ok, next]
            rfl
      · have outside : file.length - pos < Record.sizeofBase := by
          unfold Record.sizeofBase at *
          omega
        rw [if_neg header, if_pos (.inl outside)]
        rfl

namespace Progress

def view (file : List UInt8) (p : LogMapping.Progress) : Logreplay.Progress :=
  ⟨p.pos, p.repbegin, p.repend, p.run.map (Logrecord.view file)⟩

end Progress

/-- The loop runs as the one on bytes, up to a failed assertion. -/
def Agrees (file : List UInt8) (r : Except Fault LogMapping.Progress)
    (s : Option Logreplay.Progress) : Prop :=
  (∃ p, r = .ok p ∧ s = some (Progress.view file p)) ∨ (r = .error .assertion ∧ s = none)

theorem agrees_ite {c : Prop} [Decidable c] {r r' : Except Fault LogMapping.Progress}
    {s s' : Option Logreplay.Progress} (yes : c → Agrees file r s) (no : ¬ c → Agrees file r' s') :
    Agrees file (if c then r else r') (if c then s else s') := by
  by_cases holds : c
  · rw [if_pos holds, if_pos holds]
    exact yes holds
  · rw [if_neg holds, if_neg holds]
    exact no holds

theorem bytes_ne_nil_iff {s : Slice} (inside : s.first + s.len ≤ file.length) :
    s.bytes file ≠ [] ↔ s.len ≠ 0 := by
  rw [← List.length_pos_iff, Slice.bytes, List.length_take, List.length_drop]
  omega

theorem recordAt_le (reached : RecordAt file pos) : pos ≤ file.length := by
  cases reached with
  | start => exact Nat.zero_le _
  | next _ accepted =>
      obtain ⟨header, least, most⟩ := framed_iff.mp accepted.1
      unfold Record.sizeofBase at header
      omega

variable (minEpoch maxEpoch : Nat)

theorem replayLoop_agrees (whole : ∀ pos, RecordAt file pos → ¬ Torn (file.drop pos)) (fuel : Nat)
    (lr : LogMapping.Logrecord) (p : LogMapping.Progress) (reached : RecordAt file p.pos)
    (enough : file.length ≤ p.pos + fuel) :
    Agrees file (replayLoop file minEpoch maxEpoch (fuel + 1) lr p)
      (Logreplay.replayLoop minEpoch maxEpoch fuel (lr.view file) (file.drop p.pos)
        (Progress.view file p)) := by
  induction fuel generalizing lr p with
  | zero =>
      rw [replayLoop, if_neg (by omega)]
      exact .inl ⟨p, rfl, rfl⟩
  | succ fuel ih =>
      rw [replayLoop, Logreplay.replayLoop]
      by_cases more : p.pos < file.length
      · obtain ⟨lr', next, taken, extracted⟩ := extract_ok lr (whole p.pos reached)
        have some : file.drop p.pos ≠ [] := by
          rw [← List.length_pos_iff, List.length_drop]
          omega
        rw [if_pos more, if_neg some, extracted.view]
        simp only [taken, bind, Except.bind]
        by_cases none : lr'.command = Logcmd.none
        · rw [if_pos none, if_pos (show (lr'.view file).command = Logcmd.none from none)]
          exact .inl ⟨p, rfl, rfl⟩
        rw [if_neg none, if_neg (show (lr'.view file).command ≠ Logcmd.none from none)]
        obtain ⟨accepted, behind⟩ := extracted.accepted none
        have further : RecordAt file next := behind ▸ .next reached accepted
        have most := recordAt_le further
        have least := (framed_iff.mp accepted.1).2.1
        have nextpos : p.pos + ((file.drop p.pos).length - (file.drop next).length) = next := by
          unfold Record.sizeofBase at least
          rw [List.length_drop, List.length_drop]
          omega
        have go (q : LogMapping.Progress) (same : q.pos = next) :
            Agrees file (replayLoop file minEpoch maxEpoch (fuel + 1) lr' q)
              (Logreplay.replayLoop minEpoch maxEpoch fuel (lr'.view file) (file.drop next)
                (Progress.view file q)) := by
          have step := ih lr' q (same ▸ further) (by unfold Record.sizeofBase at least; omega)
          rw [same] at step
          exact step
        simp only [nextpos, show (Progress.view file p).pos = p.pos from rfl]
        refine agrees_ite (fun _ => agrees_ite (fun _ => .inr ⟨rfl, rfl⟩) fun _ => .inl ⟨_, rfl, rfl⟩)
          fun _ => agrees_ite (fun _ => go _ rfl) fun _ => agrees_ite (fun _ => .inr ⟨rfl, rfl⟩) fun _ => ?_
        have runs : (if (lr'.view file).key ≠ [] ∧ Logreplay.isData (lr'.view file) then
              (Progress.view file p).run ++ [lr'.view file] else (Progress.view file p).run) =
            (if lr'.key.len ≠ 0 ∧ isData lr'.command then p.run ++ [lr'] else p.run).map
              (Logrecord.view file) := by
          by_cases data : isData lr'.command = true
          · obtain ⟨-, key, val⟩ := extracted.slices data
            have some : lr'.key.bytes file ≠ [] ↔ lr'.key.len ≠ 0 := bytes_ne_nil_iff (by omega)
            rw [apply_ite (List.map (Logrecord.view file)), List.map_append]
            exact if_congr (and_congr some Iff.rfl) rfl rfl
          · rw [if_neg (fun both => data both.2), if_neg (fun both => data both.2)]
            rfl
        rw [runs]
        exact go _ rfl
      · have none : file.drop p.pos = [] := List.drop_eq_nil_of_le (Nat.le_of_not_lt more)
        rw [if_neg more, if_pos none]
        exact .inl ⟨p, rfl, rfl⟩

theorem replayandclean1_agrees (whole : ∀ pos, RecordAt file pos → ¬ Torn (file.drop pos)) :
    (∃ kept run, replayandclean1 file minEpoch maxEpoch = .ok (kept, run) ∧
      Logreplay.replayandclean1 minEpoch maxEpoch file = some (kept, run.map (Logrecord.view file))) ∨
    (replayandclean1 file minEpoch maxEpoch = .error .assertion ∧
      Logreplay.replayandclean1 minEpoch maxEpoch file = none) := by
  have runs := replayLoop_agrees minEpoch maxEpoch whole file.length .make
    ⟨0, none, none, []⟩ .start (by simp)
  have start : LogMapping.Logrecord.make.view file = Model.Logrecord.make := rfl
  have empty : Progress.view file ⟨0, none, none, []⟩ = ⟨0, none, none, []⟩ := rfl
  rw [start, empty, List.drop_zero] at runs
  unfold replayandclean1 Logreplay.replayandclean1
  rcases runs with ⟨p, here, there⟩ | ⟨here, there⟩
  · left
    rw [here, there]
    simp only [bind, Except.bind, Option.map_some, Progress.view]
    cases p.repbegin with
    | none => exact ⟨_, _, rfl, rfl⟩
    | some first => exact ⟨_, _, rfl, rfl⟩
  · right
    rw [here, there]
    exact ⟨rfl, rfl⟩

/-- Decoding a file reads nothing outside of it, ends, and gives slices inside of each record. -/
structure Safe (file : List UInt8) : Prop where
  extract : ∀ pos, RecordAt file pos → ∀ lr, ∃ lr' next, extract file lr pos = .ok (lr', next) ∧
    ((pos < next ∧ next ≤ file.length) ∨ next = file.length) ∧
    (isData lr'.command = true → pos ≤ lr'.key.first ∧
      lr'.key.first + lr'.key.len ≤ lr'.val.first ∧ lr'.val.first + lr'.val.len ≤ next)
  info : ∃ x, info file = .ok x
  wake : ∀ quiescentEpoch, ∃ e, minPostQuiescentWakeEpoch file quiescentEpoch = .ok e
  replay : ∀ minEpoch maxEpoch, replayandclean1 file minEpoch maxEpoch ≠ .error .outside ∧
    replayandclean1 file minEpoch maxEpoch ≠ .error .spins

/-- A file that ends in the header of a modify record. -/
def tornFile : List UInt8 := littleEndian 4 Logcmd.modify ++ littleEndian 4 8

end Incll.Proof.LogMapping
