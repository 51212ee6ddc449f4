import Incll.Model.Loginfo

/-! # Log records in a buffer

What `loginfo::record` and the logger store in a buffer is what `logrecord::extract` reads, as long as
no key is longer than the reader accepts. -/

namespace Incll.Proof.Loginfo
open Incll.Model

/-! Words. -/

theorem length_littleEndian (width n : Nat) : (littleEndian width n).length = width := by
  simp [littleEndian]

theorem littleEndian_succ (width n : Nat) :
    littleEndian (width + 1) n = UInt8.ofNat n :: littleEndian width (n / 256) := by
  simp only [littleEndian, List.range_succ_eq_map, List.map_cons, List.map_map, pow_zero, Nat.div_one]
  congr 1
  refine List.map_congr_left fun i _ => ?_
  simp only [Function.comp_apply, Nat.succ_eq_add_one, Nat.pow_succ', Nat.div_div_eq_div_mul]

theorem ofLittleEndian_littleEndian (width n : Nat) :
    ofLittleEndian (littleEndian width n) = n % 256 ^ width := by
  induction width generalizing n with
  | zero => simp [littleEndian, ofLittleEndian, Nat.mod_one]
  | succ width ih =>
      rw [littleEndian_succ]
      change (UInt8.ofNat n).toNat + 256 * ofLittleEndian (littleEndian width (n / 256)) = _
      have split := @Nat.mod_mul 256 (256 ^ width) n
      rw [ih, UInt8.toNat_ofNat', Nat.pow_succ' (m := 256), split]

section
variable {x y : List UInt8} {offset width n : Nat}

theorem field_skip (behind : x.length ≤ offset) :
    Logrecord.field (x ++ y) offset width = Logrecord.field y (offset - x.length) width := by
  rw [Logrecord.field, Logrecord.field, List.drop_append, List.drop_eq_nil_of_le behind, List.nil_append]

theorem field_here : Logrecord.field (littleEndian width n ++ y) 0 width = n % 256 ^ width := by
  have length := length_littleEndian width n
  rw [Logrecord.field, List.drop_zero, List.take_append_of_le_length length.ge,
    List.take_of_length_le length.le, ofLittleEndian_littleEndian]

end

/-! One record. -/

/-- What `extract` leaves in a `logrecord` that held `lr`. -/
def read (lr : Logrecord) : Record → Logrecord
  | .kv command ts key value => { lr with command := command.code, ts := ts, key := key, val := value }
  | .kvdelta ts prevTs key value =>
      { lr with command := Logcmd.modify, ts := ts, prevTs := prevTs, key := key, val := value }
  | .epoch e => { lr with command := Logcmd.epoch, epoch := BitVec.ofNat 64 e }
  | .wake => { lr with command := Logcmd.wake }
  | .quiesce => { lr with command := Logcmd.quiesce }

/-- The reader accepts the length of the key. -/
def ShortKey (r : Record) : Prop := ∀ key, r.key? = some key → key.length ≤ maxKeyLen

/-- The bytes of a record in the buffer: behind what `store` wrote is what was there before. -/
def Stored (r : Record) (chunk : List UInt8) : Prop :=
  chunk.length = r.size ∧ r.bytes <+: chunk

theorem command_ne_none (c : Command) : c.code ≠ Logcmd.none := by
  cases c <;> decide

theorem command_kv (c : Command) :
    c.code = Logcmd.put ∨ c.code = Logcmd.replace ∨ c.code = Logcmd.remove := by
  cases c
  · exact .inl rfl
  · exact .inr (.inl rfl)
  · exact .inr (.inr rfl)

theorem command_lt (c : Command) : c.code < 256 ^ 4 := by
  cases c <;> decide

theorem read_ne_none (lr : Logrecord) (r : Record) : (read lr r).command ≠ Logcmd.none := by
  cases r with
  | kv command => exact command_ne_none command
  | kvdelta => exact (by decide : Logcmd.modify ≠ Logcmd.none)
  | epoch => exact (by decide : Logcmd.epoch ≠ Logcmd.none)
  | wake => exact (by decide : Logcmd.wake ≠ Logcmd.none)
  | quiesce => exact (by decide : Logcmd.quiesce ≠ Logcmd.none)

theorem drop_skip {x y : List UInt8} {n : Nat} (behind : x.length ≤ n) :
    (x ++ y).drop n = y.drop (n - x.length) := by
  rw [List.drop_append, List.drop_eq_nil_of_le behind, List.nil_append]

/-- The header that all records share. -/
theorem header_fields {command size : Nat} (y : List UInt8) (low : command < 256 ^ 4)
    (small : size < 256 ^ 4) :
    Logrecord.field (littleEndian 4 command ++ (littleEndian 4 size ++ y)) 0 4 = command ∧
      Logrecord.field (littleEndian 4 command ++ (littleEndian 4 size ++ y)) 4 4 = size := by
  constructor
  · rw [field_here, Nat.mod_eq_of_lt low]
  · rw [field_skip (by rw [length_littleEndian]), length_littleEndian, field_here,
      Nat.mod_eq_of_lt small]

/-- The words behind the header. -/
theorem field_behind {command size offset width : Nat} (y : List UInt8) (behind : 8 ≤ offset) :
    Logrecord.field (littleEndian 4 command ++ (littleEndian 4 size ++ y)) offset width =
      Logrecord.field y (offset - 8) width := by
  rw [field_skip (by rw [length_littleEndian]; omega), length_littleEndian,
    field_skip (by rw [length_littleEndian]; omega), length_littleEndian, Nat.sub_sub]

theorem drop_behind {command size n : Nat} (y : List UInt8) (behind : 8 ≤ n) :
    (littleEndian 4 command ++ (littleEndian 4 size ++ y)).drop n = y.drop (n - 8) := by
  rw [drop_skip (by rw [length_littleEndian]; omega), length_littleEndian,
    drop_skip (by rw [length_littleEndian]; omega), length_littleEndian, Nat.sub_sub]

theorem ofNat_word (ts : Kvtimestamp) : BitVec.ofNat 64 (ts.toNat % 256 ^ 8) = ts := by
  have bound := ts.isLt
  rw [Nat.mod_eq_of_lt (by omega), BitVec.ofNat_toNat, BitVec.setWidth_eq]

theorem ofNat_mod_word (e : Nat) : BitVec.ofNat 64 (e % 256 ^ 8) = BitVec.ofNat 64 e := by
  apply BitVec.eq_of_toNat_eq
  simp only [BitVec.toNat_ofNat]
  omega

/-- The layout of `logrec_kv` behind the header. -/
theorem kv_fields (ts : Kvtimestamp) (key value slack rest : List UInt8) (short : key.length < 256 ^ 4) :
    let y := littleEndian 8 ts.toNat ++ (littleEndian 4 key.length ++ (key ++ (value ++ (slack ++ rest))))
    Logrecord.field y 0 8 = ts.toNat % 256 ^ 8 ∧ Logrecord.field y 8 4 = key.length ∧
      y.drop 12 = key ++ (value ++ (slack ++ rest)) := by
  refine ⟨field_here, ?_, ?_⟩
  · rw [field_skip (by rw [length_littleEndian]), length_littleEndian, field_here,
      Nat.mod_eq_of_lt short]
  · rw [drop_skip (by rw [length_littleEndian]; omega), length_littleEndian,
      drop_skip (by rw [length_littleEndian]), length_littleEndian]
    rfl

/-- The layout of `logrec_kvdelta` behind the header. -/
theorem kvdelta_fields (ts prevTs : Kvtimestamp) (key value slack rest : List UInt8)
    (short : key.length < 256 ^ 4) :
    let y := littleEndian 8 ts.toNat ++ (littleEndian 8 prevTs.toNat ++
      (littleEndian 4 key.length ++ (key ++ (value ++ (slack ++ rest)))))
    Logrecord.field y 0 8 = ts.toNat % 256 ^ 8 ∧ Logrecord.field y 8 8 = prevTs.toNat % 256 ^ 8 ∧
      Logrecord.field y 16 4 = key.length ∧ y.drop 20 = key ++ (value ++ (slack ++ rest)) := by
  obtain ⟨prev, keylen, bytes⟩ := kv_fields prevTs key value slack rest short
  refine ⟨field_here, ?_, ?_, ?_⟩
  · rw [field_skip (by rw [length_littleEndian]), length_littleEndian]
    exact prev
  · rw [field_skip (by rw [length_littleEndian]; omega), length_littleEndian]
    exact keylen
  · rw [drop_skip (by rw [length_littleEndian]; omega), length_littleEndian]
    exact bytes

/-- The bytes behind the key and the value of a data record. -/
theorem data_bytes (key value slack rest : List UInt8) :
    (key ++ (value ++ (slack ++ rest))).take key.length = key ∧
      ((key ++ (value ++ (slack ++ rest))).drop key.length).take value.length = value ∧
      (key ++ (value ++ (slack ++ rest))).drop (key.length + value.length + slack.length) = rest := by
  refine ⟨List.take_left, ?_, ?_⟩
  · rw [List.drop_left, List.take_left]
  · rw [← List.append_assoc, ← List.append_assoc]
    exact List.drop_left' (by simp [Nat.add_assoc])

section
variable {lr : Logrecord} {rest : List UInt8}

theorem extract_header {command size : Nat} {y : List UInt8} (low : command < 256 ^ 4)
    (some : command ≠ Logcmd.none) (wide : 8 ≤ size) (small : size < 256 ^ 4)
    (long : size ≤ 8 + y.length) :
    lr.extract (littleEndian 4 command ++ (littleEndian 4 size ++ y)) =
      { lr with command := command }.extractBody
        (littleEndian 4 command ++ (littleEndian 4 size ++ y)) size := by
  obtain ⟨code, len⟩ := header_fields y low small
  have length : (littleEndian 4 command ++ (littleEndian 4 size ++ y)).length = 8 + y.length := by
    simp only [List.length_append, length_littleEndian]
    omega
  simp only [Logrecord.extract, code, len, length]
  rw [if_neg]
  simp only [Record.sizeofBase, some, or_false]
  omega

/-- `extract` on the bytes of a `logrec_kv`. -/
theorem extract_kv {command : Command} {ts : Kvtimestamp} {key value slack : List UInt8}
    (pad : slack.length = 4) (small : Record.sizeofKv + key.length + value.length < 256 ^ 4) :
    lr.extract ((Record.kv command ts key value).bytes ++ slack ++ rest) =
      if key.length ≤ maxKeyLen then (read lr (.kv command ts key value), rest)
      else { lr with command := command.code }.fail := by
  have size : Record.sizeofKv = 24 := rfl
  obtain ⟨stamp, keylen, data⟩ := kv_fields ts key value slack rest (by omega)
  obtain ⟨takeKey, takeValue, dropAll⟩ := data_bytes key value slack rest
  simp only [Record.bytes, List.append_assoc]
  rw [extract_header (command_lt command) (command_ne_none command) (by omega) small (by
    simp only [List.length_append, length_littleEndian, pad]
    omega)]
  simp only [Logrecord.extractBody, command_kv, if_true]
  rw [field_behind _ (by omega), field_behind _ (by omega), keylen, stamp]
  by_cases accepted : key.length ≤ maxKeyLen
  · rw [if_neg (by omega), if_pos accepted, drop_behind _ (by omega), drop_behind _ (by omega),
      drop_behind _ (by omega), data, ofNat_word, takeKey,
      show 20 + key.length - 8 = 12 + key.length by omega, ← List.drop_drop, data,
      show Record.sizeofKv + key.length + value.length - Record.sizeofKv - key.length =
        value.length by omega, takeValue,
      show Record.sizeofKv + key.length + value.length - 8 =
        12 + (key.length + value.length + slack.length) by omega, ← List.drop_drop, data, dropAll]
    rfl
  · rw [if_pos (by omega), if_neg accepted]

/-- `extract` on the bytes of a `logrec_kvdelta`. -/
theorem extract_kvdelta {ts prevTs : Kvtimestamp} {key value slack : List UInt8}
    (pad : slack.length = 4) (small : Record.sizeofKvdelta + key.length + value.length < 256 ^ 4) :
    lr.extract ((Record.kvdelta ts prevTs key value).bytes ++ slack ++ rest) =
      if key.length ≤ maxKeyLen then (read lr (.kvdelta ts prevTs key value), rest)
      else { lr with command := Logcmd.modify }.fail := by
  have size : Record.sizeofKvdelta = 32 := rfl
  obtain ⟨stamp, prev, keylen, data⟩ := kvdelta_fields ts prevTs key value slack rest (by omega)
  obtain ⟨takeKey, takeValue, dropAll⟩ := data_bytes key value slack rest
  simp only [Record.bytes, List.append_assoc]
  rw [extract_header (by decide) (by decide) (by omega) small (by
    simp only [List.length_append, length_littleEndian, pad]
    omega)]
  have other : ¬ (Logcmd.modify = Logcmd.put ∨ Logcmd.modify = Logcmd.replace ∨
      Logcmd.modify = Logcmd.remove) := by decide
  simp only [Logrecord.extractBody, other, if_false, if_true]
  rw [field_behind _ (by omega), field_behind _ (by omega), field_behind _ (by omega), keylen, stamp,
    prev]
  by_cases accepted : key.length ≤ maxKeyLen
  · rw [if_neg (by omega), if_pos accepted, drop_behind _ (by omega), drop_behind _ (by omega),
      drop_behind _ (by omega), data, ofNat_word, ofNat_word, takeKey,
      show 28 + key.length - 8 = 20 + key.length by omega, ← List.drop_drop, data,
      show Record.sizeofKvdelta + key.length + value.length - Record.sizeofKvdelta - key.length =
        value.length by omega, takeValue,
      show Record.sizeofKvdelta + key.length + value.length - 8 =
        20 + (key.length + value.length + slack.length) by omega, ← List.drop_drop, data, dropAll]
    rfl
  · rw [if_pos (by omega), if_neg accepted]

theorem extract_epoch (e : Nat) :
    lr.extract ((Record.epoch e).bytes ++ rest) = (read lr (.epoch e), rest) := by
  simp only [Record.bytes, List.append_assoc]
  rw [extract_header (by decide) (by decide) (by decide) (by decide) (by
    simp only [List.length_append, length_littleEndian, Record.sizeofEpoch]
    omega)]
  have kv : ¬ (Logcmd.epoch = Logcmd.put ∨ Logcmd.epoch = Logcmd.replace ∨
      Logcmd.epoch = Logcmd.remove) := by decide
  have delta : Logcmd.epoch ≠ Logcmd.modify := by decide
  simp only [Logrecord.extractBody, kv, delta, if_false, if_true, Nat.lt_irrefl]
  rw [field_behind _ (by omega), drop_behind _ (by decide), field_here, ofNat_mod_word,
    drop_skip (by rw [length_littleEndian]; decide), length_littleEndian]
  rfl

/-- `extract` on the bytes of a `logrec_base`. -/
theorem extract_base {command : Nat} (low : command < 256 ^ 4) (some : command ≠ Logcmd.none)
    (kv : ¬ (command = Logcmd.put ∨ command = Logcmd.replace ∨ command = Logcmd.remove))
    (delta : command ≠ Logcmd.modify) (epoch : command ≠ Logcmd.epoch) :
    lr.extract (littleEndian 4 command ++ littleEndian 4 Record.sizeofBase ++ rest) =
      ({ lr with command := command }, rest) := by
  rw [List.append_assoc, extract_header low some (show 8 ≤ Record.sizeofBase from le_rfl) (by decide) (by
    simp only [Record.sizeofBase]
    omega)]
  simp only [Logrecord.extractBody, kv, delta, epoch, if_false]
  rw [drop_behind _ (show 8 ≤ Record.sizeofBase from le_rfl)]
  rfl

theorem length_bytes (r : Record) : r.bytes.length + (if r.key?.isSome then 4 else 0) = r.size := by
  cases r with
  | kv command ts key value =>
      simp only [Record.bytes, Record.key?, Record.size, Record.sizeofKv, List.length_append,
        length_littleEndian, Option.isSome_some, if_true]
      omega
  | kvdelta ts prevTs key value =>
      simp only [Record.bytes, Record.key?, Record.size, Record.sizeofKvdelta, List.length_append,
        length_littleEndian, Option.isSome_some, if_true]
      omega
  | epoch e => rfl
  | wake => rfl
  | quiesce => rfl

theorem extract_stored {r : Record} {chunk : List UInt8} (stored : Stored r chunk)
    (small : r.size < 256 ^ 4) (short : ShortKey r) :
    lr.extract (chunk ++ rest) = (read lr r, rest) := by
  obtain ⟨size, slack, rfl⟩ := stored
  have total := length_bytes r
  rw [List.length_append] at size
  cases r with
  | kv command ts key value =>
      rw [extract_kv (by simp [Record.key?] at total; omega) small, if_pos (short key rfl)]
  | kvdelta ts prevTs key value =>
      rw [extract_kvdelta (by simp [Record.key?] at total; omega) small, if_pos (short key rfl)]
  | epoch e =>
      have none : slack = [] := List.length_eq_zero_iff.mp (by simp [Record.key?] at total; omega)
      rw [none, List.append_nil]
      exact extract_epoch e
  | wake =>
      have none : slack = [] := List.length_eq_zero_iff.mp (by simp [Record.key?] at total; omega)
      rw [none, List.append_nil]
      exact extract_base (by decide) (by decide) (by decide) (by decide) (by decide)
  | quiesce =>
      have none : slack = [] := List.length_eq_zero_iff.mp (by simp [Record.key?] at total; omega)
      rw [none, List.append_nil]
      exact extract_base (by decide) (by decide) (by decide) (by decide) (by decide)

theorem extract_long {r : Record} {chunk : List UInt8} (stored : Stored r chunk)
    (small : r.size < 256 ^ 4) (long : ¬ ShortKey r) :
    (lr.extract (chunk ++ rest)).1.command = Logcmd.none := by
  obtain ⟨size, slack, rfl⟩ := stored
  have total := length_bytes r
  rw [List.length_append] at size
  simp only [ShortKey, not_forall] at long
  obtain ⟨key, has, more⟩ := long
  cases r with
  | kv command ts key' value =>
      cases has
      rw [extract_kv (by simp [Record.key?] at total; omega) small, if_neg more]
      rfl
  | kvdelta ts prevTs key' value =>
      cases has
      rw [extract_kvdelta (by simp [Record.key?] at total; omega) small, if_neg more]
      rfl
  | epoch e => cases has
  | wake => cases has
  | quiesce => cases has

end

/-! A sequence of records. -/

/-- The values that one `logrecord` takes when the records are read one after the other. -/
def readAll : Logrecord → List Record → List Logrecord
  | _, [] => []
  | lr, r :: rs => read lr r :: readAll (read lr r) rs

theorem readAll_ne_none {lr x : Logrecord} {rs : List Record} (member : x ∈ readAll lr rs) :
    x.command ≠ Logcmd.none := by
  induction rs generalizing lr with
  | nil => cases member
  | cons r rs ih =>
      rcases List.mem_cons.mp member with rfl | member
      · exact read_ne_none lr r
      · exact ih member

theorem size_pos (r : Record) : 0 < r.size := by
  cases r <;> simp [Record.size, Record.sizeofKv, Record.sizeofKvdelta, Record.sizeofEpoch,
    Record.sizeofBase] <;> omega

section
variable {rs : List Record} {chunks : List (List UInt8)} {lr : Logrecord} {fuel : Nat}

theorem extracts_cons {r : Record} {chunk : List UInt8} (stored : Stored r chunk) :
    Logrecord.extracts (fuel + 1) lr (chunk ++ chunks.flatten) =
      (lr.extract (chunk ++ chunks.flatten)).1 ::
        if (lr.extract (chunk ++ chunks.flatten)).1.command = Logcmd.none then []
        else Logrecord.extracts fuel (lr.extract (chunk ++ chunks.flatten)).1
          (lr.extract (chunk ++ chunks.flatten)).2 := by
  have pos := size_pos r
  have some : chunk ++ chunks.flatten ≠ [] := by
    intro none
    have size := stored.1
    rw [(List.append_eq_nil_iff.mp none).1] at size
    exact absurd size pos.ne
  rw [Logrecord.extracts, if_neg some]

theorem extracts_short (stored : List.Forall₂ Stored rs chunks)
    (small : ∀ r ∈ rs, r.size < 256 ^ 4) (enough : rs.length ≤ fuel) (short : ∀ r ∈ rs, ShortKey r) :
    Logrecord.extracts fuel lr chunks.flatten = readAll lr rs := by
  induction stored generalizing lr fuel with
  | nil => cases fuel <;> rfl
  | @cons r chunk rs chunks here rest ih =>
      obtain ⟨fuel, rfl⟩ : ∃ n, fuel = n + 1 := ⟨fuel - 1, by simp at enough; omega⟩
      rw [List.flatten_cons, extracts_cons here,
        extract_stored here (small r (by simp)) (short r (by simp)), if_neg (read_ne_none lr r),
        ih (fun r member => small r (by simp [member])) (by simp at enough; omega)
          (fun r member => short r (by simp [member]))]
      rfl

theorem extracts_long (stored : List.Forall₂ Stored rs chunks)
    (small : ∀ r ∈ rs, r.size < 256 ^ 4) (enough : rs.length ≤ fuel) (long : ∃ r ∈ rs, ¬ ShortKey r) :
    ∃ x ∈ Logrecord.extracts fuel lr chunks.flatten, x.command = Logcmd.none := by
  induction stored generalizing lr fuel with
  | nil => simp at long
  | @cons r chunk rs chunks here rest ih =>
      obtain ⟨fuel, rfl⟩ : ∃ n, fuel = n + 1 := ⟨fuel - 1, by simp at enough; omega⟩
      rw [List.flatten_cons, extracts_cons here]
      by_cases first : ShortKey r
      · have later : ∃ r ∈ rs, ¬ ShortKey r := by
          obtain ⟨q, member, more⟩ := long
          rcases List.mem_cons.mp member with rfl | member
          · exact absurd first more
          · exact ⟨q, member, more⟩
        rw [extract_stored here (small r (by simp)) first, if_neg (read_ne_none lr r)]
        obtain ⟨x, member, none⟩ := @ih (read lr r) fuel
          (fun r member => small r (by simp [member])) (by simp at enough; omega) later
        exact ⟨x, by simp [member], none⟩
      · exact ⟨_, List.mem_cons_self, extract_long here (small r (by simp)) first⟩

end

/-! The buffer. -/

theorem store_written {b : Buffer} {r : Record} (room : b.pos + r.size ≤ b.bytes.length) :
    (b.store r).bytes.length = b.bytes.length ∧
      ∃ chunk, Stored r chunk ∧ (b.store r).written = b.written ++ chunk := by
  have total := length_bytes r
  have prior : (b.bytes.take b.pos).length = b.pos := List.length_take_of_le (by omega)
  refine ⟨?_, r.bytes ++ (b.bytes.drop (b.pos + r.bytes.length)).take (r.size - r.bytes.length),
    ⟨?_, List.prefix_append ..⟩, ?_⟩
  · simp only [Buffer.store, List.length_append, prior, List.length_drop]
    omega
  · rw [List.length_append, List.length_take_of_le (by rw [List.length_drop]; omega)]
    omega
  · have first : (b.bytes.take b.pos).take (b.pos + r.size) = b.bytes.take b.pos :=
      List.take_of_length_le (by omega)
    have second : r.bytes.take r.size = r.bytes := List.take_of_length_le (by omega)
    simp only [Buffer.written, Buffer.store]
    rw [List.append_assoc, List.take_append, prior, first, Nat.add_sub_cancel_left, List.take_append,
      second]

/-- The buffer after the records were stored in it from the start. -/
def filled (old : List UInt8) (rs : List Record) : Buffer := rs.foldl .store ⟨old, 0⟩

theorem filled_stored {old : List UInt8} (rs : List Record)
    (room : (rs.map Record.size).sum ≤ old.length) :
    (filled old rs).pos = (rs.map Record.size).sum ∧ (filled old rs).bytes.length = old.length ∧
      ∃ chunks, List.Forall₂ Stored rs chunks ∧ (filled old rs).written = chunks.flatten := by
  induction rs using List.reverseRecOn with
  | nil => exact ⟨rfl, rfl, [], .nil, rfl⟩
  | append_singleton rs r ih =>
      simp only [List.map_append, List.sum_append, List.map_cons, List.map_nil, List.sum_singleton]
        at room
      obtain ⟨pos, length, chunks, stored, bytes⟩ := ih (by omega)
      have step : filled old (rs ++ [r]) = (filled old rs).store r := by simp [filled]
      obtain ⟨length', chunk, here, bytes'⟩ := @store_written (filled old rs) r (by omega)
      rw [step]
      refine ⟨?_, length'.trans length, chunks ++ [chunk], ?_, ?_⟩
      · simp only [Buffer.store, pos, List.map_append, List.sum_append, List.map_cons, List.map_nil,
          List.sum_singleton]
      · exact List.rel_append stored (.cons here .nil)
      · rw [bytes', bytes, List.flatten_append]
        simp

theorem size_le_sum {rs : List Record} {r : Record} (member : r ∈ rs) :
    r.size ≤ (rs.map Record.size).sum := by
  obtain ⟨before, behind, rfl⟩ := List.append_of_mem member
  simp only [List.map_append, List.map_cons, List.sum_append, List.sum_cons]
  omega

theorem length_le_sum (rs : List Record) : rs.length ≤ (rs.map Record.size).sum := by
  induction rs with
  | nil => exact le_rfl
  | cons r rs ih =>
      have := size_pos r
      simp only [List.length_cons, List.map_cons, List.sum_cons]
      omega

/-- Records that fit are read back if and only if the keys are short enough for the reader. -/
theorem extractAll_filled {old : List UInt8} {rs : List Record} (size : old.length = Loginfo.len)
    (room : (rs.map Record.size).sum ≤ Loginfo.len) :
    Logrecord.extractAll (filled old rs).written = readAll .make rs ↔ ∀ r ∈ rs, ShortKey r := by
  obtain ⟨pos, length, chunks, stored, bytes⟩ := filled_stored rs (room.trans size.ge)
  have small (r : Record) (member : r ∈ rs) : r.size < 256 ^ 4 :=
    (size_le_sum member).trans_lt (room.trans_lt (by decide))
  have enough : rs.length ≤ (filled old rs).written.length := by
    rw [Buffer.written, List.length_take_of_le (by omega), pos]
    exact length_le_sum rs
  rw [Logrecord.extractAll, bytes] at *
  constructor
  · intro same
    by_contra long
    simp only [not_forall] at long
    obtain ⟨r, member, more⟩ := long
    obtain ⟨x, found, none⟩ := extracts_long stored small enough ⟨r, member, more⟩
    rw [same] at found
    exact readAll_ne_none found none
  · exact extracts_short stored small enough

/-! The calls that write to a buffer. -/

inductive BufferCall where
  | record (we : Nat) (call : LogCall)
  | quiesce (ge we : Nat) (waiting : Bool)

/-- A call that does not fit writes nothing. -/
def BufferCall.run (l : Model.Loginfo) : BufferCall → Model.Loginfo
  | .record we call => if l.fits call then (l.write we call).1 else l
  | .quiesce ge we waiting => l.quiesce ge we waiting

theorem size_dataRecord (c : LogCall) : (Loginfo.dataRecord c).size ≤
    Record.sizeofKvdelta + c.key.length + c.value.length := by
  simp only [Loginfo.dataRecord, Record.sizeofKvdelta]
  split <;> simp [Record.size, Record.sizeofKv, Record.sizeofKvdelta]

theorem pos_store (l : Model.Loginfo) (r : Record) : (l.store r).pos = l.pos + r.size := by
  simp [Loginfo.pos, Loginfo.store]

theorem pos_write (l : Model.Loginfo) (we : Nat) (c : LogCall) : (l.write we c).1.pos ≤ l.pos +
    (Record.sizeofKvdelta + c.key.length + c.value.length + Record.sizeofEpoch +
      Record.sizeofBase) := by
  have data := size_dataRecord c
  have epoch : (l.recordEpoch c.qtimes.epoch).pos ≤ l.pos + Record.sizeofEpoch := by
    simp only [Loginfo.recordEpoch]
    split
    · exact (pos_store l (.epoch c.qtimes.epoch)).le
    · omega
  have leave (l : Model.Loginfo) (e w : Nat) : (l.leaveQuiescence e w).1.pos = l.pos := by
    simp only [Loginfo.leaveQuiescence]
    split <;> rfl
  have wake (l : Model.Loginfo) (e w : Nat) : (l.recordWake e w).pos ≤ l.pos + Record.sizeofBase := by
    simp only [Loginfo.recordWake]
    generalize (if w ≠ l.wakeEpoch ∧ e < w then e else w) = w
    split
    · exact (pos_store l .wake).le
    · omega
  simp only [Loginfo.write, pos_store]
  have := wake ((l.recordEpoch c.qtimes.epoch).leaveQuiescence c.qtimes.epoch we).1 c.qtimes.epoch
    ((l.recordEpoch c.qtimes.epoch).leaveQuiescence c.qtimes.epoch we).2
  rw [leave] at this
  omega

theorem pos_quiesce {l : Model.Loginfo} {ge we : Nat} {waiting : Bool} (room : l.pos ≤ Loginfo.len) :
    (l.quiesce ge we waiting).pos ≤ Loginfo.len := by
  have same : (l.noticeWake we).pos = l.pos := by
    simp only [Loginfo.noticeWake]
    split <;> rfl
  simp only [Loginfo.quiesce]
  split
  · simp only [Loginfo.pos, Loginfo.len]
    split <;> simp [Record.size, Record.sizeofEpoch, Record.sizeofBase]
  · rw [same]
    exact room

theorem pos_run (calls : List BufferCall) {l : Model.Loginfo} (room : l.pos ≤ Loginfo.len) :
    (calls.foldl BufferCall.run l).pos ≤ Loginfo.len := by
  induction calls generalizing l with
  | nil => exact room
  | cons call calls ih =>
      refine ih ?_
      cases call with
      | record we call =>
          simp only [BufferCall.run]
          split
          · next fits =>
              simp only [Loginfo.fits, decide_eq_true_eq] at fits
              exact (pos_write l we call).trans fits
          · exact room
      | quiesce ge we waiting => exact pos_quiesce room

/-- The records that the calls have stored in a new buffer of the log. -/
def stored (l : Model.Loginfo) (calls : List BufferCall) : List Record :=
  (calls.foldl BufferCall.run { l with buf := [] }).buf

/-- The bytes of the buffer, whatever it held before, give back the records if and only if every key
has at most `MASSTREE_MAXKEYLEN` bytes. -/
theorem round_trip_iff (l : Model.Loginfo) (calls : List BufferCall)
    (old : Fin Loginfo.len → UInt8) :
    Logrecord.extractAll (filled (List.ofFn old) (stored l calls)).written =
        readAll .make (stored l calls) ↔
      ∀ r ∈ stored l calls, ∀ key, r.key? = some key → key.length ≤ maxKeyLen :=
  extractAll_filled (by simp) (pos_run calls (Nat.zero_le _))

/-- A replace of a key with 256 bytes. -/
theorem long_key_lost : ¬ ∀ (l : Model.Loginfo) (calls : List BufferCall)
    (old : Fin Loginfo.len → UInt8),
    Logrecord.extractAll (filled (List.ofFn old) (stored l calls)).written =
      readAll .make (stored l calls) := by
  intro claim
  obtain ⟨key, size⟩ : ∃ key : List UInt8, key.length = 256 :=
    ⟨List.replicate 256 0, List.length_replicate⟩
  have fits : Model.Loginfo.make.fits ⟨.replace, ⟨1, 2, 0⟩, key, []⟩ = true := by
    simp [Loginfo.fits, Loginfo.make, Loginfo.pos, Loginfo.len, size, Record.sizeofKvdelta,
      Record.sizeofEpoch, Record.sizeofBase]
  have short := (extractAll_filled (by simp) (pos_run _ (Nat.zero_le _))).mp
    (claim .make [.record 0 ⟨.replace, ⟨1, 2, 0⟩, key, []⟩] fun _ => 0)
  have member : Record.kv .replace 2 key [] ∈
      stored .make [.record 0 ⟨.replace, ⟨1, 2, 0⟩, key, []⟩] := by
    change _ ∈ (if Model.Loginfo.make.fits ⟨.replace, ⟨1, 2, 0⟩, key, []⟩ then _ else _ :
      Model.Loginfo).buf
    rw [if_pos fits]
    exact List.mem_append_right _ (List.mem_singleton.mpr rfl)
  have accepted : key.length ≤ maxKeyLen := short _ member _ rfl
  rw [size] at accepted
  exact absurd accepted (by decide)

end Incll.Proof.Loginfo
