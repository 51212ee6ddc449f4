import Incll.Model.ParserReads
import Incll.Proof.Msgpack.Chunks

/-! # The parser stays inside its input -/

namespace Incll.Proof.Msgpack.Reads
open Incll.Model.Msgpack (Bytes Form form)
open Incll.Model.Streaming Incll.Model.Streaming.Reads

variable {buf : Bytes} {first : Nat} {p : StreamingParser}

/-! What comes first. -/

/-- The same on the bytes that are left. -/
def Decoded.scan (buf : Bytes) : Decoded → Scan
  | .bad => .bad
  | .short => .short
  | .scalar v first => .scalar v (buf.drop first)
  | .map n first => .map n (buf.drop first)
  | .array n first => .array n (buf.drop first)
  | .raw n first => .raw n (buf.drop first)

/-- `first` moves on, but not past the end. -/
def Decoded.Within (buf : Bytes) (first : Nat) : Decoded → Prop
  | .bad | .short => True
  | .scalar _ next | .map _ next | .array _ next | .raw _ next => first < next ∧ next ≤ buf.length

/-- The decoder stops at a length that is negative, or finds what `scan` finds. -/
def Finds (buf : Bytes) (first : Nat) (r : Except Fault Decoded) (x : Scan) : Prop :=
  r = .error .negative ∨ ∃ d, r = .ok d ∧ Decoded.scan buf d = x ∧ Decoded.Within buf first d

theorem copy_ok {n : Nat} (inside : first + n ≤ buf.length) :
    copy buf first n = .ok ((buf.drop first).take n) := if_pos inside

theorem number_finds {width : Nat} {s : Bytes} {f : Nat → Nat → Except Fault Decoded}
    {g : Nat → Bytes → Scan} (inside : first < buf.length) (behind : buf.drop (first + 1) = s)
    (same : ∀ x, first + (width + 1) ≤ buf.length →
      Finds buf first (f x (first + (width + 1))) (g x (buf.drop (first + (width + 1))))) :
    Finds buf first (number buf first width f) (Scan.number width s g) := by
  have length : s.length = buf.length - (first + 1) := by rw [← behind, List.length_drop]
  unfold number Scan.number
  by_cases short : buf.length - first < width + 1
  · rw [if_pos short, Incll.Model.Msgpack.readInNetOrder, if_neg (by omega)]
    exact .inr ⟨_, rfl, rfl, trivial⟩
  · have rest : s.drop width = buf.drop (first + (width + 1)) := by
      rw [← behind, List.drop_drop]
      congr 1
      omega
    rw [if_neg short, Incll.Model.Msgpack.readInNetOrder, if_pos (by omega), rest, ← behind]
    simp only [readInNetOrder, copy_ok (show first + 1 + width ≤ buf.length by omega), bind, Except.bind]
    exact same _ (by omega)

theorem length_finds {width x : Nat} {f : Nat → Nat → Decoded} {g : Nat → Bytes → Scan}
    (same : ∀ next, Decoded.scan buf (f x next) = g x (buf.drop next))
    (within : ∀ next, first < next → next ≤ buf.length → Decoded.Within buf first (f x next))
    (inside : first + (width + 1) ≤ buf.length) :
    Finds buf first (length f x (first + (width + 1))) (g x (buf.drop (first + (width + 1)))) := by
  unfold length
  split
  · exact .inr ⟨_, rfl, same _, within _ (by omega) inside⟩
  · exact .inl rfl

theorem decode_finds {b : UInt8} {s : Bytes} (here : buf.drop first = b :: s) :
    Finds buf first (decode buf first) (scan b s) := by
  have length := congrArg List.length here
  rw [List.length_drop, List.length_cons] at length
  have inside : first < buf.length := by omega
  have behind : buf.drop (first + 1) = s := by rw [← List.drop_drop, here, List.drop_one, List.tail_cons]
  have byte : byteAt buf first = .ok b := by
    rw [byteAt, copy_ok (show first + 1 ≤ buf.length from inside), here]
    rfl
  have one : first < first + 1 ∧ first + 1 ≤ buf.length := ⟨Nat.lt_succ_self _, inside⟩
  simp only [decode, byte, bind, Except.bind, scan]
  cases form b with
  | fixint x => exact .inr ⟨_, rfl, by rw [Decoded.scan, behind], one⟩
  | null => exact .inr ⟨_, rfl, by rw [Decoded.scan, behind], one⟩
  | bool x => exact .inr ⟨_, rfl, by rw [Decoded.scan, behind], one⟩
  | fixmap n => exact .inr ⟨_, rfl, by rw [Decoded.scan, behind], one⟩
  | fixarray n => exact .inr ⟨_, rfl, by rw [Decoded.scan, behind], one⟩
  | fixstr n => exact .inr ⟨_, rfl, by rw [Decoded.scan, behind], one⟩
  | unused | ext => exact .inr ⟨_, rfl, rfl, trivial⟩
  | uint width | int width | float width =>
      simp only [decodeForm]
      refine number_finds inside behind fun x most => ?_
      exact .inr ⟨_, rfl, rfl, Nat.lt_add_of_pos_right (Nat.succ_pos width), most⟩
  | str width | array width | map width =>
      simp only [decodeForm]
      refine number_finds inside behind fun x most => ?_
      exact length_finds (fun _ => rfl) (fun _ more most => ⟨more, most⟩) most

/-! The loop. -/

/-- A saved header is not whole, and a saved string lacks some bytes. -/
def Ready (p : StreamingParser) : Prop :=
  match p.state with
  | .stPartial str => str ≠ [] ∧ str.length < nbytes (str.headD 0)
  | .stString str => ∃ top stack, p.stack = top :: stack ∧ str.length < top.size
  | _ => True

theorem ready_of_going (going : p.state = .stNormal ∨ p.done = true) : Ready p := by
  unfold Ready
  rcases going with normal | done
  · rw [normal]
    trivial
  · cases state : p.state <;> simp_all [StreamingParser.done]

/-- The parser stops at a length that is negative, or does as it does on the bytes that are left. -/
def Ends (buf : Bytes) (first : Nat) (r : Except Fault (StreamingParser × Nat))
    (x : StreamingParser × Bytes) : Prop :=
  r = .error .negative ∨ ∃ p k, r = .ok (p, k) ∧ x = (p, buf.drop k) ∧ first ≤ k ∧ k ≤ buf.length ∧
    Ready p

theorem Ends.mono {first' : Nat} {r : Except Fault (StreamingParser × Nat)}
    {x : StreamingParser × Bytes} (le : first' ≤ first) (ends : Ends buf first r x) :
    Ends buf first' r x := by
  rcases ends with negative | ⟨p, k, same, rest, least, most, ready⟩
  · exact .inl negative
  · exact .inr ⟨p, k, same, rest, le.trans least, most, ready⟩

theorem goes_ends {go : Except Fault (StreamingParser × Nat)} (inside : first ≤ buf.length)
    (going : p.state = .stNormal ∨ p.done = true)
    (more : p.state = .stNormal → Ends buf first go (p.run (buf.drop first))) :
    Ends buf first (match p.state with
      | .stNormal => go
      | _ => pure (p, first)) (p.resume (buf.drop first)) := by
  have ready := ready_of_going going
  unfold StreamingParser.resume
  cases state : p.state with
  | stNormal => exact more state
  | _ => exact .inr ⟨p, first, rfl, rfl, Nat.le_refl _, inside, ready⟩

theorem short_length {b : UInt8} {s : Bytes} (short : scan b s = .short) :
    (b :: s).length < nbytes b := by
  rcases scan_cases b s [] with ⟨-, -, whole, -⟩ | ⟨width, follow, numbered⟩
  · exact absurd short whole
  · have less := numbered.short.mp short
    rw [nbytes_of_follows follow, List.length_cons]
    omega

theorem copy_rest (inside : first ≤ buf.length) :
    copy buf first (buf.length - first) = .ok (buf.drop first) := by
  rw [copy_ok (by omega), ← List.length_drop, List.take_length]

theorem loop_ends (buf : Bytes) (first fuel : Nat) (p : StreamingParser) (inside : first ≤ buf.length)
    (enough : buf.length < first + fuel) :
    Ends buf first (loop buf fuel p first) (p.run (buf.drop first)) := by
  induction fuel generalizing p first with
  | zero => omega
  | succ fuel ih =>
      unfold loop
      by_cases last : first = buf.length
      · rw [if_pos last, last, List.drop_length]
        exact .inr ⟨_, _, rfl, by rw [List.drop_length]; rfl, Nat.le_refl _, Nat.le_refl _, trivial⟩
      rw [if_neg last]
      cases here : buf.drop first with
      | nil =>
          have length := congrArg List.length here
          rw [List.length_drop, List.length_nil] at length
          omega
      | cons b s =>
      have go (p : StreamingParser) (jx : Pointer) (n next : Nat)
          (within : first < next ∧ next ≤ buf.length) :
          Ends buf first (match (p.next jx n).state with
            | .stNormal => loop buf fuel (p.next jx n) next
            | _ => pure (p.next jx n, next)) ((p.next jx n).resume (buf.drop next)) :=
        (goes_ends within.2 (next_state ..) fun _ => ih _ _ within.2 (by omega)).mono within.1.le
      rw [run_cons]
      rcases decode_finds here with negative | ⟨d, found, same, within⟩
      · rw [negative]
        exact .inl rfl
      simp only [found, bind, Except.bind, turn, ← same]
      cases d with
      | bad =>
          refine .inr ⟨_, _, rfl, ?_, Nat.le_refl _, inside, trivial⟩
          simp only [Decoded.scan, Turn.result, here]
      | short =>
          simp only [copy_rest inside, here]
          refine .inr ⟨_, _, rfl, ?_, inside, Nat.le_refl _, by simp, short_length same.symm⟩
          simp only [Decoded.scan, Turn.result, List.drop_length]
      | scalar v next => exact go _ _ _ next within
      | map n next => exact go _ _ _ next within
      | array n next => exact go _ _ _ next within
      | raw n next =>
          simp only [Decoded.scan, List.length_drop]
          by_cases short : buf.length - next < n
          · simp only [if_pos short, copy_rest within.2]
            refine .inr ⟨_, _, rfl, ?_, inside, Nat.le_refl _, _, _, rfl, ?_⟩
            · simp only [Turn.result, List.drop_length]
            · rw [List.length_drop]
              exact short
          · have enough : next + n ≤ buf.length := by
              have bound := within.2
              omega
            simp only [if_neg short, copy_ok enough, List.drop_drop]
            have next_le := within.1
            exact go _ _ _ (next + n) ⟨by omega, enough⟩

theorem resume_ends (p : StreamingParser) (inside : first ≤ buf.length) (ready : Ready p) :
    Ends buf first (resume buf p first) (p.resume (buf.drop first)) := by
  unfold resume StreamingParser.resume
  cases state : p.state with
  | stNormal => exact loop_ends _ _ _ p inside (by omega)
  | _ => exact .inr ⟨p, first, rfl, rfl, Nat.le_refl _, inside, ready⟩

/-! One call of `consume`. -/

theorem append_ok {str : Bytes} {nneed : Nat} (less : str.length < nneed) :
    append buf str nneed = .ok (str ++ buf.take (min buf.length (nneed - str.length)),
      min buf.length (nneed - str.length)) := by
  have next : (if buf.length < nneed - str.length then buf.length else nneed - str.length) =
      min buf.length (nneed - str.length) := by
    split <;> omega
  have inside : 0 + min buf.length (nneed - str.length) ≤ buf.length := by omega
  unfold append
  rw [if_neg (by omega)]
  simp only [next, copy_ok inside, List.drop_zero]
  rfl

theorem consume_ends (p : StreamingParser) (ready : Ready p) (buf : Bytes) :
    Ends buf 0 (consume buf p) (p.consume buf) := by
  unfold consume StreamingParser.consume
  unfold Ready at ready
  cases state : p.state with
  | stFinal | stError =>
      refine .inr ⟨p, 0, rfl, rfl, Nat.le_refl _, Nat.zero_le _, ?_⟩
      unfold Ready
      rw [state]
      trivial
  | stNormal =>
      have ends := loop_ends buf 0 (buf.length + 1) p (Nat.zero_le _) (by omega)
      exact ends
  | stPartial str =>
      rw [state] at ready
      obtain ⟨some, less⟩ := ready
      have byte : byteAt str 0 = .ok (str.headD 0) := by
        cases str with
        | nil => exact absurd rfl some
        | cons b str => rfl
      simp only [byte, bind, Except.bind, append_ok less]
      generalize cut : min buf.length (nbytes (str.headD 0) - str.length) = k
      have inside : k ≤ buf.length := by omega
      by_cases whole : (str ++ buf.take k).length = nbytes (str.headD 0)
      · simp only [ne_eq, whole, not_true, if_false]
        rcases loop_ends (str ++ buf.take k) 0 _ { p with state := .stNormal }
          (Nat.zero_le _) (show _ < 0 + ((str ++ buf.take k).length + 1) by omega) with
          negative | ⟨q, j, parsed, same, -, -, ready⟩
        · simp only [run, negative]
          exact .inl rfl
        · rw [List.drop_zero] at same
          simp only [run, parsed, same]
          exact (resume_ends q inside ready).mono (Nat.zero_le _)
      · simp only [ne_eq, whole, not_false_iff, if_true]
        refine .inr ⟨_, _, rfl, rfl, Nat.zero_le _, inside, ?_, ?_⟩
        · exact fun none => some (List.append_eq_nil_iff.mp none).1
        · have head : (str ++ buf.take k).headD 0 = str.headD 0 := by
            cases str with
            | nil => exact absurd rfl some
            | cons b str => rfl
          rw [head]
          rw [List.length_append, List.length_take] at whole ⊢
          omega
  | stString str =>
      rw [state] at ready
      obtain ⟨top, stack, pushed, less⟩ := ready
      simp only [pushed, append_ok less, bind, Except.bind, List.head?_cons, Option.map_some,
        Option.getD_some]
      generalize cut : min buf.length (top.size - str.length) = k
      have inside : k ≤ buf.length := by omega
      by_cases whole : (str ++ buf.take k).length = top.size
      · simp only [ne_eq, whole, not_true, if_false, StreamingParser.endString, pushed, state,
          List.tail_cons]
        exact (resume_ends _ inside (ready_of_going (next_state ..))).mono (Nat.zero_le _)
      · simp only [ne_eq, whole, not_false_iff, if_true]
        refine .inr ⟨_, _, rfl, rfl, Nat.zero_le _, inside, top, stack, rfl, ?_⟩
        rw [List.length_append, List.length_take] at whole ⊢
        omega

/-! Progress. -/

/-- No value begins with this byte. -/
def Bad (b : UInt8) : Prop := form b = .unused ∨ form b = .ext

theorem bad_of_scan {b : UInt8} {s : Bytes} (bad : scan b s = .bad) : Bad b := by
  unfold Bad
  rcases scan_cases b s [] with - | ⟨width, -, numbered⟩
  · cases here : form b <;> simp_all [scan, Scan.number]
    all_goals split at bad <;> cases bad
  · exact absurd bad numbered.good

/-- The loop takes something of its input, or stops in front of a byte that begins no value. -/
theorem run_progress (p : StreamingParser) (b : UInt8) (s : Bytes) :
    (p.run (b :: s)).2.length < (b :: s).length ∨
      (p.run (b :: s)).1.state = .stError ∧ Bad b := by
  rw [run_cons]
  cases here : turn p b s with
  | goes p' rest =>
      have bound := turn_goes_le here
      have left := resume_left (run_left p' rest)
      left
      simp only [Turn.result, List.length_cons]
      omega
  | stop p' rest =>
      simp only [turn] at here
      split at here
      all_goals first | cases here | skip
      · next bad => exact .inr ⟨rfl, bad_of_scan bad⟩
      · exact .inl (Nat.succ_pos _)
      · split at here
        · cases here
          exact .inl (Nat.succ_pos _)
        · cases here

theorem consume_progress (ready : Ready p) (b : UInt8) (s : Bytes) :
    (p.consume (b :: s)).2.length < (b :: s).length ∨ p.done = true ∨
      p.state = .stNormal ∧ (p.consume (b :: s)).1.state = .stError ∧ Bad b := by
  have drop (q : StreamingParser) {k : Nat} (some : 0 < k) :
      (q.resume ((b :: s).drop k)).2.length < (b :: s).length := by
    have left := resume_left (run_left q ((b :: s).drop k))
    rw [List.length_drop, List.length_cons] at left
    rw [List.length_cons]
    omega
  unfold Ready at ready
  unfold StreamingParser.consume
  cases state : p.state with
  | stFinal | stError =>
      right; left
      simp [StreamingParser.done, state]
  | stNormal =>
      rcases run_progress p b s with less | bad
      · exact .inl less
      · exact .inr (.inr ⟨rfl, bad⟩)
  | stPartial str =>
      rw [state] at ready
      have some : 0 < min (b :: s).length (nbytes (str.headD 0) - str.length) := by
        have less := ready.2
        rw [List.length_cons]
        omega
      left
      simp only
      split
      · rw [List.length_drop]
        have := List.length_pos_of_ne_nil (List.cons_ne_nil b s)
        omega
      · exact drop _ some
  | stString str =>
      rw [state] at ready
      obtain ⟨top, stack, pushed, less⟩ := ready
      have some : 0 < min (b :: s).length (top.size - str.length) := by
        rw [List.length_cons]
        omega
      left
      simp only [pushed, List.head?_cons, Option.map_some, Option.getD_some]
      split
      · rw [List.length_drop]
        have := List.length_pos_of_ne_nil (List.cons_ne_nil b s)
        omega
      · exact drop _ some

/-! Every reachable state. -/

theorem reachable_ready (reached : Reachable p) : Ready p := by
  induction reached with
  | fresh => trivial
  | @consume p p' k buf _ taken ready =>
      rcases consume_ends p ready buf with negative | ⟨q, j, same, -, -, -, ready'⟩
      · rw [negative] at taken
        cases taken
      · rw [same] at taken
        cases taken
        exact ready'
  | reset => trivial
  | clear _ ready => exact ready

/-- What `consume` does with `buf`: it ends, has read nothing else than `buf` and the saved string, and
returns a pointer into `buf` or to its end; it has an excuse when it consumes nothing. -/
def Stays (p : StreamingParser) (buf : Bytes)
    (excuse : StreamingParser → Prop) : Prop :=
  ∃ p' k, consume buf p = .ok (p', k) ∧ k ≤ buf.length ∧ (buf ≠ [] → 0 < k ∨ excuse p')

/-- `consume` stays inside its input as long as it meets no negative length. A call that consumes
nothing finds the parser done, or a byte that begins no value. -/
theorem consume_stays (reached : Reachable p) (buf : Bytes) :
    consume buf p = .error .negative ∨
      Stays p buf fun p' => p.done = true ∨
        (p.state = .stNormal ∧ p'.state = .stError ∧ ∃ b s, buf = b :: s ∧ Bad b) := by
  have ready := reachable_ready reached
  rcases consume_ends p ready buf with negative | ⟨p', k, taken, same, -, inside, -⟩
  · exact .inl negative
  · refine .inr ⟨p', k, taken, inside, fun some => ?_⟩
    obtain ⟨b, s, rfl⟩ := List.exists_cons_of_ne_nil some
    rcases consume_progress ready b s with less | done | ⟨normal, error, bad⟩
    · left
      rw [same, List.length_drop, List.length_cons] at less
      omega
    · exact .inr (.inl done)
    · rw [same] at error
      exact .inr (.inr ⟨normal, error, b, s, rfl, bad⟩)

theorem consume_stays_small : Reachable .fresh ∧ consume [0xC0] .fresh ≠ .error .negative ∧
    Stays .fresh [0xC0] fun p' => StreamingParser.done .fresh = true ∨
      (StreamingParser.fresh.state = .stNormal ∧ p'.state = .stError ∧
        ∃ b s, [0xC0] = b :: s ∧ Bad b) := by
  have small : consume [0xC0] .fresh ≠ .error .negative := by
    have taken : consume [0xC0] .fresh = .ok (⟨.stFinal, [], .null, .null⟩, 1) := rfl
    rw [taken]
    exact nofun
  exact ⟨.fresh, small, (consume_stays .fresh [0xC0]).resolve_left small⟩

/-- The byte `C1` is not consumed. -/
theorem consume_stuck : ¬ ∀ (p : StreamingParser) (buf : Bytes), Reachable p →
    consume buf p = .error .negative ∨ Stays p buf fun p' => p.done = true ∨
      ∃ str, p'.state = .stString str := by
  intro claim
  have taken : consume [0xC1] .fresh = .ok (⟨.stError, [], .null, .null⟩, 0) := rfl
  rcases claim .fresh [0xC1] .fresh with negative | ⟨p', k, same, -, progress⟩
  · rw [taken] at negative
    cases negative
  · rw [taken] at same
    cases same
    rcases progress (by simp) with less | done | ⟨str, string⟩
    · exact absurd less (Nat.lt_irrefl 0)
    · cases done
    · cases string

end Incll.Proof.Msgpack.Reads
