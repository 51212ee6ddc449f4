import Incll.Proof.Msgpack.Turns

/-! # The parser does not depend on how its input is divided -/

namespace Incll.Proof.Msgpack
open Incll.Model.Msgpack (Bytes Form form)
open Incll.Model.Streaming Incll.Model.Streaming.StreamingParser

/-! The state before a value plays no part. -/

theorem modify_state (p : StreamingParser) (x : State) (f : Json → Json) (jx : Pointer) :
    { p with state := x }.modify f jx = { p.modify f jx with state := x } := by
  cases jx <;> rfl

theorem addKey_irrelevant (p : StreamingParser) (x : State) :
    { p with state := x }.addKey = p.addKey := by
  obtain ⟨state, stack, json, jokey⟩ := p
  simp only [addKey]
  cases jokey.key? with
  | none => rfl
  | some key =>
      cases stack with
      | nil => rfl
      | cons top stack =>
          simp only [setTop, container, List.tail_cons]
          cases back stack <;> rfl

theorem finish_irrelevant (p : StreamingParser) (x : State) :
    { p with state := x }.finish = p.finish := by
  obtain ⟨state, stack, json, jokey⟩ := p
  simp only [finish, setTop, container]
  cases List.dropWhile (fun e : Selem => e.size == 0) stack with
  | nil => rfl
  | cons top stack =>
      have same (jx : Pointer) : (StreamingParser.mk x (top :: stack) json jokey).deref jx =
          (StreamingParser.mk state (top :: stack) json jokey).deref jx := by cases jx <;> rfl
      simp only [List.tail_cons, same]
      rfl

theorem next_irrelevant (p : StreamingParser) (x : State) (jx : Pointer) (n : Nat) :
    { p with state := x }.next jx n = p.next jx n := by
  have deref : { p with state := x }.deref jx = p.deref jx := by cases jx <;> rfl
  simp only [StreamingParser.next, deref, addKey_irrelevant, finish_irrelevant]
  rfl

theorem turn_irrelevant (p : StreamingParser) (x : State) (b : UInt8) (s : Bytes) :
    turn { p with state := x } b s = turn p b s := by
  have current : { p with state := x }.current = p.current := rfl
  simp only [turn, assign, modify_state, next_irrelevant, current]
  rfl

theorem run_irrelevant (p : StreamingParser) (x : State) (s : Bytes) :
    { p with state := x }.run s = p.run s := by
  cases s with
  | nil => rfl
  | cons b s => rw [run_cons, run_cons, turn_irrelevant]

/-! A call of `consume` that leaves input behind has stopped the parser, but for one in the middle of
a string. -/

theorem resume_done {p : StreamingParser} (done : p.done = true) (rest : Bytes) :
    p.resume rest = (p, rest) := by
  simp only [resume]
  cases state : p.state <;> simp_all [StreamingParser.done]

theorem run_ends (p : StreamingParser) (s : Bytes) : (p.run s).1.done = true ∨ (p.run s).2 = [] := by
  generalize length : s.length = n
  induction n using Nat.strong_induction_on generalizing p s with
  | _ n ih =>
      cases s with
      | nil => exact .inr rfl
      | cons b s =>
          rw [run_cons]
          cases here : turn p b s with
          | stop p' rest =>
              simp only [turn] at here
              split at here
              all_goals first | cases here | skip
              · exact .inl rfl
              · exact .inr rfl
              · split at here
                · cases here
                  exact .inr rfl
                · cases here
          | goes p' rest =>
              have bound := turn_goes_le here
              simp only [List.length_cons] at length
              rcases turn_goes_state here with normal | done
              · simp only [Turn.result, resume, normal]
                exact ih rest.length (by omega) p' rest rfl
              · left
                simp only [Turn.result, resume_done done]
                exact done

theorem resume_ends {p : StreamingParser} (going : p.state = .stNormal ∨ p.done = true)
    (rest : Bytes) : (p.resume rest).1.done = true ∨ (p.resume rest).2 = [] := by
  rcases going with normal | done
  · simp only [resume, normal]
    exact run_ends p rest
  · rw [resume_done done]
    exact .inl done

theorem receive_stops {p : StreamingParser} {s : Bytes} (fuel : Nat)
    (h : p.done = true ∨ s = []) : receive fuel p s = (p, s) := by
  cases fuel with
  | zero => rfl
  | succ fuel => rw [receive, if_pos h]

/-! Strings that arrive in parts. -/

/-- The input `rest` behind the header of a string of `n` bytes. -/
def rawResult (p : StreamingParser) (n : Nat) (rest : Bytes) : StreamingParser × Bytes :=
  if rest.length < n then ({ p.push ⟨.null, n⟩ with state := .stString rest }, [])
  else ((p.assign p.current (.str (rest.take n))).next p.current 0).resume (rest.drop n)

theorem turn_raw {p : StreamingParser} {b : UInt8} {s rest : Bytes} {n : Nat}
    (h : scan b s = .raw n rest) : (turn p b s).result = rawResult p n rest := by
  simp only [turn, h, rawResult]
  split <;> rfl

theorem rawResult_ends (p : StreamingParser) (n : Nat) (rest : Bytes) :
    (rawResult p n rest).1.done = true ∨ (rawResult p n rest).2 = [] := by
  rw [rawResult]
  split
  · exact .inr rfl
  · exact resume_ends (next_state ..) _

theorem consume_string (p : StreamingParser) {n : Nat} {str : Bytes} (short : str.length < n)
    (t : Bytes) :
    consume { p.push ⟨.null, n⟩ with state := .stString str } t = rawResult p n (str ++ t) := by
  have unfolded : consume { p.push ⟨.null, n⟩ with state := .stString str } t =
      let k := min t.length (n - str.length)
      if (str ++ t.take k).length ≠ n then
        ({ p.push ⟨.null, n⟩ with state := .stString (str ++ t.take k) }, t.drop k)
      else { p.push ⟨.null, n⟩ with state := .stString str }.endString (str ++ t.take k) (t.drop k) :=
    rfl
  rw [unfolded, rawResult]
  by_cases less : (str ++ t).length < n
  · have all : min t.length (n - str.length) = t.length := by
      rw [List.length_append] at less
      omega
    simp only [all, List.take_length, List.drop_length]
    rw [if_pos less, if_pos (by omega)]
  · have part : min t.length (n - str.length) = n - str.length := by
      rw [List.length_append] at less
      omega
    have string : str ++ t.take (n - str.length) = (str ++ t).take n := by
      rw [List.take_append, List.take_of_length_le short.le]
    have rest : t.drop (n - str.length) = (str ++ t).drop n := by
      rw [List.drop_append, List.drop_of_length_le short.le, List.nil_append]
    simp only [part, string, rest]
    rw [if_neg (by rw [List.length_take]; omega), if_neg less]
    simp only [endString, push, List.tail_cons, assign]
    rw [modify_state, next_irrelevant]
    rfl

theorem receive_string (p : StreamingParser) {n : Nat} {str : Bytes} (short : str.length < n)
    {t : Bytes} {fuel : Nat} (enough : t.length ≤ fuel) :
    receive fuel { p.push ⟨.null, n⟩ with state := .stString str } t = rawResult p n (str ++ t) := by
  cases t with
  | nil => rw [receive_stops _ (.inr rfl), List.append_nil, rawResult, if_pos short]
  | cons c t =>
      cases fuel with
      | zero => simp at enough
      | succ fuel =>
          rw [receive, if_neg (by simp [StreamingParser.done]), consume_string p short,
            receive_stops _ (rawResult_ends ..)]

/-! Headers that arrive in parts. -/

/-- The bytes of a whole header and nothing else. -/
theorem run_header (p : StreamingParser) {b : UInt8} {h : Bytes} (rest : Bytes)
    (whole : h.length + 1 = nbytes b) :
    (∃ p', p.run (b :: h) = (p', []) ∧ p'.resume rest = p.run (b :: h ++ rest) ∧
      (p'.state = .stNormal ∨ p'.done = true)) ∨
    ∃ n, 0 < n ∧ p.run (b :: h) = ({ p.push ⟨.null, n⟩ with state := .stString [] }, []) ∧
      p.run (b :: h ++ rest) = rawResult p n rest := by
  have number : ∃ width, follows b = some width := by
    cases none : follows b with
    | some width => exact ⟨width, rfl⟩
    | none =>
        have zero : nbytes b = 0 := by
          simp only [follows] at none
          simp only [nbytes]
          cases here : form b <;> simp_all
        omega
  obtain ⟨width, number⟩ := number
  have exact : width = h.length := by
    have := nbytes_of_follows number
    omega
  rcases scan_cases b h rest with ⟨none, -⟩ | ⟨width', number', short, parts, good⟩
  · rw [none] at number
    cases number
  rw [number] at number'
  cases number'
  obtain ⟨-, left⟩ := parts exact.le
  rw [exact, List.drop_length] at left
  cases here : turn p b h with
  | goes p' r =>
      left
      have nothing : r = [] := by
        have := turn_goes_leaves here
        rw [left] at this
        exact List.eq_nil_of_length_eq_zero (Nat.le_zero.mp this)
      subst nothing
      have going := turn_goes_state here
      refine ⟨p', ?_, ?_, going⟩
      · rw [run_cons, here, Turn.result]
        rcases going with normal | done
        · obtain ⟨state, stack, json, jokey⟩ := p'
          cases normal
          rfl
        · exact resume_done done []
      · rw [List.cons_append, run_cons, turn_append here rest]
        rfl
  | stop p' r =>
      right
      cases scanned : scan b h with
      | bad => exact absurd scanned good
      | short =>
          have := short.mp scanned
          omega
      | raw n r =>
          rw [scanned] at left
          simp only [leaves] at left
          subst left
          simp only [turn, scanned] at here
          split at here
          · rename_i positive
            refine ⟨n, positive, ?_, ?_⟩
            · rw [run_cons, turn_raw scanned, rawResult, if_pos positive]
            · rw [List.cons_append, run_cons]
              refine turn_raw ?_
              rw [scan_append (by simp [scanned]), scanned]
              rfl
          · cases here
      | _ => simp [turn, scanned] at here

theorem scan_short_iff {b : UInt8} {s : Bytes} (short : scan b s = .short) (t : Bytes) :
    s.length + 1 < nbytes b ∧
      (scan b (s ++ t) = .short ↔ (s ++ t).length + 1 < nbytes b) := by
  rcases scan_cases b s [] with ⟨-, -, whole, -⟩ | ⟨width, number, now⟩
  · exact absurd short whole
  · have bytes := nbytes_of_follows number
    have here := now.short.mp short
    refine ⟨by omega, ?_⟩
    rcases scan_cases b (s ++ t) [] with ⟨none, -⟩ | ⟨width', number', later⟩
    · rw [none] at number
      cases number
    · rw [number] at number'
      cases number'
      rw [later.short]
      omega

theorem receive_header (p : StreamingParser) {b : UInt8} {s : Bytes} (short : scan b s = .short)
    {t : Bytes} {fuel : Nat} (enough : t.length ≤ fuel) :
    receive fuel { p with state := .stPartial (b :: s) } t = p.run (b :: s ++ t) := by
  obtain ⟨less, shortMore⟩ := scan_short_iff short t
  have still {s : Bytes} (short : scan b s = .short) :
      p.run (b :: s) = ({ p with state := .stPartial (b :: s) }, []) := by
    rw [run_cons]
    simp [turn, short, Turn.result]
  cases t with
  | nil => rw [receive_stops _ (.inr rfl), List.append_nil, still short]
  | cons c t =>
  cases fuel with
  | zero => simp at enough
  | succ fuel =>
      rw [receive, if_neg (by simp [StreamingParser.done])]
      have unfolded : consume { p with state := .stPartial (b :: s) } (c :: t) =
          let k := min (c :: t).length (nbytes b - (s.length + 1))
          if (b :: s ++ (c :: t).take k).length ≠ nbytes b then
            ({ p with state := .stPartial (b :: s ++ (c :: t).take k) }, (c :: t).drop k)
          else ({ p with state := .stNormal }.run (b :: s ++ (c :: t).take k)).1.resume
            ((c :: t).drop k) := rfl
      rw [unfolded]
      by_cases all : (s ++ c :: t).length + 1 < nbytes b
      · have whole : min (c :: t).length (nbytes b - (s.length + 1)) = (c :: t).length := by
          rw [List.length_append] at all
          omega
        simp only [whole, List.take_length, List.drop_length]
        rw [if_pos (by simp only [List.cons_append, List.length_cons]; omega),
          receive_stops _ (.inr rfl)]
        exact (still (shortMore.mpr all)).symm
      · have part : min (c :: t).length (nbytes b - (s.length + 1)) = nbytes b - (s.length + 1) := by
          rw [List.length_append] at all
          omega
        have length : (s ++ (c :: t).take (nbytes b - (s.length + 1))).length + 1 = nbytes b := by
          rw [List.length_append] at all ⊢
          rw [List.length_take]
          omega
        have joined : b :: (s ++ (c :: t).take (nbytes b - (s.length + 1))) ++
            (c :: t).drop (nbytes b - (s.length + 1)) = b :: s ++ c :: t := by
          rw [List.cons_append, List.append_assoc, List.take_append_drop]
          rfl
        simp only [part, run_irrelevant, List.cons_append]
        rw [if_neg (by rw [List.length_cons, length]; exact fun h => h rfl)]
        rcases run_header p ((c :: t).drop (nbytes b - (s.length + 1))) length with
          ⟨p', runs, resumes, going⟩ | ⟨n, positive, runs, resumes⟩
        · rw [runs, receive_stops _ (resume_ends going _), resumes, joined]
          rfl
        · rw [runs]
          have waits : ({ p.push ⟨.null, n⟩ with state := .stString [] } : StreamingParser).resume
              ((c :: t).drop (nbytes b - (s.length + 1))) =
            ({ p.push ⟨.null, n⟩ with state := .stString [] },
              (c :: t).drop (nbytes b - (s.length + 1))) := rfl
          rw [waits, receive_string p positive, List.nil_append, ← resumes, joined]
          · rfl
          · rw [List.length_drop]
            simp only [List.length_cons] at enough ⊢
            omega

/-! A run in two parts. -/

/-- What the parser does with more input. -/
def continued (x : StreamingParser × Bytes) (t : Bytes) : StreamingParser × Bytes :=
  if x.1.done then (x.1, x.2 ++ t) else receive t.length x.1 t

theorem receive_normal (p : StreamingParser) {t : Bytes} {fuel : Nat} (enough : t.length ≤ fuel) :
    receive fuel { p with state := .stNormal } t = p.run t := by
  cases t with
  | nil => rw [receive_stops _ (.inr rfl), run_nil]
  | cons c t =>
      cases fuel with
      | zero => simp at enough
      | succ fuel =>
          have consumes : { p with state := .stNormal }.consume (c :: t) = p.run (c :: t) :=
            run_irrelevant p .stNormal (c :: t)
          rw [receive, if_neg (by simp [StreamingParser.done]), consumes,
            receive_stops _ (run_ends ..)]

theorem continued_run (p : StreamingParser) (s t : Bytes) :
    continued (p.run s) t = p.run (s ++ t) := by
  generalize length : s.length = n
  induction n using Nat.strong_induction_on generalizing p s with
  | _ n ih =>
      cases s with
      | nil => exact receive_normal p le_rfl
      | cons b s =>
          simp only [List.length_cons] at length
          rw [List.cons_append, run_cons, run_cons]
          cases here : turn p b s with
          | goes p' rest =>
              have bound := turn_goes_le here
              rw [turn_append here t]
              simp only [Turn.result]
              rcases turn_goes_state here with normal | done
              · simp only [resume, normal]
                exact ih rest.length (by omega) p' rest rfl
              · rw [resume_done done, resume_done done]
                exact if_pos done
          | stop p' rest =>
              rw [← run_cons]
              cases scanned : scan b s with
              | bad =>
                  have later : scan b (s ++ t) = .bad := by
                    rw [scan_append (by simp [scanned]), scanned]
                    rfl
                  rw [run_cons]
                  simp only [turn, scanned] at here
                  cases here
                  simp only [turn, later]
                  rfl
              | short =>
                  simp only [turn, scanned] at here
                  cases here
                  exact receive_header p scanned le_rfl
              | raw n rest' =>
                  rw [run_cons, turn_raw (show scan b (s ++ t) = .raw n (rest' ++ t) by
                    rw [scan_append (by simp [scanned]), scanned]; rfl)]
                  simp only [turn, scanned] at here
                  split at here
                  · rename_i less
                    cases here
                    exact receive_string p less le_rfl
                  · cases here
              | _ => simp [turn, scanned] at here

/-! Chunks. -/

/-- The number of bytes consumed of `s`. -/
def taken (s : Bytes) : Nat := s.length - (fresh.run s).2.length

theorem resume_left {p : StreamingParser} {rest : Bytes}
    (runs : (p.run rest).2.length ≤ rest.length) : (p.resume rest).2.length ≤ rest.length := by
  rw [resume]
  split
  · exact runs
  · exact le_rfl

theorem run_left (p : StreamingParser) (s : Bytes) : (p.run s).2.length ≤ s.length := by
  generalize length : s.length = n
  induction n using Nat.strong_induction_on generalizing p s with
  | _ n ih =>
      cases s with
      | nil => exact Nat.zero_le _
      | cons b s =>
          simp only [List.length_cons] at length
          rw [run_cons]
          cases here : turn p b s with
          | goes p' rest =>
              have bound := turn_goes_le here
              have := resume_left (ih rest.length (by omega) p' rest rfl)
              simp only [Turn.result]
              omega
          | stop p' rest =>
              simp only [turn] at here
              split at here
              all_goals first | cases here | skip
              · simp only [Turn.result, List.length_cons]
                omega
              · exact Nat.zero_le _
              · split at here
                · cases here
                  exact Nat.zero_le _
                · cases here

theorem consume_left (p : StreamingParser) (s : Bytes) : (p.consume s).2.length ≤ s.length := by
  have drop (q : StreamingParser) (k : Nat) : (q.resume (s.drop k)).2.length ≤ s.length :=
    (resume_left (run_left q _)).trans (by simp)
  rw [consume]
  split
  · exact le_rfl
  · exact le_rfl
  · exact run_left p s
  · simp only
    split
    · simp
    · exact drop _ _
  · simp only
    split
    · simp
    · exact drop _ _

theorem receive_left (fuel : Nat) (p : StreamingParser) (s : Bytes) :
    (receive fuel p s).2.length ≤ s.length := by
  induction fuel generalizing p s with
  | zero => exact le_rfl
  | succ fuel ih =>
      rw [receive]
      split
      · exact le_rfl
      · exact (ih _ _).trans (consume_left p s)

theorem receive_after (s chunk : Bytes) :
    (receive chunk.length (fresh.run s).1 chunk).1 = (fresh.run (s ++ chunk)).1 ∧
      taken s + (chunk.length - (receive chunk.length (fresh.run s).1 chunk).2.length) =
        taken (s ++ chunk) := by
  have joined := continued_run fresh s chunk
  have left := run_left fresh s
  have later := receive_left chunk.length (fresh.run s).1 chunk
  rw [continued] at joined
  simp only [taken, ← joined]
  split
  · rename_i done
    rw [receive_stops _ (.inl done)]
    simp only [List.length_append, true_and]
    omega
  · rename_i going
    have nothing : (fresh.run s).2 = [] := (run_ends fresh s).resolve_left going
    simp only [nothing, List.length_append, List.length_nil, true_and]
    omega

theorem receiveAll_after (s : Bytes) (chunks : List Bytes) :
    (receiveAll (fresh.run s).1 chunks).1 = (fresh.run (s ++ chunks.flatten)).1 ∧
      taken s + (receiveAll (fresh.run s).1 chunks).2 = taken (s ++ chunks.flatten) := by
  induction chunks generalizing s with
  | nil => simp [receiveAll]
  | cons chunk chunks ih =>
      obtain ⟨parser, count⟩ := receive_after s chunk
      obtain ⟨parser', count'⟩ := ih (s ++ chunk)
      simp only [receiveAll, parser, List.flatten_cons]
      rw [← List.append_assoc]
      exact ⟨parser', by omega⟩

/-- Chunk by chunk or all at once: the same parser, and the same number of bytes consumed. -/
theorem chunks_irrelevant (chunks : List Bytes) :
    receiveAll fresh chunks =
      ((fresh.consume chunks.flatten).1,
        chunks.flatten.length - (fresh.consume chunks.flatten).2.length) := by
  obtain ⟨parser, count⟩ := receiveAll_after [] chunks
  have start : (fresh.run []).1 = fresh := rfl
  have none : taken [] = 0 := rfl
  rw [start] at parser count
  rw [none, Nat.zero_add] at count
  exact Prod.ext parser count

end Incll.Proof.Msgpack
