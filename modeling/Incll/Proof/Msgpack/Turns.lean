import Incll.Model.StreamingParser

/-! # One turn of the loop of `streaming_parser::consume` -/

namespace Incll.Proof.Msgpack
open Incll.Model.Msgpack (Bytes Form form readInNetOrder)
open Incll.Model.Streaming Incll.Model.Streaming.StreamingParser

/-! What `scan` leaves, and what it does with more input. -/

def leaves : Scan → Bytes
  | .bad | .short => []
  | .scalar _ rest | .map _ rest | .array _ rest | .raw _ rest => rest

def followedBy (t : Bytes) : Scan → Scan
  | .bad => .bad
  | .short => .short
  | .scalar v rest => .scalar v (rest ++ t)
  | .map n rest => .map n (rest ++ t)
  | .array n rest => .array n (rest ++ t)
  | .raw n rest => .raw n (rest ++ t)

/-- The outcome of `scan` where a number of `width` bytes comes first. -/
structure Numbered (width : Nat) (s t : Bytes) (now later : Scan) : Prop where
  short : now = .short ↔ s.length < width
  whole : width ≤ s.length → later = followedBy t now ∧ leaves now = s.drop width
  good : now ≠ .bad

theorem numbered {width : Nat} {s t : Bytes} {f : Nat → Bytes → Scan}
    (good : ∀ x rest, f x rest ≠ .bad ∧ f x rest ≠ .short ∧
      f x (rest ++ t) = followedBy t (f x rest) ∧ leaves (f x rest) = rest) :
    Numbered width s t (.number width s f) (.number width (s ++ t) f) := by
  simp only [Scan.number, readInNetOrder]
  by_cases enough : width ≤ s.length
  · have more : width ≤ (s ++ t).length := by
      rw [List.length_append]
      omega
    rw [if_pos enough, if_pos more, List.take_append_of_le_length enough,
      List.drop_append_of_le_length enough]
    exact ⟨iff_of_false (good _ _).2.1 (by omega), fun _ => ⟨(good _ _).2.2.1, (good _ _).2.2.2⟩,
      (good _ _).1⟩
  · rw [if_neg enough]
    exact ⟨iff_of_true rfl (by omega), fun bound => absurd bound enough, nofun⟩

/-- The width of the number that follows the first byte. -/
def follows (b : UInt8) : Option Nat :=
  match form b with
  | .uint width | .int width | .float width | .str width | .array width | .map width => some width
  | _ => none

theorem nbytes_of_follows {b : UInt8} {width : Nat} (h : follows b = some width) :
    nbytes b = width + 1 := by
  simp only [follows] at h
  simp only [nbytes]
  cases here : form b <;> simp_all

/-- Either no number follows the first byte, or the bytes of one. -/
theorem scan_cases (b : UInt8) (s t : Bytes) :
    (follows b = none ∧ scan b (s ++ t) = followedBy t (scan b s) ∧ scan b s ≠ .short ∧
      (scan b s ≠ .bad → leaves (scan b s) = s)) ∨
    ∃ width, follows b = some width ∧ Numbered width s t (scan b s) (scan b (s ++ t)) := by
  cases here : form b with
  | uint width | int width | float width | str width | array width | map width =>
      right
      refine ⟨width, by simp [follows, here], ?_⟩
      simp only [scan, here]
      exact numbered fun x rest => ⟨nofun, nofun, rfl, rfl⟩
  | _ =>
      left
      simp [follows, scan, here, followedBy, leaves]

theorem leaves_le (b : UInt8) (s : Bytes) : (leaves (scan b s)).length ≤ s.length := by
  rcases scan_cases b s [] with ⟨-, -, -, rest⟩ | ⟨width, -, short, whole, -⟩
  · by_cases bad : scan b s = .bad
    · simp [bad, leaves]
    · rw [rest bad]
  · by_cases enough : width ≤ s.length
    · rw [(whole enough).2, List.length_drop]
      omega
    · rw [short.mpr (by omega)]
      simp [leaves]

theorem scan_append {b : UInt8} {s : Bytes} (whole : scan b s ≠ .short) (t : Bytes) :
    scan b (s ++ t) = followedBy t (scan b s) := by
  rcases scan_cases b s t with ⟨-, same, -⟩ | ⟨width, -, h⟩
  · exact same
  · exact (h.whole (by by_contra less; exact whole (h.short.mpr (by omega)))).1

/-! The loop as turns. -/

/-- A turn stops, or the loop goes on with the input that is left. -/
inductive Turn where
  | stop (p : StreamingParser) (rest : Bytes)
  | goes (p : StreamingParser) (rest : Bytes)

def turn (p : StreamingParser) (b : UInt8) (s : Bytes) : Turn :=
  let jx := p.current
  match scan b s with
  | .bad => .stop { p with state := .stError } (b :: s)
  | .short => .stop { p with state := .stPartial (b :: s) } []
  | .scalar v rest => .goes ((p.assign jx v).next jx 0) rest
  | .map n rest => .goes ((p.assign jx (.object [])).next jx n) rest
  | .array n rest => .goes ((p.modify (Json.resize n) jx).next jx n) rest
  | .raw n rest =>
      if rest.length < n then .stop { p.push ⟨.null, n⟩ with state := .stString rest } []
      else .goes ((p.assign jx (.str (rest.take n))).next jx 0) (rest.drop n)

def Turn.result : Turn → StreamingParser × Bytes
  | .stop p rest => (p, rest)
  | .goes p rest => p.resume rest

theorem turn_goes_leaves {p p' : StreamingParser} {b : UInt8} {s rest : Bytes}
    (h : turn p b s = .goes p' rest) : rest.length ≤ (leaves (scan b s)).length := by
  simp only [turn] at h
  split at h <;> rename_i scanned <;> rw [scanned]
  any_goals cases h
  any_goals exact le_rfl
  split at h
  · cases h
  · cases h
    simp [leaves]

theorem turn_goes_le {p p' : StreamingParser} {b : UInt8} {s rest : Bytes}
    (h : turn p b s = .goes p' rest) : rest.length ≤ s.length :=
  (turn_goes_leaves h).trans (leaves_le b s)

theorem loop_succ (fuel : Nat) (p : StreamingParser) (b : UInt8) (s : Bytes) :
    loop (fuel + 1) p (b :: s) = match turn p b s with
      | .stop p rest => (p, rest)
      | .goes p rest => match p.state with
        | .stNormal => loop fuel p rest
        | _ => (p, rest) := by
  simp only [loop, turn]
  cases scan b s with
  | raw n rest =>
      simp only
      split <;> rfl
  | _ => rfl

theorem loop_enough {fuel : Nat} (p : StreamingParser) {s : Bytes} (enough : s.length ≤ fuel) :
    loop fuel p s = p.run s := by
  induction fuel using Nat.strong_induction_on generalizing p s with
  | _ fuel ih =>
      cases s with
      | nil => cases fuel <;> rfl
      | cons b s =>
          cases fuel with
          | zero => simp at enough
          | succ fuel =>
              simp only [List.length_cons] at enough
              rw [run, List.length_cons, loop_succ, loop_succ]
              cases here : turn p b s with
              | stop => rfl
              | goes p' rest =>
                  have bound := turn_goes_le here
                  simp only
                  cases p'.state with
                  | stNormal =>
                      simp only
                      rw [ih fuel (by omega) p' (by omega)]
                      rw [ih s.length (by omega) p' bound]
                  | _ => rfl

theorem run_nil (p : StreamingParser) : p.run [] = ({ p with state := .stNormal }, []) := rfl

theorem run_cons (p : StreamingParser) (b : UInt8) (s : Bytes) :
    p.run (b :: s) = (turn p b s).result := by
  rw [run, List.length_cons, loop_succ]
  cases here : turn p b s with
  | stop => rfl
  | goes p' rest =>
      simp only [Turn.result, resume]
      cases p'.state with
      | stNormal => exact loop_enough p' (turn_goes_le here)
      | _ => rfl

theorem turn_append {p p' : StreamingParser} {b : UInt8} {s rest : Bytes}
    (h : turn p b s = .goes p' rest) (t : Bytes) : turn p b (s ++ t) = .goes p' (rest ++ t) := by
  have whole : scan b s ≠ .short := by
    intro short
    simp [turn, short] at h
  simp only [turn, scan_append whole t]
  simp only [turn] at h
  cases here : scan b s with
  | bad | short => simp [here] at h
  | raw n left =>
      simp only [here, followedBy] at h ⊢
      split at h
      · cases h
      · rename_i enough
        cases h
        have more : ¬ (left ++ t).length < n := by
          rw [List.length_append]
          omega
        rw [if_neg more, List.take_append_of_le_length (by omega),
          List.drop_append_of_le_length (by omega)]
  | _ =>
      simp only [here, followedBy] at h ⊢
      cases h
      rfl

/-! After `next` the parser is done or goes on. -/

theorem next_state (p : StreamingParser) (jx : Pointer) (n : Nat) :
    (p.next jx n).state = .stNormal ∨ (p.next jx n).done = true := by
  simp only [StreamingParser.next]
  split
  · simp only [addKey]
    split
    · exact .inr rfl
    · exact .inl rfl
  · split
    · exact .inl rfl
    · split
      · exact .inl rfl
      · simp only [finish]
        split
        · exact .inr rfl
        · exact .inl rfl

theorem turn_goes_state {p p' : StreamingParser} {b : UInt8} {s rest : Bytes}
    (h : turn p b s = .goes p' rest) : p'.state = .stNormal ∨ p'.done = true := by
  simp only [turn] at h
  split at h
  any_goals cases h
  any_goals exact next_state ..
  split at h
  · cases h
  · cases h
    exact next_state ..

end Incll.Proof.Msgpack
