import Incll.Model.Msgpack
import Mathlib.Tactic.SplitIfs

/-! # The changes in the log record of a put -/

namespace Incll.Proof.Loginfo
open Incll.Model.Msgpack

/-- The value at the front is in a form that `skip_primitives` knows: it is no integer or double of
eight bytes, no array and no map. -/
def skips : Bytes → Bool
  | [] => false
  | b :: _ =>
      match form b with
      | .uint 8 | .int 8 | .float 8 | .fixarray _ | .array _ | .fixmap _ | .map _ | .ext => false
      | _ => true

/-- The widths of integers and floating-point numbers. -/
def knownWidth : Form → Prop
  | .uint width | .int width => width = 1 ∨ width = 2 ∨ width = 4 ∨ width = 8
  | .float width => width = 4 ∨ width = 8
  | _ => True

theorem form_width (b : UInt8) : knownWidth (form b) := by
  simp only [form]
  split_ifs <;> try trivial
  split <;> simp [knownWidth]

section
variable {depth : Nat} {s s' : Bytes} {v : Json}

theorem readInNetOrder_rest {width x : Nat} (h : readInNetOrder width s = some (x, s')) :
    width ≤ s.length ∧ s' = s.drop width := by
  simp only [readInNetOrder, Option.ite_none_right_eq_some, Option.some.injEq, Prod.mk.injEq] at h
  exact ⟨h.1, h.2.2.symm⟩

theorem raw_rest {n : Nat} (h : raw n s = some (v, s')) :
    n ≤ s.length ∧ v = .str (s.take n) ∧ s' = s.drop n := by
  simp only [raw, Option.ite_none_right_eq_some, Option.some.injEq, Prod.mk.injEq] at h
  exact ⟨h.1, h.2.1.symm, h.2.2.symm⟩

theorem readLength_rest {width n : Nat} (h : readLength width s = some (n, s')) :
    readInNetOrder width s = some (n, s') := by
  rw [readLength, Option.filter_eq_some_iff] at h
  exact h.1

theorem skipPrimitive_stays (stays : skips s = false) : skipPrimitive s = s := by
  cases s with
  | nil => rfl
  | cons b s =>
      have known := form_width b
      cases here : form b with
      | uint width | int width =>
          rw [here] at known
          rcases known with rfl | rfl | rfl | rfl <;> simp [skips, skipPrimitive, here] at stays ⊢
      | float width =>
          rw [here] at known
          rcases known with rfl | rfl <;> simp [skips, skipPrimitive, here] at stays ⊢
      | fixint | null | unused | bool | fixstr | fixarray | fixmap | str | array | map | ext =>
          simp [skips, skipPrimitive, here] at stays ⊢

/-- What the two parsers see at the front. -/
structure Reads (s : Bytes) (v : Json) (s' : Bytes) : Prop where
  skip : skips s = true → skipPrimitive s = s'
  int : readInt s = match v with
    | .int x => some (x, s')
    | .unsigned x => some ((x : Int), s')
    | _ => none
  str : readStr s = match v with
    | .str x => some (x, s')
    | _ => none
  strSkips : ∀ x, v = .str x → skips s = true

theorem reads_str {b : UInt8} {n : Nat} {t : Bytes} (known : skips (b :: s) = true)
    (skip : skipPrimitive (b :: s) = t.drop n) (int : readInt (b :: s) = none)
    (str : readStr (b :: s) = if n ≤ t.length then some (t.take n, t.drop n) else none)
    (h : raw n t = some (v, s')) : Reads (b :: s) v s' := by
  obtain ⟨bound, rfl, rfl⟩ := raw_rest h
  exact ⟨fun _ => skip, int, by rw [str, if_pos bound], fun _ _ => known⟩

/-- An array or a map: neither a number nor a string. -/
theorem reads_container {b : UInt8} (stays : skips (b :: s) = false) (int : readInt (b :: s) = none)
    (str : readStr (b :: s) = none) (h : v = .object ∨ ∃ xs, v = .array xs) : Reads (b :: s) v s' := by
  rcases h with rfl | ⟨xs, rfl⟩ <;> exact ⟨by simp [stays], int, str, by simp⟩

theorem consume_reads (h : consume depth s = some (v, s')) : Reads s v s' := by
  cases depth with
  | zero => simp [consume] at h
  | succ depth =>
  cases s with
  | nil => simp [consume] at h
  | cons b s =>
      have known := form_width b
      simp only [consume] at h
      cases here : form b with
      | fixint x =>
          simp only [here, Option.some.injEq, Prod.mk.injEq] at h
          obtain ⟨rfl, rfl⟩ := h
          constructor <;> simp [skipPrimitive, readInt, readStr, here]
      | null =>
          simp only [here, Option.some.injEq, Prod.mk.injEq] at h
          obtain ⟨rfl, rfl⟩ := h
          constructor <;> simp [skipPrimitive, readInt, readStr, here]
      | bool x =>
          simp only [here, Option.some.injEq, Prod.mk.injEq] at h
          obtain ⟨rfl, rfl⟩ := h
          constructor <;> simp [skipPrimitive, readInt, readStr, here]
      | unused | ext => simp [here] at h
      | fixstr n =>
          simp only [here] at h
          refine reads_str ?_ ?_ ?_ ?_ h <;> simp [skips, skipPrimitive, readInt, readStr, here]
      | str width =>
          simp only [here, Option.bind_eq_some_iff] at h
          obtain ⟨⟨n, t⟩, length, h⟩ := h
          have length := readLength_rest length
          refine reads_str ?_ ?_ ?_ ?_ h <;>
            simp [skips, skipPrimitive, readInt, readStr, here, length]
      | uint width =>
          simp only [here, Option.map_eq_some_iff, Prod.mk.injEq] at h
          obtain ⟨⟨x, t⟩, number, rfl, rfl⟩ := h
          obtain ⟨-, rest⟩ := readInNetOrder_rest number
          rw [here] at known
          rcases known with rfl | rfl | rfl | rfl <;>
            constructor <;> simp [skips, skipPrimitive, readInt, readStr, here, number, rest]
      | int width =>
          simp only [here, Option.map_eq_some_iff, Prod.mk.injEq] at h
          obtain ⟨⟨x, t⟩, number, rfl, rfl⟩ := h
          obtain ⟨-, rest⟩ := readInNetOrder_rest number
          rw [here] at known
          rcases known with rfl | rfl | rfl | rfl <;>
            constructor <;> simp [skips, skipPrimitive, readInt, readStr, here, number, rest]
      | float width =>
          simp only [here, Option.map_eq_some_iff, Prod.mk.injEq] at h
          obtain ⟨⟨x, t⟩, number, rfl, rfl⟩ := h
          obtain ⟨-, rest⟩ := readInNetOrder_rest number
          rw [here] at known
          rcases known with rfl | rfl <;>
            constructor <;> simp [skips, skipPrimitive, readInt, readStr, here, rest]
      | fixarray n =>
          simp only [here, Option.map_eq_some_iff, Prod.mk.injEq] at h
          obtain ⟨⟨xs, t⟩, -, rfl, rfl⟩ := h
          refine reads_container ?_ ?_ ?_ (.inr ⟨xs, rfl⟩) <;> simp [skips, readInt, readStr, here]
      | fixmap n =>
          simp only [here, Option.map_eq_some_iff, Prod.mk.injEq] at h
          obtain ⟨t, -, rfl, rfl⟩ := h
          refine reads_container ?_ ?_ ?_ (.inl rfl) <;> simp [skips, readInt, readStr, here]
      | array width =>
          simp only [here, Option.bind_eq_some_iff, Option.map_eq_some_iff, Prod.mk.injEq] at h
          obtain ⟨-, -, ⟨xs, t⟩, -, rfl, rfl⟩ := h
          refine reads_container ?_ ?_ ?_ (.inr ⟨xs, rfl⟩) <;> simp [skips, readInt, readStr, here]
      | map width =>
          simp only [here, Option.bind_eq_some_iff, Option.map_eq_some_iff, Prod.mk.injEq] at h
          obtain ⟨-, -, t, -, rfl, rfl⟩ := h
          refine reads_container ?_ ?_ ?_ (.inl rfl) <;> simp [skips, readInt, readStr, here]

end

section
variable {depth : Nat} {s s' : Bytes}

theorem readInt_shorter {x : Int} (h : readInt s = some (x, s')) : s'.length < s.length := by
  cases s with
  | nil => cases h
  | cons b s =>
      simp only [readInt] at h
      split at h
      · cases h
        exact Nat.lt_succ_self _
      · obtain ⟨⟨y, t⟩, number, same⟩ := Option.map_eq_some_iff.mp h
        cases same
        rw [(readInNetOrder_rest number).2, List.length_drop, List.length_cons]
        omega
      · obtain ⟨⟨y, t⟩, number, same⟩ := Option.map_eq_some_iff.mp h
        cases same
        rw [(readInNetOrder_rest number).2, List.length_drop, List.length_cons]
        omega
      · cases h

theorem readStr_shorter {x : Bytes} (h : readStr s = some (x, s')) : s'.length < s.length := by
  cases s with
  | nil => cases h
  | cons b s =>
      simp only [readStr] at h
      split at h
      · simp only [Option.ite_none_right_eq_some, Option.some.injEq, Prod.mk.injEq] at h
        rw [← h.2.2, List.length_drop, List.length_cons]
        omega
      · obtain ⟨⟨n, t⟩, number, h⟩ := Option.bind_eq_some_iff.mp h
        simp only [Option.ite_none_right_eq_some, Option.some.injEq, Prod.mk.injEq] at h
        rw [← h.2.2, (readInNetOrder_rest number).2, List.length_drop, List.length_drop,
          List.length_cons]
        omega
      · cases h

theorem elements_cons {value : Bytes → Option (Json × Bytes)} {n : Nat} {x : Json} {xs : List Json}
    (h : elements value (n + 1) s = some (x :: xs, s')) :
    ∃ t, value s = some (x, t) ∧ elements value n t = some (xs, s') := by
  simp only [elements] at h
  obtain ⟨⟨y, t⟩, first, h⟩ := Option.bind_eq_some_iff.mp h
  obtain ⟨⟨ys, t'⟩, rest, same⟩ := Option.map_eq_some_iff.mp h
  cases same
  exact ⟨t, first, rest⟩

theorem elements_length {value : Bytes → Option (Json × Bytes)} {n : Nat} {xs : List Json}
    (h : elements value n s = some (xs, s')) : xs.length = n := by
  induction n generalizing s xs with
  | zero =>
      cases h
      rfl
  | succ n ih =>
      obtain ⟨⟨y, t⟩, first, h⟩ := Option.bind_eq_some_iff.mp h
      obtain ⟨⟨ys, t'⟩, rest, same⟩ := Option.map_eq_some_iff.mp h
      cases same
      rw [List.length_cons, ih rest]

/-- The elements of an array are behind what `skip_array_size` skips. -/
theorem consume_array {xs : List Json} (h : consume (depth + 1) s = some (.array xs, s')) :
    elements (consume depth) xs.length (skipArraySize s) = some (xs, s') := by
  cases s with
  | nil => simp [consume] at h
  | cons b s =>
      simp only [consume] at h
      cases here : form b with
      | fixarray n =>
          simp only [here, Option.map_eq_some_iff, Prod.mk.injEq] at h
          obtain ⟨⟨ys, t⟩, inner, same, rfl⟩ := h
          cases same
          simp only [skipArraySize, here]
          rw [elements_length inner]
          exact inner
      | array width =>
          simp only [here, Option.bind_eq_some_iff, Option.map_eq_some_iff, Prod.mk.injEq] at h
          obtain ⟨⟨n, u⟩, length, ⟨ys, t⟩, inner, same, rfl⟩ := h
          cases same
          obtain ⟨-, rest⟩ := readInNetOrder_rest (readLength_rest length)
          simp only [skipArraySize, here, ← rest]
          rw [elements_length inner]
          exact inner
      | fixint | null | unused | bool | ext => simp [here] at h
      | fixstr n =>
          simp only [here] at h
          cases (raw_rest h).2.1
      | str width =>
          simp only [here, Option.bind_eq_some_iff] at h
          obtain ⟨_, -, h⟩ := h
          cases (raw_rest h).2.1
      | uint width =>
          simp only [here, Option.map_eq_some_iff, Prod.mk.injEq] at h
          obtain ⟨_, -, same, -⟩ := h
          split at same <;> cases same
      | int width | float width =>
          simp only [here, Option.map_eq_some_iff, Prod.mk.injEq] at h
          obtain ⟨_, -, same, -⟩ := h
          cases same
      | fixmap n =>
          simp only [here, Option.map_eq_some_iff, Prod.mk.injEq] at h
          obtain ⟨_, -, same, -⟩ := h
          cases same
      | map width =>
          simp only [here, Option.bind_eq_some_iff, Option.map_eq_some_iff, Prod.mk.injEq] at h
          obtain ⟨_, -, _, -, same, -⟩ := h
          cases same

end

/-- No column is a floating-point number. -/
def integerColumns : List Json → Bool
  | .double _ :: _ => false
  | _ :: _ :: rest => integerColumns rest
  | _ => true

section
variable {fuel : Nat} {s t u value : Bytes} {x : Int}

theorem changeset_step (number : readInt s = some (x, t)) (text : readStr t = some (value, u)) :
    changeset (fuel + 1) s = (changeset fuel u).map (((x % 2 ^ 32).toNat, value) :: ·) := by
  cases s with
  | nil => cases number
  | cons b s => simp only [changeset, number, text, Option.bind_some]

theorem changeset_no_index (some : s ≠ []) (number : readInt s = none) : changeset fuel s = none := by
  obtain ⟨b, s, rfl⟩ := List.exists_cons_of_ne_nil some
  cases fuel with
  | zero => rfl
  | succ fuel => simp only [changeset, number, Option.bind_none]

theorem changeset_no_value (number : readInt s = some (x, t)) (text : readStr t = none) :
    changeset fuel s = none := by
  cases s with
  | nil => cases number
  | cons b s =>
      cases fuel with
      | zero => rfl
      | succ fuel => simp only [changeset, number, text, Option.bind_some, Option.bind_none]

theorem consume_ne_nil {depth : Nat} {v : Json} (h : consume depth s = some (v, t)) : s ≠ [] := by
  rintro rfl
  cases depth <;> simp [consume] at h

/-- `parse_changeset` reads back what the row took, unless it comes to a column that is no integer. -/
theorem changeset_elements {depth : Nat} {changes : List Json} {pairs : List (Nat × Bytes)}
    (enough : s.length ≤ fuel)
    (h : elements (consume depth) changes.length s = some (changes, []))
    (accepted : applied changes = some pairs) :
    changeset fuel s = if integerColumns changes then some pairs else none := by
  induction changes using applied.induct generalizing s pairs fuel with
  | case1 =>
      cases h
      cases accepted
      cases fuel <;> rfl
  | case2 column value rest ih =>
      obtain ⟨t, first, h⟩ := elements_cons h
      obtain ⟨u, second, left⟩ := elements_cons h
      have number := (consume_reads first).int
      have text : readStr t = some (value, u) := (consume_reads second).str
      simp only [applied] at accepted
      obtain ⟨index, isIndex, accepted⟩ := Option.bind_eq_some_iff.mp accepted
      obtain ⟨pairs, acceptedLeft, rfl⟩ := Option.map_eq_some_iff.mp accepted
      have whole {x : Int} (number : readInt s = some (x, t)) (same : (x % 2 ^ 32).toNat = index % 2 ^ 32) :
          changeset fuel s =
            if integerColumns rest then some ((index % 2 ^ 32, value) :: pairs) else none := by
        have shorter := readInt_shorter number
        have shorter' := readStr_shorter text
        obtain ⟨fuel, rfl⟩ : ∃ f, fuel = f + 1 := ⟨fuel - 1, by omega⟩
        rw [changeset_step number text, ih (by omega) left acceptedLeft, same]
        split <;> rfl
      cases column with
      | null | bool | str | array | object => cases isIndex
      | double bits => exact changeset_no_index (consume_ne_nil first) number
      | int x =>
          cases isIndex
          exact whole number (by omega)
      | unsigned x =>
          cases isIndex
          exact whole number (by omega)
  | case3 changes notNil notPair =>
      rw [applied] at accepted
      · cases accepted
      · exact notNil
      · exact notPair

end

section
variable {depth : Nat} {s : Bytes} {seq command : Json} {key : Bytes} {changes : List Json}
  {pairs : List (Nat × Bytes)}

/-- The position after `skip_array_size` and `skip_primitives(3)`. -/
theorem skipPrimitives_three (s : Bytes) :
    skipPrimitives 3 s = skipPrimitive (skipPrimitive (skipPrimitive s)) := rfl

theorem changeset_request (number : command.asI ≠ none)
    (h : elements (consume depth) (changes.length + 3) s = some (seq :: command :: .str key :: changes, []))
    (accepted : applied changes = some pairs) :
    parseChangeset (skipPrimitives 3 s) = some pairs ↔
      skips s = true ∧ skips (skipPrimitive s) = true ∧ integerColumns changes = true := by
  obtain ⟨t, first, h⟩ := elements_cons h
  obtain ⟨u, second, h⟩ := elements_cons h
  obtain ⟨w, third, left⟩ := elements_cons h
  have readsSeq := consume_reads first
  have readsCommand := consume_reads second
  have readsKey := consume_reads third
  have keySkips := readsKey.strSkips key rfl
  have noText : readStr t = none := by
    rw [readsCommand.str]
    cases command <;> first | rfl | exact absurd rfl number
  rw [skipPrimitives_three, parseChangeset]
  cases seqSkips : skips s with
  | false =>
      simp only [skipPrimitive_stays seqSkips, Bool.false_eq_true, false_and, iff_false]
      have fails : changeset s.length s = none := by
        cases number : readInt s with
        | none => exact changeset_no_index (consume_ne_nil first) number
        | some found =>
            obtain ⟨x, t'⟩ := found
            obtain rfl : t' = t := by
              rw [readsSeq.int] at number
              cases seq <;> cases number <;> rfl
            exact changeset_no_value number noText
      simp [fails]
  | true =>
      rw [readsSeq.skip seqSkips]
      cases commandSkips : skips t with
      | false =>
          simp only [skipPrimitive_stays commandSkips, Bool.false_eq_true, false_and, and_false, iff_false]
          intro decoded
          cases number : readInt t with
          | none =>
              rw [changeset_no_index (consume_ne_nil second) number] at decoded
              cases decoded
          | some found =>
              obtain ⟨x, u'⟩ := found
              obtain rfl : u' = u := by
                rw [readsCommand.int] at number
                cases command <;> cases number <;> rfl
              -- the command and the key make one more change
              have shorter := readInt_shorter number
              obtain ⟨fuel, length⟩ : ∃ f, t.length = f + 1 := ⟨t.length - 1, by omega⟩
              have shorter' := readStr_shorter readsKey.str
              rw [length, changeset_step number readsKey.str,
                changeset_elements (by omega) left accepted] at decoded
              split at decoded
              · simp at decoded
              · cases decoded
      | true =>
          rw [readsCommand.skip commandSkips, readsKey.skip keySkips,
            changeset_elements (Nat.le_refl _) left accepted]
          simp

/-- The array header in front of the changes is no index. -/
theorem readInt_arrayHeader (size : Nat) (values : Bytes) :
    readInt (writeArrayHeader size ++ values) = none := by
  rw [writeArrayHeader]
  split
  · next small =>
    have byte : (UInt8.ofNat (0x90 + size)).toNat = 0x90 + size := by
      rw [UInt8.toNat_ofNat']
      omega
    have header : form (UInt8.ofNat (0x90 + size)) = .fixarray size := by
      simp only [form, byte]
      rw [if_neg (by omega), if_neg (by omega), if_pos (by omega)]
      simp
    simp only [List.singleton_append, readInt, header]
  · split <;> rfl

theorem changeset_json (put : Put) {logged : Bytes} (h : loggedValue s put .json = some logged) :
    parseChangeset logged = none := by
  obtain ⟨values, -, rfl⟩ := Option.map_eq_some_iff.mp h
  refine changeset_no_index ?_ (readInt_arrayHeader _ _)
  simp only [writeArrayHeader]
  split_ifs <;> simp

end

/-- A put is logged so that `parse_changeset` finds the changes exactly if the bytes of the request are
logged, `skip_primitives` knows the forms of the sequence number and of the command, and the columns
are integers. -/
theorem logged_changes_iff {depth : Nat} {requestStr : Bytes} {request : Json} {put : Put}
    {pairs : List (Nat × Bytes)} (way : Way) (received : consume depth requestStr = some (request, []))
    (isPut : put? request = some put) (accepted : applied put.changes = some pairs) :
    (loggedValue requestStr put way).bind parseChangeset = some pairs ↔
      way = .request ∧ skips (skipArraySize requestStr) = true ∧
        skips (skipPrimitive (skipArraySize requestStr)) = true ∧ integerColumns put.changes = true := by
  cases way with
  | request =>
      simp only [put?] at isPut
      split at isPut
      · next seq command key changes =>
        simp only [Option.ite_none_right_eq_some, Option.some.injEq] at isPut
        obtain ⟨⟨number, -, -⟩, rfl⟩ := isPut
        simp only [true_and]
        cases depth with
        | zero => simp [consume] at received
        | succ depth => exact changeset_request (by simp [number]) (consume_array received) accepted
      · cases isPut
  | json =>
      simp only [reduceCtorEq, false_and, iff_false]
      cases logged : loggedValue requestStr put .json with
      | none => simp
      | some value => simp [changeset_json put logged]

/-- `[1, 6, "k", 0, "v"]`. -/
def smallPut : Bytes := [0x95, 0x01, 0x06, 0xA1, 0x6B, 0x00, 0xA1, 0x76]

theorem smallPut_consumed : consume 2 smallPut =
    some (.array [.int 1, .int 6, .str [0x6B], .int 0, .str [0x76]], []) := by
  simp [consume, smallPut, form, elements, raw]

theorem logged_changes_small :
    (loggedValue smallPut ⟨[0x6B], [.int 0, .str [0x76]]⟩ .request).bind parseChangeset =
      some [(0, [0x76])] :=
  (logged_changes_iff .request smallPut_consumed (by simp [put?, Json.asI, cmdPut])
    (by simp [applied, Json.asU])).mpr ⟨rfl, by decide +kernel, by decide +kernel, rfl⟩

/-- The same request, logged without its bytes: nothing is read back. -/
theorem json_changes_lost : consume 2 smallPut =
      some (.array [.int 1, .int 6, .str [0x6B], .int 0, .str [0x76]], []) ∧
    applied [.int 0, .str [0x76]] = some [(0, [0x76])] ∧
    (loggedValue smallPut ⟨[0x6B], [.int 0, .str [0x76]]⟩ .json).bind parseChangeset ≠
      some [(0, [0x76])] :=
  ⟨smallPut_consumed, by simp [applied, Json.asU], by decide +kernel⟩

end Incll.Proof.Loginfo
