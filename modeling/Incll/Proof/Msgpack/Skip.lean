import Incll.Proof.Loginfo.Changes

/-! # `skip_primitives` against the streaming parser

`skip_primitives` stays in front of an integer or a double of eight bytes. -/

namespace Incll.Proof.Msgpack
open Incll.Model.Msgpack Incll.Proof.Loginfo

def isPrimitive : Json → Bool
  | .array _ | .object => false
  | _ => true

/-- The first `n` values are in forms that `skip_primitives` knows. -/
def Skippable (depth : Nat) : Nat → Bytes → Prop
  | 0, _ => True
  | n + 1, s => skips s = true ∧ ∀ x t, consume depth s = some (x, t) → Skippable depth n t

section
variable {depth n N : Nat} {s s' : Bytes} {xs : List Json}

theorem consume_shorter {v : Json} (h : consume depth s = some (v, s')) (primitive : isPrimitive v = true) :
    s'.length < s.length := by
  cases depth with
  | zero => simp [consume] at h
  | succ depth =>
  cases s with
  | nil => simp [consume] at h
  | cons b s =>
      have drop (n : Nat) : (s.drop n).length < (b :: s).length := by
        rw [List.length_drop, List.length_cons]
        omega
      simp only [consume] at h
      cases here : form b with
      | fixint | null | bool =>
          simp only [here, Option.some.injEq, Prod.mk.injEq] at h
          rw [← h.2]
          exact Nat.lt_succ_self _
      | unused | ext => simp [here] at h
      | fixstr n =>
          simp only [here] at h
          rw [(raw_rest h).2.2]
          exact drop n
      | uint width | int width | float width =>
          simp only [here, Option.map_eq_some_iff, Prod.mk.injEq] at h
          obtain ⟨x, number, -, rfl⟩ := h
          rw [(readInNetOrder_rest number).2]
          exact drop width
      | str width =>
          simp only [here, Option.bind_eq_some_iff] at h
          obtain ⟨⟨n, t⟩, length, text⟩ := h
          rw [(raw_rest text).2.2, (readInNetOrder_rest (readLength_rest length)).2, List.drop_drop]
          exact drop _
      | fixarray n =>
          simp only [here, Option.map_eq_some_iff, Prod.mk.injEq] at h
          obtain ⟨_, -, rfl, -⟩ := h
          cases primitive
      | fixmap n =>
          simp only [here, Option.map_eq_some_iff, Prod.mk.injEq] at h
          obtain ⟨_, -, rfl, -⟩ := h
          cases primitive
      | array width | map width =>
          simp only [here, Option.bind_eq_some_iff, Option.map_eq_some_iff, Prod.mk.injEq] at h
          obtain ⟨_, -, _, -, rfl, -⟩ := h
          cases primitive

theorem elements_succ (h : elements (consume depth) (n + 1) s = some (xs, s')) : ∃ x ys t,
    xs = x :: ys ∧ consume depth s = some (x, t) ∧ elements (consume depth) n t = some (ys, s') := by
  obtain ⟨⟨x, t⟩, first, h⟩ := Option.bind_eq_some_iff.mp h
  obtain ⟨⟨ys, t'⟩, rest, same⟩ := Option.map_eq_some_iff.mp h
  cases same
  exact ⟨x, ys, t, rfl, first, rest⟩

theorem elements_shorter (h : elements (consume depth) n s = some (xs, s'))
    (primitive : ∀ x ∈ xs, isPrimitive x = true) : s'.length ≤ s.length := by
  induction n generalizing s xs with
  | zero =>
      cases h
      exact Nat.le_refl _
  | succ n ih =>
      obtain ⟨x, ys, t, rfl, first, rest⟩ := elements_succ h
      have shorter := consume_shorter first (primitive x (by simp))
      exact Nat.le_trans (ih rest fun y member => primitive y (by simp [member])) (Nat.le_of_lt shorter)

/-- Part of a sequence of values. -/
theorem elements_take (h : elements (consume depth) N s = some (xs, s')) (most : n ≤ N) :
    ∃ t, elements (consume depth) n s = some (xs.take n, t) := by
  induction n generalizing N s xs with
  | zero => exact ⟨s, rfl⟩
  | succ n ih =>
      obtain ⟨N, rfl⟩ : ∃ k, N = k + 1 := ⟨N - 1, by omega⟩
      obtain ⟨x, ys, t, rfl, first, rest⟩ := elements_succ h
      obtain ⟨t', part⟩ := ih rest (Nat.le_of_succ_le_succ most)
      refine ⟨t', ?_⟩
      simp only [elements, first, Option.bind_some, part, Option.map_some, List.take_succ_cons]

theorem skipPrimitives_stays (stays : skips s = false) (n : Nat) : skipPrimitives n s = s :=
  Function.iterate_fixed (skipPrimitive_stays stays) n

theorem skipPrimitives_eq_iff (h : elements (consume depth) n s = some (xs, s'))
    (primitive : ∀ x ∈ xs, isPrimitive x = true) : skipPrimitives n s = s' ↔ Skippable depth n s := by
  induction n generalizing s xs with
  | zero =>
      cases h
      exact iff_of_true rfl trivial
  | succ n ih =>
      obtain ⟨x, ys, t, rfl, first, rest⟩ := elements_succ h
      have others : ∀ y ∈ ys, isPrimitive y = true := fun y member => primitive y (by simp [member])
      cases known : skips s with
      | true =>
          have next : skipPrimitives (n + 1) s = skipPrimitives n t := by
            rw [skipPrimitives, Function.iterate_succ_apply, (consume_reads first).skip known]
            rfl
          rw [next, ih rest others, Skippable]
          constructor
          · intro left
            refine ⟨known, fun x' t' first' => ?_⟩
            rw [first] at first'
            cases first'
            exact left
          · exact fun left => left.2 x t first
      | false =>
          refine iff_of_false (fun same => ?_) fun left => ?_
          · rw [skipPrimitives_stays known] at same
            have shorter := consume_shorter first (primitive x (by simp))
            have short := elements_shorter rest others
            rw [← same] at short
            omega
          · exact absurd left.1 (by simp [known])

end

theorem skips_part {depth n N : Nat} {s s' : Bytes} {xs : List Json}
    (values : elements (consume depth) N s = some (xs, s')) (most : n ≤ N)
    (primitive : ∀ x ∈ xs.take n, isPrimitive x = true) :
    (∃ ys, elements (consume depth) n s = some (ys, skipPrimitives n s)) ↔ Skippable depth n s := by
  obtain ⟨t, part⟩ := elements_take values most
  rw [← skipPrimitives_eq_iff part primitive]
  constructor
  · rintro ⟨ys, same⟩
    rw [part] at same
    cases same
    rfl
  · rintro rfl
    exact ⟨_, part⟩

/-- `skip_primitives(n)` ends where the parser is after `n` values; so a put is logged from the first
column on. -/
theorem skip_primitives_iff {depth N n : Nat} {s s' : Bytes} {xs : List Json}
    (values : elements (consume depth) N s = some (xs, s')) (most : n ≤ N)
    (primitive : ∀ x ∈ xs, isPrimitive x = true) :
    ((∃ ys, elements (consume depth) n s = some (ys, skipPrimitives n s)) ↔
      Skippable depth n s) ∧
    ∀ (depth : Nat) (requestStr : Bytes) (xs : List Json) (put : Put),
      consume (depth + 1) requestStr = some (.array xs, []) → put? (.array xs) = some put →
      (∀ x ∈ xs.take 3, isPrimitive x = true) →
      ((∃ ys logged, loggedValue requestStr put .request = some logged ∧
        elements (consume depth) 3 (skipArraySize requestStr) = some (ys, logged)) ↔
          Skippable depth 3 (skipArraySize requestStr)) := by
  refine ⟨skips_part values most fun x member => primitive x (List.mem_of_mem_take member), ?_⟩
  intro depth requestStr xs put received isPut primitive
  have three : 3 ≤ xs.length := by
    simp only [put?] at isPut
    split at isPut
    · next same =>
      cases same
      simp
    · cases isPut
  rw [← skips_part (consume_array received) three primitive]
  simp [loggedValue]

/-- A sequence number of eight bytes. -/
def longNumber : Bytes := [0x95, 0xCF, 0, 0, 0, 1, 0, 0, 0, 0, 6, 0xA1, 0x6B, 0, 0xA1, 0x76]

theorem skip_primitives_small :
    (∃ ys, elements (consume 1) 3 (skipArraySize smallPut) =
      some (ys, skipPrimitives 3 (skipArraySize smallPut))) ∧
    ∃ ys logged, loggedValue smallPut ⟨[0x6B], [.int 0, .str [0x76]]⟩ .request = some logged ∧
      elements (consume 1) 3 (skipArraySize smallPut) = some (ys, logged) := by
  have values : elements (consume 1) 5 (skipArraySize smallPut) =
      some ([.int 1, .int 6, .str [0x6B], .int 0, .str [0x76]], []) := by
    simp [consume, smallPut, form, elements, raw, skipArraySize]
  have skippable : Skippable 1 3 (skipArraySize smallPut) := by
    simp [Skippable, consume, smallPut, form, skipArraySize, skips]
  obtain ⟨skipped, logged⟩ := skip_primitives_iff values (by decide : 3 ≤ 5) (by simp [isPrimitive])
  exact ⟨skipped.mpr skippable, (logged 1 smallPut _ _ smallPut_consumed
    (by simp [put?, Json.asI, cmdPut]) (by simp [isPrimitive])).mpr skippable⟩

theorem skip_primitives_stuck : elements (consume 1) 5 (skipArraySize longNumber) =
      some ([.unsigned 4294967296, .int 6, .str [0x6B], .int 0, .str [0x76]], []) ∧
    ¬ ∃ ys, elements (consume 1) 3 (skipArraySize longNumber) =
      some (ys, skipPrimitives 3 (skipArraySize longNumber)) := by
  have values : elements (consume 1) 5 (skipArraySize longNumber) =
      some ([.unsigned 4294967296, .int 6, .str [0x6B], .int 0, .str [0x76]], []) := by
    simp [consume, longNumber, form, elements, raw, skipArraySize, readInNetOrder]
  refine ⟨values, ?_⟩
  rw [skips_part values (by decide) (by simp [isPrimitive])]
  simp [Skippable, longNumber, form, skipArraySize, skips]

end Incll.Proof.Msgpack
