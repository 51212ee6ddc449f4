import Incll.Proof.Msgpack.Chunks
import Incll.Proof.Msgpack.Headers

/-! # What `unparse` writes, `streaming_parser` reads back -/

namespace Incll.Proof.Msgpack
open Incll.Model.Msgpack (Bytes writeString)
open Incll.Model.Streaming Incll.Model.Streaming.StreamingParser

/-! Paths in a tree. -/

def size : Json → Nat
  | .array xs => xs.length
  | .object ms => ms.length
  | _ => 0

def ValidPath : List Nat → Json → Prop
  | [], _ => True
  | i :: path, j => ValidPath path j ∧ i < size (j.get path)

theorem child_modifyChild {i : Nat} {j : Json} (f : Json → Json) (inside : i < size j) :
    (j.modifyChild i f).child i = f (j.child i) := by
  cases j with
  | array xs =>
      simp only [size] at inside
      simp [Json.modifyChild, Json.child, List.getElem?_eq_getElem inside]
  | object ms =>
      simp only [size] at inside
      simp [Json.modifyChild, Json.child, List.getElem?_eq_getElem inside]
  | _ => simp [size] at inside

theorem size_modifyChild (i : Nat) (f : Json → Json) (j : Json) :
    size (j.modifyChild i f) = size j := by
  cases j <;> simp [Json.modifyChild, size]

theorem modifyChild_modifyChild (i : Nat) (f g : Json → Json) (j : Json) :
    (j.modifyChild i f).modifyChild i g = j.modifyChild i (g ∘ f) := by
  cases j <;> simp [Json.modifyChild, List.modify_modify_eq, Function.comp_def]

theorem list_modify_congr {α : Type} {f g : α → α} {xs : List α} {i : Nat}
    (same : ∀ x, xs[i]? = some x → f x = g x) : xs.modify i f = xs.modify i g := by
  refine List.ext_getElem? fun k => ?_
  simp only [List.getElem?_modify]
  cases found : xs[k]? with
  | none => rfl
  | some x =>
      by_cases here : i = k
      · subst here
        simp [same x found]
      · simp [here]

theorem modifyChild_congr {i : Nat} {f g : Json → Json} {j : Json}
    (same : f (j.child i) = g (j.child i)) : j.modifyChild i f = j.modifyChild i g := by
  cases j with
  | array xs =>
      refine congrArg Json.array (list_modify_congr fun x found => ?_)
      simpa [Json.child, found] using same
  | object ms =>
      refine congrArg Json.object (list_modify_congr fun m found => ?_)
      have member : f m.2 = g m.2 := by simpa [Json.child, found] using same
      rw [member]
  | _ => rfl

theorem get_modify {path : List Nat} {j : Json} (f : Json → Json) (valid : ValidPath path j) :
    (j.modify f path).get path = f (j.get path) := by
  induction path generalizing f with
  | nil => rfl
  | cons i path ih =>
      obtain ⟨valid, inside⟩ := valid
      show ((j.modify (Json.modifyChild i f) path).get path).child i = f ((j.get path).child i)
      rw [ih _ valid, child_modifyChild f inside]

theorem modify_modify (path : List Nat) (j : Json) (f g : Json → Json) :
    (j.modify f path).modify g path = j.modify (g ∘ f) path := by
  induction path generalizing f g with
  | nil => rfl
  | cons i path ih =>
      show (j.modify (Json.modifyChild i f) path).modify (Json.modifyChild i g) path = _
      have once : Json.modifyChild i g ∘ Json.modifyChild i f = Json.modifyChild i (g ∘ f) :=
        funext fun j => modifyChild_modifyChild i f g j
      rw [ih, once]
      rfl

theorem modify_congr {path : List Nat} {j : Json} {f g : Json → Json}
    (same : f (j.get path) = g (j.get path)) : j.modify f path = j.modify g path := by
  induction path generalizing f g with
  | nil => exact same
  | cons i path ih => exact ih (modifyChild_congr same)

theorem validPath_modify {path : List Nat} {j : Json} (f : Json → Json) (valid : ValidPath path j) :
    ValidPath path (j.modify f path) := by
  induction path generalizing f with
  | nil => trivial
  | cons i path ih =>
      obtain ⟨valid, inside⟩ := valid
      refine ⟨ih (Json.modifyChild i f) valid, ?_⟩
      show i < size ((j.modify (Json.modifyChild i f) path).get path)
      rw [get_modify _ valid, size_modifyChild]
      exact inside

/-! The end of a value. -/

theorem finish_pop (state : State) (jp : Pointer) (stack : List Selem) (json jokey : Json) :
    (StreamingParser.mk state (⟨jp, 0⟩ :: stack) json jokey).finish =
      (StreamingParser.mk state stack json jokey).finish := by
  simp [finish]

theorem finish_array (state : State) {path : List Nat} (i n : Nat) {stack : List Selem} {json : Json}
    (jokey : Json) (place : back stack = .json path) (isA : (json.get path).isA = true) :
    (StreamingParser.mk state (⟨.json (i :: path), n + 1⟩ :: stack) json jokey).finish =
      ⟨.stNormal, ⟨.json ((i + 1) :: path), n⟩ :: stack, json, jokey⟩ := by
  simp [finish, setTop, container, place, deref, isA, Pointer.succ]

theorem finish_object (state : State) {path : List Nat} (jp : Pointer) (n : Nat) {stack : List Selem}
    {json : Json} (jokey : Json) (place : back stack = .json path)
    (isO : (json.get path).isA = false) :
    (StreamingParser.mk state (⟨jp, n + 1⟩ :: stack) json jokey).finish =
      ⟨.stNormal, ⟨.jokey, n⟩ :: stack, json, jokey⟩ := by
  simp [finish, setTop, container, place, deref, isO]

/-- In the place of a value, the parser reads the bytes as `r` and goes on after the value. -/
def ReadsAs (written : Bytes) (r : Json) : Prop :=
  ∀ (p : StreamingParser) (path : List Nat) (rest : Bytes), p.current = .json path →
    ValidPath path p.json → ∃ key, p.run (written ++ rest) =
      ({ p with json := p.json.modify (fun _ => r) path, jokey := key }.finish).resume rest

theorem readsAs_scalar {written : Bytes} {r : Json} (h : Scans written (.scalar r)) :
    ReadsAs written r := by
  intro p path rest place valid
  obtain ⟨b, header, rfl, scanned⟩ := h
  refine ⟨p.jokey, ?_⟩
  rw [List.cons_append, run_cons]
  simp only [turn, scanned, Turn.result, place, StreamingParser.next, assign]
  simp
  rfl

theorem readsAs_string {s : Bytes} (small : s.length < 2 ^ 31) : ReadsAs (writeString s) (.str s) := by
  intro p path rest place valid
  obtain ⟨header, split, b, h, rfl, scanned⟩ := scans_writeString small
  refine ⟨p.jokey, ?_⟩
  rw [split, List.append_assoc, List.cons_append, run_cons, turn_raw (scanned _), rawResult,
    if_neg (by rw [List.length_append]; omega), List.take_left, List.drop_left, place]
  simp [StreamingParser.next, assign]
  rfl

/-! Arrays. -/

theorem list_modify_middle {α : Type} (f : α → α) (ds os : List α) (o : α) :
    (ds ++ o :: os).modify ds.length f = ds ++ f o :: os := by
  refine List.ext_getElem? fun k => ?_
  rw [List.getElem?_modify]
  rcases Nat.lt_trichotomy k ds.length with low | rfl | high
  · rw [List.getElem?_append_left low, List.getElem?_append_left low]
    simp [show ds.length ≠ k by omega]
  · simp
  · rw [List.getElem?_append_right high.le, List.getElem?_append_right high.le,
      show k - ds.length = (k - ds.length - 1) + 1 by omega]
    simp [show ds.length ≠ k by omega]

theorem resume_normal {p : StreamingParser} (normal : p.state = .stNormal) (rest : Bytes) :
    p.resume rest = p.run rest := by
  simp only [resume, normal]

/-- The elements from `ds.length` on, where the array has room for them. -/
theorem elements_read {xs rs : List Json}
    (each : List.Forall₂ (fun x r => ReadsAs (unparse x) r) xs rs) (more : xs ≠ []) (state : State)
    {path : List Nat} {stack : List Selem} {json : Json} (jokey : Json) {ds os : List Json}
    (rest : Bytes) (place : back stack = .json path) (valid : ValidPath path json)
    (array : json.get path = .array (ds ++ os)) (room : os.length = xs.length) :
    ∃ key, (StreamingParser.mk state (⟨.json (ds.length :: path), xs.length - 1⟩ :: stack) json
        jokey).run (unparseElements xs ++ rest) =
      ((StreamingParser.mk state stack (json.modify (fun _ => .array (ds ++ rs)) path)
        key).finish).resume rest := by
  induction each generalizing state json jokey ds os with
  | nil => exact absurd rfl more
  | @cons x r xs rs first each ih =>
      obtain ⟨o, os, rfl⟩ := List.exists_cons_of_length_eq_add_one room
      have inside : ValidPath (ds.length :: path) json := by
        refine ⟨valid, ?_⟩
        rw [array]
        simp [size]
      have stored : json.modify (fun _ => r) (ds.length :: path) =
          json.modify (fun _ => .array (ds ++ r :: os)) path := by
        show json.modify (Json.modifyChild ds.length fun _ => r) path = _
        refine modify_congr ?_
        rw [array, Json.modifyChild, list_modify_middle]
      obtain ⟨key, reads⟩ := first
        (StreamingParser.mk state (⟨.json (ds.length :: path), (x :: xs).length - 1⟩ :: stack) json
          jokey) (ds.length :: path) (unparseElements xs ++ rest) rfl inside
      simp only [stored] at reads
      rw [unparseElements, List.append_assoc, reads]
      cases xs with
      | nil =>
          cases each
          have none : os = [] := by simpa using room
          subst none
          exact ⟨key, by rw [List.length_singleton, Nat.sub_self, finish_pop]; rfl⟩
      | cons x' xs =>
          have array' : (json.modify (fun _ => .array (ds ++ r :: os)) path).get path =
              .array (ds ++ r :: os) := get_modify _ valid
          obtain ⟨key', reads'⟩ := ih (by simp) .stNormal key (validPath_modify _ valid)
            (show _ = Json.array ((ds ++ [r]) ++ os) by rw [array', List.append_assoc]; rfl)
            (by simpa using room)
          refine ⟨key', ?_⟩
          rw [show (x :: x' :: xs).length - 1 = xs.length + 1 by simp,
            finish_array _ _ _ _ place (by rw [array']; rfl), resume_normal rfl]
          rw [modify_modify, List.length_append, List.append_assoc] at reads'
          exact reads'.trans (congrArg (·.resume rest) (finish_irrelevant
            ⟨state, stack, json.modify (fun _ => .array (ds ++ r :: rs)) path, key'⟩ .stNormal))

theorem readsAs_array {xs rs : List Json} (small : xs.length < 2 ^ 31)
    (each : List.Forall₂ (fun x r => ReadsAs (unparse x) r) xs rs) :
    ReadsAs (unparse (.array xs)) (.array rs) := by
  intro p path rest place valid
  obtain ⟨b, header, written, scanned⟩ := scans_writeArrayHeader small
  obtain ⟨state, stack, json, jokey⟩ := p
  simp only at valid
  have resized : (json.modify (Json.resize xs.length) path).get path =
      (json.get path).resize xs.length := get_modify _ valid
  rw [unparse, written, List.append_assoc, List.cons_append, run_cons]
  simp only [turn, scanned, Turn.result, place, StreamingParser.modify]
  by_cases none : xs = []
  · subst none
    cases each
    refine ⟨jokey, ?_⟩
    have empty : json.modify (Json.resize 0) path = json.modify (fun _ => .array []) path := by
      refine modify_congr ?_
      cases json.get path <;> simp [Json.resize]
    simp [StreamingParser.next, empty, unparseElements]
  · obtain ⟨os, array, room⟩ : ∃ os, (json.get path).resize xs.length = .array os ∧
        os.length = xs.length := by
      cases json.get path with
      | array ys =>
          refine ⟨_, rfl, ?_⟩
          rw [List.length_append, List.length_take, List.length_replicate]
          omega
      | _ => exact ⟨_, rfl, List.length_replicate⟩
    have positive : xs.length ≠ 0 := by simpa using none
    rw [array] at resized
    have next : (StreamingParser.mk state stack (json.modify (Json.resize xs.length) path)
        jokey).next (.json path) xs.length =
      ⟨.stNormal, ⟨.json (([] : List Json).length :: path), xs.length - 1⟩ :: stack,
        json.modify (Json.resize xs.length) path, jokey⟩ := by
      simp [StreamingParser.next, deref, resized, Json.isA, none, push, Pointer.child]
    obtain ⟨key, reads⟩ := elements_read each none .stNormal jokey rest place
      (validPath_modify (Json.resize xs.length) valid)
      (show _ = Json.array ([] ++ os) from resized) room
    refine ⟨key, ?_⟩
    rw [next, resume_normal rfl, reads, modify_modify]
    exact congrArg (·.resume rest) (finish_irrelevant
      ⟨state, stack, json.modify (fun _ => .array rs) path, key⟩ .stNormal)

/-! Objects. -/

/-- A new key. -/
theorem key_read (state : State) {path : List Nat} {stack : List Selem} {json : Json} (jokey : Json)
    {ds : List (Bytes × Json)} {key : Bytes} (n : Nat) (rest : Bytes) (small : key.length < 2 ^ 31)
    (place : back stack = .json path) (object : json.get path = .object ds)
    (new : ∀ m ∈ ds, m.1 ≠ key) :
    (StreamingParser.mk state (⟨.jokey, n⟩ :: stack) json jokey).run (writeString key ++ rest) =
      (StreamingParser.mk .stNormal (⟨.json (ds.length :: path), n⟩ :: stack)
        (json.modify (fun _ => .object (ds ++ [(key, .null)])) path) (.str key)).run rest := by
  obtain ⟨header, split, b, h, rfl, scanned⟩ := scans_writeString small
  rw [split, List.append_assoc, List.cons_append, run_cons, turn_raw (scanned _), rawResult,
    if_neg (by rw [List.length_append]; omega), List.take_left, List.drop_left]
  have index : (json.get path).indexInsert key = ds.length := by
    rw [object]
    exact List.findIdx_eq_length.mpr fun m member => beq_false_of_ne (new m member)
  have inserted : json.modify (Json.getInsert key) path =
      json.modify (fun _ => .object (ds ++ [(key, .null)])) path := by
    refine modify_congr ?_
    have absent : ds.any (·.1 == key) = false := by
      rw [List.any_eq_false]
      exact fun m member => by simp [new m member]
    simp [object, Json.getInsert, absent]
  have next : ((StreamingParser.mk state (⟨.jokey, n⟩ :: stack) json jokey).assign .jokey
      (.str key)).next .jokey 0 =
    ⟨.stNormal, ⟨.json (ds.length :: path), n⟩ :: stack,
      json.modify (fun _ => .object (ds ++ [(key, .null)])) path, .str key⟩ := by
    simp [StreamingParser.next, assign, StreamingParser.modify, addKey, Json.key?, container, setTop,
      place, deref, index, inserted, Pointer.child]
  show (((StreamingParser.mk state (⟨.jokey, n⟩ :: stack) json jokey).assign .jokey
      (.str key)).next .jokey 0).resume rest = _
  rw [next, resume_normal rfl]

/-- What the parser makes of a member. -/
def MemberReads (m r : Bytes × Json) : Prop :=
  r.1 = m.1 ∧ m.1.length < 2 ^ 31 ∧ ReadsAs (unparse m.2) r.2

/-- The members after `ds`. -/
theorem members_read {ms rs : List (Bytes × Json)} (each : List.Forall₂ MemberReads ms rs)
    (more : ms ≠ []) (state : State) {path : List Nat} {stack : List Selem} {json : Json}
    (jokey : Json) {ds : List (Bytes × Json)} (rest : Bytes) (place : back stack = .json path)
    (valid : ValidPath path json) (object : json.get path = .object ds)
    (distinct : ((ds ++ ms).map Prod.fst).Nodup) :
    ∃ key, (StreamingParser.mk state (⟨.jokey, ms.length - 1⟩ :: stack) json jokey).run
        (unparseMembers ms ++ rest) =
      ((StreamingParser.mk state stack (json.modify (fun _ => .object (ds ++ rs)) path)
        key).finish).resume rest := by
  induction each generalizing state json jokey ds with
  | nil => exact absurd rfl more
  | @cons m r ms rs first each ih =>
      obtain ⟨key, value⟩ := m
      obtain ⟨rkey, r⟩ := r
      obtain ⟨rfl, small, reads⟩ := first
      simp only at small reads
      have new : ∀ m ∈ ds, m.1 ≠ rkey := by
        intro m member same
        simp only [List.map_append, List.map_cons, List.nodup_append] at distinct
        exact distinct.2.2 m.1 (List.mem_map_of_mem member) rkey (by simp) same
      have object' : (json.modify (fun _ => .object (ds ++ [(rkey, .null)])) path).get path =
          .object (ds ++ [(rkey, .null)]) := get_modify _ valid
      have valid' := validPath_modify (fun _ => .object (ds ++ [(rkey, .null)])) valid
      have inside : ValidPath (ds.length :: path)
          (json.modify (fun _ => .object (ds ++ [(rkey, .null)])) path) := by
        refine ⟨valid', ?_⟩
        rw [object']
        simp [size]
      have stored : (json.modify (fun _ => .object (ds ++ [(rkey, .null)])) path).modify (fun _ => r)
          (ds.length :: path) = json.modify (fun _ => .object (ds ++ [(rkey, r)])) path := by
        show (json.modify _ path).modify (Json.modifyChild ds.length fun _ => r) path = _
        rw [modify_modify]
        refine modify_congr ?_
        simp only [Function.comp_apply, Json.modifyChild, list_modify_middle]
      obtain ⟨k, readsValue⟩ := reads ⟨.stNormal,
        ⟨.json (ds.length :: path), ((rkey, value) :: ms).length - 1⟩ :: stack,
        json.modify (fun _ => .object (ds ++ [(rkey, .null)])) path, .str rkey⟩
        (ds.length :: path) (unparseMembers ms ++ rest) rfl inside
      simp only [stored] at readsValue
      rw [unparseMembers, List.append_assoc, List.append_assoc,
        key_read state jokey _ _ small place object new, readsValue]
      cases ms with
      | nil =>
          cases each
          refine ⟨k, ?_⟩
          rw [List.length_singleton, Nat.sub_self, finish_pop]
          exact congrArg (·.resume rest) (finish_irrelevant
            ⟨state, stack, json.modify (fun _ => .object (ds ++ [(rkey, r)])) path, k⟩ .stNormal)
      | cons m' ms =>
          have object'' : (json.modify (fun _ => .object (ds ++ [(rkey, r)])) path).get path =
              .object (ds ++ [(rkey, r)]) := get_modify _ valid
          obtain ⟨k', reads'⟩ := ih (by simp) .stNormal k (validPath_modify _ valid) object''
            (by simpa using distinct)
          refine ⟨k', ?_⟩
          rw [show ((rkey, value) :: m' :: ms).length - 1 = ms.length + 1 by simp,
            finish_object _ _ _ _ place (by rw [object'']; rfl), resume_normal rfl]
          rw [modify_modify, List.append_assoc] at reads'
          exact reads'.trans (congrArg (·.resume rest) (finish_irrelevant
            ⟨state, stack, json.modify (fun _ => .object (ds ++ (rkey, r) :: rs)) path, k'⟩ .stNormal))

theorem readsAs_object {ms rs : List (Bytes × Json)} (small : ms.length < 2 ^ 31)
    (distinct : (ms.map Prod.fst).Nodup) (each : List.Forall₂ MemberReads ms rs) :
    ReadsAs (unparse (.object ms)) (.object rs) := by
  intro p path rest place valid
  obtain ⟨b, header, written, scanned⟩ := scans_writeMapHeader small
  obtain ⟨state, stack, json, jokey⟩ := p
  simp only at valid
  have object : (json.modify (fun _ => .object []) path).get path = .object [] := get_modify _ valid
  rw [unparse, written, List.append_assoc, List.cons_append, run_cons]
  simp only [turn, scanned, Turn.result, place, assign, StreamingParser.modify]
  by_cases none : ms = []
  · subst none
    cases each
    exact ⟨jokey, by simp [StreamingParser.next, unparseMembers]⟩
  · have next : (StreamingParser.mk state stack (json.modify (fun _ => .object []) path)
        jokey).next (.json path) ms.length =
      ⟨.stNormal, ⟨.jokey, ms.length - 1⟩ :: stack, json.modify (fun _ => .object []) path,
        jokey⟩ := by
      simp [StreamingParser.next, deref, object, Json.isA, Json.isO, none, push]
    obtain ⟨key, reads⟩ := members_read each none .stNormal jokey rest place
      (validPath_modify (fun _ => .object []) valid) object (by simpa using distinct)
    refine ⟨key, ?_⟩
    rw [next, resume_normal rfl, reads, modify_modify]
    exact congrArg (·.resume rest) (finish_irrelevant
      ⟨state, stack, json.modify (fun _ => .object rs) path, key⟩ .stNormal)

/-! The whole tree. -/

mutual

/-- A tree in which an unsigned integer is like any other integer. -/
def byValue : Json → Json
  | .unsigned x => .int x
  | .array xs => .array (elementsByValue xs)
  | .object ms => .object (membersByValue ms)
  | j => j

def elementsByValue : List Json → List Json
  | [] => []
  | x :: xs => byValue x :: elementsByValue xs

def membersByValue : List (Bytes × Json) → List (Bytes × Json)
  | [] => []
  | (key, value) :: ms => (key, byValue value) :: membersByValue ms

end

/-- Trees of null, booleans, 64-bit integers, strings, arrays and objects with distinct keys. -/
inductive WellFormed : Json → Prop where
  | null : WellFormed .null
  | bool (x : Bool) : WellFormed (.bool x)
  | int {x : Int} : -2 ^ 63 ≤ x → x < 2 ^ 63 → WellFormed (.int x)
  | unsigned {x : Nat} : x < 2 ^ 64 → WellFormed (.unsigned x)
  | str {s : Bytes} : s.length < 2 ^ 31 → WellFormed (.str s)
  | array {xs : List Json} : xs.length < 2 ^ 31 → (∀ x ∈ xs, WellFormed x) → WellFormed (.array xs)
  | object {ms : List (Bytes × Json)} : ms.length < 2 ^ 31 → (ms.map Prod.fst).Nodup →
      (∀ m ∈ ms, m.1.length < 2 ^ 31) → (∀ m ∈ ms, WellFormed m.2) → WellFormed (.object ms)

def RoundTrips (j r : Json) : Prop := byValue r = byValue j ∧ ReadsAs (unparse j) r

theorem exists_forall₂ {α β : Type} {R : α → β → Prop} {xs : List α} (each : ∀ x ∈ xs, ∃ y, R x y) :
    ∃ ys, List.Forall₂ R xs ys := by
  induction xs with
  | nil => exact ⟨[], .nil⟩
  | cons x xs ih =>
      obtain ⟨y, first⟩ := each x (by simp)
      obtain ⟨ys, others⟩ := ih fun x member => each x (List.mem_cons_of_mem _ member)
      exact ⟨y :: ys, .cons first others⟩

theorem elements_byValue {xs rs : List Json} (each : List.Forall₂ RoundTrips xs rs) :
    elementsByValue rs = elementsByValue xs := by
  induction each with
  | nil => rfl
  | cons first _ ih => rw [elementsByValue, elementsByValue, first.1, ih]

theorem members_byValue {ms rs : List (Bytes × Json)}
    (each : List.Forall₂ (fun m r => r.1 = m.1 ∧ RoundTrips m.2 r.2) ms rs) :
    membersByValue rs = membersByValue ms := by
  induction each with
  | nil => rfl
  | @cons m r ms rs first _ ih =>
      obtain ⟨key, value⟩ := m
      obtain ⟨key', value'⟩ := r
      obtain ⟨rfl, same, -⟩ := first
      rw [membersByValue, membersByValue, same, ih]

theorem byValue_rereadUnsigned (x : Nat) : byValue (rereadUnsigned x) = .int x := by
  rw [rereadUnsigned]
  split <;> rfl

theorem wellFormed_roundTrips {j : Json} (h : WellFormed j) : ∃ r, RoundTrips j r := by
  induction h with
  | null => exact ⟨_, rfl, readsAs_scalar (scans_byte fun s => rfl)⟩
  | bool x => cases x <;> exact ⟨_, rfl, readsAs_scalar (scans_byte fun s => rfl)⟩
  | int low high =>
      refine ⟨_, rfl, ?_⟩
      rw [unparse, writeSigned8_eq low high]
      exact readsAs_scalar (scans_writeSigned low high)
  | @unsigned x small =>
      refine ⟨_, byValue_rereadUnsigned x, ?_⟩
      rw [unparse, writeUnsigned8_eq small]
      exact readsAs_scalar (scans_writeUnsigned small)
  | str small => exact ⟨_, rfl, readsAs_string small⟩
  | array small _ ih =>
      obtain ⟨rs, each⟩ := exists_forall₂ ih
      exact ⟨.array rs, congrArg Json.array (elements_byValue each),
        readsAs_array small (each.imp fun _ _ h => h.2)⟩
  | @object ms small distinct keys _ ih =>
      have member : ∀ m ∈ ms, ∃ r : Bytes × Json,
          r.1 = m.1 ∧ m.1.length < 2 ^ 31 ∧ RoundTrips m.2 r.2 := by
        intro m member
        obtain ⟨r, trips⟩ := ih m member
        exact ⟨(m.1, r), rfl, keys m member, trips⟩
      obtain ⟨rs, each⟩ := exists_forall₂ member
      refine ⟨.object rs, congrArg Json.object (members_byValue ?_),
        readsAs_object small distinct ?_⟩
      · exact each.imp fun _ _ ⟨key, _, trips⟩ => ⟨key, trips⟩
      · exact each.imp fun _ _ ⟨key, short, trips⟩ => ⟨key, short, trips.2⟩

theorem unparse_consume {j : Json} (h : WellFormed j) :
    ∃ p, fresh.consume (unparse j) = (p, []) ∧ p.state = .stFinal ∧ byValue p.json = byValue j := by
  obtain ⟨r, same, reads⟩ := wellFormed_roundTrips h
  obtain ⟨key, consumed⟩ := reads fresh [] [] rfl trivial
  rw [List.append_nil] at consumed
  exact ⟨_, consumed, rfl, same⟩

theorem unparse_consume_nested :
    ∃ p, fresh.consume (unparse (.object [([1], .array [.int (-33), .unsigned 128])])) = (p, []) ∧
      p.state = .stFinal ∧ byValue p.json = .object [([1], .array [.int (-33), .int 128])] := by
  refine unparse_consume (.object (by decide) (by decide) (by decide) ?_)
  simp only [List.mem_singleton, forall_eq]
  refine .array (by decide) ?_
  simp only [List.mem_cons, List.not_mem_nil, or_false, forall_eq_or_imp, forall_eq]
  exact ⟨.int (by decide) (by decide), .unsigned (by decide)⟩

end Incll.Proof.Msgpack
