import Incll.Proof.Kpermuter.Nibbles
import Incll.Proof.Leaf.Permuter

/-! # The permutation word as a size and a list of slots -/

namespace Incll.Proof.Kpermuter
open Incll.Model Incll.Lib Incll.Model.KpermuterWord

/-- The slots in the order of the word; the first `size` of them are live. -/
def slots {width : Nat} (p : KpermuterWord width) : List Nat := (List.range width).map p.get

/-- The low nibble is a size and the next `width` nibbles are a permutation. -/
structure WordValid {width : Nat} (p : KpermuterWord width) : Prop where
  size : p.size ≤ width
  slots : (slots p).Perm (List.range width)

section
variable {width : Nat} (narrow : width ≤ 15) {p q : KpermuterWord width}

theorem storage_le (width : Nat) : storageBits width ≤ valueBits width := by
  unfold storageBits valueBits
  split_ifs <;> omega

include narrow in
theorem storage_fits : 4 * width + 4 ≤ storageBits width := by
  unfold storageBits
  split_ifs <;> omega

theorem and_fifteen {v : Nat} (wide : 4 ≤ v) (x : BitVec v) : (x &&& 15).toNat = x.toNat % 16 := by
  have big : 15 < 2 ^ v := (show 15 < 2 ^ 4 by decide).trans_le (Nat.pow_le_pow_right (by decide) wide)
  rw [BitVec.toNat_and, BitVec.ofNat_eq_ofNat, BitVec.toNat_ofNat, Nat.mod_eq_of_lt big]
  exact Nat.and_two_pow_sub_one_eq_mod _ 4

include narrow

theorem size_eq : p.size = nibble p.value 0 := by
  have fits := storage_fits narrow
  have le := storage_le width
  rw [KpermuterWord.size, and_fifteen (by omega), toNat_mod]

theorem get_eq (k : Nat) : p.get k = nibble p.value (k + 1) := by
  have fits := storage_fits narrow
  have le := storage_le width
  rw [KpermuterWord.get, and_fifteen (by omega)]
  rfl

theorem value_ofValue {y : BitVec (valueBits width)} {k : Nat} (bound : k ≤ width) :
    nibble (ofValue y : KpermuterWord width).value k = nibble y k := by
  have fits := storage_fits narrow
  have le := storage_le width
  rw [value, nibble_setWidth (by omega), ofValue, nibble_setWidth (by omega)]

theorem size_ofValue {y : BitVec (valueBits width)} : (ofValue y).size = nibble y 0 := by
  rw [size_eq narrow, value_ofValue narrow (Nat.zero_le _)]

theorem get_ofValue {y : BitVec (valueBits width)} {k : Nat} (bound : k < width) :
    (ofValue y).get k = nibble y (k + 1) := by
  rw [get_eq narrow, value_ofValue narrow bound]

theorem get_lt (k : Nat) : p.get k < 16 := by
  rw [get_eq narrow]
  exact nibble_lt _ _

omit narrow

@[simp] theorem length_slots : (slots p).length = width := by simp [slots]

theorem slots_get {k : Nat} (bound : k < width) : (slots p)[k]? = some (p.get k) := by
  simp [slots, bound]

theorem slots_eq {l : List Nat} (length : l.length = width)
    (each : ∀ k < width, l[k]? = some (p.get k)) : slots p = l := by
  refine List.ext_getElem? fun k => ?_
  by_cases bound : k < width
  · rw [slots_get bound, each k bound]
  · rw [List.getElem?_eq_none (by simpa using bound), List.getElem?_eq_none (by omega)]

theorem slots_back (pos : 0 < width) : slots p = (slots p).dropLast ++ [p.back] := by
  have nonempty : slots p ≠ [] := by
    intro empty
    have := length_slots (p := p)
    simp [empty] at this
    omega
  have last : (slots p).getLast nonempty = p.back := by
    rw [List.getLast_eq_getElem]
    simp [slots, back]
  rw [← last, List.dropLast_append_getLast]

theorem dropLast_get {k : Nat} (bound : k + 1 < width) : (slots p).dropLast[k]? = some (p.get k) := by
  rw [List.getElem?_dropLast, length_slots, if_pos (by omega), slots_get (by omega)]

theorem get_inj (valid : WordValid p) {i j : Nat} (hi : i < width) (hj : j < width)
    (same : p.get i = p.get j) : i = j := by
  have distinct : (slots p).Nodup := valid.slots.nodup_iff.mpr List.nodup_range
  refine (List.getElem?_inj ?_ distinct).mp ?_
  · simpa using hi
  · rw [slots_get hi, slots_get hj, same]

theorem erase_perm {i : Nat} (hi : i < width) : (p.get i :: (slots p).eraseIdx i).Perm (slots p) := by
  have bound : i < (slots p).length := by simpa using hi
  have here : (slots p)[i] = p.get i := by simp [slots]
  rw [← here]
  exact List.getElem_cons_eraseIdx_perm bound

include narrow

section
variable {i k : Nat} (room : p.size < width) (hi : i < width)
include room hi

theorem insertFromBack_size : (p.insertFromBack i).1.size = p.size + 1 := by
  have fits := storage_fits narrow
  have le := storage_le width
  have small : p.back < 16 := get_lt narrow _
  rw [size_eq narrow] at room
  rw [insertFromBack, size_ofValue narrow, insertFromBackValue_zero (by omega) (by omega) small,
    size_eq narrow]

theorem insertFromBack_get (hk : k < width) : (p.insertFromBack i).1.get k =
    if k < i then p.get k else if k = i then p.back else p.get (k - 1) := by
  have fits := storage_fits narrow
  have le := storage_le width
  have small : p.back < 16 := get_lt narrow _
  rw [size_eq narrow] at room
  rw [insertFromBack, get_ofValue narrow hk,
    insertFromBackValue_succ (by omega) (by omega) small (by omega)]
  simp only [get_eq narrow]
  split_ifs with low same
  · rfl
  · rfl
  · rw [Nat.sub_add_cancel (by omega)]

theorem slots_insertFromBack :
    slots (p.insertFromBack i).1 = (slots p).dropLast.insertIdx i p.back := by
  have length : ((slots p).dropLast.insertIdx i p.back).length = width := by
    rw [List.length_insertIdx, List.length_dropLast, length_slots]
    split_ifs <;> omega
  refine slots_eq length fun k hk => ?_
  rw [insertFromBack_get narrow room hi hk]
  split_ifs with low same
  · rw [List.getElem?_insertIdx_of_lt low, dropLast_get (by omega)]
  · rw [same, List.getElem?_insertIdx_self, if_pos (by simp; omega)]
  · rw [List.getElem?_insertIdx_of_gt (by omega), dropLast_get (by omega)]

theorem insertFromBack_valid (valid : WordValid p) : WordValid (p.insertFromBack i).1 := by
  refine ⟨(insertFromBack_size narrow room hi).trans_le room, ?_⟩
  rw [slots_insertFromBack narrow room hi]
  have inserted := List.perm_insertIdx p.back (slots p).dropLast (i := i) (by simp; omega)
  refine (inserted.trans ?_).trans valid.slots
  conv_rhs => rw [slots_back (p := p) (by omega)]
  exact (List.perm_append_singleton ..).symm

end

section
variable {di si k : Nat} (room : p.size < width) (order : di ≤ si) (hs : si < width)
include room order hs

theorem insertSelected_size : (p.insertSelected di si).size = p.size + 1 := by
  have fits := storage_fits narrow
  have le := storage_le width
  rw [size_eq narrow] at room
  rw [insertSelected, size_ofValue narrow,
    insertSelectedValue_zero (by omega) (by omega) (get_lt narrow _) order, size_eq narrow]

theorem insertSelected_get (hk : k < width) : (p.insertSelected di si).get k =
    if k < di then p.get k else if k = di then p.get si
    else if k ≤ si then p.get (k - 1) else p.get k := by
  have fits := storage_fits narrow
  have le := storage_le width
  rw [size_eq narrow] at room
  rw [insertSelected, get_ofValue narrow hk,
    insertSelectedValue_succ (by omega) (by omega) (get_lt narrow _) order (by omega)]
  simp only [get_eq narrow]
  split_ifs with low same mid
  · rfl
  · rfl
  · rw [Nat.sub_add_cancel (by omega)]
  · rfl

theorem slots_insertSelected :
    slots (p.insertSelected di si) = ((slots p).eraseIdx si).insertIdx di (p.get si) := by
  have erased : ((slots p).eraseIdx si).length = width - 1 := by
    rw [List.length_eraseIdx_of_lt (by simpa using hs), length_slots]
  have length : (((slots p).eraseIdx si).insertIdx di (p.get si)).length = width := by
    rw [List.length_insertIdx, erased]
    split_ifs <;> omega
  refine slots_eq length fun k hk => ?_
  rw [insertSelected_get narrow room order hs hk]
  split_ifs with low same mid
  · rw [List.getElem?_insertIdx_of_lt low, List.getElem?_eraseIdx_of_lt (by omega), slots_get (by omega)]
  · rw [same, List.getElem?_insertIdx_self, if_pos (by omega)]
  · rw [List.getElem?_insertIdx_of_gt (by omega), List.getElem?_eraseIdx_of_lt (by omega),
      slots_get (by omega)]
  · rw [List.getElem?_insertIdx_of_gt (by omega), List.getElem?_eraseIdx_of_ge (by omega),
      Nat.sub_add_cancel (by omega), slots_get (by omega)]

theorem insertSelected_valid (valid : WordValid p) : WordValid (p.insertSelected di si) := by
  refine ⟨(insertSelected_size narrow room order hs).trans_le room, ?_⟩
  rw [slots_insertSelected narrow room order hs]
  have erased : ((slots p).eraseIdx si).length = width - 1 := by
    rw [List.length_eraseIdx_of_lt (by simpa using hs), length_slots]
  have inserted := List.perm_insertIdx (p.get si) ((slots p).eraseIdx si) (i := di) (by omega)
  exact (inserted.trans (erase_perm hs)).trans valid.slots

end

/-- Behind `si` the word is not the list: the element is still at `si` too. -/
theorem insertSelected_apart (valid : WordValid p) {di si : Nat} (room : p.size < width) (apart : si < di)
    (hd : di < width) :
    slots (p.insertSelected di si) ≠ ((slots p).eraseIdx si).insertIdx di (p.get si) := by
  intro same
  have fits := storage_fits narrow
  have le := storage_le width
  have place := slots_get (p := p.insertSelected di si) (show si < width by omega)
  rw [same, List.getElem?_insertIdx_of_lt apart, List.getElem?_eraseIdx_of_ge le_rfl,
    slots_get (by omega), insertSelected, get_ofValue narrow (by omega)] at place
  rw [size_eq narrow] at room
  have here := Option.some.inj place
  rw [insertSelectedValue_low (by omega) (by omega) (get_lt narrow _) apart (by omega),
    ← get_eq narrow] at here
  have := get_inj valid (by omega) (by omega) here
  omega

section
variable {i k : Nat} (counted : p.size ≤ width) (live : i < p.size)
include counted live

theorem remove_size : (p.remove i).size = p.size - 1 := by
  have fits := storage_fits narrow
  have le := storage_le width
  have size := size_eq narrow (p := p)
  unfold remove
  split_ifs with last
  · rw [size_ofValue narrow, size]
    exact nibble_sub_one (by omega) (by omega)
  · rw [size_ofValue narrow, removeValue_zero (by omega) (by omega) size.symm]

theorem remove_get (hk : k < width) : (p.remove i).get k =
    if k < i then p.get k else if k + 1 < p.size then p.get (k + 1)
    else if k + 1 = p.size then p.get i else p.get k := by
  have fits := storage_fits narrow
  have le := storage_le width
  have size := size_eq narrow (p := p)
  unfold remove
  by_cases last : p.size = i + 1
  · have same : (ofValue (p.value - 1)).get k = p.get k := by
      rw [get_ofValue narrow hk, get_eq narrow]
      exact nibble_sub_one_succ (by omega) (by omega) k
    rw [if_pos last, same]
    split_ifs with low mid here
    · rfl
    · omega
    · rw [show k = i by omega]
    · rfl
  · rw [if_neg last, get_ofValue narrow hk,
      removeValue_succ (by omega) (by omega) size.symm (by omega)]
    simp only [get_eq narrow]

theorem slots_remove :
    slots (p.remove i) = ((slots p).eraseIdx i).insertIdx (p.size - 1) (p.get i) := by
  have erased : ((slots p).eraseIdx i).length = width - 1 := by
    rw [List.length_eraseIdx_of_lt (by simp; omega), length_slots]
  have length : (((slots p).eraseIdx i).insertIdx (p.size - 1) (p.get i)).length = width := by
    rw [List.length_insertIdx, erased]
    split_ifs <;> omega
  refine slots_eq length fun k hk => ?_
  rw [remove_get narrow counted live hk]
  split_ifs with low mid same
  · rw [List.getElem?_insertIdx_of_lt (by omega), List.getElem?_eraseIdx_of_lt low, slots_get hk]
  · rw [List.getElem?_insertIdx_of_lt (by omega), List.getElem?_eraseIdx_of_ge (by omega),
      slots_get (by omega)]
  · rw [show k = p.size - 1 by omega, List.getElem?_insertIdx_self, if_pos (by omega)]
  · rw [List.getElem?_insertIdx_of_gt (by omega), List.getElem?_eraseIdx_of_ge (by omega),
      Nat.sub_add_cancel (by omega), slots_get hk]

theorem remove_valid (valid : WordValid p) : WordValid (p.remove i) := by
  refine ⟨(remove_size narrow counted live).trans_le (by omega), ?_⟩
  rw [slots_remove narrow counted live]
  have erased : ((slots p).eraseIdx i).length = width - 1 := by
    rw [List.length_eraseIdx_of_lt (by simp; omega), length_slots]
  have inserted := List.perm_insertIdx (p.get i) ((slots p).eraseIdx i) (i := p.size - 1) (by omega)
  exact (inserted.trans (erase_perm (by omega))).trans valid.slots

end

section
variable {i k : Nat} (counted : p.size ≤ width) (live : i < p.size)
include counted live

theorem removeToBack_size : (p.removeToBack i).size = p.size - 1 := by
  have fits := storage_fits narrow
  have le := storage_le width
  have size := size_eq narrow (p := p)
  rw [removeToBack, size_ofValue narrow,
    removeToBackValue_zero (by omega) (by omega) (by omega), size]

theorem removeToBack_get (hk : k < width) : (p.removeToBack i).get k =
    if k < i then p.get k else if k + 1 < width then p.get (k + 1) else p.get i := by
  have fits := storage_fits narrow
  have le := storage_le width
  have size := size_eq narrow (p := p)
  rw [removeToBack, get_ofValue narrow hk,
    removeToBackValue_succ (by omega) (by omega) (by omega) hk]
  simp only [get_eq narrow]

theorem slots_removeToBack : slots (p.removeToBack i) = (slots p).eraseIdx i ++ [p.get i] := by
  have erased : ((slots p).eraseIdx i).length = width - 1 := by
    rw [List.length_eraseIdx_of_lt (by simp; omega), length_slots]
  refine slots_eq (by simp [erased]; omega) fun k hk => ?_
  rw [removeToBack_get narrow counted live hk, List.getElem?_append, erased]
  split_ifs with before low mid last
  · rw [List.getElem?_eraseIdx_of_lt low, slots_get hk]
  · rw [List.getElem?_eraseIdx_of_ge (by omega), slots_get (by omega)]
  · omega
  · omega
  · omega
  · rw [show k - (width - 1) = 0 by omega]
    rfl

theorem removeToBack_valid (valid : WordValid p) : WordValid (p.removeToBack i) := by
  refine ⟨(removeToBack_size narrow counted live).trans_le (by omega), ?_⟩
  rw [slots_removeToBack narrow counted live]
  exact ((List.perm_append_singleton ..).trans (erase_perm (by omega))).trans valid.slots

end

section
variable {i j k : Nat} (hi : i < width) (hj : j < width)
include hi hj

omit hj in
theorem exchange_size : (p.exchange i j).size = p.size := by
  have fits := storage_fits narrow
  have le := storage_le width
  rw [exchange, size_ofValue narrow, exchangeValue_zero (by omega), size_eq narrow]

theorem exchange_get (hk : k < width) : (p.exchange i j).get k =
    if k = j then p.get i else if k = i then p.get j else p.get k := by
  have fits := storage_fits narrow
  have le := storage_le width
  rw [exchange, get_ofValue narrow hk, exchangeValue_succ (by omega) (by omega) (by omega)]
  simp only [get_eq narrow]

theorem slots_exchange : slots (p.exchange i j) = ((slots p).set i (p.get j)).set j (p.get i) := by
  refine slots_eq (by simp) fun k hk => ?_
  rw [exchange_get narrow hi hj hk]
  split_ifs with last first
  · simp [last, hj]
  · rw [List.getElem?_set_ne (Ne.symm last)]
    simp [first, hi]
  · rw [List.getElem?_set_ne (Ne.symm last), List.getElem?_set_ne (Ne.symm first), slots_get hk]

theorem exchange_valid (valid : WordValid p) : WordValid (p.exchange i j) := by
  refine ⟨(exchange_size narrow hi).trans_le valid.size, ?_⟩
  rw [slots_exchange narrow hi hj]
  have swapped := List.set_set_perm (show i < (slots p).length by simpa) (show j < (slots p).length by simpa)
  have here (m : Nat) (bound : m < (slots p).length) : (slots p)[m] = p.get m := by simp [slots]
  rw [here, here] at swapped
  exact swapped.trans valid.slots

end

section
variable {n : Nat} (hn : n ≤ width)
include hn

theorem setSize_size : (p.setSize n).size = n := by
  have fits := storage_fits narrow
  have le := storage_le width
  rw [setSize, size_ofValue narrow]
  exact setSizeValue_zero (by omega) (by omega)

theorem slots_setSize : slots (p.setSize n) = slots p := by
  have fits := storage_fits narrow
  have le := storage_le width
  refine slots_eq (by simp) fun k hk => ?_
  rw [slots_get hk, setSize, get_ofValue narrow hk, get_eq narrow]
  exact congrArg some (setSizeValue_succ (by omega) (by omega) k).symm

theorem setSize_valid (valid : WordValid p) : WordValid (p.setSize n) := by
  refine ⟨(setSize_size narrow hn).trans_le hn, ?_⟩
  rw [slots_setSize narrow hn]
  exact valid.slots

end

/-- Free slots are handed out in the order `n`, `n + 1`, and so on. -/
theorem slots_makeSorted {n : Nat} (hn : n ≤ width) :
    (ofValue (makeSorted width n)).size = n ∧
    slots (ofValue (makeSorted width n)) = List.range n ++ ((List.range width).drop n).reverse := by
  have all : ∀ width < 16, ∀ n < width + 1, (ofValue (makeSorted width n)).size = n ∧
      slots (ofValue (makeSorted width n)) = List.range n ++ ((List.range width).drop n).reverse := by
    decide +kernel
  exact all width (by omega) n (by omega)

theorem slots_makeEmpty : (ofValue (makeEmpty width)).size = 0 ∧
    slots (ofValue (makeEmpty width)) = (List.range width).reverse := by
  have all : ∀ width < 16, (ofValue (makeEmpty width)).size = 0 ∧
      slots (ofValue (makeEmpty width)) = (List.range width).reverse := by
    decide +kernel
  exact all width (by omega)

theorem back_not_live (valid : WordValid p) (room : p.size < width) :
    p.back ∉ (slots p).take p.size := by
  intro member
  obtain ⟨i, bound, here⟩ := List.mem_take_iff_getElem.mp member
  have inside : i < p.size := by omega
  have same : (slots p)[i] = p.get i := by simp [slots]
  rw [same] at here
  have := get_inj valid (by omega) (by omega) here
  omega

end

/-- The word is a size and a permutation of the slots. -/
structure Holds {width : Nat} (p : KpermuterWord width) (size : Nat) (list : List Nat) : Prop where
  valid : WordValid p
  size : p.size = size
  slots : slots p = list

/-- Each operation does on the size and the slots what its comment says. Insertion of a selected slot
is admissible up to the place of the slot. -/
theorem word_operations {width : Nat} (narrow : width ≤ 15) (p : KpermuterWord width)
    (valid : WordValid p) :
    (∀ i < width, p.size < width → (p.insertFromBack i).2 = p.back ∧
      Holds (p.insertFromBack i).1 (p.size + 1) ((slots p).dropLast.insertIdx i p.back)) ∧
    (∀ di si, di ≤ si → p.size ≤ si → si < width →
      Holds (p.insertSelected di si) (p.size + 1) (((slots p).eraseIdx si).insertIdx di (p.get si))) ∧
    (∀ i < p.size,
      Holds (p.remove i) (p.size - 1) (((slots p).eraseIdx i).insertIdx (p.size - 1) (p.get i))) ∧
    (∀ i < p.size, Holds (p.removeToBack i) (p.size - 1) ((slots p).eraseIdx i ++ [p.get i])) ∧
    (∀ i < width, ∀ j < width,
      Holds (p.exchange i j) p.size (((slots p).set i (p.get j)).set j (p.get i))) ∧
    (∀ n ≤ width, Holds (p.setSize n) n (slots p)) ∧
    Holds (ofValue (makeEmpty width)) 0 (List.range width).reverse ∧
    (∀ n ≤ width, Holds (ofValue (makeSorted width n)) n
      (List.range n ++ ((List.range width).drop n).reverse)) ∧
    (p.size < width → p.back ∉ (slots p).take p.size) := by
  have sorted (n : Nat) (hn : n ≤ width) : Holds (ofValue (makeSorted width n)) n
      (List.range n ++ ((List.range width).drop n).reverse) := by
    obtain ⟨size, list⟩ := slots_makeSorted narrow hn
    refine ⟨⟨size.trans_le hn, ?_⟩, size, list⟩
    rw [list]
    exact ((List.reverse_perm _).append_left _).trans (.of_eq (range_append_drop hn))
  have empty : Holds (ofValue (makeEmpty width)) 0 (List.range width).reverse := by
    obtain ⟨size, list⟩ := slots_makeEmpty narrow
    exact ⟨⟨size.trans_le (Nat.zero_le _), list ▸ List.reverse_perm _⟩, size, list⟩
  have counted := valid.size
  refine ⟨?_, ?_, ?_, ?_, ?_, ?_, empty, sorted, back_not_live narrow valid⟩
  · intro i hi room
    exact ⟨rfl, insertFromBack_valid narrow room hi valid, insertFromBack_size narrow room hi,
      slots_insertFromBack narrow room hi⟩
  · intro di si order free hs
    exact ⟨insertSelected_valid narrow (by omega) order hs valid,
      insertSelected_size narrow (by omega) order hs, slots_insertSelected narrow (by omega) order hs⟩
  · intro i live
    exact ⟨remove_valid narrow counted live valid, remove_size narrow counted live,
      slots_remove narrow counted live⟩
  · intro i live
    exact ⟨removeToBack_valid narrow counted live valid, removeToBack_size narrow counted live,
      slots_removeToBack narrow counted live⟩
  · intro i hi j hj
    exact ⟨exchange_valid narrow hi hj valid, exchange_size narrow hi, slots_exchange narrow hi hj⟩
  · intro n hn
    exact ⟨setSize_valid narrow hn valid, setSize_size narrow hn, slots_setSize narrow hn⟩

theorem word_operations_leaf :
    Holds ((ofValue (makeSorted 14 9) : KpermuterWord 14).insertFromBack 4).1 10
      ((List.range 9 ++ [13, 12, 11, 10]).insertIdx 4 9) := by
  have valid : WordValid (ofValue (makeSorted 14 9) : KpermuterWord 14) :=
    ⟨by decide +kernel, by decide +kernel⟩
  have acts := (word_operations (by decide) (ofValue (makeSorted 14 9)) valid).1
  exact (acts 4 (by decide) (by decide +kernel)).2

/-! For a leaf the word is the list that the rest of the development uses. -/

def asList (p : KpermuterWord leafWidth) : Kpermuter := ⟨p.size, slots p⟩

section
variable {p : KpermuterWord leafWidth}

theorem asList_valid : PermValid (asList p) ↔ WordValid p :=
  ⟨fun h => ⟨h.size, h.slots⟩, fun h => ⟨h.size, h.slots⟩⟩

theorem asList_get {i : Nat} (hi : i < leafWidth) : (asList p).get i = p.get i := by
  simp [asList, Kpermuter.get, slots_get hi]

theorem asList_insertFromBack {i : Nat} (room : p.size < leafWidth) (hi : i < leafWidth) :
    asList (p.insertFromBack i).1 = (asList p).insertFromBack i := by
  simp only [asList, Kpermuter.insertFromBack, insertFromBack_size (by decide) room hi,
    slots_insertFromBack (by decide) room hi]
  congr 2

theorem asList_remove {i : Nat} (counted : p.size ≤ leafWidth) (live : i < p.size) :
    asList (p.remove i) = (asList p).remove i := by
  rw [Kpermuter.remove, asList_get (by omega)]
  simp only [asList, remove_size (by decide) counted live, slots_remove (by decide) counted live]

theorem asList_removeToBack {i : Nat} (counted : p.size ≤ leafWidth) (live : i < p.size) :
    asList (p.removeToBack i) = (asList p).removeToBack i := by
  rw [Kpermuter.removeToBack, asList_get (by omega)]
  simp only [asList, removeToBack_size (by decide) counted live,
    slots_removeToBack (by decide) counted live]

theorem asList_exchange {i j : Nat} (hi : i < leafWidth) (hj : j < leafWidth) :
    asList (p.exchange i j) = (asList p).exchange i j := by
  rw [Kpermuter.exchange, asList_get hi, asList_get hj]
  simp only [asList, exchange_size (by decide) hi, slots_exchange (by decide) hi hj]

theorem asList_setSize {n : Nat} (hn : n ≤ leafWidth) :
    asList (p.setSize n) = (asList p).setSize n := by
  simp only [asList, Kpermuter.setSize, setSize_size (by decide) hn, slots_setSize (by decide) hn]

theorem asList_makeEmpty : asList (ofValue (makeEmpty leafWidth)) = .makeEmpty := by
  obtain ⟨size, list⟩ := slots_makeEmpty (show leafWidth ≤ 15 by decide)
  simp only [asList, size, list, Kpermuter.makeEmpty]

theorem asList_makeSorted {n : Nat} (hn : n ≤ leafWidth) :
    asList (ofValue (makeSorted leafWidth n)) = .makeSorted n := by
  obtain ⟨size, list⟩ := slots_makeSorted (show leafWidth ≤ 15 by decide) hn
  simp only [asList, size, list, Kpermuter.makeSorted]

end

end Incll.Proof.Kpermuter
