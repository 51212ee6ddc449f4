import Incll.Lib.Links
import Incll.Model.Limbo
import Mathlib.Data.List.Forall2

/-! # Limbo lists are queues -/

namespace Incll.Proof.Limbo
open Incll.Lib Incll.Model.Limbo

/-! Groups. -/

/-- The elements from `head_` to `tail_`. -/
def elements (g : LimboGroup) : List Element := (List.range' g.head (g.tail - g.head)).map g.e

/-- The objects among the elements, with the epochs of the markers in front of them. -/
def content : Epoch → List Element → List Recorded
  | _, [] => []
  | _, .marker epoch :: xs => content epoch xs
  | epoch, .object ptr tag :: xs => ⟨ptr, tag, epoch⟩ :: content epoch xs

def lastEpoch : Epoch → List Element → Epoch
  | epoch, [] => epoch
  | _, .marker epoch :: xs => lastEpoch epoch xs
  | epoch, .object _ _ :: xs => lastEpoch epoch xs

theorem content_append (epoch : Epoch) (xs ys : List Element) :
    content epoch (xs ++ ys) = content epoch xs ++ content (lastEpoch epoch xs) ys := by
  induction xs generalizing epoch with
  | nil => rfl
  | cons x xs ih =>
      cases x with
      | marker e => exact ih e
      | object ptr tag => exact congrArg (_ :: ·) (ih epoch)

theorem lastEpoch_append (epoch : Epoch) (xs ys : List Element) :
    lastEpoch epoch (xs ++ ys) = lastEpoch (lastEpoch epoch xs) ys := by
  induction xs generalizing epoch with
  | nil => rfl
  | cons x xs ih => cases x <;> exact ih _

/-- A marker comes first. -/
def Marked (xs : List Element) : Prop := ∀ x more, xs = x :: more → ∃ epoch, x = .marker epoch

theorem Marked.content {xs : List Element} (marked : Marked xs) (epoch epoch' : Epoch) :
    content epoch xs = content epoch' xs := by
  cases xs with
  | nil => rfl
  | cons x more =>
      obtain ⟨e, rfl⟩ := marked x more rfl
      rfl

theorem Marked.lastEpoch {xs : List Element} (marked : Marked xs) (some : xs ≠ [])
    (epoch epoch' : Epoch) : lastEpoch epoch xs = lastEpoch epoch' xs := by
  cases xs with
  | nil => exact absurd rfl some
  | cons x more =>
      obtain ⟨e, rfl⟩ := marked x more rfl
      rfl

theorem Marked.append {xs : List Element} (marked : Marked xs) {ys : List Element}
    (start : xs = [] → Marked ys) : Marked (xs ++ ys) := by
  cases xs with
  | nil => exact start rfl
  | cons x xs =>
      intro y more same
      obtain ⟨rfl, -⟩ := List.cons.inj same
      exact marked x xs rfl

section
variable {g : LimboGroup} {x : Element} {ptr : Nat} {tag : Int} {epoch start : Epoch}

theorem elements_add (le : g.head ≤ g.tail) : elements (g.add x) = elements g ++ [x] := by
  have more : g.tail + 1 - g.head = g.tail - g.head + 1 := by omega
  unfold elements LimboGroup.add
  rw [more, List.range'_1_concat, List.map_append]
  congr 1
  · refine List.map_congr_left fun i member => Function.update_of_ne ?_ ..
    have := List.mem_range'_1.mp member
    dsimp only at this
    omega
  · rw [Nat.add_sub_of_le le]
    simp

theorem elements_eq_nil_iff (le : g.head ≤ g.tail) : elements g = [] ↔ g.empty = true := by
  unfold elements LimboGroup.empty
  rw [List.map_eq_nil_iff, List.range'_eq_nil_iff, decide_eq_true_iff]
  omega

theorem elements_cons (lt : g.head < g.tail) :
    elements g = g.e g.head :: elements { g with head := g.head + 1 } := by
  have more : g.tail - g.head = g.tail - (g.head + 1) + 1 := by omega
  unfold elements
  rw [more, List.range'_succ, List.map_cons]

theorem elements_setFirst (lt : g.head < g.tail) :
    elements { g with e := Function.update g.e g.head x } =
      x :: elements { g with head := g.head + 1 } := by
  rw [elements_cons (g := { g with e := Function.update g.e g.head x }) lt]
  simp only [Function.update_self]
  congr 1
  refine List.map_congr_left fun i member => Function.update_of_ne ?_ ..
  have := List.mem_range'_1.mp member
  dsimp only at this
  omega

theorem elements_cleared (head : g.head = 0) (tail : g.tail = 0) : elements g = [] := by
  unfold elements
  rw [head, tail]
  rfl

/-- The epoch of the last marker is the one that `push_back` compares with. -/
def Stamped (start : Epoch) (g : LimboGroup) : Prop :=
  elements g ≠ [] → lastEpoch start (elements g) = g.epoch

structure Pushed (start : Epoch) (g : LimboGroup) (ptr : Nat) (tag : Int) (epoch : Epoch)
    (g' : LimboGroup) : Prop where
  elements : ∃ more, elements g' = elements g ++ more ∧ (elements g = [] → Marked more)
  content : content start (Limbo.elements g') = content start (Limbo.elements g) ++ [⟨ptr, tag, epoch⟩]
  stamped : Stamped start g'

theorem pushBack_bounds (g : LimboGroup) (ptr : Nat) (tag : Int) (epoch : Epoch) :
    (g.pushBack ptr tag epoch).head = g.head ∧ g.tail ≤ (g.pushBack ptr tag epoch).tail ∧
      (g.pushBack ptr tag epoch).tail ≤ g.tail + 2 := by
  unfold LimboGroup.pushBack LimboGroup.add
  split
  · exact ⟨rfl, Nat.le_add_right g.tail 2, Nat.le_refl _⟩
  · exact ⟨rfl, Nat.le_succ _, Nat.le_succ _⟩

variable (ptr tag epoch) in
theorem pushed (le : g.head ≤ g.tail) (stamped : Stamped start g) :
    Pushed start g ptr tag epoch (g.pushBack ptr tag epoch) := by
  unfold LimboGroup.pushBack
  by_cases marker : g.empty = true ∨ g.epoch ≠ epoch
  · rw [if_pos marker]
    have added : elements (LimboGroup.add { g.add (.marker epoch) with epoch := epoch }
        (.object ptr tag)) = elements g ++ [.marker epoch, .object ptr tag] := by
      have first := elements_add (x := .marker epoch) le
      rw [elements_add (g := { g.add (.marker epoch) with epoch := epoch }) (Nat.le_succ_of_le le)]
      change elements (g.add (.marker epoch)) ++ _ = _
      rw [first, List.append_assoc]
      rfl
    refine ⟨⟨_, added, fun _ x more same => ⟨epoch, (List.cons.inj same).1.symm⟩⟩, ?_, fun _ => ?_⟩
    · rw [added, content_append]
      rfl
    · rw [added, lastEpoch_append]
      rfl
  · rw [if_neg marker]
    have added := elements_add (x := .object ptr tag) le
    simp only [not_or, ne_eq, not_not] at marker
    have some : elements g ≠ [] := fun none => marker.1 ((elements_eq_nil_iff le).mp none)
    have same : lastEpoch start (elements g) = epoch := (stamped some).trans marker.2
    refine ⟨⟨_, added, fun none => absurd none some⟩, ?_, fun _ => ?_⟩
    · rw [added, content_append, same]
      rfl
    · rw [added, lastEpoch_append, same]
      exact marker.2.symm

end

/-! The list. -/

/-- The epoch of `clean_until`. -/
def epochAt : Pc → Epoch
  | .idle => 0
  | .clean _ epoch | .freeing _ epoch => epoch

/-- What is still to be freed of the first group. -/
def remaining (pc : Pc) (xs : List Element) : List Element :=
  match pc with
  | .freeing .. => xs.tail
  | _ => xs

def current (s : State) : List Element := remaining s.pc (elements (s.group s.limboHead))

def contents (group : Nat → LimboGroup) (ids : List Nat) : List Recorded :=
  ids.flatMap fun i => content 0 (elements (group i))

/-- Where the groups are that the pass has emptied. -/
def emptied : Pc → Option Nat × Option Nat
  | .idle => (none, none)
  | .clean p _ | .freeing p _ => (p.emptyHead, p.emptyTail)

/-- The emptied groups lead to the first group. -/
def Emptied (s : State) (empties : List Nat) : Prop :=
  (empties = [] ∧ emptied s.pc = (none, none)) ∨ ∃ front last, empties = front ++ [last] ∧
    emptied s.pc = (empties.head?, some last) ∧ Links s.next empties.head? empties (some s.limboHead)

/-- What is known at each point about the first group. -/
def AtPc (xs : List Element) : Pc → Prop
  | .idle => Marked xs
  | .clean p epoch => 0 < p.count ∧ (Marked xs ∨ before p.bound epoch = false)
  | .freeing p epoch => 0 < p.count ∧ before p.bound epoch = false ∧
      ∃ ptr tag more, xs = .object ptr tag :: more

/-- The call of `free_rcu` for what `record_rcu` was called with. -/
def Matches (x : Recorded) (y : Freed) : Prop :=
  x.ptr = y.ptr ∧ x.tag = y.tag ∧ before y.bound x.epoch = false

/-- `rest` is behind the first group, up to the last one, and `spare` behind that. -/
structure Inv (s : State) (empties rest spare : List Nat) : Prop where
  links : Links s.next (s.next s.limboHead) (rest ++ spare) none
  last : (s.limboHead :: rest).getLast? = some s.limboTail
  emptied : Emptied s empties
  distinct : (empties ++ s.limboHead :: (rest ++ spare)).Nodup
  all : ∀ i, i ∈ empties ++ s.limboHead :: (rest ++ spare) ↔ i < s.allocated
  clear : ∀ i ∈ empties ++ spare, (s.group i).head = 0 ∧ (s.group i).tail = 0
  bounds : ∀ i, (s.group i).head ≤ (s.group i).tail ∧ (s.group i).tail ≤ LimboGroup.capacity
  marked : ∀ i ∈ rest, Marked (elements (s.group i))
  stamped : ∀ i ∈ rest, Stamped 0 (s.group i)
  first : Stamped (epochAt s.pc) (s.group s.limboHead)
  pc : AtPc (elements (s.group s.limboHead)) s.pc
  log : ∃ old, s.recorded = old ++ (content (epochAt s.pc) (current s) ++ contents s.group rest) ∧
    List.Forall₂ Matches old s.freed

theorem inv_init : Inv init [] [] [] where
  links := rfl
  last := rfl
  emptied := .inl ⟨rfl, rfl⟩
  distinct := List.nodup_singleton 0
  all i := by simp [init]
  clear := nofun
  bounds i := ⟨Nat.le_refl _, Nat.zero_le _⟩
  marked := nofun
  stamped := nofun
  first some := absurd rfl some
  pc x more same := by cases same
  log := ⟨[], rfl, .nil⟩

section
variable {s : State} {empties rest spare : List Nat}

theorem Inv.fresh (inv : Inv s empties rest spare) {i : Nat} (new : s.allocated ≤ i) :
    i ∉ empties ∧ i ≠ s.limboHead ∧ i ∉ rest ∧ i ∉ spare := by
  have out : ¬ i ∈ empties ++ s.limboHead :: (rest ++ spare) := fun member =>
    absurd ((inv.all i).mp member) (Nat.not_lt.mpr new)
  simpa [not_or] using out

/-- The last group is the first one, or the end of `rest`. -/
theorem Inv.tail_cases (inv : Inv s empties rest spare) :
    (rest = [] ∧ s.limboTail = s.limboHead) ∨ ∃ front, rest = front ++ [s.limboTail] := by
  have last := inv.last
  rcases List.eq_nil_or_concat rest with rfl | ⟨front, i, rfl⟩
  · exact .inl ⟨rfl, (Option.some.inj last).symm⟩
  · rw [List.concat_eq_append, ← List.cons_append, List.getLast?_concat] at last
    cases last
    exact .inr ⟨front, List.concat_eq_append⟩

theorem Inv.tail_mem (inv : Inv s empties rest spare) : s.limboTail ∈ s.limboHead :: rest :=
  List.mem_of_getLast? inv.last

/-- The spare groups are behind the last one. -/
theorem Inv.next_tail (inv : Inv s empties rest spare) :
    Links s.next (s.next s.limboTail) spare none := by
  have links := inv.links
  rcases inv.tail_cases with ⟨rfl, same⟩ | ⟨front, same⟩
  · rw [same]
    exact links
  · rw [same, Links.append_iff] at links
    obtain ⟨b, first, second⟩ := links
    rw [(Links.concat_iff.mp first).2]
    exact second

/-- The groups are pairwise different. -/
theorem Inv.tail_unused (inv : Inv s empties rest spare) {i : Nat} (member : i ∈ empties ++ spare) :
    i ∉ s.limboHead :: rest := by
  intro used
  have distinct := inv.distinct
  rw [← List.cons_append, ← List.append_assoc, List.nodup_append] at distinct
  rcases List.mem_append.mp member with inner | inner
  · exact (List.nodup_append.mp distinct.1).2.2 _ inner _ used rfl
  · exact distinct.2.2 _ (List.mem_append_right _ used) _ inner rfl

theorem Inv.tail_once (inv : Inv s empties rest spare) {front : List Nat}
    (same : rest = front ++ [s.limboTail]) : s.limboTail ∉ front ∧ s.limboHead ≠ s.limboTail := by
  have distinct := (List.nodup_append.mp inv.distinct).2.1
  rw [same, List.append_assoc, List.nodup_cons, List.nodup_append] at distinct
  exact ⟨fun member => distinct.2.2.2 _ member _ (by simp) rfl, fun head => distinct.1 (by simp [head])⟩

/-- Other links behind the last group. -/
theorem Inv.links_behind (inv : Inv s empties rest spare) (next : Nat → Option Nat) {ids : List Nat}
    (agree : ∀ i ∈ s.limboHead :: rest, i ≠ s.limboTail → next i = s.next i)
    (behind : Links next (next s.limboTail) ids none) :
    Links next (next s.limboHead) (rest ++ ids) none := by
  rcases inv.tail_cases with ⟨rfl, same⟩ | ⟨front, same⟩
  · rw [← same]
    exact behind
  · obtain ⟨out, apart⟩ := inv.tail_once same
    obtain ⟨b, path, -⟩ := Links.append_iff.mp inv.links
    rw [agree s.limboHead (by simp) apart]
    rw [same] at path
    have front := (Links.concat_iff.mp path).1.congr fun i member =>
      agree i (by simp [same, member]) (ne_of_mem_of_not_mem member out)
    rw [same]
    exact (Links.concat_iff.mpr ⟨front, rfl⟩).append behind

theorem contents_update {group : Nat → LimboGroup} {i : Nat} {g : LimboGroup} {ids : List Nat}
    (other : i ∉ ids) : contents (Function.update group i g) ids = contents group ids := by
  unfold contents
  refine List.flatMap_congr fun j member => ?_
  rw [Function.update_of_ne (ne_of_mem_of_not_mem member other)]

theorem contents_append (group : Nat → LimboGroup) (ids ids' : List Nat) :
    contents group (ids ++ ids') = contents group ids ++ contents group ids' := List.flatMap_append

theorem Inv.advance (inv : Inv s empties rest spare) {i : Nat} (next : s.next s.limboTail = some i) :
    ∃ spare', spare = i :: spare' ∧ Inv { s with limboTail := i } empties (rest ++ [i]) spare' := by
  have behind := inv.next_tail
  rw [next] at behind
  cases spare with
  | nil => cases behind
  | cons j spare' =>
      obtain ⟨same, -⟩ := behind
      cases same
      have clear := inv.clear i (by simp)
      have none := elements_cleared clear.1 clear.2
      refine ⟨spare', rfl, ?_⟩
      constructor
      · rw [List.append_assoc]
        exact inv.links
      · rw [← List.cons_append, List.getLast?_concat]
      · exact inv.emptied
      · rw [List.append_assoc]
        exact inv.distinct
      · rw [List.append_assoc]
        exact inv.all
      · exact fun j member => inv.clear j (by
          rcases List.mem_append.mp member with inner | inner <;> simp [inner])
      · exact inv.bounds
      · intro j member
        rcases List.mem_append.mp member with inner | inner
        · exact inv.marked j inner
        · rw [List.mem_singleton.mp inner]
          intro x more same
          rw [none] at same
          cases same
      · intro j member
        rcases List.mem_append.mp member with inner | inner
        · exact inv.stamped j inner
        · rw [List.mem_singleton.mp inner]
          exact fun some => absurd none some
      · exact inv.first
      · exact inv.pc
      · obtain ⟨old, log, freed⟩ := inv.log
        refine ⟨old, ?_, freed⟩
        have behind : contents s.group (rest ++ [i]) = contents s.group rest := by
          rw [contents_append, contents, contents, List.flatMap_singleton, none, content,
            List.append_nil]
        rw [behind]
        exact log

/-- A new group behind the last one. -/
def allocated (s : State) : State :=
  { ((s.setGroup s.allocated .make).setNext s.allocated none).setNext s.limboTail
      (some s.allocated) with
    allocated := s.allocated + 1 }

theorem Inv.allocate (inv : Inv s empties rest spare) (next : s.next s.limboTail = none) :
    Inv (allocated s) empties rest [s.allocated] := by
  obtain ⟨newEmpties, newHead, newRest, -⟩ := inv.fresh (Nat.le_refl s.allocated)
  have behind := inv.next_tail
  rw [next] at behind
  obtain rfl : spare = [] := by
    cases spare with
    | nil => rfl
    | cons => cases behind.1
  have distinct := inv.distinct
  rw [List.append_nil] at distinct
  have old {i : Nat} (member : i ≠ s.allocated) : (allocated s).group i = s.group i :=
    Function.update_of_ne member ..
  have newTail : s.limboTail ≠ s.allocated := by
    rintro same
    have member := inv.tail_mem
    rw [same] at member
    rcases List.mem_cons.mp member with same | inner
    · exact newHead same
    · exact newRest inner
  have tailEmpties : s.limboTail ∉ empties := fun member =>
    (List.disjoint_of_nodup_append distinct) member inv.tail_mem
  have nextNew : (allocated s).next s.allocated = none := by
    change Function.update (Function.update s.next s.allocated none) s.limboTail (some s.allocated) _ = _
    rw [Function.update_of_ne newTail.symm, Function.update_self]
  have groupNew : (allocated s).group s.allocated = .make := Function.update_self ..
  have headGroup : (allocated s).group s.limboHead = s.group s.limboHead := old newHead.symm
  constructor
  · refine inv.links_behind (allocated s).next (fun i member other => ?_) ?_
    · change Function.update (Function.update s.next s.allocated none) s.limboTail _ _ = _
      rw [Function.update_of_ne other, Function.update_of_ne]
      rintro rfl
      rcases List.mem_cons.mp member with same | inner
      · exact newHead same
      · exact newRest inner
    · exact ⟨Function.update_self .., nextNew⟩
  · exact inv.last
  · rcases inv.emptied with none | ⟨front, last, same, pc, path⟩
    · exact .inl none
    · exact .inr ⟨front, last, same, pc, (path.update newEmpties).update tailEmpties⟩
  · rw [← List.cons_append, ← List.append_assoc, List.nodup_append]
    refine ⟨distinct, List.nodup_singleton _, fun i member j new same => ?_⟩
    rw [List.mem_singleton.mp new] at same
    have small := (inv.all i).mp (by rw [List.append_nil]; exact member)
    omega
  · intro i
    have before := inv.all i
    rw [List.append_nil] at before
    have split : i ∈ empties ++ s.limboHead :: (rest ++ [s.allocated]) ↔
        i ∈ empties ++ s.limboHead :: rest ∨ i = s.allocated := by simp [or_assoc]
    change i ∈ empties ++ s.limboHead :: (rest ++ [s.allocated]) ↔ i < s.allocated + 1
    rw [split, before]
    omega
  · intro i member
    rcases List.mem_append.mp member with inner | inner
    · rw [old (ne_of_mem_of_not_mem inner newEmpties)]
      exact inv.clear i (by simp [inner])
    · rw [List.mem_singleton.mp inner]
      rw [groupNew]
      exact ⟨rfl, rfl⟩
  · intro i
    by_cases same : i = s.allocated
    · subst same
      rw [groupNew]
      exact ⟨Nat.le_refl _, Nat.zero_le _⟩
    · rw [old same]
      exact inv.bounds i
  · intro i member
    rw [old (ne_of_mem_of_not_mem member newRest)]
    exact inv.marked i member
  · intro i member
    rw [old (ne_of_mem_of_not_mem member newRest)]
    exact inv.stamped i member
  · change Stamped _ ((allocated s).group s.limboHead)
    rw [headGroup]
    exact inv.first
  · change AtPc (elements ((allocated s).group s.limboHead)) _
    rw [headGroup]
    exact inv.pc
  · obtain ⟨done, log, freed⟩ := inv.log
    refine ⟨done, ?_, freed⟩
    have rests : contents (allocated s).group rest = contents s.group rest := contents_update newRest
    have now : current (allocated s) = current s := by
      change remaining s.pc (elements ((allocated s).group s.limboHead)) = _
      rw [headGroup]
      rfl
    rw [rests, now]
    exact log

/-- The last group is another one that is empty. -/
theorem Inv.refill (inv : Inv s empties rest spare) : ∃ s' i spare', s.refillRcu = some s' ∧
    Inv s' empties (rest ++ [i]) spare' ∧ (s'.group s'.limboTail).tail = 0 ∧ s'.pc = s.pc := by
  have moves {s : State} {spare : List Nat} {i : Nat} (inv : Inv s empties rest spare)
      (next : s.next s.limboTail = some i) : ∃ spare',
      ((s.next s.limboTail).bind fun i =>
        if (s.group i).head = 0 ∧ (s.group i).tail = 0 then some { s with limboTail := i } else none) =
        some { s with limboTail := i } ∧
      Inv { s with limboTail := i } empties (rest ++ [i]) spare' ∧ (s.group i).tail = 0 := by
    obtain ⟨spare', rfl, inv'⟩ := inv.advance next
    have clear := inv.clear i (by simp)
    refine ⟨spare', ?_, inv', clear.2⟩
    rw [next, Option.bind_some, if_pos clear]
  unfold State.refillRcu
  cases next : s.next s.limboTail with
  | some i =>
      obtain ⟨spare', taken, inv', tail⟩ := moves inv next
      simp only
      exact ⟨_, i, spare', taken, inv', tail, rfl⟩
  | none =>
      have inv' := inv.allocate next
      have next' : (allocated s).next s.limboTail = some s.allocated := Function.update_self ..
      obtain ⟨spare', taken, inv'', tail⟩ := moves inv' next'
      exact ⟨_, s.allocated, spare', taken, inv'', tail, rfl⟩

/-- The thread is between the passes or in `free_rcu`. -/
def Running (s : State) : Prop := ∀ p epoch, s.pc ≠ .clean p epoch

theorem AtPc.append {xs more : List Element} {pc : Pc} (h : AtPc xs pc) (start : xs = [] → Marked more) :
    AtPc (xs ++ more) pc := by
  cases pc with
  | idle => exact Marked.append h start
  | clean p epoch => exact ⟨h.1, h.2.imp (fun marked => marked.append start) id⟩
  | freeing p epoch =>
      obtain ⟨counting, within, ptr, tag, rest, rfl⟩ := h
      exact ⟨counting, within, ptr, tag, rest ++ more, rfl⟩

/-- A call of `record_rcu` with room in the last group. -/
def pushedTo (s : State) (ptr : Nat) (tag : Int) (epoch : Epoch) : State :=
  { s.setGroup s.limboTail ((s.group s.limboTail).pushBack ptr tag epoch) with
    recorded := s.recorded ++ [⟨ptr, tag, epoch⟩] }

theorem Inv.push (inv : Inv s empties rest spare) (running : Running s)
    (room : (s.group s.limboTail).tail + 2 ≤ LimboGroup.capacity) (ptr : Nat) (tag : Int)
    (epoch : Epoch) : Inv (pushedTo s ptr tag epoch) empties rest spare := by
  obtain ⟨old, log, freed⟩ := inv.log
  have groupOf (i : Nat) : (pushedTo s ptr tag epoch).group i =
      Function.update s.group s.limboTail ((s.group s.limboTail).pushBack ptr tag epoch) i := rfl
  have unused {i : Nat} (member : i ∈ empties ++ spare) : i ≠ s.limboTail := by
    rintro rfl
    exact inv.tail_unused member inv.tail_mem
  have bounds (i : Nat) : ((pushedTo s ptr tag epoch).group i).head ≤
        ((pushedTo s ptr tag epoch).group i).tail ∧
      ((pushedTo s ptr tag epoch).group i).tail ≤ LimboGroup.capacity := by
    by_cases same : i = s.limboTail
    · subst same
      have push := pushBack_bounds (s.group s.limboTail) ptr tag epoch
      have bounds := inv.bounds s.limboTail
      rw [groupOf, Function.update_self]
      omega
    · rw [groupOf, Function.update_of_ne same]
      exact inv.bounds i
  have clear : ∀ i ∈ empties ++ spare, ((pushedTo s ptr tag epoch).group i).head = 0 ∧
      ((pushedTo s ptr tag epoch).group i).tail = 0 := fun i member => by
    rw [groupOf, Function.update_of_ne (unused member)]
    exact inv.clear i member
  rcases inv.tail_cases with ⟨rfl, same⟩ | ⟨front, same⟩
  · have push := pushed ptr tag epoch (inv.bounds s.limboHead).1 inv.first
    have headGroup : (pushedTo s ptr tag epoch).group s.limboHead =
        (s.group s.limboHead).pushBack ptr tag epoch := by
      rw [groupOf, same, Function.update_self]
    obtain ⟨more, added, start⟩ := push.elements
    have now : content (epochAt s.pc) (current (pushedTo s ptr tag epoch)) =
        content (epochAt s.pc) (current s) ++ [⟨ptr, tag, epoch⟩] := by
      have whole := push.content
      have atPc := inv.pc
      change content _ (remaining s.pc (elements ((pushedTo s ptr tag epoch).group s.limboHead))) =
        content _ (remaining s.pc _) ++ _
      rw [headGroup]
      cases pc : s.pc with
      | idle =>
          rw [pc] at whole
          exact whole
      | clean p e => exact absurd pc (running p e)
      | freeing p e =>
          rw [pc] at whole atPc
          obtain ⟨-, -, ptr', tag', rest, first⟩ := atPc
          rw [added, first] at whole
          rw [added, first]
          exact (List.cons.inj whole).2
    refine ⟨inv.links, inv.last, inv.emptied, inv.distinct, inv.all, clear, bounds, nofun, nofun, ?_, ?_,
      old, ?_, freed⟩
    · change Stamped _ ((pushedTo s ptr tag epoch).group s.limboHead)
      rw [headGroup]
      exact push.stamped
    · change AtPc (elements ((pushedTo s ptr tag epoch).group s.limboHead)) s.pc
      rw [headGroup, added]
      exact inv.pc.append start
    · change s.recorded ++ _ = old ++ (content (epochAt s.pc) _ ++ [])
      rw [now, log, List.append_nil]
      simp [contents]
  · have member : s.limboTail ∈ rest := by simp [same]
    obtain ⟨front_ne, head_ne⟩ := inv.tail_once same
    have push := pushed ptr tag epoch (inv.bounds s.limboTail).1
      (inv.stamped _ member)
    have tailGroup : (pushedTo s ptr tag epoch).group s.limboTail =
        (s.group s.limboTail).pushBack ptr tag epoch := by
      rw [groupOf, Function.update_self]
    have headGroup : (pushedTo s ptr tag epoch).group s.limboHead = s.group s.limboHead := by
      rw [groupOf, Function.update_of_ne head_ne]
    obtain ⟨more, added, start⟩ := push.elements
    refine ⟨inv.links, inv.last, inv.emptied, inv.distinct, inv.all, clear, bounds, fun i inner => ?_,
      fun i inner => ?_, ?_, ?_, old, ?_, freed⟩
    · by_cases last : i = s.limboTail
      · rw [last, tailGroup, added]
        exact (inv.marked _ member).append start
      · rw [groupOf, Function.update_of_ne last]
        exact inv.marked i inner
    · by_cases last : i = s.limboTail
      · rw [last, tailGroup]
        exact push.stamped
      · rw [groupOf, Function.update_of_ne last]
        exact inv.stamped i inner
    · change Stamped _ ((pushedTo s ptr tag epoch).group s.limboHead)
      rw [headGroup]
      exact inv.first
    · change AtPc (elements ((pushedTo s ptr tag epoch).group s.limboHead)) s.pc
      rw [headGroup]
      exact inv.pc
    · have now : current (pushedTo s ptr tag epoch) = current s := by
        change remaining s.pc (elements ((pushedTo s ptr tag epoch).group s.limboHead)) = _
        rw [headGroup]
        rfl
      have rests : contents (pushedTo s ptr tag epoch).group rest =
          contents s.group rest ++ [⟨ptr, tag, epoch⟩] := by
        rw [same, contents_append, contents_append, show (pushedTo s ptr tag epoch).group =
          Function.update s.group s.limboTail ((s.group s.limboTail).pushBack ptr tag epoch) from rfl,
          contents_update front_ne, List.append_assoc]
        congr 1
        simp only [contents, List.flatMap_singleton, Function.update_self]
        exact push.content
      change s.recorded ++ _ = old ++ (content (epochAt s.pc) _ ++ _)
      rw [now, rests, log]
      simp

theorem Inv.recordRcu (inv : Inv s empties rest spare) (running : Running s) (ptr : Nat) (tag : Int)
    (epoch : Epoch) : ∃ s' rest' spare', s.recordRcu ptr tag epoch = some s' ∧
      Inv s' empties rest' spare' := by
  unfold State.recordRcu
  by_cases full : LimboGroup.capacity < (s.group s.limboTail).tail + 2
  · obtain ⟨s', i, spare', refilled, inv', empty, pc⟩ := inv.refill
    have running' : Running s' := fun p e => by
      rw [pc]
      exact running p e
    have room : (s'.group s'.limboTail).tail + 2 ≤ LimboGroup.capacity := by
      rw [empty]
      decide
    simp only [if_pos full, refilled, Option.bind_some, if_pos room]
    exact ⟨_, _, _, rfl, inv'.push running' room ptr tag epoch⟩
  · have room := Nat.le_of_not_lt full
    simp only [if_neg full, Option.bind_some, if_pos room]
    exact ⟨_, rest, spare, rfl, inv.push running room ptr tag epoch⟩

/-! Passes. -/

/-- Below the sign bit, the comparison of epochs is the one of numbers. -/
theorem before_eq_false_iff {bound epoch : Epoch} (small : bound.toNat < 2 ^ 63)
    (small' : epoch.toNat < 2 ^ 63) : before bound epoch = false ↔ epoch.toNat ≤ bound.toNat := by
  unfold before
  rw [decide_eq_false_iff_not, BitVec.toInt_eq_toNat_cond, BitVec.toNat_sub]
  split <;> omega

/-- A step that changes the first group. -/
def withFirst (s : State) (g : LimboGroup) (pc : Pc) (freed : List Freed) : State :=
  { s.setGroup s.limboHead g with pc := pc, freed := freed }

theorem Inv.setFirst (inv : Inv s empties rest spare) (g : LimboGroup) (pc : Pc) (freed : List Freed)
    (bounds : g.head ≤ g.tail ∧ g.tail ≤ LimboGroup.capacity) (stamped : Stamped (epochAt pc) g)
    (atPc : AtPc (elements g) pc) (same : Limbo.emptied pc = Limbo.emptied s.pc)
    (log : ∃ old, s.recorded = old ++ (content (epochAt pc) (remaining pc (elements g)) ++
      contents s.group rest) ∧ List.Forall₂ Matches old freed) :
    Inv (withFirst s g pc freed) empties rest spare := by
  have groupHead : (withFirst s g pc freed).group s.limboHead = g := Function.update_self ..
  have other {i : Nat} (out : i ≠ s.limboHead) : (withFirst s g pc freed).group i = s.group i :=
    Function.update_of_ne out ..
  have head_rest : s.limboHead ∉ rest := fun member =>
    (List.nodup_cons.mp (List.nodup_append.mp inv.distinct).2.1).1 (by simp [member])
  constructor
  · exact inv.links
  · exact inv.last
  · rcases inv.emptied with ⟨none, pc⟩ | ⟨front, last, split, pc, path⟩
    · exact .inl ⟨none, same.trans pc⟩
    · exact .inr ⟨front, last, split, same.trans pc, path⟩
  · exact inv.distinct
  · exact inv.all
  · intro i member
    have out : i ≠ s.limboHead := fun head => inv.tail_unused member (by simp [head])
    rw [other out]
    exact inv.clear i member
  · intro i
    by_cases head : i = s.limboHead
    · rw [head, groupHead]
      exact bounds
    · rw [other head]
      exact inv.bounds i
  · intro i member
    rw [other (ne_of_mem_of_not_mem member head_rest)]
    exact inv.marked i member
  · intro i member
    rw [other (ne_of_mem_of_not_mem member head_rest)]
    exact inv.stamped i member
  · change Stamped (epochAt pc) ((withFirst s g pc freed).group s.limboHead)
    rw [groupHead]
    exact stamped
  · change AtPc (elements ((withFirst s g pc freed).group s.limboHead)) pc
    rw [groupHead]
    exact atPc
  · obtain ⟨old, log, freed⟩ := log
    refine ⟨old, ?_, freed⟩
    have rests : contents (Function.update s.group s.limboHead g) rest = contents s.group rest :=
      contents_update head_rest
    change s.recorded = old ++ (content _ (remaining pc
      (elements (Function.update s.group s.limboHead g s.limboHead))) ++
      contents (Function.update s.group s.limboHead g) rest)
    rw [rests, Function.update_self]
    exact log

/-- A pass ends in front of a marker; the empty groups go behind the last one. -/
theorem Inv.stop (inv : Inv s empties rest spare) {p q : Pass} {epoch : Epoch}
    (pc : s.pc = .clean q epoch) (first : p.emptyHead = q.emptyHead) (last : p.emptyTail = q.emptyTail)
    (marked : Marked (elements (s.group s.limboHead))) : ∃ s', s.stop p = some s' ∧
      Inv s' [] rest (empties ++ spare) := by
  have idle (next : Nat → Option Nat)
      (agree : ∀ i ∈ s.limboHead :: rest, i ≠ s.limboTail → next i = s.next i)
      (behind : Links next (next s.limboTail) (empties ++ spare) none) :
      Inv ({ s with next := next }.done p.bound p.count) [] rest (empties ++ spare) := by
    have moved : (s.limboHead :: (rest ++ (empties ++ spare))).Perm
        (empties ++ s.limboHead :: (rest ++ spare)) := by
      rw [← List.cons_append, ← List.append_assoc, ← List.cons_append, ← List.append_assoc]
      exact List.perm_append_comm.append_right spare
    constructor
    · exact inv.links_behind next agree behind
    · exact inv.last
    · exact .inl ⟨rfl, rfl⟩
    · exact moved.nodup_iff.mpr inv.distinct
    · exact fun i => moved.mem_iff.trans (inv.all i)
    · exact inv.clear
    · exact inv.bounds
    · exact inv.marked
    · exact inv.stamped
    · intro some
      change lastEpoch 0 (elements (s.group s.limboHead)) = _
      rw [marked.lastEpoch some 0 (epochAt s.pc)]
      exact inv.first some
    · exact marked
    · obtain ⟨old, log, freed⟩ := inv.log
      refine ⟨old, ?_, freed⟩
      have now : current s = elements (s.group s.limboHead) := by
        unfold current remaining
        rw [pc]
      rw [now, marked.content (epochAt s.pc) 0] at log
      exact log
  have aside := inv.next_tail
  have emptied := inv.emptied
  rw [Emptied, pc] at emptied
  unfold State.stop State.hook
  rcases emptied with ⟨none, passed⟩ | ⟨front, last', split, passed, path⟩
  · subst none
    rw [first, show q.emptyHead = Option.none from congrArg Prod.fst passed]
    exact ⟨_, rfl, idle s.next (fun _ _ _ => rfl) aside⟩
  · obtain ⟨start, more, split'⟩ : ∃ start more, empties = start :: more := by
      cases empties with
      | nil => simp at split
      | cons start more => exact ⟨start, more, rfl⟩
    have headOf : p.emptyHead = some start := by
      rw [first, show q.emptyHead = _ from congrArg Prod.fst passed, split']
      rfl
    have lastOf : p.emptyTail = some last' := by rw [last, show q.emptyTail = _ from congrArg Prod.snd passed]
    rw [headOf, lastOf]
    have lastIn : last' ∈ empties := by simp [split]
    have out : last' ∉ s.limboHead :: rest := inv.tail_unused (List.mem_append_left _ lastIn)
    have tailOut : s.limboTail ∉ empties ++ spare := fun member => inv.tail_unused member inv.tail_mem
    have distinct := inv.distinct
    rw [List.nodup_append] at distinct
    have lastSpare : last' ∉ spare := fun member => distinct.2.2 _ lastIn _ (by simp [member]) rfl
    have lastFront : last' ∉ front := by
      have once := distinct.1
      rw [split, List.nodup_append] at once
      exact fun member => once.2.2 _ member _ (by simp) rfl
    refine ⟨_, rfl, idle (Function.update (Function.update s.next last' (s.next s.limboTail))
      s.limboTail (some start)) (fun i member other => ?_) ?_⟩
    · rw [Function.update_of_ne other, Function.update_of_ne (ne_of_mem_of_not_mem member out)]
    · rw [Function.update_self]
      have first : Links s.next (some start) (front ++ [last']) (some s.limboHead) := by
        rw [split', List.head?_cons] at path
        rw [← split, split']
        exact path
      have relinked := (first.relink (c := s.next s.limboTail) lastFront).update (y := s.limboTail)
        (c := some start) (by rw [← split]; exact fun member => tailOut (by simp [member]))
      have behind := (aside.update (y := last') (c := s.next s.limboTail) lastSpare).update
        (y := s.limboTail) (c := some start) (fun member => tailOut (by simp [member]))
      rw [split]
      exact relinked.append behind

/-- The pass leaves the first group behind, which is empty. -/
theorem Inv.nextGroup (inv : Inv s empties rest spare) {p : Pass} {epoch : Epoch}
    (pc : s.pc = .clean p epoch)
    (cleared : (s.group s.limboHead).head = 0 ∧ (s.group s.limboHead).tail = 0) :
    ∃ s' empties' rest' spare', s.nextGroup p = some s' ∧ Inv s' empties' rest' spare' := by
  have none := elements_cleared cleared.1 cleared.2
  have emptied := inv.emptied
  rw [Emptied, pc] at emptied
  obtain ⟨old, log, freed⟩ := inv.log
  have log : s.recorded = old ++ contents s.group rest := by
    have now : current s = [] := by
      unfold current remaining
      rw [pc, none]
    rw [now] at log
    exact log
  have counting : 0 < p.count := by
    have atPc := inv.pc
    rw [pc] at atPc
    exact atPc.1
  unfold State.nextGroup
  cases rest with
  | nil =>
      have single : s.limboHead = s.limboTail := Option.some.inj inv.last
      have clear : ∀ i ∈ empties ++ s.limboHead :: spare, (s.group i).head = 0 ∧ (s.group i).tail = 0 := by
        intro i member
        rcases List.mem_append.mp member with inner | inner
        · exact inv.clear i (by simp [inner])
        · rcases List.mem_cons.mp inner with rfl | inner
          · exact cleared
          · exact inv.clear i (by simp [inner])
      have ends {first : Nat} {more : List Nat} (split : empties ++ s.limboHead :: spare = first :: more)
          (path : Links s.next (s.next first) more Option.none) :
          Inv ({ s with limboHead := first, limboTail := first }.done p.bound p.count) [] [] more := by
        have here := clear first (by simp [split])
        have distinct := inv.distinct
        have all := inv.all
        rw [List.nil_append, split] at distinct all
        have none := elements_cleared here.1 here.2
        refine ⟨path, rfl, .inl ⟨rfl, rfl⟩, distinct, all, fun i member => clear i (by simp_all), inv.bounds,
          nofun, nofun, fun some => absurd none some, fun x more same => ?_, old, ?_, freed⟩
        · cases none.symm.trans same
        · change s.recorded = old ++ (content 0 (elements (s.group first)) ++ [])
          rw [none, log]
          rfl
      rw [if_pos single]
      rcases emptied with ⟨rfl, passed⟩ | ⟨front, last, split, passed, path⟩
      · rw [show p.emptyHead = Option.none from congrArg Prod.fst passed]
        exact ⟨_, _, _, _, rfl, ends rfl inv.links⟩
      · obtain ⟨start, more, rfl⟩ : ∃ start more, empties = start :: more := by
          cases empties with
          | nil => simp at split
          | cons start more => exact ⟨start, more, rfl⟩
        rw [show p.emptyHead = some start from congrArg Prod.fst passed]
        exact ⟨_, _, _, _, rfl, ends rfl (path.2.append ⟨rfl, inv.links⟩)⟩
  | cons j rest =>
      obtain ⟨start, links⟩ := inv.links
      have apart : s.limboHead ≠ s.limboTail := by
        rintro same
        have last := inv.last
        rw [List.getLast?_cons_cons] at last
        have member := List.mem_of_getLast? last
        rw [← same] at member
        exact (List.nodup_cons.mp (List.nodup_append.mp inv.distinct).2.1).1
          (List.mem_append_left spare member)
      simp only [if_neg apart, start, Option.map_some]
      refine ⟨_, empties ++ [s.limboHead], rest, spare, rfl, ?_⟩
      constructor
      · exact links
      · have last := inv.last
        rw [List.getLast?_cons_cons] at last
        exact last
      · refine .inr ⟨empties, s.limboHead, rfl, ?_, ?_⟩
        · rcases emptied with ⟨rfl, passed⟩ | ⟨front, last, split, passed, -⟩
          · simp [Limbo.emptied, show p.emptyHead = Option.none from congrArg Prod.fst passed]
          · have first : p.emptyHead = empties.head? := congrArg Prod.fst passed
            rw [split] at first ⊢
            cases front <;> simp_all [Limbo.emptied]
        · rcases emptied with ⟨rfl, -⟩ | ⟨front, last, split, -, path⟩
          · exact ⟨rfl, start⟩
          · have first : (empties ++ [s.limboHead]).head? = empties.head? := by
              rw [split]
              cases front <;> rfl
            rw [first]
            exact path.append ⟨rfl, start⟩
      · rw [List.append_assoc]
        exact inv.distinct
      · rw [List.append_assoc]
        exact inv.all
      · intro i member
        rcases List.mem_append.mp member with inner | inner
        · rcases List.mem_append.mp inner with inner | inner
          · exact inv.clear i (by simp [inner])
          · rw [List.mem_singleton.mp inner]
            exact cleared
        · exact inv.clear i (by simp [inner])
      · exact inv.bounds
      · exact fun i member => inv.marked i (by simp [member])
      · exact fun i member => inv.stamped i (by simp [member])
      · exact inv.stamped j (by simp)
      · exact ⟨counting, .inl (inv.marked j (by simp))⟩
      · exact ⟨old, log, freed⟩

theorem marked_nil : Marked [] := nofun

theorem marked_marker (epoch : Epoch) (xs : List Element) : Marked (.marker epoch :: xs) :=
  fun _ _ same => ⟨epoch, (List.cons.inj same).1.symm⟩

theorem Inv.clean (inv : Inv s empties rest spare) {p : Pass} {epoch : Epoch}
    (pc : s.pc = .clean p epoch) :
    ∃ s' empties' rest' spare', s.clean p epoch = some s' ∧ Inv s' empties' rest' spare' := by
  obtain ⟨le, small⟩ := inv.bounds s.limboHead
  obtain ⟨counting, known⟩ : AtPc (elements (s.group s.limboHead)) (.clean p epoch) := pc ▸ inv.pc
  have stamped : Stamped epoch (s.group s.limboHead) := by
    have first := inv.first
    rw [pc] at first
    exact first
  obtain ⟨old, log, freed⟩ := inv.log
  have log : s.recorded = old ++ (content epoch (elements (s.group s.limboHead)) ++
      contents s.group rest) := by
    unfold current at log
    rw [pc] at log
    exact log
  unfold State.clean
  by_cases empty : (s.group s.limboHead).empty = true
  · have none := (elements_eq_nil_iff le).mpr empty
    have cleared := elements_cleared (g := { s.group s.limboHead with head := 0, tail := 0 }) rfl rfl
    rw [if_pos empty]
    have inv' := inv.setFirst { s.group s.limboHead with head := 0, tail := 0 } s.pc s.freed
      ⟨Nat.le_refl _, Nat.zero_le _⟩ (fun some => absurd cleared some)
      (by rw [cleared, pc]; exact ⟨counting, .inl marked_nil⟩) rfl
      ⟨old, by rw [cleared, pc, log, none]; rfl, freed⟩
    exact inv'.nextGroup pc
      (by change (Function.update s.group s.limboHead _ s.limboHead).head = 0 ∧
            (Function.update s.group s.limboHead _ s.limboHead).tail = 0
          rw [Function.update_self]
          exact ⟨rfl, rfl⟩)
  · have some : elements (s.group s.limboHead) ≠ [] := fun none =>
      empty ((elements_eq_nil_iff le).mp none)
    have lt : (s.group s.limboHead).head < (s.group s.limboHead).tail := by
      unfold LimboGroup.empty at empty
      rw [decide_eq_true_iff] at empty
      omega
    have cons := elements_cons lt
    rw [if_neg empty]
    cases first : (s.group s.limboHead).e (s.group s.limboHead).head with
    | object ptr tag =>
        rw [first] at cons
        have within : before p.bound epoch = false := known.resolve_left fun marked => by
          obtain ⟨e, same⟩ := marked _ _ cons
          cases same
        have last : List.Forall₂ Matches [⟨ptr, tag, epoch⟩] [⟨ptr, tag, p.bound⟩] :=
          .cons ⟨rfl, rfl, within⟩ .nil
        have freed' : List.Forall₂ Matches (old ++ [⟨ptr, tag, epoch⟩])
          (s.freed ++ [⟨ptr, tag, p.bound⟩]) := List.rel_append freed last
        have log' : s.recorded = old ++ [⟨ptr, tag, epoch⟩] ++
            (content epoch (remaining (.freeing p epoch) (elements (s.group s.limboHead))) ++
              contents s.group rest) := by
          rw [log, cons, List.append_assoc]
          rfl
        have inv' := inv.setFirst (s.group s.limboHead) (.freeing p epoch)
          (s.freed ++ [⟨ptr, tag, p.bound⟩]) ⟨le, small⟩ stamped ⟨counting, within, ptr, tag, _, cons⟩
          (by rw [pc]; rfl) ⟨_, log', freed'⟩
        refine ⟨_, empties, rest, spare, rfl, ?_⟩
        unfold withFirst State.setGroup at inv'
        rw [Function.update_eq_self] at inv'
        exact inv'
    | marker e =>
        rw [first] at cons
        by_cases beyond : before p.bound e = true
        · obtain ⟨s', stopped, inv'⟩ := inv.stop (p := p) pc rfl rfl (cons ▸ marked_marker e _)
          exact ⟨s', [], rest, empties ++ spare, by simp only [beyond, if_true]; exact stopped, inv'⟩
        · have within := Bool.eq_false_of_not_eq_true beyond
          have inv' := inv.setFirst { s.group s.limboHead with head := (s.group s.limboHead).head + 1 }
            (.clean p e) s.freed ⟨lt, small⟩
            (fun some => by
              have whole := stamped (by simp [cons])
              rw [cons] at whole
              exact whole)
            ⟨counting, .inr within⟩ (by rw [pc]; rfl)
            ⟨old, by
              rw [log, cons]
              rfl, freed⟩
          refine ⟨_, empties, rest, spare, ?_, inv'⟩
          simp only [within]
          rfl

theorem stop_irrelevant (s : State) (pc : Pc) (p : Pass) : { s with pc := pc }.stop p = s.stop p := by
  unfold State.stop State.hook
  cases p.emptyHead with
  | none => rfl
  | some first => cases p.emptyTail <;> rfl

theorem Inv.freedRcu (inv : Inv s empties rest spare) {p : Pass} {epoch : Epoch}
    (pc : s.pc = .freeing p epoch) :
    ∃ s' empties' rest' spare', s.freedRcu p epoch = some s' ∧ Inv s' empties' rest' spare' := by
  obtain ⟨le, small⟩ := inv.bounds s.limboHead
  obtain ⟨counting, within, ptr, tag, more, whole⟩ :
    AtPc (elements (s.group s.limboHead)) (.freeing p epoch) := pc ▸ inv.pc
  have stamped : Stamped epoch (s.group s.limboHead) := by
    have first := inv.first
    rw [pc] at first
    exact first
  have lt : (s.group s.limboHead).head < (s.group s.limboHead).tail := by
    rcases Nat.lt_or_ge (s.group s.limboHead).head (s.group s.limboHead).tail with lt | ge
    · exact lt
    · have none := (elements_eq_nil_iff le).mpr (decide_eq_true (Nat.le_antisymm le ge))
      rw [whole] at none
      cases none
  have cons := elements_cons lt
  have behind : elements { s.group s.limboHead with head := (s.group s.limboHead).head + 1 } = more := by
    rw [whole] at cons
    exact (List.cons.inj cons).2.symm
  have same : lastEpoch epoch more = (s.group s.limboHead).epoch := by
    have last := stamped (by simp [whole])
    rw [whole] at last
    exact last
  obtain ⟨old, log, freed⟩ := inv.log
  have log : s.recorded = old ++ (content epoch more ++ contents s.group rest) := by
    unfold current at log
    rw [pc, whole] at log
    exact log
  unfold State.freedRcu
  by_cases cut : p.count - 1 = 0
  · have now := elements_setFirst (x := .marker epoch) lt
    rw [behind] at now
    have inv' := inv.setFirst { s.group s.limboHead with
        e := Function.update (s.group s.limboHead).e (s.group s.limboHead).head (.marker epoch) }
      (.clean p epoch) s.freed ⟨le, small⟩ (fun _ => by rw [now]; exact same)
      ⟨counting, .inr within⟩ (by rw [pc]; rfl)
      ⟨old, by rw [log, now]; rfl, freed⟩
    obtain ⟨s', stopped, inv''⟩ := inv'.stop (p := { p with count := p.count - 1 }) (q := p)
      rfl rfl rfl (by
        change Marked (elements (Function.update s.group s.limboHead _ s.limboHead))
        rw [Function.update_self, now]
        exact marked_marker epoch more)
    refine ⟨s', [], rest, empties ++ spare, ?_, inv''⟩
    simp only [if_pos cut]
    rw [← stop_irrelevant _ (.clean p epoch)]
    exact stopped
  · have inv' := inv.setFirst { s.group s.limboHead with head := (s.group s.limboHead).head + 1 }
      (.clean { p with count := p.count - 1 } epoch) s.freed ⟨lt, small⟩
      (fun _ => by rw [behind]; exact same) ⟨Nat.pos_of_ne_zero cut, .inr within⟩ (by rw [pc]; rfl)
      ⟨old, by rw [log, behind]; rfl, freed⟩
    refine ⟨_, empties, rest, spare, ?_, inv'⟩
    simp only [if_neg cut]
    rfl

theorem Inv.hardRcuQuiesce (inv : Inv s empties rest spare) (idle : s.pc = .idle)
    (activeEpoch : Epoch) : Inv (s.hardRcuQuiesce activeEpoch) empties rest spare := by
  have none : empties = [] ∧ Limbo.emptied s.pc = (Option.none, Option.none) := by
    rcases inv.emptied with both | ⟨front, last, split, pc, -⟩
    · exact both
    · rw [idle] at pc
      cases (congrArg Prod.snd pc : Option.none = Option.some last)
  obtain ⟨old, log, freed⟩ := inv.log
  have first := inv.first
  have marked := inv.pc
  unfold current at log
  rw [idle] at log first marked
  unfold State.hardRcuQuiesce
  dsimp only
  split
  · exact ⟨inv.links, inv.last, .inl ⟨none.1, rfl⟩, inv.distinct, inv.all, inv.clear, inv.bounds,
      inv.marked, inv.stamped, first, marked, old, log, freed⟩
  · exact ⟨inv.links, inv.last, .inl ⟨none.1, rfl⟩, inv.distinct, inv.all, inv.clear, inv.bounds,
      inv.marked, inv.stamped, first, ⟨Nat.succ_pos 127, .inl marked⟩, old, log, freed⟩

theorem Inv.execute (inv : Inv s empties rest spare) {l : Label} (may : enabled s l = true) :
    ∃ s' empties' rest' spare', execute s l = some s' ∧ Inv s' empties' rest' spare' := by
  cases l with
  | recordRcu ptr tag epoch =>
      have running : Running s := fun p e pc => by
        simp only [enabled, State.isIdle, State.inCallback, pc] at may
        cases may
      obtain ⟨s', rest', spare', taken, inv'⟩ := inv.recordRcu running ptr tag epoch
      exact ⟨s', empties, rest', spare', taken, inv'⟩
  | hardRcuQuiesce activeEpoch =>
      have idle : s.pc = .idle := by
        simp only [enabled, State.isIdle] at may
        split at may
        · assumption
        · cases may
      exact ⟨_, _, _, _, rfl, inv.hardRcuQuiesce idle activeEpoch⟩
  | turn =>
      unfold Model.Limbo.execute
      cases pc : s.pc with
      | idle => simp [enabled, State.isIdle, pc] at may
      | clean p epoch => exact inv.clean pc
      | freeing p epoch => exact inv.freedRcu pc

end

theorem reachable_inv {s : State} (reachable : machine.Reachable Machine.anyStep s) :
    ∃ empties rest spare, Inv s empties rest spare := by
  refine reachable.invariant ?_ ?_
  · rintro s rfl
    exact ⟨[], [], [], inv_init⟩
  · rintro s l s' ⟨empties, rest, spare, inv⟩ - step
    simp only [machine, Option.ite_none_right_eq_some] at step
    obtain ⟨s'', empties', rest', spare', taken, inv'⟩ := inv.execute step.1
    rw [step.2] at taken
    cases taken
    exact ⟨_, _, _, inv'⟩

/-- The bound of the pass is at least the epoch of `record_rcu`. -/
def InTime (x : Recorded) (y : Freed) : Prop :=
  Matches x y ∧
    (y.bound.toNat < 2 ^ 63 → x.epoch.toNat < 2 ^ 63 → x.epoch.toNat ≤ y.bound.toNat)

/-- Calls of `free_rcu` in the order of `record_rcu`, each once and within the bound of its pass; what is
not freed yet is in the list, with its epoch; and no assertion fails. -/
structure Sound (s : State) : Prop where
  order : ∃ old waiting, s.recorded = old ++ waiting ∧ List.Forall₂ InTime old s.freed
  marker : s.pc = .idle → (s.group s.limboHead).head ≠ (s.group s.limboHead).tail →
    ∃ epoch, (s.group s.limboHead).e (s.group s.limboHead).head = .marker epoch
  list : s.pc = .idle → ∃ ids, Links s.next (some s.limboHead) ids none ∧ ids.Nodup ∧
    (∀ i, i ∈ ids ↔ i < s.allocated) ∧
    ∃ old, s.recorded = old ++ contents s.group ids ∧ List.Forall₂ Matches old s.freed
  assertions : ∀ l, enabled s l = true → (execute s l).isSome

end Incll.Proof.Limbo
