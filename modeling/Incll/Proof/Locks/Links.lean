import Incll.Model.Locks

/-! # Parents are higher than their children -/

namespace Incll.Proof.Locks
open Incll.Lib Incll.Model Incll.Model.Locks

variable {n : Nat} {s s' s'' : State n} {t : Fin n} {a b p : Addr}

/-! The links. -/

structure Links (s : State n) : Prop where
  null : s.heap 0 = none
  positive : 0 < s.fresh
  below : ∀ a, (s.heap a).isSome → a < s.fresh
  linked : ∀ a shape, s.heap a = some shape → Linked s shape

/-- The nodes of `s` are there with their heights. -/
def Extends (s s' : State n) : Prop := ∀ a k, heightAt s a = some k → heightAt s' a = some k

structure Grows (s s' : State n) : Prop where
  links : Links s'
  heights : Extends s s'

theorem Grows.trans (first : Grows s s') (second : Grows s' s'') : Grows s s'' :=
  ⟨second.links, fun a k h => second.heights a k (first.heights a k h)⟩

theorem below_mono {k : Nat} (below : Below s k a) (heights : Extends s s') : Below s' k a := by
  obtain ⟨j, height, less⟩ := below
  exact ⟨j, heights a j height, less⟩

theorem linked_mono {shape : Shape} (linked : Linked s shape) (heights : Extends s s') :
    Linked s' shape := by
  refine ⟨linked.parent.imp_right ?_, fun i here j => (linked.child i here j).imp_right ?_⟩
  · rintro ⟨k, height, less⟩
    exact ⟨k, heights _ k height, less⟩
  · exact fun below => below_mono below heights

/-- A step that leaves the nodes alone. -/
theorem Grows.of_heap (links : Links s) (heap : s'.heap = s.heap) (fresh : s'.fresh = s.fresh) :
    Grows s s' := by
  have heights : Extends s s' := by
    intro a k height
    rw [heightAt, heap]
    exact height
  refine ⟨⟨?_, ?_, ?_, ?_⟩, heights⟩
  · rw [heap]
    exact links.null
  · rw [fresh]
    exact links.positive
  · rw [heap, fresh]
    exact links.below
  · rw [heap]
    exact fun a shape here => linked_mono (links.linked a shape here) heights

theorem Grows.modify {f : Shape → Shape} (links : Links s)
    (f_ok : ∀ shape, s.heap a = some shape → (f shape).height = shape.height ∧ Linked s (f shape)) :
    Grows s (s.modify a f) := by
  have heights : Extends s (s.modify a f) := by
    intro b k height
    by_cases same : b = a
    · subst same
      obtain ⟨shape, here, rfl⟩ := Option.map_eq_some_iff.mp height
      simp [heightAt, State.modify, here, (f_ok shape here).1]
    · simpa [heightAt, State.modify, same] using height
  refine ⟨⟨?_, links.positive, fun b some => ?_, fun b shape here => ?_⟩, heights⟩
  · by_cases same : 0 = a
    · simp [State.modify, ← same, links.null]
    · simp [State.modify, same, links.null]
  · by_cases same : b = a
    · subst same
      exact links.below b (by simpa [State.modify] using some)
    · exact links.below b (by simpa [State.modify, same] using some)
  · by_cases same : b = a
    · subst same
      simp only [State.modify, Function.update_self] at here
      obtain ⟨old, there, rfl⟩ := Option.map_eq_some_iff.mp here
      exact linked_mono (f_ok old there).2 heights
    · simp only [State.modify, Function.update_of_ne same] at here
      exact linked_mono (links.linked b shape here) heights

theorem Grows.alloc {shape : Shape} (links : Links s) (linked : Linked s shape) :
    Grows s (s.alloc shape) := by
  have heights : Extends s (s.alloc shape) := by
    intro b k height
    obtain ⟨old, here, rfl⟩ := Option.map_eq_some_iff.mp height
    have other : b ≠ s.fresh := Nat.ne_of_lt (links.below b (by simp [here]))
    simpa [heightAt, State.alloc, other] using height
  refine ⟨⟨?_, Nat.succ_pos _, fun b some => ?_, fun b new here => ?_⟩, heights⟩
  · simp [State.alloc, links.null, links.positive.ne]
  · by_cases same : b = s.fresh
    · exact Nat.lt_succ_of_le (Nat.le_of_eq same)
    · exact Nat.lt_succ_of_lt (links.below b (by simpa [State.alloc, same] using some))
  · by_cases same : b = s.fresh
    · subst same
      simp only [State.alloc, Function.update_self, Option.some.injEq] at here
      exact here ▸ linked_mono linked heights
    · simp only [State.alloc, Function.update_of_ne same] at here
      exact linked_mono (links.linked b new here) heights

theorem heightAt_alloc {shape : Shape} : heightAt (s.alloc shape) s.fresh = some shape.height := by
  simp [heightAt, State.alloc]

theorem height_setParent (shape : Shape) : (shape.setParent p).height = shape.height := by
  cases shape <;> rfl

theorem parent_setParent (shape : Shape) : (shape.setParent p).parent = p := by
  cases shape <;> rfl

theorem Grows.setParent {k : Nat} (links : Links s) (parent : heightAt s p = some k)
    (lower : ∀ j, heightAt s a = some j → j < k) : Grows s (s.setParent a p) := by
  refine .modify links fun shape here => ⟨height_setParent shape, ?_, ?_⟩
  · rw [parent_setParent, height_setParent]
    exact .inr ⟨k, parent, lower _ (by rw [heightAt, here, Option.map_some])⟩
  · intro i new
    cases shape with
    | leaf old => cases new
    | internode old =>
        cases new
        exact (links.linked a _ here).child old rfl

/-- The changes of an internode that keep its height and its parent. -/
theorem Grows.modifyInternode {f : Internode → Internode} (links : Links s)
    (same : ∀ i, (f i).height = i.height ∧ (f i).parent = i.parent)
    (child : ∀ i, s.heap a = some (.internode i) → ∀ j,
      (f i).child j = 0 ∨ Below s i.height ((f i).child j)) :
    Grows s (s.modifyInternode a f) := by
  refine .modify links fun shape here => ?_
  have old := links.linked a shape here
  cases shape with
  | leaf parent => exact ⟨rfl, old⟩
  | internode i =>
      refine ⟨(same i).1, ?_, ?_⟩
      · simp only [Shape.mapInternode, Shape.parent, Shape.height, (same i).1, (same i).2]
        exact old.parent
      · rintro _ ⟨⟩
        rw [(same i).1]
        exact child i here

/-! The children of a changed internode come from the nodes it was made of. -/

section
variable {P : Addr → Prop} {i x : Internode}

theorem child_setChild (old : ∀ j, P (i.child j)) (new : P a) (p j : Nat) :
    P ((i.setChild p a).child j) := by
  by_cases same : j = p
  · simpa [Internode.setChild, same] using new
  · simpa [Internode.setChild, same] using old j

theorem child_assign (old : ∀ j, P (i.child j)) (new : P a) (p key j : Nat) :
    P ((i.assign p key a).child j) := by
  by_cases same : j = p + 1
  · simpa [Internode.assign, same] using new
  · simpa [Internode.assign, same] using old j

theorem child_shiftFrom (old : ∀ j, P (i.child j)) (new : ∀ j, P (x.child j)) (p xp m j : Nat) :
    P ((i.shiftFrom p x xp m).child j) := by
  simp only [Internode.shiftFrom]
  split
  · exact new _
  · exact old j

theorem child_splitRight {nr : Internode} (old : ∀ j, P (i.child j)) (right : ∀ j, P (nr.child j))
    (value : P a) (mid p ka j : Nat) : P ((i.splitRight nr mid p ka a).1.child j) := by
  simp only [Internode.splitRight]
  split
  · exact child_shiftFrom (child_setChild right (old mid) 0) old _ _ _ j
  · split
    · exact child_shiftFrom (child_setChild right value 0) old _ _ _ j
    · refine child_shiftFrom (child_assign ?_ value _ _) old _ _ _ j
      exact child_shiftFrom (child_setChild right (old _) 0) old _ _ _

end

theorem splitRight_links (i nr : Internode) (mid p ka : Nat) (a : Addr) :
    (i.splitRight nr mid p ka a).1.height = nr.height ∧
      (i.splitRight nr mid p ka a).1.parent = nr.parent := by
  simp only [Internode.splitRight]
  split
  · exact ⟨rfl, rfl⟩
  · split <;> exact ⟨rfl, rfl⟩

/-! The operations. -/

def Child (s : State n) (k : Nat) (a : Addr) : Prop := a = 0 ∨ Below s k a

theorem Child.mono {k : Nat} (child : Child s k a) (heights : Extends s s') : Child s' k a :=
  child.imp_right fun below => below_mono below heights

theorem Links.child {i : Internode} (links : Links s) (here : s.heap a = some (.internode i))
    (j : Nat) : Child s i.height (i.child j) :=
  (links.linked a _ here).child i rfl j

theorem grows_setParent {k : Nat} (links : Links s) (parent : heightAt s p = some k)
    (child : Below s k a) : Grows s (s.setParent a p) := by
  obtain ⟨j, height, less⟩ := child
  refine .setParent links parent fun j' height' => ?_
  rw [height] at height'
  cases height'
  exact less

theorem grows_setChild {k : Nat} (links : Links s) (height : heightAt s p = some k)
    (child : Child s k a) (kp : Nat) : Grows s (s.modifyInternode p (·.setChild kp a)) := by
  refine .modifyInternode links (fun _ => ⟨rfl, rfl⟩) fun i here => ?_
  simp only [heightAt, here, Option.map_some, Shape.height, Option.some.injEq] at height
  subst height
  exact child_setChild (links.child here) child kp

theorem grows_insertChild {k : Nat} (links : Links s) (height : heightAt s p = some k)
    (child : Below s k a) (kp key : Nat) : Grows s (s.insertChild p kp key a) := by
  have first := grows_setParent links height child
  refine first.trans (.modifyInternode first.links (fun _ => ⟨rfl, rfl⟩) fun i here => ?_)
  have height' := first.heights p k height
  simp only [heightAt, here, Option.map_some, Shape.height, Option.some.injEq] at height'
  subst height'
  refine child_assign (P := Child _ i.height) ?_ (.inr (below_mono child first.heights)) kp key
  exact child_shiftFrom (first.links.child here) (first.links.child here) _ _ _

theorem grows_makeParent {c : Split} (links : Links s) (node : heightAt s c.n = some c.height)
    (child : heightAt s c.child = some c.height)
    (above : p = 0 ∨ ∃ k, heightAt s p = some k ∧ c.height + 1 < k) (kp : Nat) :
    Grows s (s.makeParent c p kp) := by
  have under {s' : State n} {x : Addr} (height : heightAt s' x = some c.height) :
      Below s' (c.height + 1) x := ⟨c.height, height, Nat.lt_succ_self _⟩
  have new : Linked s (.internode (c.newParent p)) := by
    refine ⟨above, ?_⟩
    rintro _ ⟨⟩
    refine child_assign (P := Child s (c.height + 1)) (child_setChild ?_ ?_ 0) ?_ 0 c.key
    · exact fun _ => .inl rfl
    · exact .inr (under node)
    · exact .inr (under child)
  have made := Grows.alloc links new
  have top : heightAt (s.alloc (.internode (c.newParent p))) s.fresh = some (c.height + 1) :=
    heightAt_alloc
  simp only [State.makeParent]
  generalize s.alloc (.internode (c.newParent p)) = s₁ at made top
  generalize s.fresh = nn at top
  have rooted : Grows s₁ (s₁.setRoot nn (p = 0)) := .of_heap made.links rfl rfl
  have child₁ := rooted.heights _ _ (made.heights _ _ child)
  have hung := grows_setParent rooted.links (rooted.heights _ _ top) (under child₁)
  have grown := made.trans (rooted.trans hung)
  have top' := hung.heights _ _ (rooted.heights _ _ top)
  generalize (s₁.setRoot nn (p = 0)).setParent c.child nn = s₂ at grown top'
  have placed : Grows s₂ (if p = 0 then s₂ else s₂.modifyInternode p (·.setChild kp nn)) := by
    split
    · exact .of_heap grown.links rfl rfl
    · next other =>
      obtain ⟨k, height, less⟩ := above.resolve_left other
      exact grows_setChild grown.links (grown.heights _ _ height) (.inr ⟨_, top', less⟩) kp
  refine (grown.trans placed).trans (grows_setParent placed.links (placed.heights _ _ top') ?_)
  exact under (placed.heights _ _ (grown.heights _ _ node))

theorem grows_endSplit {c : Split} {m : Move} (links : Links s)
    (height : heightAt s m.p = some (c.height + 1)) (child : heightAt s c.child = some c.height) :
    Grows s (s.endSplit c m) := by
  have shrunk : Grows s (s.modifyInternode m.p fun i => { i with nkeys := m.nkeys }) :=
    .modifyInternode links (fun _ => ⟨rfl, rfl⟩) fun i here =>
      (links.child here : ∀ j, Child s i.height (i.child j))
  simp only [State.endSplit]
  cases m.rest with
  | none => exact shrunk
  | some kp =>
      refine shrunk.trans (grows_insertChild shrunk.links (shrunk.heights _ _ height) ?_ kp c.key)
      exact ⟨c.height, shrunk.heights _ _ child, Nat.lt_succ_self _⟩

theorem grows_replaceChild {k : Nat} {r : Addr} (links : Links s) (height : heightAt s p = some k)
    (replacement : Child s k r) (kp : Nat) : Grows s (s.replaceChild p kp r) := by
  have replaced := grows_setChild links height replacement kp
  simp only [State.replaceChild]
  split
  · next some =>
    refine replaced.trans (grows_setParent replaced.links (replaced.heights _ _ height) ?_)
    exact below_mono (replacement.resolve_left some) replaced.heights
  · split
    · refine replaced.trans (.modifyInternode replaced.links (fun _ => ⟨rfl, rfl⟩) fun i here => ?_)
      exact child_shiftFrom (replaced.links.child here) (replaced.links.child here) _ _ _
    · exact replaced

end Incll.Proof.Locks
