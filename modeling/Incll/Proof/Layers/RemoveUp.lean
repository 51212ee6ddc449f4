import Incll.Proof.Layers.Leads
import Incll.Proof.Layers.Redirect

/-! # The loop of `remove_leaf` -/

namespace Incll.Proof.Layers
open Incll.Lib Incll.Model Incll.Model.Layers

/-- `n` is deleted, locked and about to leave its parent. It is like a leaf, or like an internode whose
only child is its replacement. -/
structure Losing (m : Mem) (span : Addr → Option Span) (top n : Addr) (s : Span) (x : Option Internode)
    (ikey : Nat) (replacement : Addr) : Prop where
  tree : Whole m.up (Function.update m.inner n x) m.fresh span top
  calm : Calm m (Function.update span n none) top {n} fun _ => False
  here : span n = some s
  ne : n ≠ top
  low : s.lo ≤ ikey
  high : ikey < s.hi
  kind : replacement = 0 ∧ x = none ∧ s.lo ≠ 0 ∨ ∃ i, x = some i ∧ slots s.lo i = [(s.lo, replacement)]
  marked : (m.version n).splitting = true

/-- The start of `n` moves to its end if nothing takes its place. -/
def moved (s : Span) (replacement : Addr) : Nat → Nat :=
  collapse s.lo (if replacement = 0 then s.hi else s.lo)

/-- What is left when `n` is gone. -/
structure Shed (m m' : Mem) (span span' : Addr → Option Span) (top n : Addr) (f : Nat → Nat) : Prop where
  tree : Whole m'.up m'.inner m'.fresh span' top
  calm : Calm m' span' top ∅ fun _ => False
  body : m'.body = m.body
  fresh : m'.fresh = m.fresh
  root : m'.root = m.root
  callbacks : m'.callbacks = m.callbacks
  spans : ∀ a t', span' a = some t' → a ≠ n ∧ ∃ t, span a = some t ∧ t' = ⟨f t.lo, f t.hi⟩
  kept : ∀ a t, span a = some t → a ≠ n → m.inner a = none → span' a = some ⟨f t.lo, f t.hi⟩
  leads : ∀ a t, span a = some t → t.lo = 0 → Leads m' span' a
  frame : ∀ a, span a = none → SameNode m m' a

/-- `n` has left `p`, and the keys above `p` are right again. -/
structure Mended (m m' : Mem) (span : Addr → Option Span) (top n p : Addr) (i : Internode) (f : Nat → Nat)
    (ikey : Nat) : Prop where
  tree : Whole m'.up m'.inner m'.fresh (contracted span n f) top
  calm : Calm m' (contracted span n f) top (insert p {n}) fun _ => False
  body : m'.body = m.body
  fresh : m'.fresh = m.fresh
  root : m'.root = m.root
  callbacks : m'.callbacks = m.callbacks
  inner : m'.inner p = some i
  inside : ∃ t, contracted span n f p = some t ∧ t.lo ≤ ikey ∧ ikey < t.hi
  parent : m'.up n = some p
  bits : (m'.version p).root = (m.version p).root
  same : m'.version n = m.version n
  leaf : ∀ a, m.inner a = none → m'.inner a = none
  frame : ∀ a, span a = none → SameNode m m' a

/-- The rest of the iteration when the keys are right again. -/
def removeRest (fuel : Nat) (n p : Addr) (ikey : Nat) (i : Internode) : T Unit := do
  unlock n
  if (if i.child 0 = 0 then 1 else 0) < i.nkeys ∨ (← version p).root then
    unlock p
  else
    markDeleted p
    modifyInternode p fun i => i.setChild i.nkeys 0
    removeUp fuel p ikey (i.child i.nkeys)

/-- The first child is not where it was. -/
def Shifted (kp : Nat) (i : Internode) : Prop := kp ≤ 1 ∧ 0 < i.nkeys ∧ i.child 0 = 0

instance (kp : Nat) (i : Internode) : Decidable (Shifted kp i) := inferInstanceAs (Decidable (_ ∧ _))

/-- The iteration after the child is replaced. -/
def removeMoved (fuel : Nat) (n p : Addr) (kp ikey : Nat) (i : Internode) : T Unit := do
  if Shifted kp i then redirect ikey (i.ikey0 0) (← Layers.fuel) p false
  removeRest fuel n p (if Shifted kp i then i.ikey0 0 else ikey) i

/-- The iteration after the check that `n` is child `kp` of `p`. -/
def removeAt (fuel : Nat) (n p : Addr) (kp ikey : Nat) (replacement : Addr) : T Unit := do
  replaceChild p kp replacement
  removeMoved fuel n p kp ikey (← internode p)

variable {m : Mem} {span : Addr → Option Span} {top n p : Addr} {s r : Span} {x : Option Internode}
  {ikey replacement : Nat} {i : Internode}

/-- `p` is locked and marked. -/
def marked (m : Mem) (p : Addr) : Mem :=
  let m₁ := m.setVersion p { m.version p with locked := true }
  m₁.setVersion p { m₁.version p with inserting := true }

theorem removeUp_at {q : Addr} (fuel : Nat) (above : m.up n = some p) (ne : p ≠ 0) (inner : m.inner p = some i)
    (above' : m.up p = some q) (free : Free (m.version p)) (child : i.child (i.upper ikey) = n) :
    removeUp (fuel + 1) n ikey replacement m =
      removeAt fuel n p (i.upper ikey) ikey replacement (marked m p) := by
  have same : ({ i with parent := q } : Internode).upper ikey = i.upper ikey := rfl
  rw [removeUp, bind_ok (lockedParent_ok above ne inner above' free)]
  refine (bind_ok (markInsert_ok (s := m.setVersion p { m.version p with locked := true }) above')).trans ?_
  refine (bind_ok (internode_ok (s := marked m p) inner above')).trans ?_
  simp only [same]
  refine (bind_ok (internode_ok (s := marked m p) inner above')).trans ?_
  simp only [child, ne_eq, not_true_eq_false, if_false]
  rfl

/-- The parent after its child is replaced. -/
def replaced (i : Internode) (kp : Nat) (replacement : Addr) : Internode :=
  if replacement ≠ 0 then i.setChild kp replacement else removed i kp

theorem replaceChild_ok {c : Addr} (inner : m.inner p = some i)
    (known : replacement ≠ 0 → m.up replacement = some c) (kp : Nat) : ∃ m', replaceChild p kp replacement m = .ok ((), m') ∧
      m'.inner = Function.update m.inner p (some (replaced i kp replacement)) ∧
      m'.up = (if replacement ≠ 0 then Function.update m.up replacement (some p) else m.up) ∧
      m'.body = m.body ∧ m'.version = m.version ∧ m'.fresh = m.fresh ∧ m'.root = m.root ∧
      m'.callbacks = m.callbacks := by
  let m₁ := m.mapInternode p (·.setChild kp replacement)
  have inner₁ : m₁.inner = Function.update m.inner p (some (i.setChild kp replacement)) := by
    refine (Mem.inner_mapInternode _ _ _ ?_).trans ?_
    · exact fun _ => rfl
    · rw [inner]
      rfl
  have up₁ : m₁.up = m.up := Mem.up_mapInternode _ _ _ fun _ => rfl
  rw [replaceChild, bind_ok (modifyInternode_ok _ inner)]
  by_cases zero : replacement = 0
  · subst zero
    simp only [replaced, ne_eq, not_true_eq_false, if_false, removed]
    by_cases pos : 0 < kp
    · simp only [if_pos pos]
      have inner_p : m₁.inner p = some (i.setChild kp 0) := by rw [inner₁, Function.update_self]
      refine ⟨_, modifyInternode_ok _ inner_p, ?_, ?_, ?_, rfl, rfl, rfl, rfl⟩
      · refine (Mem.inner_mapInternode _ _ _ ?_).trans ?_
        · exact fun _ => rfl
        · rw [inner₁, Function.update_self, Function.update_idem]
          rfl
      · refine (Mem.up_mapInternode _ _ _ ?_).trans up₁
        exact fun _ => rfl
      · rw [Mem.body_mapInternode, Mem.body_mapInternode]
    · simp only [if_neg pos]
      exact ⟨m₁, rfl, inner₁, up₁, Mem.body_mapInternode .., rfl, rfl, rfl, rfl⟩
  · have above' : m₁.up replacement = some c := by rw [up₁, known zero]
    simp only [replaced, ne_eq, zero, not_false_eq_true, if_true]
    refine ⟨_, setParent_ok p above', ?_, ?_, ?_, rfl, rfl, rfl, rfl⟩
    · rw [Mem.inner_setParent, inner₁]
    · rw [Mem.up_setParent, above', up₁]
      rfl
    · rw [Mem.body_setParent, Mem.body_mapInternode]

section
variable {lo j : Nat} {before behind : List (Nat × Addr)} {z : Nat × Addr}

theorem child_removed (pos : 0 < j) : (removed i j).child 0 = i.child 0 := by
  simp only [removed, pos, if_true, Internode.shiftDown, Internode.shiftFrom, Internode.setChild]
  rw [if_neg (by omega), Function.update_of_ne pos.ne]

theorem child_removed_zero : (removed i 0).child 0 = 0 := by
  simp [removed, Internode.setChild]

theorem SlotAt.first_iff (place : SlotAt lo i j before z behind) : before = [] ↔ j = skip i := by
  have length := place.length
  have from' := place.from'
  constructor
  · rintro rfl
    rw [List.length_nil] at length
    omega
  · intro same
    refine List.eq_nil_of_length_eq_zero ?_
    omega

/-- The condition of `remove_leaf` for moving the keys above: the first child is gone. -/
theorem SlotAt.moved_iff (place : SlotAt lo i j before z behind) (some : before ++ behind ≠ []) :
    Shifted j (removed i j) ↔ before = [] := by
  rw [place.first_iff, Shifted]
  have small := skip_le i
  have from' := place.from'
  constructor
  · rintro ⟨less, -, hole⟩
    by_cases zero : j = 0
    · omega
    · rw [child_removed (by omega)] at hole
      have := skip_of_eq hole
      omega
  · intro same
    have hole : (removed i j).child 0 = 0 := by
      by_cases zero : j = 0
      · rw [zero, child_removed_zero]
      · rw [child_removed (by omega)]
        by_contra first
        have := skip_of_ne first
        omega
    refine ⟨by omega, ?_, hole⟩
    have list := slots_removed place
    rw [slots, skip_of_eq hole] at list
    have length := congrArg List.length list
    rw [length_part] at length
    have := List.length_pos_of_ne_nil some
    omega

theorem nkeys_removed_le : (removed i j).nkeys ≤ i.nkeys := by
  simp only [removed]
  split
  · exact Nat.sub_le ..
  · exact le_rfl

theorem height_removed : (removed i j).height = i.height := by
  simp only [removed]
  split <;> rfl

/-- The first key is the start of the second child. -/
theorem SlotAt.first_key {k hi : Nat} {owns : Nat → Nat → Addr → Prop} (place : SlotAt lo i j before z behind)
    (hole : (removed i j).child 0 = 0) (none : before = []) (some : behind ≠ []) (tiles : Tiles owns k hi behind) :
    (removed i j).ikey0 0 = k := by
  have list := slots_removed place
  rw [slots, skip_of_eq hole, none, List.nil_append] at list
  cases behind with
  | nil => exact absurd rfl some
  | cons w behind =>
      have length := congrArg List.length list
      rw [length_part, List.length_cons] at length
      rw [part_cons (by omega)] at list
      have start := congrArg Prod.fst (List.cons.inj list).1
      rw [← tiles.1, ← start]
      rfl

end

/-- The place of `n` in its parent. -/
structure Attached (m : Mem) (span : Addr → Option Span) (n p : Addr) (s r : Span) (x : Option Internode)
    (ikey : Nat) (i : Internode) (before behind : List (Nat × Addr)) : Prop where
  parent : m.up n = some p
  owns : span p = some r
  inner : m.inner p = some i
  ne : n ≠ p
  ok : InnerOk m.up (Function.update m.inner n x) span p r i
  tile : Tile (Owns span) r.lo r.hi (slots r.lo i) before s.lo s.hi n behind
  place : SlotAt r.lo i (i.upper ikey) before (s.lo, n) behind

theorem Losing.attached (losing : Losing m span top n s x ikey replacement) :
    ∃ p r i before behind, Attached m span n p s r x ikey i before behind := by
  obtain ⟨p, r, i, parent, owns, inner, ok, member, -, -, less⟩ := losing.tree.parent losing.here losing.ne
  have ne : n ≠ p := by
    rintro rfl
    exact Nat.lt_irrefl _ less
  rw [Function.update_of_ne ne.symm] at inner
  obtain ⟨before, behind, tile, place⟩ := ok.find member losing.here losing.low losing.high
  exact ⟨p, r, i, before, behind, parent, owns, inner, ne, ok, tile, place⟩

/-- The child of `p` is replaced. -/
structure Detached (m m' : Mem) (span : Addr → Option Span) (top n p : Addr) (i' : Internode)
    (replacement : Addr) : Prop where
  inner : m'.inner = Function.update m.inner p (some i')
  up : m'.up = if replacement ≠ 0 then Function.update m.up replacement (some p) else m.up
  body : m'.body = m.body
  fresh : m'.fresh = m.fresh
  root : m'.root = m.root
  callbacks : m'.callbacks = m.callbacks
  bits : (m'.version p).root = (m.version p).root
  version : ∀ a, a ≠ p → m'.version a = m.version a
  calm : Calm m' (Function.update span n none) top (insert p {n}) fun _ => False

theorem Attached.detach {before behind : List (Nat × Addr)} {c : Addr} (losing : Losing m span top n s x ikey replacement)
    (at' : Attached m span n p s r x ikey i before behind) (known : replacement ≠ 0 → m.up replacement = some c)
    (fuel : Nat) : ∃ m', Detached m m' span top n p (replaced i (i.upper ikey) replacement) replacement ∧
      removeAt fuel n p (i.upper ikey) ikey replacement (marked m p) =
        removeMoved fuel n p (i.upper ikey) ikey (replaced i (i.upper ikey) replacement) m' := by
  obtain ⟨q, above⟩ := losing.tree.known p r at'.owns
  obtain ⟨m', run, inner, up, body, version, fresh, root, callbacks⟩ :=
    replaceChild_ok (m := marked m p) at'.inner known (i.upper ikey)
  have owns : Function.update span n none p = some r := by
    rw [Function.update_of_ne at'.ne.symm]
    exact at'.owns
  have out : p ∉ ({n} : Finset Addr) := by
    rw [Finset.mem_singleton]
    exact at'.ne.symm
  have calm : Calm (marked m p) (Function.update span n none) top (insert p {n}) fun _ => False :=
    (losing.calm.lock owns out).markInsert (Finset.mem_insert_self ..)
  have here : (marked m p).version p = { m.version p with locked := true, inserting := true } := by
    simp [marked]
  refine ⟨m', ⟨inner, up, body, fresh, root, callbacks, ?_, fun a ne => ?_, ?_⟩, ?_⟩
  · rw [version, here]
  · rw [version]
    simp [marked, ne]
  · have same (a : Addr) : settled m' (insert p {n}) a = settled (marked m p) (insert p {n}) a := by
      rw [settled, settled, version]
    refine calm.transfer (fun a t _ => ?_) (fun a _ _ => by rw [same]) (by rw [same]) fun a member => ?_
    · rw [inner]
      by_cases equal : a = p
      · rw [equal, Function.update_self]
        change _ = (m.inner p).isSome
        rw [at'.inner]
        rfl
      · rw [Function.update_of_ne equal]
    · rw [version]
      exact calm.locked a member
  · have above' : ∃ q', m'.up p = some q' := by
      rw [up]
      split
      · by_cases same : p = replacement
        · rw [same, Function.update_self]
          exact ⟨_, rfl⟩
        · rw [Function.update_of_ne same]
          exact ⟨q, above⟩
      · exact ⟨q, above⟩
    obtain ⟨q', above'⟩ := above'
    rw [removeAt, bind_ok run]
    refine (bind_ok (internode_ok (s := m') (i := replaced i (i.upper ikey) replacement) ?_ above')).trans rfl
    rw [inner, Function.update_self]

/-- Nothing takes the place of `n`: the leaf before it does. -/
theorem Attached.gone {before behind : List (Nat × Addr)} {fuel : Nat} {Q : Unit → Mem → Prop}
    (losing : Losing m span top n s none ikey 0) (pos : s.lo ≠ 0)
    (at' : Attached m span n p s r none ikey i before behind) (some : before ++ behind ≠ [])
    (rest : ∀ m' ikey', Mended m m' span top n p (removed i (i.upper ikey)) (collapse s.lo s.hi) ikey' →
      Runs (removeRest fuel n p ikey' (removed i (i.upper ikey))) m' Q) :
    Runs (removeAt fuel n p (i.upper ikey) ikey 0) (marked m p) Q := by
  have tree := losing.tree
  have wide := tree.wide n s losing.here
  let old := Function.update m.inner n none
  have old_n : old n = none := Function.update_self ..
  have old_ne {a : Addr} (ne : a ≠ n) : old a = m.inner a := Function.update_of_ne ne ..
  have old_p : old p = .some i := by rw [old_ne at'.ne.symm, at'.inner]
  obtain ⟨m₃, detached, run⟩ := at'.detach (c := 0) losing (fun h => absurd rfl h) fuel
  have replaced_eq : replaced i (i.upper ikey) 0 = removed i (i.upper ikey) := by simp [replaced]
  rw [replaced_eq] at detached run
  refine Wp.of_eq run ?_
  have up₃ : m₃.up = m.up := by simpa using detached.up
  have inner₃ {a : Addr} (ne : a ≠ p) : m₃.inner a = m.inner a := by rw [detached.inner, Function.update_of_ne ne]
  have shifted_iff := at'.place.moved_iff some
  have list := slots_removed at'.place
  have low := at'.tile.low
  have high := at'.tile.high
  -- a child that starts where `n` starts
  have start {a : Addr} {t : Span} {j : Internode} {d : Addr} (here : span a = .some t) (inner : old a = .some j)
      (ne : a ≠ p) (member : (s.lo, d) ∈ slots t.lo j) : height old p < j.height ∧ s.lo = r.lo := by
    have ok := tree.node a t j here inner
    have bounds := ok.tiles.bounds member
    have apart : a ≠ n := by
      rintro rfl
      rw [old_n] at inner
      cases inner
    have way := tree.bottom here bounds.1 bounds.2 losing.here le_rfl wide (leaf_last old_n)
    have above := tree.way_parent here bounds.1 bounds.2 at'.parent way apart
    have less := tree.height_lt here bounds.1 bounds.2 above ne
    rw [height_internode inner] at less
    exact ⟨less, Nat.le_antisymm (tree.start_le here inner member above ne at'.owns) low⟩
  have end_ne : collapse s.lo s.hi r.hi = r.hi := collapse_ne (by omega)
  have none_iff : before = [] ↔ r.lo = s.lo := by
    constructor
    · rintro rfl
      exact at'.tile.before
    · intro same
      by_contra ne
      have := at'.tile.before.lt ne
      omega
  have list' : slots (collapse s.lo s.hi r.lo) (removed i (i.upper ikey)) = before ++ behind := by
    by_cases first : r.lo = s.lo
    · rw [← list]
      exact slots_of_skip (skip_of_eq (shifted_iff.mpr (none_iff.mpr first)).2.2)
    · rw [collapse_ne first, list]
  have short : without n (collapse s.lo s.hi) (slots r.lo i) = before ++ behind := by
    have first := at'.tile.before
    have second := at'.tile.behind
    rw [at'.place.eq, without_append, without_cons_self,
      without_of_not_mem (tiles_not_mem first losing.here wide (.inl le_rfl)),
      without_of_not_mem (tiles_not_mem second losing.here wide (.inr le_rfl)),
      map_collapse fun z member => (first.bounds (k := z.1) (c := z.2) member).2.ne, map_collapse fun z member => ?_]
    have := (second.bounds (k := z.1) (c := z.2) member).1
    omega
  have hole (zero : (removed i (i.upper ikey)).child 0 = 0) : r.lo ≠ 0 := by
    intro least
    have ne : ¬ i.upper ikey = skip i := by
      rw [← at'.place.first_iff, none_iff]
      omega
    have := at'.place.from'
    rw [child_removed (by omega)] at zero
    exact at'.ok.hole zero least
  have finish {m₄ : Mem} {ikey' : Nat} (redirection : Redirection m₃ m₄ span old p false (collapse s.lo s.hi))
      (calm : Calm m₄ (Function.update span n none) top (insert p {n}) fun _ => False)
      (least : collapse s.lo s.hi r.lo ≤ ikey') (most : ikey' < r.hi) :
      Mended m m₄ span top n p (removed i (i.upper ikey)) (collapse s.lo s.hi) ikey' := by
    have keep {a : Addr} (lower : ∀ t, span a = .some t → height old a ≤ height old p) (ne : a ≠ p) :
        m₄.inner a = m.inner a := by rw [redirection.inner a lower, inner₃ ne]
    have inner_p : m₄.inner p = .some (removed i (i.upper ikey)) := by
      rw [redirection.inner p fun _ _ => le_rfl, detached.inner, Function.update_self]
    have version {a : Addr} (lower : ∀ t, span a = .some t → height old a ≤ height old p) :
        m₄.version a = m₃.version a := by simpa using redirection.version a lower
    have small : Contraction old m₄.inner span n (collapse s.lo s.hi) := by
      refine ⟨fun a t here ne leaf => ?_, fun a t j here inner => ?_⟩
      · have ne' : a ≠ p := by
          rintro rfl
          rw [old_p] at leaf
          cases leaf
        rw [keep (fun _ _ => by rw [height_leaf leaf]; exact Nat.zero_le _) ne', ← old_ne ne, leaf]
      · have ok := tree.node a t j here inner
        by_cases same : a = p
        · subst same
          obtain rfl := Option.some.inj (at'.owns.symm.trans here)
          obtain rfl := Option.some.inj (old_p.symm.trans inner)
          exact ⟨_, inner_p, nkeys_removed_le.trans ok.width, height_removed, by rw [list', short], hole⟩
        · have off (z : Nat × Addr) (member : z ∈ slots t.lo j) : z.2 ≠ n := by
            intro equal
            have parent := ok.parent z member
            rw [equal, at'.parent] at parent
            exact same (Option.some.inj parent).symm
          by_cases more : height old p < j.height
          · obtain ⟨j', inner', redirected⟩ := redirection.high a t j here inner more
            refine ⟨j', inner', redirected.nkeys.trans_le ok.width, redirected.height, ?_, fun zero => ?_⟩
            · rw [redirected.slots, without_of_not_mem off]
            · rw [redirected.child] at zero
              exact ok.hole zero
          · have apart : a ≠ n := by
              rintro rfl
              rw [old_n] at inner
              cases inner
            refine ⟨j, ?_, ok.width, rfl, ?_, ok.hole⟩
            · rw [keep (fun _ _ => by rw [height_internode inner]; omega) same, ← old_ne apart, inner]
            · rw [without_of_not_mem off]
              refine (redirected_same (y := s.hi) fun z member equal => more ?_).slots
              exact (start (d := z.2) here inner same (equal ▸ member)).1
    have strict (a : Addr) (t : Span) (ne : a ≠ n) (here : span a = .some t) (same : t.lo = s.lo) : s.hi < t.hi := by
      obtain ⟨z, member⟩ := List.exists_mem_of_ne_nil _ some
      refine tree.strict losing.here old_n at'.parent at'.owns old_p ⟨z, ?_, ?_⟩ ne here same
      · rw [at'.place.eq]
        simp only [List.mem_append, List.mem_cons] at member ⊢
        tauto
      · rcases List.mem_append.mp member with first | second
        · exact tiles_not_mem at'.tile.before losing.here wide (.inl le_rfl) z first
        · exact tiles_not_mem at'.tile.behind losing.here wide (.inr le_rfl) z second
    have lower_n : ∀ t, span n = .some t → height old n ≤ height old p := fun _ _ => by
      rw [height_leaf old_n]
      exact Nat.zero_le _
    refine ⟨?_, calm.respan fun a t here => ?_, redirection.body.trans detached.body,
      redirection.fresh.trans detached.fresh, redirection.root.trans detached.root,
      redirection.callbacks.trans detached.callbacks, inner_p,
      ⟨⟨collapse s.lo s.hi r.lo, collapse s.lo s.hi r.hi⟩, ?_, least, by rw [end_ne]; exact most⟩, ?_, ?_, ?_,
      fun a leaf => ?_, fun a none => ⟨?_, ?_, ?_, ?_⟩⟩
    · rw [redirection.up, up₃, redirection.fresh, detached.fresh]
      exact tree.contract losing.here old_n pos strict small
    · obtain ⟨ne, t', old', rfl⟩ := exists_of_contracted here
      refine ⟨t', by rw [Function.update_of_ne ne, old'], fun zero => ?_⟩
      simp only [collapse] at zero
      split at zero
      · omega
      · exact zero
    · rw [contracted_ne at'.ne.symm, at'.owns]
      rfl
    · rw [redirection.up, up₃, at'.parent]
    · rw [version fun _ _ => le_rfl, detached.bits]
    · rw [version lower_n, detached.version n at'.ne]
    · have ne : a ≠ p := by
        rintro rfl
        rw [at'.inner] at leaf
        cases leaf
      have leaf' : old a = .none := by
        by_cases same : a = n
        · rw [same, old_n]
        · rw [old_ne same, leaf]
      rw [keep (fun _ _ => by rw [height_leaf leaf']; exact Nat.zero_le _) ne, leaf]
    · rw [redirection.up, up₃]
    · refine keep (fun t here => ?_) ?_
      · rw [none] at here
        cases here
      · rintro rfl
        rw [at'.owns] at none
        cases none
    · rw [redirection.body, detached.body]
    · rw [version fun t here => ?_, detached.version a ?_]
      · rintro rfl
        rw [at'.owns] at none
        cases none
      · rw [none] at here
        cases here
  have least := losing.low
  have most := losing.high
  rw [removeMoved]
  by_cases first : before = []
  · have shifted := shifted_iff.mpr first
    have same := none_iff.mp first
    have key : (removed i (i.upper ikey)).ikey0 0 = s.hi :=
      at'.place.first_key shifted.2.2 first (by simpa [first] using some) at'.tile.behind
    rw [if_pos shifted, if_pos shifted, key]
    refine Wp.step fuel_ok (Wp.call (redirect_ok (r := r) m₃.fresh (by rw [up₃, detached.fresh]; exact tree)
      detached.calm (fun a t here more => ⟨t, ?_⟩) at'.owns (by omega) (by omega) (by omega)
      (fun a t here more => ?_) (fun a member t here => ?_) (fun h => absurd h (by simp)) ?_)
      fun _ m₄ post => ?_)
    · rw [Function.update_of_ne, here]
      rintro rfl
      rw [height_leaf old_n] at more
      omega
    · have ne : a ≠ n := by
        rintro rfl
        rw [height_leaf old_n] at more
        omega
      rw [inner₃, ← old_ne ne]
      rintro rfl
      exact Nat.lt_irrefl _ more
    · rcases Finset.mem_insert.mp member with rfl | single
      · exact le_rfl
      · rw [Finset.mem_singleton.mp single, height_leaf old_n]
        exact Nat.zero_le _
    · rw [detached.fresh]
      exact higher_lt_fresh (tree.small p r at'.owns)
    · obtain ⟨redirection, calm⟩ := post
      rw [same] at redirection
      refine rest m₄ s.hi (finish redirection calm ?_ ?_)
      · rw [same, collapse_at]
      · have behind_ne : behind ≠ [] := by simpa [first] using some
        exact at'.tile.behind.lt behind_ne
  · have shifted := (not_congr shifted_iff).mpr first
    have apart := (not_congr none_iff).mp first
    rw [if_neg shifted, if_neg shifted]
    refine rest m₃ ikey (finish ⟨rfl, rfl, rfl, rfl, rfl, fun _ _ => rfl, fun _ _ => by simp, fun a t j here inner more => ?_⟩
      detached.calm ?_ (by omega))
    · have ne : a ≠ p := by
        rintro rfl
        rw [height_internode old_p] at more
        obtain rfl := Option.some.inj (old_p.symm.trans inner)
        exact Nat.lt_irrefl _ more
      have apart' : a ≠ n := by
        rintro rfl
        rw [old_n] at inner
        cases inner
      refine ⟨j, ?_, redirected_same fun z member equal => apart ?_⟩
      · rw [inner₃ ne, ← old_ne apart', inner]
      · exact (start (d := z.2) here inner ne (equal ▸ member)).2.symm
    · rw [collapse_ne apart]
      omega

/-- The only child of `n` takes its place. -/
theorem Attached.taken {j : Internode} {before behind : List (Nat × Addr)} {fuel : Nat} {Q : Unit → Mem → Prop}
    (losing : Losing m span top n s (some j) ikey replacement) (only : slots s.lo j = [(s.lo, replacement)])
    (at' : Attached m span n p s r (some j) ikey i before behind)
    (rest : ∀ m' ikey', Mended m m' span top n p (i.setChild (i.upper ikey) replacement) id ikey' →
      Runs (removeRest fuel n p ikey' (i.setChild (i.upper ikey) replacement)) m' Q) :
    Runs (removeAt fuel n p (i.upper ikey) ikey replacement) (marked m p) Q := by
  have tree := losing.tree
  let old := Function.update m.inner n (some j)
  have old_n : old n = some j := Function.update_self ..
  have old_ne {a : Addr} (ne : a ≠ n) : old a = m.inner a := Function.update_of_ne ne ..
  have old_p : old p = some i := by rw [old_ne at'.ne.symm, at'.inner]
  have ok := tree.node n s j losing.here old_n
  obtain ⟨t, owned⟩ := tiles_owned ok.tiles (x := (s.lo, replacement)) (by simp [only])
  have ne : replacement ≠ 0 := tree.ne_zero owned
  have above : m.up replacement = some n := ok.parent (s.lo, replacement) (by simp [only])
  obtain ⟨m₃, detached, run⟩ := at'.detach (c := n) losing (fun _ => above) fuel
  have replaced_eq : replaced i (i.upper ikey) replacement = i.setChild (i.upper ikey) replacement := by
    simp [replaced, ne]
  rw [replaced_eq] at detached run
  refine Wp.of_eq run ?_
  have up₃ : m₃.up = Function.update m.up replacement (some p) := by simpa [ne] using detached.up
  have inner₃ {a : Addr} (ne : a ≠ p) : m₃.inner a = m.inner a := by rw [detached.inner, Function.update_of_ne ne]
  have inner_p : m₃.inner p = some (i.setChild (i.upper ikey) replacement) := by
    rw [detached.inner, Function.update_self]
  have list := slots_setChild at'.place replacement ne
  have low := at'.tile.low
  have high := at'.tile.high
  have least := losing.low
  have most := losing.high
  have hole (zero : (i.setChild (i.upper ikey) replacement).child 0 = 0) : 0 < i.upper ikey ∧ i.child 0 = 0 := by
    by_cases first : i.upper ikey = 0
    · simp [Internode.setChild, first, ne] at zero
    · exact ⟨Nat.pos_of_ne_zero first, (Function.update_of_ne (Ne.symm first) ..).symm.trans zero⟩
  have span_ne {a : Addr} {u : Span} (here : Function.update span n none a = some u) : a ≠ n ∧ span a = some u := by
    by_cases same : a = n
    · rw [same, Function.update_self] at here
      cases here
    · rw [Function.update_of_ne same] at here
      exact ⟨same, here⟩
  have owns : Function.update span n none p = some r := by
    rw [Function.update_of_ne at'.ne.symm, at'.owns]
  have tree₃ : Whole m₃.up m₃.inner m₃.fresh (Function.update span n none) top := by
    rw [up₃, detached.fresh]
    refine tree.substitute losing.here old_n only at'.owns old_p at'.place.eq list at'.ok.width rfl
      (fun zero => at'.ok.hole (hole zero).2) m₃.inner inner_p fun a u here apart apart' => ?_
    rw [inner₃ apart', ← old_ne apart]
  have n_ne : n ≠ replacement := by
    rintro rfl
    have := ok.below (s.lo, n) (by simp [only])
    rw [height_internode old_n] at this
    exact Nat.lt_irrefl _ this
  have finish {m₄ : Mem} {ikey' : Nat}
      (redirection : Redirection m₃ m₄ (Function.update span n none) m₃.inner p false id)
      (calm : Calm m₄ (Function.update span n none) top (insert p {n}) fun _ => False)
      (least : r.lo ≤ ikey') (most : ikey' < r.hi) :
      Mended m m₄ span top n p (i.setChild (i.upper ikey) replacement) id ikey' := by
    have version {a : Addr} (lower : ∀ u, Function.update span n none a = some u →
        height m₃.inner a ≤ height m₃.inner p) : m₄.version a = m₃.version a := by
      simpa using redirection.version a lower
    have lower_n : ∀ u, Function.update span n none n = some u → height m₃.inner n ≤ height m₃.inner p :=
      fun u here => absurd rfl (span_ne here).1
    have lower_none {a : Addr} (none : span a = none) : ∀ u, Function.update span n Option.none a = some u →
        height m₃.inner a ≤ height m₃.inner p := fun u here => by
      rw [(span_ne here).2] at none
      cases none
    have ne_p {a : Addr} (none : span a = none) : a ≠ p := by
      rintro rfl
      rw [at'.owns] at none
      cases none
    refine ⟨?_, ?_, redirection.body.trans detached.body,
      redirection.fresh.trans detached.fresh, redirection.root.trans detached.root,
      redirection.callbacks.trans detached.callbacks, ?_,
      ⟨r, by rw [contracted_id, owns], least, most⟩, ?_, ?_, ?_, fun a leaf => ?_, fun a none => ⟨?_, ?_, ?_, ?_⟩⟩
    · rw [redirection.up, redirection.fresh, contracted_id]
      refine tree₃.reslot (fun a u here leaf => ?_) fun a u k here inner => ?_
      · rw [redirection.inner a fun _ _ => ?_, leaf]
        rw [height_leaf leaf]
        exact Nat.zero_le _
      · by_cases more : height m₃.inner p < k.height
        · obtain ⟨k', inner', redirected⟩ := redirection.high a u k here inner more
          refine ⟨k', inner', redirected.nkeys, redirected.height, redirected.child, redirected.slots.trans ?_⟩
          exact List.map_id _
        · refine ⟨k, ?_, rfl, rfl, rfl, rfl⟩
          rw [redirection.inner a fun _ _ => ?_, inner]
          rw [height_internode inner]
          omega
    · rw [contracted_id]
      exact calm
    · rw [redirection.inner p fun _ _ => le_rfl, inner_p]
    · rw [redirection.up, up₃, Function.update_of_ne n_ne, at'.parent]
    · rw [version fun _ _ => le_rfl, detached.bits]
    · rw [version lower_n, detached.version n at'.ne]
    · have ne : a ≠ p := by
        rintro rfl
        rw [at'.inner] at leaf
        cases leaf
      have leaf' : m₃.inner a = Option.none := by rw [inner₃ ne, leaf]
      rw [redirection.inner a fun _ _ => ?_, leaf']
      rw [height_leaf leaf']
      exact Nat.zero_le _
    · rw [redirection.up, up₃, Function.update_of_ne]
      rintro rfl
      rw [owned] at none
      cases none
    · rw [redirection.inner a (lower_none none), inner₃ (ne_p none)]
    · rw [redirection.body, detached.body]
    · rw [version (lower_none none), detached.version a (ne_p none)]
  rw [removeMoved]
  by_cases shifted : Shifted (i.upper ikey) (i.setChild (i.upper ikey) replacement)
  · obtain ⟨pos, first⟩ := hole shifted.2.2
    have one : i.upper ikey = 1 := by have := shifted.1; omega
    have same : r.lo = s.lo := by
      have none : before = [] := at'.place.first_iff.mpr (by rw [one, skip_of_eq first])
      have tiles := at'.tile.before
      rw [none] at tiles
      exact tiles
    have key : (i.setChild (i.upper ikey) replacement).ikey0 0 = s.lo := by
      have start := congrArg Prod.fst at'.place.here
      rw [one] at start
      exact start
    rw [if_pos shifted, if_pos shifted, key]
    refine Wp.step fuel_ok (Wp.call (redirect_ok m₃.fresh tree₃ detached.calm (fun a u here _ => ⟨u, here⟩) owns
      (by omega) (by omega) (at'.ok.hole first) (fun _ _ _ _ => rfl) (fun a member u here => ?_)
      (fun h => absurd h (by simp)) ?_) fun _ m₄ post => ?_)
    · rcases Finset.mem_insert.mp member with rfl | single
      · exact le_rfl
      · exact absurd (Finset.mem_singleton.mp single) (span_ne here).1
    · exact higher_lt_fresh (tree₃.small p r owns)
    · obtain ⟨redirection, calm⟩ := post
      rw [same, collapse_self] at redirection
      exact rest m₄ s.lo (finish redirection calm (by omega) (by omega))
  · rw [if_neg shifted, if_neg shifted]
    refine rest m₃ ikey (finish ⟨rfl, rfl, rfl, rfl, rfl, fun _ _ => rfl, fun _ _ => by simp, fun a u k _ inner _ => ?_⟩
      detached.calm (by omega) (by omega))
    exact ⟨k, inner, redirected_id⟩

/-- `n` is out of the tree and unlocked. -/
structure Falling (m m' : Mem) (span : Addr → Option Span) (n p : Addr) (s r : Span) : Prop where
  body : m'.body = m.body
  fresh : m'.fresh = m.fresh
  root : m'.root = m.root
  callbacks : m'.callbacks = m.callbacks
  leaf : ∀ a, m.inner a = none → m'.inner a = none
  inner : m.inner p ≠ none
  bits : (m'.version n).root = false ∧ (m'.version n).dirty = false
  parent : m'.up n = some p
  here : span n = some s
  owns : span p = some r
  low : r.lo ≤ s.lo
  ne : p ≠ 0
  apart : n ≠ p
  frame : ∀ a, span a = none → SameNode m m' a

theorem Falling.leads {m' m'' : Mem} {span' : Addr → Option Span} (fall : Falling m m' span n p s r)
    (same : SameNode m' m'' n) (off : span' n = none) (above : Leads m'' span' p) : Leads m'' span' n := by
  refine .up off ?_ ?_ ?_ fall.ne above
  · rw [same.version]
    exact fall.bits.1
  · rw [same.version]
    exact fall.bits.2
  · rw [same.up]
    exact fall.parent

theorem Shed.trans {m₁ m₂ : Mem} {span' : Addr → Option Span} {f g : Nat → Nat} (fall : Falling m m₁ span n p s r)
    (fix : ∀ z, f z = 0 ↔ z = 0) (shed : Shed m₁ m₂ (contracted span n f) span' top p g) :
    Shed m m₂ span span' top n (g ∘ f) := by
  refine ⟨shed.tree, shed.calm, shed.body.trans fall.body, shed.fresh.trans fall.fresh, shed.root.trans fall.root,
    shed.callbacks.trans fall.callbacks, fun a t' here => ?_, fun a t here ne leaf => ?_, fun a t here first => ?_,
    fun a none => (fall.frame a none).trans (shed.frame a ?_)⟩
  · obtain ⟨-, t₁, known, rfl⟩ := shed.spans a t' here
    obtain ⟨ne, t, old, rfl⟩ := exists_of_contracted known
    exact ⟨ne, t, old, rfl⟩
  · refine shed.kept a ⟨f t.lo, f t.hi⟩ ?_ ?_ (fall.leaf a leaf)
    · rw [contracted_ne ne, here]
      rfl
    · rintro rfl
      exact fall.inner leaf
  · by_cases same : a = n
    · subst same
      obtain rfl := Option.some.inj (fall.here.symm.trans here)
      refine fall.leads (shed.frame a contracted_self) ?_ (shed.leads p ⟨f r.lo, f r.hi⟩ ?_ ?_)
      · cases known : span' a with
        | none => rfl
        | some t' =>
            obtain ⟨-, u, old, -⟩ := shed.spans a t' known
            rw [contracted_self] at old
            cases old
      · rw [contracted_ne fall.apart.symm, fall.owns]
        rfl
      · have := fall.low
        exact (fix _).mpr (by omega)
    · refine shed.leads a ⟨f t.lo, f t.hi⟩ ?_ ((fix _).mpr first)
      rw [contracted_ne same, here]
      rfl
  · by_cases same : a = n
    · rw [same, contracted_self]
    · rw [contracted_ne same, none]
      rfl

theorem Calm.drop {held : Finset Addr} {split : Addr → Prop} {v : Nodeversion} (calm : Calm m span top held split)
    (ne : p ≠ top) (locked : v.locked = true) :
    Calm (m.setVersion p v) (Function.update span p none) top held split := by
  have rest (a : Addr) (other : a ≠ p) : settled (m.setVersion p v) held a = settled m held a := by
    simp only [settled, Mem.version_setVersion, Function.update_of_ne other]
  have old {a : Addr} {t : Span} (here : Function.update span p none a = some t) : a ≠ p ∧ span a = some t := by
    by_cases same : a = p
    · rw [same, Function.update_self] at here
      cases here
    · rw [Function.update_of_ne same] at here
      exact ⟨same, here⟩
  refine ⟨fun a t here => ?_, fun out => ?_, fun a t here out other inside => ?_, fun a member => ?_⟩
  · rw [rest a (old here).1]
    exact calm.free a t (old here).2
  · rw [rest top ne.symm]
    exact calm.root out
  · rw [rest a (old here).1]
    exact calm.other a t (old here).2 out other inside
  · by_cases same : a = p
    · rw [same, Mem.version_setVersion, Function.update_self, locked]
    · rw [Mem.version_setVersion, Function.update_of_ne same]
      exact calm.locked a member

theorem dirty_unlock (v : Nodeversion) : v.unlock.dirty = false := by
  unfold Nodeversion.unlock Nodeversion.dirty
  split
  · rfl
  · next plain => simp [plain]

/-- The state before `remove_leaf` goes on with `p`. -/
structure Descended (m m' : Mem) (span : Addr → Option Span) (top n p : Addr) (i : Internode) : Prop where
  up : m'.up = m.up
  inner : m'.inner = Function.update m.inner p (some (i.setChild i.nkeys 0))
  body : m'.body = m.body
  fresh : m'.fresh = m.fresh
  root : m'.root = m.root
  callbacks : m'.callbacks = m.callbacks
  calm : Calm m' (Function.update span p none) top {p} fun _ => False
  marked : (m'.version p).splitting = true
  unlocked : m'.version n = (m.version n).unlock
  version : ∀ a, a ≠ n → a ≠ p → m'.version a = m.version a

theorem removeRest_down {q c : Addr} (calm : Calm m span top (insert p {n}) fun _ => False) (apart : n ≠ p)
    (top_ne : p ≠ top) (above : m.up n = some q) (above' : m.up p = some c) (inner : m.inner p = some i)
    (narrow : ¬ ((if i.child 0 = 0 then 1 else 0) < i.nkeys ∨ (m.version p).root = true)) (fuel ikey : Nat) :
    ∃ m', Descended m m' span top n p i ∧
      removeRest fuel n p ikey i m = removeUp fuel p ikey (i.child i.nkeys) m' := by
  let m₁ := m.setVersion n (m.version n).unlock
  let m₂ := m₁.setVersion p { m₁.version p with deleted := true, splitting := true }
  have version₁ : m₁.version p = m.version p := by simp [m₁, apart.symm]
  have calm₁ : Calm m₁ span top {p} fun _ => False := by
    have step := calm.unlock (a := n) (by simp)
    rwa [Finset.erase_insert_of_ne apart.symm, Finset.erase_singleton] at step
  have locked : (m₁.version p).locked = true := calm₁.locked p (Finset.mem_singleton_self p)
  have calm₂ : Calm m₂ (Function.update span p none) top {p} fun _ => False := calm₁.drop top_ne locked
  have inner' : (m₂.mapInternode p fun i => i.setChild i.nkeys 0).inner =
      Function.update m.inner p (some (i.setChild i.nkeys 0)) := by
    refine (Mem.inner_mapInternode _ _ _ ?_).trans ?_
    · exact fun _ => rfl
    · change Function.update m.inner p ((m.inner p).map _) = _
      rw [inner]
      rfl
  refine ⟨m₂.mapInternode p fun i => i.setChild i.nkeys 0, ⟨?_, inner', ?_, rfl, rfl, rfl, ?_, ?_, ?_, fun a ne ne' => ?_⟩, ?_⟩
  · refine (Mem.up_mapInternode _ _ _ ?_).trans rfl
    exact fun _ => rfl
  · rw [Mem.body_mapInternode]
    rfl
  · refine calm₂.transfer (fun a t here => ?_) (fun _ _ _ => rfl) rfl calm₂.locked
    rw [inner', Function.update_of_ne]
    · rfl
    · rintro rfl
      rw [Function.update_self] at here
      cases here
  · simp [m₂]
  · simp [m₂, m₁, apart]
  · simp [m₂, m₁, ne, ne']
  · rw [removeRest, bind_ok (unlock_ok above), bind_ok (version_ok (s := m₁) above'), version₁, if_neg narrow]
    refine (bind_ok (markDeleted_ok (s := m₁) above')).trans ?_
    exact bind_ok (modifyInternode_ok (s := m₂) _ inner)

theorem removeRest_done {q c : Addr} (apart : n ≠ p) (above : m.up n = some q) (above' : m.up p = some c)
    (wide : (if i.child 0 = 0 then 1 else 0) < i.nkeys ∨ (m.version p).root = true) (fuel : Nat) :
    removeRest fuel n p ikey i m = .ok ((), (m.setVersion n (m.version n).unlock).setVersion p (m.version p).unlock) := by
  have version₁ : (m.setVersion n (m.version n).unlock).version p = m.version p := by simp [apart.symm]
  rw [removeRest, bind_ok (unlock_ok above), bind_ok (version_ok (s := m.setVersion n (m.version n).unlock) above'),
    version₁, if_pos wide]
  refine (unlock_ok (s := m.setVersion n (m.version n).unlock) above').trans ?_
  rw [version₁]

/-! The loop ends because the tree gets smaller. -/

def nodes (fresh : Nat) (span : Addr → Option Span) : Nat :=
  ((Finset.range fresh).filter fun a => (span a).isSome).card

theorem nodes_pos {fresh : Nat} (small : n < fresh) (here : span n = some s) : 0 < nodes fresh span := by
  refine Finset.card_pos.mpr ⟨n, ?_⟩
  simp [small, here]

theorem nodes_contracted {fresh : Nat} {f : Nat → Nat} (small : n < fresh) (here : span n = some s) :
    nodes fresh (contracted span n f) < nodes fresh span := by
  refine Finset.card_lt_card (Finset.ssubset_iff_of_subset ?_ |>.mpr ⟨n, ?_, ?_⟩)
  · intro a
    simp only [Finset.mem_filter]
    rintro ⟨member, known⟩
    obtain ⟨t, known⟩ := Option.isSome_iff_exists.mp known
    obtain ⟨-, r, old, -⟩ := exists_of_contracted known
    exact ⟨member, by rw [old]; rfl⟩
  · simp [small, here]
  · simp [contracted_self]

section
variable {m₁ : Mem} {f : Nat → Nat} {before behind : List (Nat × Addr)} {ikey' fuel : Nat} {i' : Internode}

theorem Mended.shed (mended : Mended m m₁ span top n p i' f ikey') (fix : ∀ z, f z = 0 ↔ z = 0)
    (losing : Losing m span top n s x ikey replacement)
    (at' : Attached m span n p s r x ikey i before behind) :
    Shed m ((m₁.setVersion n (m₁.version n).unlock).setVersion p (m₁.version p).unlock) span (contracted span n f)
      top n f := by
  have apart := at'.ne
  have version₁ : (m₁.setVersion n (m₁.version n).unlock).version p = m₁.version p := by simp [apart.symm]
  have calm := (mended.calm.unlock (a := n) (by simp)).unlock (a := p) (by simp [apart.symm])
  rw [version₁] at calm
  have empty : ((insert p {n} : Finset Addr).erase n).erase p = ∅ := by
    rw [Finset.erase_insert_of_ne apart.symm, Finset.erase_singleton]
    exact Finset.erase_singleton p
  rw [empty] at calm
  have known {a : Addr} {t : Span} (here : span a = some t) (ne : a ≠ n) :
      contracted span n f a = some ⟨f t.lo, f t.hi⟩ := by
    rw [contracted_ne ne, here]
    rfl
  refine ⟨mended.tree, calm, mended.body, mended.fresh, mended.root, mended.callbacks,
    fun a t' here => exists_of_contracted here, fun a t here ne _ => known here ne, fun a t here first => ?_,
    fun a none => ?_⟩
  · by_cases same : a = n
    · subst same
      obtain rfl := Option.some.inj (losing.here.symm.trans here)
      have low := at'.tile.low
      have marked : (m₁.version a).splitting = true := by rw [mended.same, losing.marked]
      have version : ((m₁.setVersion a (m₁.version a).unlock).setVersion p (m₁.version p).unlock).version a =
          (m₁.version a).unlock := by simp [apart]
      refine .up contracted_self ?_ ?_ mended.parent (losing.tree.ne_zero at'.owns)
        (.here (known at'.owns apart.symm) ?_)
      · rw [version, unlock_root marked]
      · rw [version, dirty_unlock]
      · exact (fix _).mpr (by omega)
    · exact .here (known here same) ((fix _).mpr first)
  · have ne : a ≠ n := by
      rintro rfl
      rw [losing.here] at none
      cases none
    have ne' : a ≠ p := by
      rintro rfl
      rw [at'.owns] at none
      cases none
    refine (mended.frame a none).trans ⟨rfl, rfl, rfl, ?_⟩
    simp [ne, ne']

theorem Mended.rest (mended : Mended m m₁ span top n p i' f ikey') (fix : ∀ z, f z = 0 ↔ z = 0)
    (losing : Losing m span top n s x ikey replacement)
    (at' : Attached m span n p s r x ikey i before behind)
    (again : ∀ {m₂ : Mem} {span₂ : Addr → Option Span} {t : Span}, nodes m₂.fresh span₂ < nodes m.fresh span →
      Losing m₂ span₂ top p t (some i') ikey' (i'.child i'.nkeys) →
      Runs (removeUp fuel p ikey' (i'.child i'.nkeys)) m₂ fun _ m' =>
        ∃ span', Shed m₂ m' span₂ span' top p (moved t (i'.child i'.nkeys))) :
    Runs (removeRest fuel n p ikey' i') m₁ fun _ m' => ∃ span', Shed m m' span span' top n f := by
  have apart := at'.ne
  obtain ⟨t, owns, low, high⟩ := mended.inside
  obtain ⟨c, above⟩ := mended.tree.known p t owns
  by_cases wide : (if i'.child 0 = 0 then 1 else 0) < i'.nkeys ∨ (m₁.version p).root = true
  · exact Wp.of_ok (removeRest_done apart mended.parent above wide fuel) ⟨_, mended.shed fix losing at'⟩
  · have top_ne : p ≠ top := by
      rintro rfl
      have root := mended.calm.root not_false
      rw [settled, if_pos (Finset.mem_insert_self ..)] at root
      have bits := congrArg Nodeversion.root (flags_unlock (m₁.version p))
      change (m₁.version p).unlock.root = _ at bits
      rw [root] at bits
      refine wide (.inr ?_)
      change true = ((m₁.version p).root && _) at bits
      exact (Bool.and_eq_true_iff.mp bits.symm).1
    obtain ⟨m₂, down, run⟩ := removeRest_down mended.calm apart top_ne mended.parent above mended.inner wide
      fuel ikey'
    refine Wp.of_eq run ?_
    have inner : Function.update m₂.inner p (some i') = m₁.inner := by
      rw [down.inner, Function.update_idem, ← mended.inner, Function.update_eq_self]
    have ok := mended.tree.node p t i' owns mended.inner
    have width := ok.tiles.ne_nil (mended.tree.wide p t owns)
    have only : slots t.lo i' = [(t.lo, i'.child i'.nkeys)] := by
      have bound : i'.nkeys ≤ skip i' := Nat.le_of_not_lt fun less => wide (.inl less)
      have same : skip i' = i'.nkeys := by
        have least : skip i' < i'.nkeys + 1 := by
          by_contra more
          exact width (part_nil (Nat.le_of_not_lt more))
        omega
      have list : slots t.lo i' = [slot t.lo i' i'.nkeys] := by
        rw [slots, same, part_cons (Nat.lt_succ_self _), part_nil le_rfl]
      have start := ok.tiles
      rw [list] at start ⊢
      have first : (slot t.lo i' i'.nkeys).1 = t.lo := start.1
      exact congrArg (fun z => [z]) (Prod.ext first rfl)
    have losing' : Losing m₂ (contracted span n f) top p t (some i') ikey' (i'.child i'.nkeys) :=
      ⟨by rw [inner, down.up, down.fresh]; exact mended.tree, down.calm, owns, top_ne, low, high,
        .inr ⟨i', rfl, only⟩, down.marked⟩
    have some : i'.child i'.nkeys ≠ 0 := by
      obtain ⟨u, owned⟩ := tiles_owned ok.tiles (x := (t.lo, i'.child i'.nkeys)) (by simp [only])
      exact mended.tree.ne_zero owned
    have fewer : nodes m₂.fresh (contracted span n f) < nodes m.fresh span := by
      rw [down.fresh, mended.fresh]
      exact nodes_contracted (losing.tree.small n s losing.here) losing.here
    refine (again fewer losing').mono fun _ m' post => ?_
    obtain ⟨span', shed⟩ := post
    rw [moved, if_neg some, collapse_self] at shed
    have fall : Falling m m₂ span n p s r := by
      refine ⟨down.body.trans mended.body, down.fresh.trans mended.fresh, down.root.trans mended.root,
        down.callbacks.trans mended.callbacks, fun a leaf => ?_, ?_, ⟨?_, ?_⟩, ?_, losing.here, at'.owns,
        at'.tile.low, losing.tree.ne_zero at'.owns, apart, fun a none => ?_⟩
      · rw [down.inner, Function.update_of_ne, mended.leaf a leaf]
        rintro rfl
        rw [at'.inner] at leaf
        cases leaf
      · rw [at'.inner]
        exact Option.some_ne_none i
      · rw [down.unlocked, unlock_root]
        rw [mended.same, losing.marked]
      · rw [down.unlocked, dirty_unlock]
      · rw [down.up, mended.parent]
      · have ne : a ≠ n := by
          rintro rfl
          rw [losing.here] at none
          cases none
        have ne' : a ≠ p := by
          rintro rfl
          rw [at'.owns] at none
          cases none
        refine (mended.frame a none).trans ⟨by rw [down.up], ?_, by rw [down.body], down.version a ne ne'⟩
        rw [down.inner, Function.update_of_ne ne']
    have whole := Shed.trans (f := f) (g := id) fall fix shed
    exact ⟨span', whole⟩

/-- `n` is the only child of `p`: the loop goes on with `p` as it would with a leaf. -/
theorem Attached.alone (losing : Losing m span top n s none ikey 0) (pos : s.lo ≠ 0)
    (at' : Attached m span n p s r none ikey i before behind) (empty : before ++ behind = [])
    (again : ∀ {m₂ : Mem} {span₂ : Addr → Option Span}, nodes m₂.fresh span₂ < nodes m.fresh span →
      Losing m₂ span₂ top p s none ikey 0 →
      Runs (removeUp fuel p ikey 0) m₂ fun _ m' => ∃ span', Shed m₂ m' span₂ span' top p (moved s 0)) :
    Runs (removeAt fuel n p (i.upper ikey) ikey 0) (marked m p) fun _ m' =>
      ∃ span', Shed m m' span span' top n (moved s 0) := by
  have tree := losing.tree
  have apart := at'.ne
  have old_p : Function.update m.inner n none p = some i := by rw [Function.update_of_ne apart.symm, at'.inner]
  obtain ⟨rfl, rfl⟩ := List.append_eq_nil_iff.mp empty
  have only : slots r.lo i = [(s.lo, n)] := by rw [at'.tile.eq, List.nil_append]
  obtain ⟨pruned, rfl⟩ := tree.prune losing.here (Function.update_self ..) at'.owns old_p only
  obtain ⟨m₃, detached, run⟩ := at'.detach (c := 0) losing (fun h => absurd rfl h) fuel
  have replaced_eq : replaced i (i.upper ikey) 0 = removed i (i.upper ikey) := by simp [replaced]
  rw [replaced_eq] at detached run
  refine Wp.of_eq run ?_
  -- nothing is left in `p`
  have list := slots_removed at'.place
  rw [List.append_nil] at list
  have length := congrArg List.length list
  rw [slots, length_part, List.length_nil] at length
  have small := skip_le (removed i (i.upper ikey))
  have nkeys : (removed i (i.upper ikey)).nkeys = 0 := by omega
  have hole : (removed i (i.upper ikey)).child 0 = 0 := by
    by_contra first
    have := skip_of_ne first
    omega
  have shifted : ¬ Shifted (i.upper ikey) (removed i (i.upper ikey)) := by
    rintro ⟨-, more, -⟩
    omega
  have top_ne : p ≠ top := by
    rintro rfl
    have whole := tree.whole
    rw [at'.owns] at whole
    obtain rfl := Option.some.inj whole
    exact pos rfl
  have owns : Function.update span n none p = some r := by
    rw [Function.update_of_ne apart.symm]
    exact at'.owns
  have bits : (m₃.version p).root = false := by
    have root := losing.calm.other p r owns not_false top_ne (.inr (by rw [at'.inner]; rfl))
    have out : p ∉ ({n} : Finset Addr) := by
      rw [Finset.mem_singleton]
      exact apart.symm
    rw [settled, if_neg out] at root
    rw [detached.bits, root]
  have up₃ : m₃.up = m.up := by simpa using detached.up
  obtain ⟨q, above⟩ := tree.known p r at'.owns
  have inner_p : m₃.inner p = some (removed i (i.upper ikey)) := by rw [detached.inner, Function.update_self]
  have narrow : ¬ ((if (removed i (i.upper ikey)).child 0 = 0 then 1 else 0) < (removed i (i.upper ikey)).nkeys ∨
      (m₃.version p).root = true) := by
    rw [nkeys, bits]
    simp
  obtain ⟨m₅, down, run'⟩ := removeRest_down detached.calm apart top_ne
    (by rw [up₃, at'.parent]) (by rw [up₃, above]) inner_p narrow fuel ikey
  rw [removeMoved, if_neg shifted, if_neg shifted]
  refine Wp.of_eq run' ?_
  have last : (removed i (i.upper ikey)).child (removed i (i.upper ikey)).nkeys = 0 := by rw [nkeys, hole]
  rw [last]
  have inner₅ {a : Addr} (ne : a ≠ p) : m₅.inner a = m.inner a := by
    rw [down.inner, Function.update_of_ne ne, detached.inner, Function.update_of_ne ne]
  have fresh₅ : m₅.fresh = m.fresh := down.fresh.trans detached.fresh
  have fewer : nodes m₅.fresh (Function.update span n none) < nodes m.fresh span := by
    rw [fresh₅, ← contracted_id]
    exact nodes_contracted (tree.small n r losing.here) losing.here
  have losing' : Losing m₅ (Function.update span n none) top p r none ikey 0 := by
    refine ⟨?_, down.calm, owns, top_ne, losing.low, losing.high, .inl ⟨rfl, rfl, pos⟩, down.marked⟩
    rw [fresh₅]
    refine pruned.frame le_rfl fun a t here => ⟨by rw [down.up, up₃], ?_⟩
    have ne : a ≠ n := by
      rintro rfl
      rw [Function.update_self] at here
      cases here
    by_cases same : a = p
    · rw [same, Function.update_self, Function.update_self]
    · rw [Function.update_of_ne same, Function.update_of_ne same, Function.update_of_ne ne, inner₅ same]
  refine (again fewer losing').mono fun _ m' post => ?_
  obtain ⟨span', shed⟩ := post
  have ne_p {a : Addr} (none : span a = none) : a ≠ p := by
    rintro rfl
    rw [at'.owns] at none
    cases none
  have fall : Falling m m₅ span n p r r := by
    refine ⟨down.body.trans detached.body, fresh₅, down.root.trans detached.root,
      down.callbacks.trans detached.callbacks, fun a leaf => ?_, ?_, ⟨?_, ?_⟩, ?_, losing.here, at'.owns, le_rfl,
      tree.ne_zero at'.owns, apart, fun a none => ?_⟩
    · rw [inner₅, leaf]
      rintro rfl
      rw [at'.inner] at leaf
      cases leaf
    · rw [at'.inner]
      exact Option.some_ne_none i
    · rw [down.unlocked, unlock_root]
      rw [detached.version n apart, losing.marked]
    · rw [down.unlocked, dirty_unlock]
    · rw [down.up, up₃, at'.parent]
    · have ne : a ≠ n := by
        rintro rfl
        rw [losing.here] at none
        cases none
      refine ⟨by rw [down.up, up₃], inner₅ (ne_p none), by rw [down.body, detached.body], ?_⟩
      rw [down.version a ne (ne_p none), detached.version a (ne_p none)]
  rw [← contracted_id] at shed
  exact ⟨span', Shed.trans (f := id) fall (fun _ => .rfl) shed⟩

end

theorem moved_fix (pos : replacement = 0 → s.lo ≠ 0) (wide : s.lo < s.hi) (z : Nat) :
    moved s replacement z = 0 ↔ z = 0 := by
  by_cases zero : replacement = 0
  · have := pos zero
    rw [moved, if_pos zero, collapse]
    split <;> omega
  · rw [moved, if_neg zero, collapse_self]
    rfl

theorem removeUp_ok (fuel : Nat) (losing : Losing m span top n s x ikey replacement)
    (enough : nodes m.fresh span ≤ fuel) : Runs (removeUp fuel n ikey replacement) m fun _ m' =>
      ∃ span', Shed m m' span span' top n (moved s replacement) := by
  induction fuel generalizing m span n s x ikey replacement with
  | zero =>
      have := nodes_pos (losing.tree.small n s losing.here) losing.here
      omega
  | succ fuel ih =>
      obtain ⟨p, r, i, before, behind, at'⟩ := losing.attached
      have wide := losing.tree.wide n s losing.here
      obtain ⟨q, above⟩ := losing.tree.known p r at'.owns
      have owns : Function.update span n none p = some r := by
        rw [Function.update_of_ne at'.ne.symm, at'.owns]
      have free := losing.calm.version_free owns (by rw [Finset.mem_singleton]; exact at'.ne.symm)
      refine Wp.of_eq (removeUp_at fuel at'.parent (losing.tree.ne_zero at'.owns) at'.inner above free
        (congrArg Prod.snd at'.place.here)) ?_
      rcases losing.kind with ⟨rfl, rfl, pos⟩ | ⟨j, rfl, only⟩
      · have fix : ∀ z, moved s 0 z = 0 ↔ z = 0 := moved_fix (fun _ => pos) wide
        by_cases some : before ++ behind = []
        · exact at'.alone losing pos some fun fewer losing' => ih losing' (by omega)
        · exact at'.gone losing pos some fun m₁ ikey' mended => mended.rest fix losing at' fun fewer losing' =>
            ih losing' (by omega)
      · have ok := losing.tree.node n s j losing.here (Function.update_self ..)
        obtain ⟨t, owned⟩ := tiles_owned ok.tiles (x := (s.lo, replacement)) (by simp [only])
        have ne : replacement ≠ 0 := losing.tree.ne_zero owned
        rw [moved, if_neg ne, collapse_self]
        exact at'.taken losing only fun m₁ ikey' mended => mended.rest (fun _ => .rfl) losing at' fun fewer losing' =>
          ih losing' (by omega)

end Incll.Proof.Layers
