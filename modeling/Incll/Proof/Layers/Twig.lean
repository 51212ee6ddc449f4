import Incll.Proof.Layers.Lookup

/-! # The nodes that `make_new_layer` makes -/

namespace Incll.Proof.Layers
open Incll.Lib Incll.Model Incll.Model.Layers

variable {m m' m₁ : Mem} {n : Addr} {oka ka before : List UInt8} {k : Nat} {t : Twig}

/-! Two keys that differ. -/

theorem compareKey_eq (k x : Key) : k.compareKey x = Ord.compare (Key.rank k) (Key.rank x) := compare_eq k x.ikey x.len

/-- Different keys with the same place are both longer than a slice, and they differ after it. -/
theorem longer_of_eq {s t : List UInt8} (ne : s ≠ t)
    (same : (Key.ofBytes s).compareKey (Key.ofBytes t) = .eq) :
    8 < s.length ∧ 8 < t.length ∧ s.take 8 = t.take 8 ∧ s.drop 8 ≠ t.drop 8 := by
  rw [compareKey_eq, compare_eq_iff_eq] at same
  have differ : s.drop 8 ≠ t.drop 8 := fun equal => ne (ofBytes_inj same equal)
  obtain ⟨ikey, len⟩ := rank_inj same
  simp only [Key.ofBytes] at ikey len
  by_cases short : s.length ≤ 8
  · refine absurd ?_ differ
    rw [List.drop_eq_nil_of_le short, List.drop_eq_nil_of_le (by omega)]
  · exact ⟨by omega, by omega, take_eq ikey (by omega), differ⟩

/-! The twig. -/

/-- A node of the twig. -/
def twigBody (s : List UInt8) (v : Leafvalue) : LeafBody :=
  ({ (LeafBody.make 0).assignInitializeForLayer 0 (Key.ofBytes s) with
    permutation := .makeSorted 1 } : LeafBody).setValue 0 v

theorem twigBody_empty (s : List UInt8) : twigBody s .empty =
    { (LeafBody.make 0).assignInitializeForLayer 0 (Key.ofBytes s) with permutation := .makeSorted 1 } := by
  have same : Function.update (LeafBody.make 0).lv 0 .empty = (LeafBody.make 0).lv :=
    Function.update_eq_self 0 (LeafBody.make 0).lv
  exact congrArg (fun lv => { (LeafBody.make 0).assignInitializeForLayer 0 (Key.ofBytes s) with
    permutation := .makeSorted 1, lv := lv }) same

theorem entries_twigBody (s : List UInt8) (v : Leafvalue) :
    entries (twigBody s v) = [⟨Key.comparable s, layerKeylenx, [], v⟩] := by
  simp [entries, twigBody, LeafBody.setValue, Kpermuter.live, Kpermuter.makeSorted, entryAt,
    LeafBody.assignInitializeForLayer, LeafBody.hasKsuf, Key.ofBytes, layerKeylenx, ksufKeylenx]

theorem entriesOk_twigBody (s : List UInt8) (v : Leafvalue) : EntriesOk (twigBody s v) := by
  have valid := leafValid_make 0
  refine ⟨⟨⟨permValid_makeSorted (by decide), valid.body.iksuf, valid.body.ksuf⟩, valid.bag⟩, ?_, fun e member => ?_⟩
  · rw [entries_twigBody]
    exact List.pairwise_singleton ..
  · rw [entries_twigBody, List.mem_singleton] at member
    subst member
    exact ⟨.inr (.inr rfl), by simp [layerKeylenx, ksufKeylenx]⟩

def twigNode (m : Mem) (i : Nat) : Addr := m.fresh + nodeSize * i

/-- After `k` iterations: `k` nodes, each of which leads to the next one. -/
structure Twigged (m : Mem) (n : Addr) (before oka ka : List UInt8) (k : Nat) (m' : Mem) (t : Twig) : Prop where
  twig : t = ⟨if k = 0 then n else m.fresh, if k = 0 then n else twigNode m (k - 1),
    before ++ ka.take (ikeySize * k), oka.drop (ikeySize * k), ka.drop (ikeySize * k)⟩
  equal : ∀ i < k, (Key.ofBytes (oka.drop (ikeySize * i))).compareKey (Key.ofBytes (ka.drop (ikeySize * i))) = .eq
  fresh : m'.fresh = m.fresh + nodeSize * k
  room : k ≠ 0 → m'.fresh ≤ memoryLimit
  root : m'.root = m.root
  old : ∀ a < m.fresh, SameNode m m' a
  node : ∀ i < k, m'.up (twigNode m i) = some 0 ∧
    m'.body (twigNode m i) = some (twigBody (oka.drop (ikeySize * i))
      (if i + 1 < k then .ofLayer (twigNode m (i + 1)) else .empty)) ∧
    m'.version (twigNode m i) = { Nodeversion.make with root := true }

theorem twigged_zero : Twigged m n before oka ka 0 m ⟨n, n, before, oka, ka⟩ :=
  ⟨by simp, nofun, rfl, fun h => absurd rfl h, rfl, fun a _ => SameNode.refl m a, nofun⟩

theorem twigNode_inj {i j : Nat} (same : twigNode m i = twigNode m j) : i = j := by
  exact Nat.eq_of_mul_eq_mul_left (by decide) (Nat.add_left_cancel same)

theorem le_twigNode (i : Nat) : m.fresh ≤ twigNode m i := Nat.le_add_right ..

/-- The keys that are left still differ. -/
theorem drop_ne (ne : oka ≠ ka) (equal : ∀ i < k, (Key.ofBytes (oka.drop (ikeySize * i))).compareKey
    (Key.ofBytes (ka.drop (ikeySize * i))) = .eq) {j : Nat} (le : j ≤ k) :
    oka.drop (ikeySize * j) ≠ ka.drop (ikeySize * j) := by
  induction j with
  | zero => simpa using ne
  | succ j ih =>
      have step := (longer_of_eq (ih (by omega)) (equal j (by omega))).2.2.2
      rwa [List.drop_drop, List.drop_drop] at step

theorem Twigged.differ (twigged : Twigged m n before oka ka k m₁ t) (ne : oka ≠ ka) : t.oka ≠ t.ka := by
  rw [twigged.twig]
  exact drop_ne ne twigged.equal le_rfl

/-- The twig after one more iteration. -/
def Twig.next (t : Twig) (n nl : Addr) : Twig :=
  ⟨if t.head ≠ n then t.head else nl, nl, t.before ++ t.ka.take ikeySize, t.oka.drop ikeySize,
    t.ka.drop ikeySize⟩

/-- The memory after one more iteration. -/
def twigMem (m : Mem) (n : Addr) (t : Twig) : Mem :=
  let m' := m.alloc { Nodeversion.make with root := true } (.leaf ⟨.make 0, twigBody t.oka .empty⟩)
  if t.head ≠ n then m'.mapBody t.tail (.setValue 0 (.ofLayer m.fresh)) else m'

theorem fresh_twigMem : (twigMem m n t).fresh = m.fresh + nodeSize := by
  simp only [twigMem]
  split <;> rfl

theorem root_twigMem : (twigMem m n t).root = m.root := by
  simp only [twigMem]
  split <;> rfl

theorem version_twigMem : (twigMem m n t).version =
    Function.update m.version m.fresh { Nodeversion.make with root := true } := by
  simp only [twigMem]
  split <;> rfl

theorem up_twigMem : (twigMem m n t).up = Function.update m.up m.fresh (some 0) := by
  simp only [twigMem]
  split
  · refine (Mem.up_mapBody _ _ _ ?_).trans (Mem.up_alloc ..)
    exact fun _ => rfl
  · rw [Mem.up_alloc]
    rfl

theorem inner_twigMem : (twigMem m n t).inner = Function.update m.inner m.fresh none := by
  simp only [twigMem]
  split
  · rw [Mem.inner_mapBody, Mem.inner_alloc]
    rfl
  · rw [Mem.inner_alloc]
    rfl

theorem body_twigMem : (twigMem m n t).body =
    if t.head ≠ n then Function.update (Function.update m.body m.fresh (some (twigBody t.oka .empty))) t.tail
      ((Function.update m.body m.fresh (some (twigBody t.oka .empty)) t.tail).map
        (.setValue 0 (.ofLayer m.fresh)))
    else Function.update m.body m.fresh (some (twigBody t.oka .empty)) := by
  simp only [twigMem]
  split
  · refine (Mem.body_mapBody _ _ _ ?_).trans ?_
    · exact fun _ => rfl
    · rw [Mem.body_alloc]
      rfl
  · rw [Mem.body_alloc]
    rfl

theorem sameNode_twigMem {a : Addr} (ne : a ≠ m.fresh) (tail : t.head ≠ n → a ≠ t.tail) :
    SameNode m (twigMem m n t) a := by
  refine ⟨?_, ?_, ?_, ?_⟩
  · rw [up_twigMem, Function.update_of_ne ne]
  · rw [inner_twigMem, Function.update_of_ne ne]
  · rw [body_twigMem]
    split
    · next deep => rw [Function.update_of_ne (tail deep), Function.update_of_ne ne]
    · rw [Function.update_of_ne ne]
  · rw [version_twigMem, Function.update_of_ne ne]

theorem Twigged.next (twigged : Twigged m n before oka ka k m₁ t) (low : n < m.fresh)
    (same : (Key.ofBytes t.oka).compareKey (Key.ofBytes t.ka) = .eq)
    (room : m₁.fresh + nodeSize ≤ memoryLimit) :
    Twigged m n before oka ka (k + 1) (twigMem m₁ n t) (Twig.next t n m₁.fresh) := by
  have fresh₁ : m₁.fresh = twigNode m k := twigged.fresh
  have head : t.head ≠ n ↔ k ≠ 0 := by
    rw [twigged.twig]
    by_cases zero : k = 0
    · simp [zero]
    · simp only [if_neg zero]
      exact ⟨fun _ => zero, fun _ => low.ne'⟩
  have oka_t : t.oka = oka.drop (ikeySize * k) := by rw [twigged.twig]
  have ka_t : t.ka = ka.drop (ikeySize * k) := by rw [twigged.twig]
  have tail (deep : k ≠ 0) : t.tail = twigNode m (k - 1) := by
    rw [twigged.twig]
    exact if_neg deep
  have tail_ne (deep : k ≠ 0) : t.tail ≠ twigNode m k := by
    rw [tail deep]
    exact fun equal => by have := twigNode_inj equal; omega
  refine ⟨?_, fun i less => ?_, ?_, fun _ => ?_, ?_, fun a small => ?_, fun i less => ?_⟩
  · have first : (if t.head ≠ n then t.head else m₁.fresh) = m.fresh := by
      by_cases zero : k = 0
      · rw [if_neg (by rw [head, not_not]; exact zero), fresh₁, zero]
        rfl
      · rw [if_pos (head.mpr zero), twigged.twig]
        exact if_neg zero
    have read : t.before ++ t.ka.take ikeySize = before ++ ka.take (ikeySize * (k + 1)) := by
      rw [twigged.twig, Nat.mul_succ, List.take_add, List.append_assoc]
    rw [Twig.next, first, read, oka_t, ka_t, List.drop_drop, List.drop_drop, fresh₁]
    rfl
  · by_cases last : i = k
    · rw [last, ← oka_t, ← ka_t, same]
    · exact twigged.equal i (by omega)
  · rw [fresh_twigMem, twigged.fresh, Nat.mul_succ, Nat.add_assoc]
  · rw [fresh_twigMem]
    exact room
  · rw [root_twigMem, twigged.root]
  · refine (twigged.old a small).trans (sameNode_twigMem ?_ fun deep => ?_)
    · rw [fresh₁]
      exact (small.trans_le (le_twigNode k)).ne
    · rw [tail (head.mp deep)]
      exact (small.trans_le (le_twigNode _)).ne
  · by_cases last : i = k
    · subst last
      rw [if_neg (by omega), up_twigMem, version_twigMem, body_twigMem, ← fresh₁, ← oka_t]
      refine ⟨Function.update_self .., ?_, Function.update_self ..⟩
      split
      · next deep =>
          rw [Function.update_of_ne (by rw [fresh₁]; exact (tail_ne (head.mp deep)).symm), Function.update_self]
      · exact Function.update_self ..
    · have old : i < k := by omega
      have ne : twigNode m i ≠ m₁.fresh := by
        rw [fresh₁]
        exact fun equal => last (twigNode_inj equal)
      obtain ⟨up, body, version⟩ := twigged.node i old
      by_cases previous : i + 1 = k
      · have deep : k ≠ 0 := by omega
        have here : t.tail = twigNode m i := by rw [tail deep, ← previous, Nat.add_sub_cancel]
        rw [up_twigMem, version_twigMem, Function.update_of_ne ne, Function.update_of_ne ne, body_twigMem,
          if_pos (head.mpr deep), here, Function.update_self, Function.update_of_ne ne, body,
          if_neg (by omega), if_pos (by omega), fresh₁, previous]
        exact ⟨up, congrArg some (setValue_setValue ..), version⟩
      · have kept := sameNode_twigMem (m := m₁) (n := n) (t := t) ne fun deep => by
          rw [tail (head.mp deep)]
          exact fun equal => by have := twigNode_inj equal; omega
        rw [kept.up, kept.body, kept.version]
        refine ⟨up, ?_, version⟩
        rw [body]
        by_cases more : i + 1 < k
        · rw [if_pos more, if_pos (by omega)]
        · omega

theorem runs_alloc_room {α : Type} {s : Mem} {v : Nodeversion} {x : Kind} {f : Addr → T α} {Q : α → Mem → Prop}
    (post : s.fresh + nodeSize ≤ memoryLimit → Runs (f s.fresh) (s.alloc v x) Q) : Runs (alloc v x >>= f) s Q := by
  by_cases room : s.fresh + nodeSize ≤ memoryLimit
  · exact runs_alloc (post room)
  · refine Wp.bind ?_
    rw [Wp, alloc_eq, if_neg room]

theorem Twigged.tail (twigged : Twigged m n before oka ka k m₁ t)
    (deep : t.head ≠ n) : 0 < k ∧ t.tail = twigNode m (k - 1) := by
  rw [twigged.twig] at deep ⊢
  by_cases zero : k = 0
  · simp [zero] at deep
  · exact ⟨Nat.pos_of_ne_zero zero, if_neg zero⟩

/-- The loop ends where the keys differ in a slice or one of them ends. -/
theorem makeTwig_ok (fuel : Nat) (twigged : Twigged m n before oka ka k m₁ t) (low : n < m.fresh)
    (ne : oka ≠ ka) (enough : t.ka.length < fuel) :
    Runs (makeTwig n fuel t) m₁ fun t' m' => ∃ k', Twigged m n before oka ka k' m' t' ∧
      (Key.ofBytes t'.oka).compareKey (Key.ofBytes t'.ka) ≠ .eq := by
  induction fuel generalizing k m₁ t with
  | zero => exact absurd enough (Nat.not_lt_zero _)
  | succ fuel ih =>
      rw [makeTwig]
      by_cases same : (Key.ofBytes t.oka).compareKey (Key.ofBytes t.ka) = .eq
      · rw [if_pos same]
        have long := (longer_of_eq (twigged.differ ne) same).2.1
        refine runs_alloc_room fun room => ?_
        have next := twigged.next low same room
        have rest := ih next (by
          change (t.ka.drop ikeySize).length < fuel
          simp only [List.length_drop, ikeySize]
          omega)
        rw [← twigBody_empty]
        by_cases deep : t.head ≠ n
        · rw [if_pos deep]
          have body : ∃ b, (m₁.alloc { Nodeversion.make with root := true }
              (.leaf ⟨.make 0, twigBody t.oka .empty⟩)).body t.tail = some b := by
            obtain ⟨positive, at'⟩ := twigged.tail deep
            obtain ⟨-, here, -⟩ := twigged.node (k - 1) (by omega)
            rw [Mem.body_alloc, Function.update_of_ne, at', here]
            · exact ⟨_, rfl⟩
            · rw [at', twigged.fresh]
              exact fun equal => by have := twigNode_inj (m := m) (j := k) equal; omega
          obtain ⟨b, body⟩ := body
          refine Wp.step (modifyBody_ok _ body) ?_
          rw [twigMem, if_pos deep] at rest
          exact rest
        · rw [if_neg deep]
          rw [twigMem, if_neg deep] at rest
          exact rest
      · rw [if_neg same]
        exact Wp.pure ⟨k, twigged, same⟩

end Incll.Proof.Layers
