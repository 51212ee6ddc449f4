import Incll.Proof.Layers.NewLayer

/-! # The run of `make_new_layer` -/

namespace Incll.Proof.Layers
open Incll.Lib Incll.Model Incll.Model.Layers

variable {m m' m₁ : Mem} {c : Layers.Tcursor} {b d : LeafBody} {p k : Nat} {v : Leafvalue} {a : Addr} {t : Twig}

/-- `make_new_layer`, the assignment of the value and `finish(1)`. -/
def insertLayer (c : Layers.Tcursor) (p : Nat) (v : Leafvalue) : T Unit := do
  let c ← makeNewLayer c p
  modifyBody c.n (.setValue (c.p.getD 0) v)
  if c.state = 2 then finishInsert c
  unlock c.n

/-- What is left of the old and of the new key after `i` more slices. -/
def oldRest (b : LeafBody) (p i : Nat) : List UInt8 := (b.getKsuf p).drop (ikeySize * i)

def newRest (c : Layers.Tcursor) (i : Nat) : List UInt8 := (c.rest.drop ikeySize).drop (ikeySize * i)

/-- The memory after the new layers are linked: `k` nodes with one entry and the last one. -/
structure Made (m : Mem) (c : Layers.Tcursor) (b : LeafBody) (p : Nat) (v : Leafvalue) (k : Nat) (m' : Mem) :
    Prop where
  equal : ∀ i < k, (Key.ofBytes (oldRest b p i)).compareKey (Key.ofBytes (newRest c i)) = .eq
  differ : (Key.ofBytes (oldRest b p k)).compareKey (Key.ofBytes (newRest c k)) ≠ .eq
  fresh : m'.fresh = m.fresh + nodeSize * (k + 1)
  room : m'.fresh ≤ memoryLimit
  root : m'.root = m.root
  old : ∀ a < m.fresh, a ≠ c.n → SameNode m m' a
  leaf : m'.up c.n = m.up c.n ∧ m'.inner c.n = m.inner c.n ∧
    m'.body c.n = some (toLayer b p (.ofLayer m.fresh)) ∧
    m'.version c.n = ({ m.version c.n with inserting := true } : Nodeversion).unlock
  roots : ∀ i ≤ k, m'.up (twigNode m i) = some 0 ∧
    flags (m'.version (twigNode m i)) = flags { Nodeversion.make with root := true }
  twig : ∀ i < k, m'.body (twigNode m i) = some (twigBody (oldRest b p i) (.ofLayer (twigNode m (i + 1))))
  bottom : ∃ d, m'.body (twigNode m k) = some d ∧ TwoKeys (oldRest b p k) (newRest c k) (b.lv p) v d

/-- One write to a leaf. -/
theorem wrote_ok {f : LeafBody → LeafBody} (h : m.body a = some b) (plain : ∀ b, (f b).parent = b.parent)
    (bare : ∀ b, (f b).bare = f b.bare) :
    ∃ m', modifyBody a f m = .ok ((), m') ∧ Wrote m m' a (f b) ∧ m'.root = m.root := by
  refine ⟨_, modifyBody_ok f h, ⟨Mem.up_mapBody _ _ _ plain, Mem.inner_mapBody .., ?_, rfl, rfl⟩, rfl⟩
  rw [Mem.body_mapBody _ _ _ bare, h]
  rfl

theorem Wrote.sameNode (wrote : Wrote m m' a b) {x : Addr} (ne : x ≠ a) : SameNode m m' x :=
  ⟨by rw [wrote.up], by rw [wrote.inner], by rw [wrote.body, Function.update_of_ne ne], by rw [wrote.version]⟩

/-- The last node of the twig, if there is one, is linked to the new leaf. -/
theorem linkTail_ok {n nl : Addr} {before oka ka : List UInt8} (twigged : Twigged m n before oka ka k m₁ t)
    (low : n < m.fresh) (nl_eq : nl = twigNode m k) {m₂ : Mem}
    (same : ∀ i < k, SameNode m₁ m₂ (twigNode m i)) :
    ∃ m₃, (do if t.tail ≠ n then modifyBody t.tail (.setValue 0 (.ofLayer nl)) : T Unit) m₂ = .ok ((), m₃) ∧
      m₃.fresh = m₂.fresh ∧ m₃.root = m₂.root ∧ (∀ a, (∀ i < k, a ≠ twigNode m i) → SameNode m₂ m₃ a) ∧
      ∀ i < k, m₃.up (twigNode m i) = some 0 ∧
        m₃.body (twigNode m i) = some (twigBody (oka.drop (ikeySize * i)) (.ofLayer (twigNode m (i + 1)))) ∧
        m₃.version (twigNode m i) = { Nodeversion.make with root := true } := by
  by_cases zero : k = 0
  · subst zero
    have tail : t.tail = n := by rw [twigged.twig]; rfl
    rw [if_neg (not_not.mpr tail)]
    exact ⟨m₂, rfl, rfl, rfl, fun a _ => SameNode.refl m₂ a, nofun⟩
  · have tail : t.tail = twigNode m (k - 1) := by
      rw [twigged.twig]
      exact if_neg zero
    have ne : t.tail ≠ n := by
      rw [tail]
      exact (low.trans_le (le_twigNode _)).ne'
    obtain ⟨-, body, -⟩ := twigged.node (k - 1) (by omega)
    rw [if_neg (by omega), ← (same (k - 1) (by omega)).body, ← tail] at body
    obtain ⟨m₃, run, wrote, root⟩ := wrote_ok (f := .setValue 0 (.ofLayer nl)) body (fun _ => rfl) fun _ => rfl
    rw [if_pos ne]
    refine ⟨m₃, run, wrote.fresh, root, fun a out => wrote.sameNode ?_, fun i less => ?_⟩
    · rw [tail]
      exact out (k - 1) (by omega)
    · obtain ⟨up, body_i, version⟩ := twigged.node i less
      rw [wrote.up, wrote.version, (same i less).up, (same i less).version]
      refine ⟨up, ?_, version⟩
      rw [wrote.body]
      by_cases last : i + 1 = k
      · obtain rfl : i = k - 1 := by omega
        rw [tail, Function.update_self, nl_eq, ← last]
        exact congrArg some (setValue_setValue ..)
      · rw [tail, Function.update_of_ne fun equal => by have := twigNode_inj equal; omega, (same i less).body, body_i,
          if_pos (by omega)]

/-- The entry in slot `p` of the leaf of the cursor has the slice of the new key, which goes on in
another way. -/
structure Conflict (m : Mem) (span : Addr → Option Span) (top : Addr) (c : Layers.Tcursor) (s : Span)
    (b : LeafBody) (p : Nat) : Prop where
  layer : Layer m span top {c.n}
  here : span c.n = some s
  body : m.body c.n = some b
  live : p ∈ b.permutation.live
  ikey : b.ikey0 p = c.key.ikey
  old : b.hasKsuf p = true
  new : c.key.hasSuffix = true
  differ : b.getKsuf p ≠ c.key.suffix
  state : c.state = 2

/-- The end of an `if` without an else branch. -/
theorem join_ok {α : Type} {cond : Prop} [Decidable cond] {x : T Unit} {f : Unit → T α} {Q : α → Mem → Prop}
    (run : (do if cond then x : T Unit) m = .ok ((), m')) (rest : Runs (f ()) m' Q) :
    Runs (if cond then x >>= f else f ()) m Q := by
  by_cases yes : cond
  · rw [if_pos yes] at run ⊢
    exact Wp.step run rest
  · rw [if_neg yes] at run ⊢
    cases run
    exact rest

theorem sameNode_setVersion {x : Addr} (ne : x ≠ a) (w : Nodeversion) : SameNode m (m.setVersion a w) x :=
  ⟨rfl, rfl, rfl, Function.update_of_ne ne ..⟩

theorem sameNode_alloc {x : Addr} (ne : x ≠ m.fresh) (w : Nodeversion) (y : Kind) : SameNode m (m.alloc w y) x :=
  ⟨by rw [Mem.up_alloc, Function.update_of_ne ne], by rw [Mem.inner_alloc, Function.update_of_ne ne],
    by rw [Mem.body_alloc, Function.update_of_ne ne], Function.update_of_ne ne ..⟩

/-- `find_insert` comes to `make_new_layer` with a slot that holds another suffix. -/
theorem conflict_of_differ {span : Addr → Option Span} {top : Addr} {s : Span} (layer : Layer m span top {c.n})
    (here : span c.n = some s) (body : m.body c.n = some b) (found : (b.lower c.key).2 = some p)
    (differ : b.ksufMatches p c.key = .differ) (state : c.state = 2) : Conflict m span top c s b p := by
  have ok := (layer.leaves _ _ _ here body).ok
  obtain ⟨small, rfl, rank⟩ := (lower_place ok c.key).found p found
  have live := ok.valid.body.permutation.get_live small
  have each := ok.each _ (mem_entries.mpr ⟨_, live, rfl⟩)
  obtain ⟨ikey, len⟩ := rank_inj rank
  rw [LeafBody.ksufMatches] at differ
  split at differ
  · cases differ
  · next long =>
      split at differ
      · cases differ
      · next plain =>
          split at differ
          · cases differ
          · next other =>
              have keylenx : b.keylenx (b.permutation.get (b.lower c.key).1) = ksufKeylenx := by
                rcases each.len with short | suffix | deep
                · simp only [entryAt, ikeySize, ksufKeylenx] at short long
                  omega
                · exact suffix
                · exact absurd deep plain
              refine ⟨layer, here, body, live, ikey, hasKsuf_keylenx.mpr keylenx, (hasSuffix_iff _).mpr ?_, other, state⟩
              simp only [entryAt, keylenx, ksufKeylenx] at len
              omega

/-- The part of `put` from `make_new_layer` on. -/
theorem put_insertLayer {key : List UInt8} {r : Addr} {c₀ : Layers.Tcursor} {m₀ : Mem}
    (root : fixRoot m = .ok (r, m₀)) (found : findLocked r key m₀ = .ok (c₀, m₁)) (absent : c₀.state ≠ 1)
    (slot : c₀.p = some p) : put key v m = insertLayer { c₀ with state := 2 } p v m₁ := by
  have insert : findInsert key m = makeNewLayer { c₀ with state := 2 } p m₁ := by
    rw [findInsert, bind_ok root, bind_ok found, if_neg absent]
    simp only [slot]
  rw [put, insertLayer]
  change (findInsert key m).bind _ = (makeNewLayer _ p m₁).bind _
  rw [insert]

theorem insertLayer_made {span : Addr → Option Span} {top : Addr} {s : Span}
    (conflict : Conflict m span top c s b p) (v : Leafvalue) :
    Runs (insertLayer c p v) m fun _ m' => ∃ k, Made m c b p v k m' := by
  have low : c.n < m.fresh := conflict.layer.tree.small _ _ conflict.here
  have differ : b.getKsuf p ≠ c.rest.drop ikeySize := conflict.differ
  obtain ⟨q, above⟩ := up_of_body conflict.body
  rw [insertLayer]
  refine Wp.bind ?_
  rw [makeNewLayer]
  refine Wp.step (leaf_ok conflict.body above) ?_
  refine Wp.call (makeTwig_ok _ (twigged_zero (n := c.n)) low differ (by
    simp only [List.length_drop]
    omega)) fun t m₁ made => ?_
  obtain ⟨k, twigged, different⟩ := made
  obtain ⟨nb, built, bottom⟩ := newLayerBody_ok different (b.lv p)
  simp only [built]
  refine runs_alloc_room fun room => ?_
  have nl : m₁.fresh = twigNode m k := twigged.fresh
  rw [nl]
  have n_ne (i : Nat) : c.n ≠ twigNode m i := (low.trans_le (le_twigNode i)).ne
  -- the new leaf is allocated and locked, and the old leaf is marked
  generalize memory₂ : m₁.alloc _ _ = m₂
  have same₂ (x : Addr) (ne : x ≠ twigNode m k) : SameNode m₁ m₂ x := by
    rw [← nl] at ne
    rw [← memory₂]
    exact sameNode_alloc ne _ _
  have up₂ : m₂.up (twigNode m k) = some 0 := by
    rw [← memory₂, Mem.up_alloc, ← nl, Function.update_self]
    exact congrArg some bottom.parent
  have body₂ : m₂.body (twigNode m k) = some nb := by
    rw [← memory₂, Mem.body_alloc, ← nl, Function.update_self]
    refine congrArg some ?_
    cases nb
    obtain rfl := bottom.parent
    rfl
  have version₂ : m₂.version (twigNode m k) = { Nodeversion.make with root := true } := by
    rw [← memory₂, Mem.version_alloc, ← nl, Function.update_self]
  have fresh₂ : m₂.fresh = twigNode m k + nodeSize := by
    rw [← memory₂, Mem.fresh_alloc, nl]
  have root₂ : m₂.root = m.root := by
    rw [← memory₂]
    exact twigged.root
  refine Wp.step (lock_ok up₂ (by rw [version₂]; rfl) (by rw [version₂]; rfl)) ?_
  generalize memory₃ : m₂.setVersion (twigNode m k) _ = m₃
  have same₃ (x : Addr) (ne : x ≠ twigNode m k) : SameNode m₁ m₃ x := by
    rw [← memory₃]
    exact (same₂ x ne).trans (sameNode_setVersion ne _)
  have above₃ : m₃.up c.n = some q := by
    rw [(same₃ c.n (n_ne k)).up, (twigged.old c.n low).up, above]
  refine Wp.step (markInsert_ok above₃) ?_
  generalize memory₄ : m₃.setVersion c.n _ = m₄
  have same₄ (x : Addr) (ne : x ≠ twigNode m k) (ne' : x ≠ c.n) : SameNode m₁ m₄ x := by
    rw [← memory₄]
    exact (same₃ x ne).trans (sameNode_setVersion ne' _)
  -- the new nodes are linked
  obtain ⟨m₅, run₅, fresh₅, root₅, same₅, twig₅⟩ := linkTail_ok twigged low rfl fun i less =>
    same₄ (twigNode m i) (fun equal => by have := twigNode_inj equal; omega) (n_ne i).symm
  refine join_ok run₅ ?_
  have leaf₅ := same₅ c.n fun i _ => n_ne i
  have new₅ := same₅ (twigNode m k) fun i less equal => by have := twigNode_inj equal; omega
  have head : (if t.head ≠ c.n then t.head else twigNode m k) = m.fresh := by
    rw [twigged.twig]
    by_cases zero : k = 0
    · simp [zero, twigNode]
    · simp [zero, low.ne']
  rw [head]
  have body₅ : m₅.body c.n = some b := by
    rw [leaf₅.body, ← memory₄]
    change m₃.body c.n = _
    rw [(same₃ c.n (n_ne k)).body, (twigged.old c.n low).body, conflict.body]
  obtain ⟨m₆, run₆, wrote₆, root₆⟩ := wrote_ok (f := .setValue p (.ofLayer m.fresh)) body₅ (fun _ => rfl) fun _ => rfl
  refine Wp.step run₆ ?_
  have body₆ : m₆.body c.n = some (b.setValue p (.ofLayer m.fresh)) := by rw [wrote₆.body, Function.update_self]
  obtain ⟨m₇, run₇, wrote₇, root₇⟩ := wrote_ok (f := fun b =>
    { b with keylenx := Function.update b.keylenx p layerKeylenx }) body₆ (fun _ => rfl) fun _ => rfl
  refine Wp.step run₇ ?_
  have wrote := wrote₆.trans wrote₇
  have above₇ : m₇.up c.n = some q := by
    rw [wrote.up, leaf₅.up, ← memory₄]
    exact above₃
  refine Wp.step (unlock_ok above₇) ?_
  generalize memory₈ : m₇.setVersion c.n _ = m₈
  have same₈ (x : Addr) (ne : x ≠ c.n) : SameNode m₅ m₈ x := by
    rw [← memory₈]
    exact (wrote.sameNode ne).trans (sameNode_setVersion ne _)
  -- the new key is published and the new leaf unlocked
  refine Wp.pure ?_
  simp only [conflict.state, if_true]
  change Runs (do
    modifyBody (twigNode m k) (.setValue (newPlace t.oka t.ka) v)
    modifyBody (twigNode m k) fun b => b.setPermutation (b.permutation.insertFromBack (newPlace t.oka t.ka))
    unlock (twigNode m k)) m₈ _
  have body₈ : m₈.body (twigNode m k) = some nb := by
    rw [(same₈ _ (n_ne k).symm).body, new₅.body, ← memory₄]
    change m₃.body (twigNode m k) = _
    rw [← memory₃]
    exact body₂
  obtain ⟨m₉, run₉, wrote₉, root₉⟩ := wrote_ok (f := .setValue (newPlace t.oka t.ka) v) body₈ (fun _ => rfl)
    fun _ => rfl
  refine Wp.step run₉ ?_
  have body₉ : m₉.body (twigNode m k) = some (nb.setValue (newPlace t.oka t.ka) v) := by
    rw [wrote₉.body, Function.update_self]
  obtain ⟨m', run', wrote', root'⟩ := wrote_ok (f := fun b =>
    b.setPermutation (b.permutation.insertFromBack (newPlace t.oka t.ka))) body₉ (fun _ => rfl) fun _ => rfl
  refine Wp.step run' ?_
  have last := wrote₉.trans wrote'
  have above' : m'.up (twigNode m k) = some 0 := by
    rw [last.up, (same₈ _ (n_ne k).symm).up, new₅.up, ← memory₄]
    change m₃.up (twigNode m k) = _
    rw [← memory₃]
    exact up₂
  refine Wp.of_ok (unlock_ok above') ⟨k, ?_⟩
  generalize memory : m'.setVersion (twigNode m k) _ = m''
  have same' (x : Addr) (ne : x ≠ twigNode m k) : SameNode m₈ m'' x := by
    rw [← memory]
    exact (last.sameNode ne).trans (sameNode_setVersion ne _)
  have fresh' : m''.fresh = m.fresh + nodeSize * (k + 1) := by
    rw [← memory, Mem.fresh_setVersion, last.fresh, ← memory₈, Mem.fresh_setVersion, wrote.fresh, fresh₅, ← memory₄,
      Mem.fresh_setVersion, ← memory₃, Mem.fresh_setVersion, fresh₂, Nat.mul_succ, ← Nat.add_assoc]
    rfl
  have oka_t : t.oka = oldRest b p k := by
    rw [twigged.twig]
    rfl
  have ka_t : t.ka = newRest c k := by
    rw [twigged.twig]
    rfl
  have kept (i : Nat) (less : i < k) : SameNode m₅ m'' (twigNode m i) :=
    (same₈ _ (n_ne i).symm).trans (same' _ fun equal => by have := twigNode_inj equal; omega)
  have leaf_n := same' c.n (n_ne k)
  refine ⟨twigged.equal, by rw [← oka_t, ← ka_t]; exact different, fresh', ?_, ?_, fun x small ne => ?_,
    ⟨?_, ?_, ?_, ?_⟩, fun i le => ?_, fun i less => ?_,
    ⟨finishBody nb (newPlace t.oka t.ka) v, ?_, ?_⟩⟩
  · rw [fresh', Nat.mul_succ, ← Nat.add_assoc]
    rw [nl] at room
    exact room
  · rw [← memory]
    change m'.root = _
    rw [root', root₉, ← memory₈]
    change m₇.root = _
    rw [root₇, root₆, root₅, ← memory₄]
    change m₃.root = _
    rw [← memory₃]
    exact root₂
  · have apart (i : Nat) : x ≠ twigNode m i := (small.trans_le (le_twigNode i)).ne
    exact ((((twigged.old x small).trans (same₄ x (apart k) ne)).trans (same₅ x fun i _ => apart i)).trans
      (same₈ x ne)).trans (same' x (apart k))
  · rw [leaf_n.up, ← memory₈]
    change m₇.up c.n = _
    rw [above₇, above]
  · rw [leaf_n.inner, ← memory₈]
    change m₇.inner c.n = _
    rw [wrote.inner, leaf₅.inner, ← memory₄]
    change m₃.inner c.n = _
    rw [(same₃ c.n (n_ne k)).inner, (twigged.old c.n low).inner]
  · rw [leaf_n.body, ← memory₈]
    change m₇.body c.n = _
    rw [wrote.body, Function.update_self]
    rfl
  · rw [leaf_n.version, ← memory₈, Mem.version_setVersion, Function.update_self, wrote.version, leaf₅.version,
      ← memory₄, Mem.version_setVersion, Function.update_self, (same₃ c.n (n_ne k)).version,
      (twigged.old c.n low).version]
  · by_cases same : i = k
    · rw [same, ← memory]
      refine ⟨above', ?_⟩
      rw [Mem.version_setVersion, Function.update_self, last.version, (same₈ _ (n_ne k).symm).version, new₅.version,
        ← memory₄, Mem.version_setVersion, Function.update_of_ne (n_ne k).symm, ← memory₃, Mem.version_setVersion,
        Function.update_self, version₂]
      rfl
    · have less : i < k := by omega
      rw [(kept i less).up, (kept i less).version, (twig₅ i less).2.2]
      exact ⟨(twig₅ i less).1, rfl⟩
  · rw [(kept i less).body]
    exact (twig₅ i less).2.1
  · rw [← memory]
    change m'.body _ = _
    rw [last.body, Function.update_self]
    rfl
  · rw [← oka_t, ← ka_t]
    exact bottom.finish v

end Incll.Proof.Layers
