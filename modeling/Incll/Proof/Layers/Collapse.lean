import Incll.Proof.Layers.Leads
import Incll.Proof.Layers.RemoveUp
import Incll.Proof.Layers.Rewrite

/-! # A root with one child

`gc_layer` makes the child the root. Pointers to the old root go up to the child. -/

namespace Incll.Proof.Layers
open Incll.Lib Incll.Model Incll.Model.Layers

variable {m m' m₀ : Mem} {span : Addr → Option Span} {top child n a : Addr} {s t : Span} {b d : LeafBody}
  {i : Internode} {held : Finset Addr} {f : LeafBody → LeafBody}

/-- The child is the root, and the old root is below it. -/
structure Collapsed (m m' : Mem) (top child : Addr) : Prop where
  up : m'.up = Function.update (Function.update m.up child (some 0)) top (some child)
  inner : m'.inner = m.inner
  body : m'.body = m.body
  version : ∀ c, c ≠ top → c ≠ child → m'.version c = m.version c
  new : m'.version child = { m.version child with root := true }
  old : m'.version top = ({ m.version top with locked := true, splitting := true } : Nodeversion).unlock
  fresh : m'.fresh = m.fresh
  root : m'.root = m.root
  callbacks : m'.callbacks = m.callbacks

/-- `gc_layer` also writes the pointer to the child, which is in leaf `n` of another layer. -/
theorem collapse_ok {p q : Addr} (free : Free (m.version top)) (above : m.up top = some p) (below : m.up child = some q)
    (body : m.body n = some b) (plain : ∀ b, (f b).parent = b.parent) (bare : ∀ b, (f b).bare = f b.bare)
    (apart : child ≠ top) {α : Type} (k : Layers.T α) : ∃ m',
      (do
        lock top
        makeLayerRoot child
        modifyBody n f
        markSplit top
        Layers.setParent top child
        Layers.unlock top
        k) m = k m' ∧ Collapsed (m.mapBody n f) m' top child := by
  let m₁ := m.setVersion top { m.version top with locked := true }
  have below₁ : m₁.up child = some q := below
  let m₂ := (m₁.setParent child 0).setVersion child { m₁.version child with root := true }
  have body₂ : m₂.body n = some b := by simp [m₂, m₁, body]
  let m₃ := m₂.mapBody n f
  have up₃ : m₃.up = Function.update m.up child (some 0) := by
    simp [m₃, m₂, m₁, Mem.up_mapBody _ _ _ plain, below]
  have above₃ : m₃.up top = some p := by rw [up₃, Function.update_of_ne apart.symm, above]
  let m₄ := m₃.setVersion top { m₃.version top with splitting := true }
  have above₄ : m₄.up top = some p := above₃
  let m₅ := m₄.setParent top child
  have above₅ : m₅.up top = some child := by simp [m₅, above₄]
  refine ⟨m₅.setVersion top (m₅.version top).unlock, ?_, ⟨?_, ?_, ?_, fun c ne ne' => ?_, ?_, ?_, rfl, rfl, rfl⟩⟩
  · rw [bind_ok (Layers.lock_ok above free.locked free.clean), bind_ok (makeLayerRoot_ok below₁),
      bind_ok (modifyBody_ok f body₂), bind_ok (markSplit_ok above₃), bind_ok (setParent_ok child above₄),
      bind_ok (Layers.unlock_ok above₅)]
  · simp [m₅, m₄, up₃, Mem.up_mapBody _ _ _ plain, above₃]
  · simp [m₅, m₄, m₃, m₂, m₁]
  · simp [m₅, m₄, m₃, m₂, m₁, Mem.body_mapBody _ _ _ bare]
  · simp [m₅, m₄, m₃, m₂, m₁, ne, ne']
  · simp [m₅, m₄, m₃, m₂, m₁, apart]
  · simp [m₅, m₄, m₃, m₂, m₁, apart.symm]

theorem unlock_splitting {v : Nodeversion} (splitting : v.splitting = true) :
    v.unlock.root = false ∧ v.unlock.dirty = false := by
  simp [Nodeversion.unlock, splitting, Nodeversion.dirty]

section
variable (layer : Layer m span top held) (inner : m.inner top = some i) (last : i.nkeys = 0)
include layer inner last

/-- The child has all ikeys of the layer. -/
theorem Layer.only : i.child 0 ≠ 0 ∧ slots 0 i = [(0, i.child 0)] ∧ span (i.child 0) = some ⟨0, ikeyLimit⟩ ∧
    m.up (i.child 0) = some top ∧ i.child 0 ≠ top := by
  have ok := layer.tree.node top _ i layer.tree.whole inner
  have some : i.child 0 ≠ 0 := fun hole => ok.hole hole rfl
  have list : slots 0 i = [(0, i.child 0)] := by
    rw [slots, skip_of_ne some, last, part_cons (by decide), part_nil le_rfl]
    rfl
  have tiles := ok.tiles
  rw [list] at tiles
  obtain ⟨-, k, -, owns, rfl⟩ := tiles
  have member : (0, i.child 0) ∈ slots 0 i := by
    rw [list]
    exact List.mem_singleton_self _
  refine ⟨some, list, owns, ok.parent _ member, fun same => ?_⟩
  have less := ok.below _ member
  rw [same, height_internode inner] at less
  exact lt_irrefl _ less

variable (collapsed : Collapsed m m' top (i.child 0))
include collapsed

theorem Layer.collapse (off : ∀ a ∈ held, span a = none) : Layer m' (Function.update span top none) (i.child 0) held := by
  have tree := layer.tree
  obtain ⟨some, list, whole, below, apart⟩ := layer.only inner last
  have old {a : Addr} {s : Span} (known : Function.update span top none a = Option.some s) :
      a ≠ top ∧ span a = Option.some s := by
    by_cases same : a = top
    · rw [same, Function.update_self] at known
      cases known
    · rw [Function.update_of_ne same] at known
      exact ⟨same, known⟩
  have new {a : Addr} {s : Span} (ne : a ≠ top) (known : span a = Option.some s) :
      Function.update span top none a = Option.some s := by rw [Function.update_of_ne ne, known]
  have off' {a : Addr} {s : Span} (known : span a = Option.some s) : a ∉ held := fun member => by
    rw [off a member] at known
    cases known
  refine ⟨⟨?_, fun a s known => ?_, fun a s known => ?_, fun a s known => ?_, fun a s j known inner' => ?_,
    fun a s known ne _ => ?_, ?_, ?_⟩, ⟨fun a s known => ?_, fun _ => ?_, fun a s known _ ne first => ?_,
    fun a member => ?_⟩, fun a s b known body => ?_⟩
  · by_cases same : 0 = top
    · rw [← same, Function.update_self]
    · rw [Function.update_of_ne same, tree.null]
  · obtain ⟨ne, known'⟩ := old known
    obtain ⟨q, above⟩ := tree.known a s known'
    rw [collapsed.up, Function.update_of_ne ne]
    by_cases same : a = i.child 0
    · exact ⟨0, by rw [same, Function.update_self]⟩
    · exact ⟨q, by rw [Function.update_of_ne same, above]⟩
  · rw [collapsed.fresh]
    exact tree.small a s (old known).2
  · exact tree.wide a s (old known).2
  · obtain ⟨ne, known'⟩ := old known
    rw [collapsed.inner] at inner'
    have ok := tree.node a s j known' inner'
    have ne_top {x : Nat × Addr} (member : x ∈ slots s.lo j) : x.2 ≠ top := fun same => by
      have parent := ok.parent x member
      rw [same, tree.root] at parent
      exact tree.ne_zero known' (Option.some.inj parent).symm
    have ne_child {x : Nat × Addr} (member : x ∈ slots s.lo j) : x.2 ≠ i.child 0 := fun same => by
      have parent := ok.parent x member
      rw [same, below] at parent
      exact ne (Option.some.inj parent).symm
    refine ⟨ok.width, ok.tiles.mono fun k c h member _ _ owns => ?_, fun x member => ?_, fun x member => ?_, ok.hole⟩
    · exact new (ne_top member) owns
    · rw [collapsed.up, Function.update_of_ne (ne_top member), Function.update_of_ne (ne_child member)]
      exact ok.parent x member
    · rw [collapsed.inner]
      exact ok.below x member
  · obtain ⟨ne_top, known'⟩ := old known
    obtain ⟨q, u, j, above, known'', inner', member⟩ := tree.above a s known' ne_top not_false
    have ne_q : q ≠ top := by
      rintro rfl
      obtain rfl := Option.some.inj (known''.symm.trans tree.whole)
      obtain rfl := Option.some.inj (inner'.symm.trans inner)
      rw [list, List.mem_singleton] at member
      exact ne (congrArg Prod.snd member)
    refine ⟨q, u, j, ?_, new ne_q known'', by rw [collapsed.inner, inner'], member⟩
    rw [collapsed.up, Function.update_of_ne ne_top, Function.update_of_ne ne, above]
  · exact new apart whole
  · rw [collapsed.up, Function.update_of_ne apart, Function.update_self]
  · obtain ⟨ne, known'⟩ := old known
    have free := layer.calm.free a s known'
    rw [settled, if_neg (off' known')] at free ⊢
    by_cases same : a = i.child 0
    · rw [same] at free ⊢
      rw [collapsed.new]
      exact ⟨free.locked, free.inserting, free.splitting, free.deleted⟩
    · rw [collapsed.version a ne same]
      exact free
  · rw [settled, if_neg (off' whole), collapsed.new]
  · obtain ⟨ne_top, known'⟩ := old known
    rw [collapsed.inner] at first
    have root := layer.calm.other a s known' not_false ne_top first
    rw [settled, if_neg (off' known')] at root ⊢
    rw [collapsed.version a ne_top ne]
    exact root
  · have away : span a = none := off a member
    have ne_top : a ≠ top := by
      rintro rfl
      rw [tree.whole] at away
      cases away
    have ne_child : a ≠ i.child 0 := by
      rintro rfl
      rw [whole] at away
      cases away
    rw [collapsed.version a ne_top ne_child]
    exact layer.calm.locked a member
  · rw [collapsed.body] at body ⊢
    have ok := layer.leaves a s b (old known).2 body
    have leaf {c : Addr} {d : LeafBody} (there : m.body c = Option.some d) : c ≠ top := by
      rintro rfl
      rw [inner_of_body there] at inner
      cases inner
    refine ⟨ok.ok, ok.inside, ok.bound, ok.first, fun pos => ?_, ok.last, fun less => ?_⟩
    · obtain ⟨u, d, before, meets, there⟩ := ok.prev pos
      exact ⟨u, d, new (leaf there) before, meets, there⟩
    · obtain ⟨u, d, after, meets, there⟩ := ok.next less
      exact ⟨u, d, new (leaf there) after, meets, there⟩

/-- Pointers to the first column of the layer lead there. -/
theorem Layer.collapse_leads (known : span a = some t) (first : t.lo = 0) :
    Leads m' (Function.update span top none) a := by
  obtain ⟨some, -, whole, -, apart⟩ := layer.only inner last
  have stays {c : Addr} {u : Span} (ne : c ≠ top) (known : span c = Option.some u) (first : u.lo = 0) :
      Leads m' (Function.update span top none) c := .here (by rw [Function.update_of_ne ne, known]) first
  by_cases same : a = top
  · subst same
    obtain ⟨root, clean⟩ := unlock_splitting (v := { m.version a with locked := true, splitting := true }) rfl
    refine .up (Function.update_self ..) ?_ ?_ (by rw [collapsed.up, Function.update_self]) some
      (stays apart whole rfl)
    · rw [collapsed.old, root]
    · rw [collapsed.old, clean]
  · exact stays same known first

end

theorem nodes_erase {fresh : Nat} (small : top < fresh) (here : span top = some s) :
    nodes fresh (Function.update span top none) < nodes fresh span := by
  refine Finset.card_lt_card ⟨fun a member => ?_, fun subset => ?_⟩
  · simp only [Finset.mem_filter, Finset.mem_range] at member ⊢
    by_cases same : a = top
    · rw [same, Function.update_self] at member
      cases member.2
    · rwa [Function.update_of_ne same] at member
  · have member : top ∈ (Finset.range fresh).filter fun a => (span a).isSome := by simp [small, here]
    have absent := subset member
    simp at absent

end Incll.Proof.Layers
