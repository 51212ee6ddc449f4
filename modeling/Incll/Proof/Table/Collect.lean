import Incll.Proof.Layers.Collapse
import Incll.Proof.Table.Remove

/-! # `gc_layer`

A layer that has become an empty leaf is dropped. Before that, the internodes that are left above the leaf are. -/

namespace Incll.Proof.Layers
open Incll.Lib Incll.Model Incll.Model.Layers

variable {m m' m₁ m₂ m'' : Mem} {F F' F'' : Forest} {T T' U : Part} {c : Layers.Tcursor} {p q r s slice : List UInt8}
  {a n x y : Addr} {t : Span} {b b' d : LeafBody} {i j : Nat} {v w : Leafvalue} {e : Entry} {held held' : Finset Addr}

/-- The keys are bound as they were, and pointers lead to the layers that they led to. -/
structure Retains (m m' : Mem) (F F' : Forest) : Prop where
  bound : ∀ s v, Bound m' F' s v ↔ Bound m F s v
  leads : ∀ q U x, F q = some U → Leads m U.span x → ∃ U', F' q = some U' ∧ Leads m' U'.span x
  fresh : m'.fresh = m.fresh

theorem SameKeys.retains (same : SameKeys m m' F) : Retains m m' F F :=
  ⟨same.bound, fun q U x there leads => ⟨U, there, same.leads q U x there leads⟩, same.fresh⟩

theorem Retains.trans (first : Retains m m' F F') (second : Retains m' m'' F' F'') : Retains m m'' F F'' := by
  refine ⟨fun s v => by rw [second.bound, first.bound], fun q U x there leads => ?_, second.fresh.trans first.fresh⟩
  obtain ⟨U', there', leads'⟩ := first.leads q U x there leads
  exact second.leads q U' x there' leads'

/-- The slot `i` of the locked leaf `n` leads to the layer `U`. -/
structure Dropping (m : Mem) (F : Forest) (n : Addr) (i : Nat) (p slice : List UInt8) (T U : Part) (t : Span)
    (b : LeafBody) : Prop where
  table : Table m F {n}
  here : F p = some T
  known : T.span n = some t
  body : m.body n = some b
  live : i ∈ b.permutation.live
  length : slice.length = ikeySize
  entry : entryAt b i = layerEntry slice (b.lv i)
  there : F (p ++ slice) = some U
  leads : Leads m U.span (b.lv i).layer

theorem append_ne (length : slice.length = ikeySize) : p ≠ p ++ slice := by
  intro same
  have lengths := congrArg List.length same
  rw [List.length_append, length] at lengths
  simp [ikeySize] at lengths

theorem nil_ne_append (length : slice.length = ikeySize) : [] ≠ p ++ slice := by
  intro same
  have lengths := congrArg List.length same
  rw [List.length_append, length] at lengths
  simp [ikeySize] at lengths

namespace Dropping
variable (dropping : Dropping m F n i p slice T U t b)
include dropping

/-- The leaf is in another layer. -/
theorem away : U.span n = none := by
  by_contra some
  obtain ⟨u, known⟩ := Option.ne_none_iff_exists'.mp some
  exact append_ne dropping.length (dropping.table.apart _ _ _ _ _ _ _ dropping.here dropping.there dropping.known known)

/-- No node of the layer is locked. -/
theorem layer : Layer m U.span U.top ∅ := by
  refine (dropping.table.each _ U dropping.there).layer.elsewhere le_rfl (fun a _ _ => .refl m a)
    (fun a u known => ?_) fun a member => absurd member (Finset.notMem_empty a)
  simp only [Finset.notMem_empty, Finset.mem_singleton, false_iff]
  rintro rfl
  rw [dropping.away] at known
  cases known

/-- A node with the root bit is the root. -/
theorem top (root : (m.version (b.lv i).layer).root = true) : (b.lv i).layer = U.top := by
  have layer := dropping.layer
  cases dropping.leads with
  | here known first =>
      by_contra ne
      have other := layer.calm.other _ _ known not_false ne (.inl first)
      rw [settled_empty, root] at other
      cases other
  | up _ other =>
      rw [root] at other
      cases other

/-- The slot gets another pointer to the layer. -/
theorem repoint (leads : Leads m U.span y) : ∃ m', modifyBody n (.setValue i (.ofLayer y)) m = .ok ((), m') ∧
    m' = m.mapBody n (.setValue i (.ofLayer y)) ∧ m'.up = m.up ∧ m'.version = m.version ∧ Retains m m' F F ∧
    (Leafvalue.ofLayer y).layer = y ∧ Dropping m' F n i p slice T U t (b.setValue i (.ofLayer y)) := by
  obtain ⟨q, above⟩ := leads.known dropping.layer
  have long : ikeySize < (slice ++ [0]).length := by simp [dropping.length]
  have cut : (slice ++ [0]).take ikeySize = slice := by rw [← dropping.length, List.take_left]
  have entry : entryAt b i = layerEntry (slice ++ [0]) (b.lv i) := by
    rw [dropping.entry, layerEntry, layerEntry, comparable_append dropping.length]
  obtain ⟨m', run, body, table, same⟩ := dropping.table.setPointer dropping.here dropping.known dropping.body
    dropping.live entry long (by rw [cut]; exact dropping.there) leads
  have run' := modifyBody_ok (.setValue i (.ofLayer y)) dropping.body
  rw [run] at run'
  obtain rfl : m' = m.mapBody n (.setValue i (.ofLayer y)) := congrArg Prod.snd (Except.ok.inj run')
  have value := dropping.table.nodes.layer_ofLayer above
  have lv : (b.setValue i (.ofLayer y)).lv i = .ofLayer y := Function.update_self ..
  refine ⟨_, run, rfl, Mem.up_mapBody _ _ _ fun _ => rfl, rfl, same.retains, value, table, dropping.here, dropping.known,
    by rw [body, Function.update_self], dropping.live, dropping.length, ?_, dropping.there, ?_⟩
  · rw [entryAt_setValue, if_pos rfl, dropping.entry, lv]
    rfl
  · rw [lv, value]
    exact same.leads _ U y dropping.there leads

end Dropping

/-! The root of the layer has one child. -/

section
variable {k : Internode} (inner : m.inner U.top = some k) (collapsed : Collapsed m m' U.top (k.child 0))
include inner collapsed

theorem Collapsed.has_iff :
    Has m' (Function.update U.span U.top none) e ↔ Has m U.span e := by
  constructor
  · rintro ⟨a, t, b, known, body, member⟩
    by_cases same : a = U.top
    · rw [same, Function.update_self] at known
      cases known
    · rw [Function.update_of_ne same] at known
      rw [collapsed.body] at body
      exact ⟨a, t, b, known, body, member⟩
  · rintro ⟨a, t, b, known, body, member⟩
    have ne : a ≠ U.top := by
      rintro rfl
      rw [inner_of_body body] at inner
      cases inner
    exact ⟨a, t, b, by rw [Function.update_of_ne ne, known], by rw [collapsed.body, body], member⟩

theorem Sound.collapse (sound : Sound m U held) (last : k.nkeys = 0) (nodes : Nodes m) (off : ∀ a ∈ held, U.span a = none) :
    Changed m m' U ⟨k.child 0, Function.update U.span U.top none⟩ held held := by
  have layer := sound.layer
  obtain ⟨some, -, whole, below, apart⟩ := layer.only inner last
  have old {a : Addr} {s : Span} (known : Function.update U.span U.top none a = Option.some s) :
      U.span a = Option.some s := by
    by_cases same : a = U.top
    · rw [same, Function.update_self] at known
      cases known
    · rwa [Function.update_of_ne same] at known
  refine ⟨⟨fun a none _ => ?_, collapsed.fresh.ge, collapsed.root, collapsed.callbacks, ⟨fun a q above => ?_, ?_, ?_, ?_⟩⟩,
    ⟨layer.collapse inner last collapsed off, fun a s b known body pos => ?_, fun a s b known body => ?_⟩,
    fun a s known => .inl ?_, fun a s known first => layer.collapse_leads inner last collapsed known first,
    fun _ _ _ => .rfl⟩
  · have ne_top : a ≠ U.top := by
      rintro rfl
      rw [layer.tree.whole] at none
      cases none
    have ne_child : a ≠ k.child 0 := by
      rintro rfl
      rw [whole] at none
      cases none
    refine ⟨?_, by rw [collapsed.inner], by rw [collapsed.body], collapsed.version a ne_top ne_child⟩
    rw [collapsed.up, Function.update_of_ne ne_top, Function.update_of_ne ne_child]
  · rw [collapsed.fresh]
    by_cases top : a = U.top
    · rw [top]
      exact nodes.each _ _ layer.tree.root
    · by_cases child : a = k.child 0
      · rw [child]
        exact nodes.each _ _ below
      · rw [collapsed.up, Function.update_of_ne top, Function.update_of_ne child] at above
        exact nodes.each a q above
  · rw [collapsed.fresh]
    exact nodes.positive
  · rw [collapsed.fresh]
    exact nodes.aligned
  · rw [collapsed.fresh]
    exact nodes.limit
  · rw [collapsed.body] at body
    exact sound.snug a s b (old known) body pos
  · rw [collapsed.body] at body
    exact sound.live a s b (old known) body
  · rw [old known]
    exact Option.some_ne_none s

end

theorem Dropping.collapse {k : Internode} (dropping : Dropping m F n i p slice T U t b)
    (inner : m.inner U.top = some k) (last : k.nkeys = 0) (collapsed : Collapsed m m' U.top (k.child 0))
    (pointer : (b.lv i).layer = k.child 0) : ∃ U' F', U'.top = k.child 0 ∧ Retains m m' F F' ∧
      nodes m'.fresh U'.span < nodes m.fresh U.span ∧ Dropping m' F' n i p slice T U' t b := by
  have table := dropping.table
  have sound := table.each _ U dropping.there
  have changed := sound.collapse inner collapsed last table.nodes fun a member => by
    rw [Finset.mem_singleton.mp member]
    exact dropping.away
  have has {e : Entry} : Has m' (Function.update U.span U.top none) e ↔ Has m U.span e :=
    collapsed.has_iff inner
  obtain ⟨-, -, whole, -, apart⟩ := sound.layer.only inner last
  refine ⟨_, _, rfl, ⟨fun s v => ?_, fun q V x there leads => table.toGrove.leads dropping.there changed there leads,
    collapsed.fresh⟩, ?_, ?_, ?_, dropping.known, ?_, dropping.live, dropping.length, dropping.entry,
    Function.update_self .., ?_⟩
  · exact table.bound_same dropping.there changed (fun x v => has) s v
  · rw [collapsed.fresh]
    exact nodes_erase (sound.layer.tree.small _ _ sound.layer.tree.whole) sound.layer.tree.whole
  · refine table.change dropping.there changed (fun e there layer => ?_) (fun x lv there => ⟨lv, has.mpr there⟩)
      fun more e there => ?_
    · exact table.down _ U e dropping.there (has.mp there) layer
    · exact table.rest _ U e dropping.there more (has.mp there)
  · rw [Function.update_of_ne (append_ne dropping.length), dropping.here]
  · rw [collapsed.body, dropping.body]
  · rw [pointer]
    exact .here ((Function.update_of_ne apart ..).trans whole) rfl

/-- The child becomes the root, and the slot points to it. -/
theorem Dropping.shorten {j : Internode} (dropping : Dropping m F n i p slice T U t b)
    (inner : m.inner U.top = some j) (last : j.nkeys = 0) {α : Type} (rest : Layers.T α) : ∃ m' F' U',
      (do
        lock U.top
        makeLayerRoot (j.child 0)
        modifyBody n (.setValue i (.ofLayer (j.child 0)))
        markSplit U.top
        Layers.setParent U.top (j.child 0)
        Layers.unlock U.top
        rest) m = rest m' ∧ Retains m m' F F' ∧ nodes m'.fresh U'.span < nodes m.fresh U.span ∧
      (Leafvalue.ofLayer (j.child 0)).layer = U'.top ∧
      Dropping m' F' n i p slice T U' t (b.setValue i (.ofLayer (j.child 0))) := by
  have layer := dropping.layer
  obtain ⟨-, -, whole, below, apart⟩ := layer.only inner last
  have free := layer.calm.free _ _ layer.tree.whole
  rw [settled_empty] at free
  obtain ⟨m₀, -, rfl, -, -, kept, value, dropping₀⟩ := dropping.repoint (.here whole rfl)
  obtain ⟨m', run, collapsed⟩ := collapse_ok free layer.tree.root below dropping.body
    (f := .setValue i (.ofLayer (j.child 0))) (fun _ => rfl) (fun _ => rfl) apart rest
  have lv : (b.setValue i (.ofLayer (j.child 0))).lv i = .ofLayer (j.child 0) := Function.update_self ..
  obtain ⟨U', F', top, kept', fewer, dropping'⟩ := dropping₀.collapse ((congrFun (Mem.inner_mapBody ..) _).trans inner)
    last collapsed (by rw [lv, value])
  exact ⟨m', F', U', run, kept.trans kept', fewer, value.trans top.symm, dropping'⟩

/-! The loop. -/

/-- What the loop leaves: a layer with entries, or one empty leaf that is marked. -/
structure Dropped (m m' : Mem) (F : Forest) (n : Addr) (i : Nat) (p slice : List UInt8) (T : Part) (t : Span)
    (b : LeafBody) (emptied : Bool) : Prop where
  after : ∃ m₁ F₁ U b₁, Retains m m₁ F F₁ ∧ Dropping m₁ F₁ n i p slice T U t b₁ ∧ b₁.permutation = b.permutation ∧
    (emptied = false → m' = m₁) ∧ (emptied = true → ∃ d, m₁.body U.top = some d ∧ entries d = [] ∧
      OneLeaf m₁ m' U.top (d.setModstate .deletedLayer))

theorem Retains.refl (m : Mem) (F : Forest) : Retains m m F F :=
  ⟨fun _ _ => .rfl, fun _ U _ there leads => ⟨U, there, leads⟩, rfl⟩

theorem Dropped.after_step (kept : Retains m m₁ F F') (same : b'.permutation = b.permutation) {emptied : Bool}
    (dropped : Dropped m₁ m' F' n i p slice T t b' emptied) : Dropped m m' F n i p slice T t b emptied := by
  obtain ⟨m₂, F₂, U, b₂, kept', dropping, same', stays, marked⟩ := dropped.after
  exact ⟨m₂, F₂, U, b₂, kept.trans kept', dropping, same'.trans same, stays, marked⟩

/-- The layer is an empty leaf. -/
theorem Dropping.mark (dropping : Dropping m F n i p slice T U t b) (body : m.body U.top = some d) (empty : d.size = 0) :
    Runs (do
      lock U.top
      modifyBody U.top (.setModstate .deletedLayer)
      Layers.unlock U.top
      return true) m fun emptied m' => Dropped m m' F n i p slice T t b emptied := by
  have layer := dropping.layer
  have whole := layer.tree.whole
  obtain ⟨q, above⟩ := up_of_body body
  have free := layer.calm.free _ _ whole
  rw [settled_empty] at free
  have one := OneLeaf.setVersion body { m.version U.top with locked := true }
  obtain ⟨m₂, run, one', version⟩ := modifyBody_one (.setModstate .deletedLayer) one.here (fun _ => rfl) fun _ => rfl
  obtain ⟨q', above'⟩ := up_of_body one'.here
  refine Wp.step (lock_ok above free.locked free.clean) (Wp.step run (Wp.step (unlock_ok above') (Wp.pure
    ⟨m, F, U, b, .refl m F, dropping, rfl, fun absurd => ?_, fun _ => ⟨d, body, ?_, ?_⟩⟩)))
  · cases absurd
  · refine List.eq_nil_of_length_eq_zero ?_
    rw [length_entries (layer.leaves _ _ _ whole body).ok.valid.body.permutation, empty]
  · exact (one.trans one').trans (.setVersion one'.here _)

theorem dropLayer_ok (fuel : Nat) {k : Nat} (dropping : Dropping m F n i p slice T U t b)
    (walk : Walk (above m) (Passable m) U.top k (b.lv i).layer) (enough : k + nodes m.fresh U.span < fuel) :
    Runs (dropLayer n i fuel) m fun emptied m' => Dropped m m' F n i p slice T t b emptied := by
  induction fuel generalizing m F U b k with
  | zero => exact absurd enough (Nat.not_lt_zero _)
  | succ fuel ih =>
      obtain ⟨q, above_n⟩ := up_of_body dropping.body
      obtain ⟨q', above_l⟩ := dropping.leads.known dropping.layer
      have whole := dropping.layer.tree.whole
      rw [dropLayer]
      refine Wp.step (leaf_ok dropping.body above_n) (Wp.step (version_ok above_l) ?_)
      change Runs (if (!(m.version (b.lv i).layer).root) = true then _ else _) m _
      cases bit : (m.version (b.lv i).layer).root with
      | false =>
          -- the pointer is behind
          simp only [Bool.not_false, if_true]
          rcases walk.cases with ⟨-, last⟩ | ⟨y, k', rfl, next, rest⟩
          · rw [Leads.root_of_last above_l last] at bit
            cases bit
          · obtain ⟨-, above_y⟩ := Leads.above_eq next
            obtain ⟨y', above', ne, leads⟩ := dropping.leads.parent dropping.layer bit
            obtain rfl := Option.some.inj (above_y.symm.trans above')
            obtain ⟨m', run, moved, up, version, kept, value, dropping'⟩ := dropping.repoint leads
            have lv : (b.setValue i (.ofLayer y)).lv i = .ofLayer y := Function.update_self ..
            have fresh : m'.fresh = m.fresh := by rw [moved, Mem.fresh_mapBody]
            refine Wp.step (maybeParent_ok above_y) ?_
            rw [if_neg ne]
            have same : (b.setValue i (.ofLayer y)).permutation = b.permutation := rfl
            refine Wp.step run ((ih dropping' (k := k') ?_ ?_).mono fun _ _ dropped => dropped.after_step kept same)
            · rw [lv, value]
              exact rest.congr (fun x => by rw [Layers.above, Layers.above, up, version]) fun x on => by
                rwa [Passable, up, version]
            · rw [fresh]
              omega
      | true =>
          simp only [Bool.not_true, Bool.false_eq_true, if_false]
          have top := dropping.top bit
          rw [top]
          obtain ⟨k₀, here, bare⟩ := exists_kind dropping.layer.tree.root
          refine Wp.step (kind_ok here) ?_
          cases k₀ with
          | internode j =>
              have inner : m.inner U.top = some j.bare := by
                rw [Mem.inner, here]
                rfl
              by_cases wide : 0 < j.nkeys
              · simp only [wide, if_true]
                refine Wp.pure ⟨m, F, U, b, .refl m F, dropping, rfl, fun _ => rfl, fun absurd => ?_⟩
                cases absurd
              · -- the root has one child
                simp only [wide, if_false]
                obtain ⟨m', F', U', run, kept, fewer, value, dropping'⟩ :=
                  dropping.shorten inner (Nat.eq_zero_of_not_pos wide) (dropLayer n i fuel)
                have lv : (b.setValue i (.ofLayer (j.bare.child 0))).lv i = .ofLayer (j.bare.child 0) :=
                  Function.update_self ..
                have same : (b.setValue i (.ofLayer (j.bare.child 0))).permutation = b.permutation := rfl
                refine Wp.of_eq run ((ih dropping' (k := 0) ?_ ?_).mono fun _ _ dropped => dropped.after_step kept same)
                · rw [lv, value]
                  exact Leads.walk_top dropping'.layer
                · omega
          | leaf l =>
              have body : m.body U.top = some l.body.bare := by
                rw [Mem.body, here]
                rfl
              by_cases filled : 0 < l.body.size
              · simp only [filled, if_true]
                refine Wp.pure ⟨m, F, U, b, .refl m F, dropping, rfl, fun _ => rfl, fun absurd => ?_⟩
                cases absurd
              · simp only [filled, if_false]
                exact dropping.mark body (Nat.eq_zero_of_not_pos filled)

/-! The entry for the layer is removed. -/

/-- A layer is left out. -/
theorem Grove.drop (grove : Grove m F held) (there : F q = some U) (around : Around m m' U.span)
    (off : ∀ a ∈ held, U.span a = none ∧ a < m.fresh) : Grove m' (Function.update F q none) held := by
  have old {r : List UInt8} {V : Part} (known : Function.update F q none r = some V) : r ≠ q ∧ F r = some V := by
    by_cases same : r = q
    · rw [same, Function.update_self] at known
      cases known
    · rw [Function.update_of_ne same] at known
      exact ⟨same, known⟩
  refine ⟨around.nodes, fun r V known => ?_, fun r r' V V' a s t known known' => ?_⟩
  · obtain ⟨ne, known⟩ := old known
    refine (grove.each r V known).elsewhere around.fresh (fun a t inside => ?_) (fun _ _ _ => .rfl) fun a member => ?_
    · obtain ⟨none, small⟩ := grove.other there ne known inside
      exact around.frame a none small
    · obtain ⟨none, small⟩ := off a member
      rw [(around.frame a none small).version]
      exact (grove.each r V known).layer.calm.locked a member
  · exact grove.apart r r' V V' a s t (old known).2 (old known').2

theorem slice_inj {slice' : List UInt8} (length : slice.length = ikeySize) (length' : slice'.length = ikeySize)
    (same : Key.comparable slice = Key.comparable slice') : slice = slice' := by
  rw [ikeySize] at length length'
  have cut := take_eq same (by rw [length, length'])
  rwa [List.take_of_length_le length.le, List.take_of_length_le length'.le] at cut

/-- The layer of `p ++ slice` has no entries, and the entry that leads to it is taken out of the layer of `p`. -/
structure Emptied (m m₁ m' : Mem) (F : Forest) (held held' : Finset Addr) (p slice : List UInt8) (T T' U : Part)
    (v : Leafvalue) : Prop where
  table : Table m F held
  here : F p = some T
  there : F (p ++ slice) = some U
  length : slice.length = ikeySize
  has : Has m T.span (layerEntry slice v)
  empty : ∀ e, ¬ Has m U.span e
  around : Around m m₁ U.span
  off : ∀ a ∈ held, U.span a = none ∧ a < m.fresh
  cleared : Cleared m₁ m' T T' held held' (layerEntry slice v)

/-- The forest without the layer. -/
def dropped (F : Forest) (p slice : List UInt8) (T' : Part) : Forest :=
  Function.update (Function.update F (p ++ slice) none) p (some T')

theorem dropped_other {V : Part} (ne : q ≠ p ++ slice) (ne' : q ≠ p) (known : F q = some V) : dropped F p slice T' q = some V := by
  rw [dropped, Function.update_of_ne ne', Function.update_of_ne ne, known]

namespace Emptied
variable (emptied : Emptied m m₁ m' F held held' p slice T T' U v)
include emptied

theorem grove : Grove m₁ (Function.update F (p ++ slice) none) held :=
  emptied.table.toGrove.drop emptied.there emptied.around emptied.off

theorem stays : Function.update F (p ++ slice) none p = some T := by
  rw [Function.update_of_ne (append_ne emptied.length), emptied.here]

theorem frame {V : Part} {t : Span} (ne : q ≠ p ++ slice) (known : F q = some V) (inside : V.span a = some t) :
    SameNode m m₁ a := by
  obtain ⟨none, small⟩ := emptied.table.toGrove.other emptied.there ne known inside
  exact emptied.around.frame a none small

/-- Pointers to the other layers lead there. -/
theorem leads {V : Part} (ne : q ≠ p ++ slice) (known : F q = some V) (leads : Leads m V.span x) :
    ∃ V', dropped F p slice T' q = some V' ∧ Leads m' V'.span x := by
  refine emptied.grove.leads emptied.stays emptied.cleared.changed (by rw [Function.update_of_ne ne, known]) ?_
  refine leads.frame (emptied.table.each _ U emptied.there).layer
    (fun a t inside => (emptied.table.toGrove.other emptied.there ne known inside).1) fun a y none above => ?_
  obtain ⟨-, small, -⟩ := emptied.table.nodes.each a y above
  exact emptied.around.frame a none small

theorem old {V : Part} (known : dropped F p slice T' q = some V) :
    q ≠ p ++ slice ∧ (q = p ∧ V = T' ∨ q ≠ p ∧ F q = some V) := by
  by_cases same : q = p
  · subst same
    rw [dropped, Function.update_self] at known
    exact ⟨append_ne emptied.length, .inl ⟨rfl, (Option.some.inj known).symm⟩⟩
  · rw [dropped, Function.update_of_ne same] at known
    by_cases gone : q = p ++ slice
    · rw [gone, Function.update_self] at known
      cases known
    · rw [Function.update_of_ne gone] at known
      exact ⟨gone, .inr ⟨same, known⟩⟩

/-- The other layers have the entries that they had. -/
theorem has_other {V : Part} (ne : q ≠ p ++ slice) (ne' : q ≠ p) (known : F q = some V) :
    Has m' V.span e ↔ Has m V.span e := by
  rw [emptied.grove.has_iff emptied.stays emptied.cleared.changed ne' (by rw [Function.update_of_ne ne, known])]
  exact has_frame fun a t inside => emptied.frame ne known inside

theorem has_here : Has m' T'.span e ↔ Has m T.span e ∧ e.rank ≠ (layerEntry slice v).rank := by
  rw [emptied.cleared.entries]
  exact and_congr_left fun _ => has_frame fun a t inside =>
    emptied.frame (append_ne emptied.length) emptied.here inside

/-- An entry of the new forest is one of the old forest. -/
theorem has_old {V : Part} (known : dropped F p slice T' q = some V) (has : Has m' V.span e) : ∃ V₀, F q = some V₀ ∧
    Has m V₀.span e ∧ (q = p → e.rank ≠ (layerEntry slice v).rank) := by
  obtain ⟨ne, ⟨rfl, rfl⟩ | ⟨ne', known⟩⟩ := emptied.old known
  · obtain ⟨has, rank⟩ := emptied.has_here.mp has
    exact ⟨T, emptied.here, has, fun _ => rank⟩
  · exact ⟨V, known, (emptied.has_other ne ne' known).mp has, fun same => absurd same ne'⟩

/-- An entry of the old forest is one of the new forest. -/
theorem has_new {V : Part} (known : F q = some V) (has : Has m V.span e)
    (other : q = p → e.rank ≠ (layerEntry slice v).rank) :
    ∃ V', dropped F p slice T' q = some V' ∧ Has m' V'.span e := by
  have ne : q ≠ p ++ slice := by
    rintro rfl
    obtain rfl := Option.some.inj (known.symm.trans emptied.there)
    exact emptied.empty e has
  by_cases same : q = p
  · subst same
    obtain rfl := Option.some.inj (known.symm.trans emptied.here)
    exact ⟨T', by rw [dropped, Function.update_self], emptied.has_here.mpr ⟨has, other rfl⟩⟩
  · exact ⟨V, dropped_other ne same known, (emptied.has_other ne same known).mpr has⟩

theorem rank_ne {slice' : List UInt8} {w : Leafvalue} (length : slice'.length = ikeySize) (ne : slice' ≠ slice) :
    (layerEntry slice' w).rank ≠ (layerEntry slice v).rank := fun same =>
  ne (slice_inj length emptied.length (rank_inj same).1)

theorem after : Table m' (dropped F p slice T') held' := by
  have table := emptied.table
  refine ⟨emptied.grove.change emptied.stays emptied.cleared.changed, ⟨?_, fun q V e known has layer => ?_,
    fun q V known => ?_, fun q V e known more has => ?_⟩⟩
  · obtain ⟨R, base, root, callbacks⟩ := table.root
    have ne := nil_ne_append (p := p) emptied.length
    obtain ⟨R', base', root'⟩ := emptied.leads ne base root
    refine ⟨R', base', ?_, fun cb member => ?_⟩
    · rw [emptied.cleared.changed.around.root, emptied.around.root]
      exact root'
    · rw [emptied.cleared.changed.around.callbacks, emptied.around.callbacks] at member
      obtain ⟨R'', base'', leads⟩ := emptied.leads ne base (callbacks cb member)
      obtain rfl := Option.some.inj (base'.symm.trans base'')
      exact leads
  · obtain ⟨V₀, known₀, has₀, rank⟩ := emptied.has_old known has
    obtain ⟨slice', W, length, same, below, leads⟩ := table.down q V₀ e known₀ has₀ layer
    have ne : q ++ slice' ≠ p ++ slice := by
      intro equal
      obtain ⟨rfl, rfl⟩ := List.append_inj' equal (length.trans emptied.length.symm)
      refine rank rfl ?_
      rw [Entry.rank, layer, ← same]
      rfl
    obtain ⟨W', below', leads'⟩ := emptied.leads ne below leads
    exact ⟨slice', W', length, same, below', leads'⟩
  · obtain ⟨ne, -⟩ := emptied.old known
    have before : ∃ V₀, F q = some V₀ := by
      obtain ⟨-, ⟨rfl, -⟩ | ⟨-, known⟩⟩ := emptied.old known
      · exact ⟨T, emptied.here⟩
      · exact ⟨V, known⟩
    obtain ⟨V₀, known₀⟩ := before
    rcases table.up q V₀ known₀ with nil | ⟨x, slice', W, w, rfl, length, above, has⟩
    · exact .inl nil
    · refine .inr ?_
      obtain ⟨W', above', has'⟩ := emptied.has_new above has fun same => emptied.rank_ne length fun equal =>
        ne (by rw [same, equal])
      exact ⟨x, slice', W', w, rfl, length, above', has'⟩
  · obtain ⟨V₀, known₀, has₀, -⟩ := emptied.has_old known has
    exact table.rest q V₀ e known₀ more has₀

theorem bound (s : List UInt8) (w : Leafvalue) : Bound m' (dropped F p slice T') s w ↔ Bound m F s w := by
  constructor
  · rintro ⟨q, r, V, same, known, has⟩
    obtain ⟨V₀, known₀, has₀, -⟩ := emptied.has_old known has
    exact ⟨q, r, V₀, same, known₀, has₀⟩
  · rintro ⟨q, r, V, same, known, has⟩
    have other : q = p → (Key.entry (.ofBytes r) w).rank ≠ (layerEntry slice v).rank := by
      intro equal rank
      rw [equal] at known
      obtain rfl := Option.some.inj (known.symm.trans emptied.here)
      have entry := (emptied.table.each p V known).has_unique has emptied.has rank
      exact keylenx_entry (.ofBytes r) w (congrArg Entry.keylenx entry)
    obtain ⟨V', known', has'⟩ := emptied.has_new known has other
    exact ⟨q, r, V', same, known', has'⟩

end Emptied

/-! The fuel. -/

def allocated (m : Mem) : Finset Addr := (Finset.range m.fresh).filter fun a => (m.up a).isSome

theorem Nodes.card_allocated (nodes : Nodes m) : (allocated m).card ≤ m.fresh / 8 := by
  rw [← Finset.card_range (m.fresh / 8)]
  refine Finset.card_le_card_of_injOn (· / 8) (fun a member => ?_) fun a here a' there same => ?_
  · obtain ⟨q, above⟩ := Option.isSome_iff_exists.mp (Finset.mem_filter.mp member).2
    obtain ⟨-, small, aligned⟩ := nodes.each a q above
    exact Finset.mem_coe.mpr (Finset.mem_range.mpr (Nat.div_lt_div_of_lt_of_dvd nodes.aligned small))
  · obtain ⟨q, above⟩ := Option.isSome_iff_exists.mp (Finset.mem_filter.mp here).2
    obtain ⟨q', above'⟩ := Option.isSome_iff_exists.mp (Finset.mem_filter.mp there).2
    have first := (nodes.each a q above).2.2
    have second := (nodes.each a' q' above').2.2
    rw [← Nat.div_mul_cancel first, ← Nat.div_mul_cancel second]
    exact congrArg (· * 8) same

theorem Dropping.enough {k : Nat} (dropping : Dropping m F n i p slice T U t b)
    (walk : Walk (above m) (Passable m) U.top k (b.lv i).layer) : k + nodes m.fresh U.span < m.fresh := by
  have layer := dropping.layer
  have all := dropping.table.nodes
  have card := all.card_allocated
  have inside {a q : Addr} (above : m.up a = some q) : a ∈ allocated m := by
    simp only [allocated, Finset.mem_filter, Finset.mem_range]
    exact ⟨(all.each a q above).2.1, by rw [above]; rfl⟩
  have short : k < (allocated m).card := walk.lt_card _ fun a passable => inside passable.choose_spec.1
  have few : nodes m.fresh U.span ≤ (allocated m).card := by
    refine Finset.card_le_card fun a member => ?_
    obtain ⟨u, known⟩ := Option.isSome_iff_exists.mp (Finset.mem_filter.mp member).2
    exact inside (layer.tree.known a u known).choose_spec
  omega

/-! `gc_layer`. -/

/-- The leaf of the cursor is locked. If the layer was emptied, the cursor is at its entry. -/
structure Collected (m m' : Mem) (F : Forest) (c : Layers.Tcursor) (emptied : Bool) : Prop where
  after : ∃ m₁ F₁ T t b, Retains m m₁ F F₁ ∧ Table m₁ F₁ {c.n} ∧ F₁ c.before = some T ∧ T.span c.n = some t ∧
    m₁.body c.n = some b ∧ (∃ R, F₁ [] = some R ∧ Leads m₁ R.span c.root) ∧ (emptied = false → m' = m₁) ∧
    (emptied = true → c.i < b.size ∧ ∃ slice U d, Dropping m₁ F₁ c.n (b.permutation.get c.i) c.before slice T U t b ∧
      m₁.body U.top = some d ∧ entries d = [] ∧ OneLeaf m₁ m' U.top (d.setModstate .deletedLayer))

/-- A leaf that is locked by the operation is not deleted. -/
theorem Sound.alive (sound : Sound m T {a}) (known : T.span a = some t) : (m.version a).deleted = false := by
  have free := sound.layer.calm.free a t known
  rw [settled, if_pos (Finset.mem_singleton_self a)] at free
  have flags := congrArg Nodeversion.deleted (flags_unlock (m.version a))
  exact flags.symm.trans free.deleted

theorem gcLayer_ok {R : Part} {root : Addr} (table : Table m F ∅) (base : F [] = some R) (leads : Leads m R.span root)
    (s : List UInt8) : Runs (gcLayer root s) m fun x m' => Collected m m' F x.1 x.2 := by
  rw [gcLayer]
  refine Wp.call (findLocked_ok table base leads s) fun c m₁ post => ?_
  obtain ⟨keys, -, T, t, b, found⟩ := post
  have lands := found.lands
  have sound := found.table.each _ T lands.here
  obtain ⟨q, above⟩ := up_of_body lands.body
  refine Wp.step (leaf_ok lands.body above) (Wp.step (version_ok above) ?_)
  have stops {c' : Layers.Tcursor} (n : c'.n = c.n) (before : c'.before = c.before) (root : c'.root = c.root) :
      Collected m m₁ F c' false := by
    refine ⟨m₁, F, T, t, b, keys.retains, ?_⟩
    rw [n, before, root]
    exact ⟨found.table, lands.here, lands.known, lands.body, found.root, fun _ => rfl, fun absurd => by cases absurd⟩
  simp only [sound.alive lands.known, Bool.false_eq_true, if_false]
  split
  · exact Wp.pure (stops rfl rfl rfl)
  · generalize c.i + (if c.p.isSome = true then 1 else 0) = j
    split
    · next cond =>
        obtain ⟨small, -, isLayer⟩ := cond
        change j < b.size at small
        have valid := (lands.ok found.table).valid.body.permutation
        have live := valid.get_live small
        have has : Has m₁ T.span (entryAt b (b.permutation.get j)) :=
          ⟨c.n, t, b, lands.known, lands.body, mem_entries.mpr ⟨_, live, rfl⟩⟩
        have keylenx : b.keylenx (b.permutation.get j) = layerKeylenx := beq_iff_eq.mp isLayer
        obtain ⟨slice, U, length, same, there, leads'⟩ := found.table.down _ T _ lands.here has keylenx
        have dropping : Dropping m₁ F c.n (b.permutation.get j) c.before slice T U t b :=
          ⟨found.table, lands.here, lands.known, lands.body, live, length, sound.eq_layerEntry has keylenx same, there,
            leads'⟩
        obtain ⟨k, walk⟩ := leads'.walk dropping.layer
        refine Wp.step fuel_ok (Wp.call (dropLayer_ok m₁.fresh dropping walk (dropping.enough walk)) fun emptied m' post =>
          Wp.pure ?_)
        obtain ⟨m₂, F₂, U₂, b₂, kept, dropping₂, permutation, stay, marked⟩ := post.after
        obtain ⟨R', base', leads''⟩ := found.root
        obtain ⟨R₂, base₂, leads₂⟩ := kept.leads _ R' _ base' leads''
        refine ⟨m₂, F₂, T, t, b₂, keys.retains.trans kept, dropping₂.table, dropping₂.here, dropping₂.known, dropping₂.body,
          ⟨R₂, base₂, leads₂⟩, stay, fun emptied => ⟨?_, slice, U₂, ?_⟩⟩
        · change j < b₂.permutation.size
          rw [permutation]
          exact small
        · obtain ⟨d, body, empty, one⟩ := marked emptied
          refine ⟨d, ?_, body, empty, one⟩
          rw [permutation]
          exact dropping₂
    · exact Wp.pure (stops rfl rfl rfl)

/-! The callback. -/

/-- The entry for the empty layer is removed. -/
theorem Dropping.finish (dropping : Dropping m F c.n (b.permutation.get c.i) c.before slice T U t b)
    (small : c.i < b.size) (body : m.body U.top = some d) (empty : entries d = [])
    (one : OneLeaf m m₁ U.top (d.setModstate .deletedLayer)) {R : Part} (base : F [] = some R)
    (leads : Leads m R.span c.root) : Runs (do
      if ← finishRemove c then return
      Layers.unlock c.n) m₁ fun _ m' => ∃ F', Table m' F' ∅ ∧ ∀ s v, Bound m' F' s v ↔ Bound m F s v := by
  have table := dropping.table
  have whole := dropping.layer.tree.whole
  have around : Around m m₁ U.span := one.around table.nodes whole
  have off : ∀ a ∈ ({c.n} : Finset Addr), U.span a = none ∧ a < m.fresh := fun a member => by
    rw [Finset.mem_singleton.mp member]
    exact ⟨dropping.away, (table.each _ T dropping.here).layer.tree.small _ _ dropping.known⟩
  have grove := table.toGrove.drop dropping.there around off
  have sound := grove.each c.before T (by rw [Function.update_of_ne (append_ne dropping.length), dropping.here])
  have body₁ : m₁.body c.n = some b := by
    have ne : c.n ≠ U.top := by
      intro same
      have away := dropping.away
      rw [same, whole] at away
      cases away
    rw [one.body, Function.update_of_ne ne, dropping.body]
  refine Wp.call (finishRemove_ok sound grove.nodes dropping.known body₁ small) fun done m₂ post => ?_
  obtain ⟨m₃, T', cleared, stays, callbacks⟩ := post.cleared
  rw [dropping.entry] at cleared
  have only : ∀ e, ¬ Has m U.span e := by
    rintro e ⟨a, u, d', known, body', member⟩
    have soundU := table.each _ U dropping.there
    have high := (soundU.place known body' member).2.trans_le (soundU.layer.tree.hi_le known)
    have member' := (soundU.has_iff whole body (Nat.zero_le _) high).mp ⟨a, u, d', known, body', member⟩
    rw [empty] at member'
    cases member'
  have emptied : Emptied m m₁ m₃ F {c.n} (if done then ∅ else {c.n}) c.before slice T T' U _ :=
    ⟨table, dropping.here, dropping.there, dropping.length,
      ⟨c.n, t, b, dropping.known, dropping.body, mem_entries.mpr ⟨_, dropping.live, dropping.entry⟩⟩, only, around, off,
      cleared⟩
  obtain ⟨R', base', leads'⟩ := emptied.leads (nil_ne_append dropping.length) base leads
  refine (release emptied.after (Function.update_self ..) dropping.known stays callbacks base' leads').mono
    fun _ m' post => ⟨_, post.1, fun s v => ?_⟩
  rw [post.2, emptied.bound]

/-- `gc_layer_rcu_callback` changes no key, whatever the keys in its layer are by then. -/
theorem runCallback_ok {R : Part} (table : Table m F ∅) (base : F [] = some R) {cb : Callback}
    (leads : Leads m R.span cb.root) : Runs (runCallback cb) m fun _ m' =>
      ∃ F', Table m' F' ∅ ∧ ∀ s v, Bound m' F' s v ↔ Bound m F s v := by
  have layer := (table.each _ R base).layer
  have whole := layer.tree.whole
  have free := layer.calm.free _ _ whole
  rw [settled_empty] at free
  rw [runCallback]
  refine Wp.step fuel_ok (Wp.step (leads.findRoot_ok table.nodes layer) (Wp.step (version_ok layer.tree.root) ?_))
  simp only [free.deleted, Bool.false_eq_true, if_false]
  refine Wp.call (gcLayer_ok table base (.here whole rfl) cb.s) fun x m' post => ?_
  obtain ⟨m₁, F₁, T, t, b, kept, table₁, here, known, body, ⟨R', base', leads'⟩, stay, done⟩ := post.after
  obtain ⟨c, emptied⟩ := x
  cases emptied with
  | false =>
      obtain rfl := stay rfl
      obtain ⟨m₂, run, -, table₂, keys⟩ := table₁.unlock_ok here known body (Finset.mem_singleton_self _)
      rw [Finset.erase_singleton] at table₂
      exact Wp.of_ok run ⟨F₁, table₂, fun s v => by rw [keys.bound, kept.bound]⟩
  | true =>
      obtain ⟨small, slice, U, d, dropping, body', empty, one⟩ := done rfl
      refine (dropping.finish small body' empty one base' leads').mono fun _ m₂ post => ?_
      obtain ⟨F₂, table₂, bound⟩ := post
      exact ⟨F₂, table₂, fun s v => by rw [bound, kept.bound]⟩

end Incll.Proof.Layers
