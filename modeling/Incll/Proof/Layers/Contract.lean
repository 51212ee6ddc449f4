import Incll.Proof.Layers.Grow

/-! # Trees from which a node is removed -/

namespace Incll.Proof.Layers
open Incll.Lib Incll.Model Incll.Model.Layers

/-- The boundary `x` moves to `y`. -/
def collapse (x y z : Nat) : Nat := if z = x then y else z

/-- The slots of an internode that are left when `n` goes. -/
def without (n : Addr) (f : Nat → Nat) (l : List (Nat × Addr)) : List (Nat × Addr) :=
  (l.filter fun y => y.2 != n).map fun y => (f y.1, y.2)

/-- The spans that are left when `n` goes. -/
def contracted (span : Addr → Option Span) (n : Addr) (f : Nat → Nat) (a : Addr) : Option Span :=
  if a = n then none else (span a).map fun s => ⟨f s.lo, f s.hi⟩

variable {up up' : Addr → Option Addr} {inner inner' : Addr → Option Internode} {fresh : Nat}
  {span : Addr → Option Span} {top n p a c : Addr} {s r t : Span} {i j : Internode} {x y k : Nat}
  {f : Nat → Nat}

theorem collapse_self (x : Nat) : collapse x x = id := by
  funext z
  simp only [collapse, id]
  split
  · next same => exact same.symm
  · rfl

theorem collapse_ne {z : Nat} (ne : z ≠ x) : collapse x y z = z := if_neg ne

theorem collapse_at : collapse x y x = y := if_pos rfl

theorem without_of_not_mem {l : List (Nat × Addr)} (out : ∀ z ∈ l, z.2 ≠ n) :
    without n f l = l.map fun z => (f z.1, z.2) := by
  rw [without, List.filter_eq_self.mpr]
  intro z member
  simpa using out z member

theorem without_append (l l' : List (Nat × Addr)) : without n f (l ++ l') = without n f l ++ without n f l' := by
  simp [without]

theorem without_cons_self (l : List (Nat × Addr)) : without n f ((k, n) :: l) = without n f l := by
  simp [without]

theorem mem_without {l : List (Nat × Addr)} {z : Nat × Addr} (member : z ∈ without n f l) :
    ∃ k, (k, z.2) ∈ l ∧ z.1 = f k ∧ z.2 ≠ n := by
  obtain ⟨w, inside, rfl⟩ := List.mem_map.mp member
  obtain ⟨old, other⟩ := List.mem_filter.mp inside
  exact ⟨w.1, old, rfl, by simpa using other⟩

theorem mem_without_of {l : List (Nat × Addr)} (member : (k, c) ∈ l) (ne : c ≠ n) : (f k, c) ∈ without n f l := by
  refine List.mem_map.mpr ⟨(k, c), List.mem_filter.mpr ⟨member, ?_⟩, rfl⟩
  simpa using ne

theorem contracted_self : contracted span n f n = none := if_pos rfl

theorem contracted_ne (ne : a ≠ n) : contracted span n f a = (span a).map fun s => ⟨f s.lo, f s.hi⟩ := if_neg ne

theorem exists_of_contracted (here : contracted span n f a = some t) :
    a ≠ n ∧ ∃ r, span a = some r ∧ t = ⟨f r.lo, f r.hi⟩ := by
  by_cases same : a = n
  · rw [same, contracted_self] at here
    cases here
  · rw [contracted_ne same] at here
    obtain ⟨r, old, rfl⟩ := Option.map_eq_some_iff.mp here
    exact ⟨same, r, old, rfl⟩

theorem contracted_id (n : Addr) : contracted span n id = Function.update span n none := by
  funext a
  by_cases same : a = n
  · rw [same, contracted_self, Function.update_self]
  · rw [contracted_ne same, Function.update_of_ne same]
    cases span a <;> rfl

/-- The internodes when the leaf `n` is gone. -/
structure Contraction (inner inner' : Addr → Option Internode) (span : Addr → Option Span) (n : Addr)
    (f : Nat → Nat) : Prop where
  leaf : ∀ a r, span a = some r → a ≠ n → inner a = none → inner' a = none
  node : ∀ a r i, span a = some r → inner a = some i → ∃ i', inner' a = some i' ∧ i'.nkeys ≤ internodeWidth ∧
    i'.height = i.height ∧ slots (f r.lo) i' = without n f (slots r.lo i) ∧ (i'.child 0 = 0 → r.lo ≠ 0)

theorem Contraction.height_eq (small : Contraction inner inner' span n f) (here : span a = some r) (ne : a ≠ n) :
    height inner' a = height inner a := by
  cases kind : inner a with
  | none => rw [height_leaf kind, height_leaf (small.leaf a r here ne kind)]
  | some i =>
      obtain ⟨i', kind', -, same, -⟩ := small.node a r i here kind
      rw [height_internode kind, height_internode kind', same]

namespace Whole
variable (tree : Whole up inner fresh span top)
include tree

/-- Only the slots of an internode count. -/
theorem reslot (leaf : ∀ a r, span a = some r → inner a = none → inner' a = none)
    (same : ∀ a r i, span a = some r → inner a = some i → ∃ i', inner' a = some i' ∧ i'.nkeys = i.nkeys ∧
      i'.height = i.height ∧ i'.child = i.child ∧ slots r.lo i' = slots r.lo i) :
    Whole up inner' fresh span top := by
  have heights (a : Addr) (r : Span) (here : span a = some r) : height inner' a = height inner a := by
    cases kind : inner a with
    | none => rw [height_leaf kind, height_leaf (leaf a r here kind)]
    | some i =>
        obtain ⟨i', kind', -, equal, -⟩ := same a r i here kind
        rw [height_internode kind, height_internode kind', equal]
  refine ⟨tree.null, tree.known, tree.small, tree.wide, fun a r i' here kind' => ?_, fun a r here ne loose => ?_,
    tree.whole, tree.root⟩
  · cases kind : inner a with
    | none =>
        rw [leaf a r here kind] at kind'
        cases kind'
    | some i =>
        obtain ⟨j, kind'', nkeys, equal, child, list⟩ := same a r i here kind
        obtain rfl := Option.some.inj (kind'.symm.trans kind'')
        have ok := tree.node a r i here kind
        refine ⟨nkeys ▸ ok.width, by rw [list]; exact ok.tiles, fun z member => ?_, fun z member => ?_, fun hole => ?_⟩
        · rw [list] at member
          exact ok.parent z member
        · rw [list] at member
          obtain ⟨t, owned⟩ := tiles_owned ok.tiles member
          rw [heights z.2 t owned, equal]
          exact ok.below z member
        · rw [child] at hole
          exact ok.hole hole
  · obtain ⟨p, s', i, above, here', kind, member⟩ := tree.above a r here ne loose
    obtain ⟨i', kind', -, -, -, list⟩ := same p s' i here' kind
    exact ⟨p, s', i', above, here', kind', by rw [list]; exact member⟩

/-- A node that starts with the leaf `n` ends behind it if the parent of `n` has another child. -/
theorem strict (here : span n = some s) (leaf : inner n = none) (parent : up n = some p)
    (owns : span p = some r) (inner_p : inner p = some i) (more : ∃ z ∈ slots r.lo i, z.2 ≠ n)
    (ne : a ≠ n) (other : span a = some t) (start : t.lo = s.lo) : s.hi < t.hi := by
  have wide := tree.wide n s here
  have wide' := tree.wide a t other
  have way := tree.bottom other start.le (by omega) here le_rfl wide (leaf_last leaf)
  have above := tree.way_parent other start.le (by omega) parent way ne
  obtain ⟨r', owns', low, high, -⟩ := tree.steps other start.le (by omega) above
  obtain rfl := Option.some.inj (owns.symm.trans owns')
  -- the other child of the parent starts behind `n`
  have ok := tree.node p r i owns inner_p
  obtain ⟨z, member, apart⟩ := more
  obtain ⟨q, s', i', parent', owns'', inner', -, member', -⟩ := tree.parent here (by
    rintro rfl
    exact tree.ne_zero owns (Option.some.inj (parent.symm.trans tree.root)))
  obtain rfl := Option.some.inj (parent.symm.trans parent')
  obtain rfl := Option.some.inj (owns.symm.trans owns'')
  obtain rfl := Option.some.inj (inner_p.symm.trans inner')
  obtain ⟨_, hi, _, tile⟩ := ok.tiles.of_mem (k := z.1) (c := z.2) member
  have bounds := ok.tiles.bounds (k := z.1) (c := z.2) member
  have least := (ok.tiles.bounds member').1
  by_contra short
  have less := tile.less
  have upto := tile.high
  have same := ok.tiles.unique (x := z.1) (fun _ _ _ _ => owns_unique) member' tile.mem here tile.here (by omega)
    (by omega) le_rfl less
  exact apart (congrArg Prod.snd same).symm

/-- The leaf before `n` takes over its ikeys. -/
theorem contract (here : span n = some s) (leaf : inner n = none) (low : s.lo ≠ 0)
    (strict : ∀ a r, a ≠ n → span a = some r → r.lo = s.lo → s.hi < r.hi)
    (small : Contraction inner inner' span n (collapse s.lo s.hi)) :
    Whole up inner' fresh (contracted span n (collapse s.lo s.hi)) top := by
  have wide := tree.wide n s here
  have whole := tree.whole
  have apart : n ≠ top := by
    rintro rfl
    obtain rfl := Option.some.inj (here.symm.trans whole)
    exact low rfl
  have less (a : Addr) (r : Span) (ne : a ≠ n) (known : span a = some r) :
      collapse s.lo s.hi r.lo < collapse s.lo s.hi r.hi := by
    have := tree.wide a r known
    simp only [collapse]
    split <;> split
    · omega
    · next start _ => exact strict a r ne known start
    · omega
    · omega
  refine ⟨?_, fun a t here' => ?_, fun a t here' => ?_, fun a t here' => ?_, fun a t i' here' kind' => ?_,
    fun a t here' ne _ => ?_, ?_, tree.root⟩
  · rw [contracted_ne (tree.ne_zero here).symm, tree.null]
    rfl
  · obtain ⟨-, r, old, -⟩ := exists_of_contracted here'
    exact tree.known a r old
  · obtain ⟨-, r, old, -⟩ := exists_of_contracted here'
    exact tree.small a r old
  · obtain ⟨ne, r, old, rfl⟩ := exists_of_contracted here'
    exact less a r ne old
  · obtain ⟨ne, r, old, rfl⟩ := exists_of_contracted here'
    cases kind : inner a with
    | none =>
        rw [small.leaf a r old ne kind] at kind'
        cases kind'
    | some i =>
        obtain ⟨j, kind'', width, same, list, hole⟩ := small.node a r i old kind
        obtain rfl := Option.some.inj (kind'.symm.trans kind'')
        have ok := tree.node a r i old kind
        have child (z : Nat × Addr) (member : z ∈ slots (collapse s.lo s.hi r.lo) i') :
            ∃ k, (k, z.2) ∈ slots r.lo i ∧ z.2 ≠ n := by
          rw [list] at member
          obtain ⟨k, inside, -, other⟩ := mem_without member
          exact ⟨k, inside, other⟩
        refine ⟨width, ?_, fun z member => ?_, fun z member => ?_, fun first => ?_⟩
        · rw [list]
          refine ok.tiles.contract (collapse s.lo s.hi) (fun c => c != n) (fun k m c member owns out => ?_)
            fun k m c member owns kept => ?_
          · have same : c = n := by simpa using out
            rw [same] at owns
            obtain rfl := Option.some.inj (here.symm.trans owns)
            rw [collapse_at, collapse_ne wide.ne']
          · have other : c ≠ n := by simpa using kept
            refine ⟨less c ⟨k, m⟩ other owns, ?_⟩
            rw [Owns, contracted_ne other, show span c = some ⟨k, m⟩ from owns]
            rfl
        · obtain ⟨k, inside, -⟩ := child z member
          exact ok.parent (k, z.2) inside
        · obtain ⟨k, inside, other⟩ := child z member
          obtain ⟨t, owned⟩ := tiles_owned ok.tiles inside
          rw [small.height_eq owned other, same]
          exact ok.below (k, z.2) inside
        · change collapse s.lo s.hi r.lo ≠ 0
          have pos := hole first
          simp only [collapse]
          split
          · omega
          · exact pos
  · obtain ⟨other, r, old, rfl⟩ := exists_of_contracted here'
    obtain ⟨p, s', i, above, owns, kind, member⟩ := tree.above a r old ne not_false
    obtain ⟨i', kind', -, -, list, -⟩ := small.node p s' i owns kind
    refine ⟨p, ⟨collapse s.lo s.hi s'.lo, collapse s.lo s.hi s'.hi⟩, i', above, ?_, kind', ?_⟩
    · rw [contracted_ne, owns]
      · rfl
      · rintro rfl
        rw [leaf] at kind
        cases kind
    · rw [list]
      exact mem_without_of member other
  · rw [contracted_ne apart.symm, whole]
    have below : s.lo ≠ ikeyLimit := (wide.trans_le (tree.hi_le here)).ne
    rw [Option.map_some, collapse_ne (Ne.symm low), collapse_ne (Ne.symm below)]

/-- An internode whose only child goes is like a leaf. -/
theorem prune (here : span n = some s) (leaf : inner n = none) (owns : span p = some r)
    (inner_p : inner p = some i) (only : slots r.lo i = [(k, n)]) :
    Whole up (Function.update inner p none) fresh (Function.update span n none) top ∧ r = s := by
  have ok := tree.node p r i owns inner_p
  have tiles := ok.tiles
  rw [only] at tiles
  obtain ⟨rfl, m, -, own, last⟩ := tiles
  have same : r = s := by
    obtain rfl := Option.some.inj (here.symm.trans own)
    cases r
    simp only [Span.mk.injEq, true_and]
    exact (show m = _ from last).symm
  have apart : n ≠ p := by
    rintro rfl
    rw [leaf] at inner_p
    cases inner_p
  have heights (a : Addr) : height (Function.update inner p none) a ≤ height inner a := by
    by_cases same : a = p
    · rw [same, height_leaf (Function.update_self ..)]
      exact Nat.zero_le _
    · rw [height, height, Function.update_of_ne same]
  have old {a : Addr} {t : Span} (here' : Function.update span n none a = some t) : a ≠ n ∧ span a = some t := by
    by_cases same : a = n
    · rw [same, Function.update_self] at here'
      cases here'
    · rw [Function.update_of_ne same] at here'
      exact ⟨same, here'⟩
  refine ⟨⟨?_, fun a t here' => tree.known a t (old here').2, fun a t here' => tree.small a t (old here').2,
    fun a t here' => tree.wide a t (old here').2, fun a t j here' kind => ?_, fun a t here' ne _ => ?_, ?_,
    tree.root⟩, same⟩
  · rw [Function.update_of_ne (tree.ne_zero here).symm]
    exact tree.null
  · obtain ⟨-, known⟩ := old here'
    by_cases equal : a = p
    · rw [equal, Function.update_self] at kind
      cases kind
    · rw [Function.update_of_ne equal] at kind
      have ok' := tree.node a t j known kind
      have other (z : Nat × Addr) (member : z ∈ slots t.lo j) : z.2 ≠ n := by
        intro same
        have parent := ok'.parent z member
        rw [same, ok.parent (r.lo, n) (by simp [only])] at parent
        exact equal (Option.some.inj parent).symm
      refine ⟨ok'.width, ok'.tiles.mono fun k c m member _ _ own' => ?_, ok'.parent, fun z member => ?_, ok'.hole⟩
      · rw [Owns, Function.update_of_ne (other _ member)]
        exact own'
      · exact (heights z.2).trans_lt (ok'.below z member)
  · obtain ⟨apart', known⟩ := old here'
    obtain ⟨q, s', j, above, owns', kind, member⟩ := tree.above a t known ne not_false
    have equal : q ≠ p := by
      rintro rfl
      obtain rfl := Option.some.inj (owns.symm.trans owns')
      obtain rfl := Option.some.inj (inner_p.symm.trans kind)
      rw [only, List.mem_singleton] at member
      exact apart' (congrArg Prod.snd member)
    have other : q ≠ n := by
      rintro rfl
      rw [leaf] at kind
      cases kind
    exact ⟨q, s', j, above, by rw [Function.update_of_ne other, owns'], by rw [Function.update_of_ne equal, kind],
      member⟩
  · rw [Function.update_of_ne]
    · exact tree.whole
    · rintro rfl
      exact tree.ne_zero owns (Option.some.inj ((ok.parent (r.lo, top) (by simp [only])).symm.trans tree.root))

/-- The only child of an internode takes its place. -/
theorem substitute (here : span n = some s) (inner_n : inner n = some i) (only : slots s.lo i = [(k, c)])
    (owns : span p = some r) (inner_p : inner p = some j) {j' : Internode} {before behind : List (Nat × Addr)}
    (list : slots r.lo j = before ++ (s.lo, n) :: behind) (list' : slots r.lo j' = before ++ (s.lo, c) :: behind)
    (width : j'.nkeys ≤ internodeWidth) (same : j'.height = j.height) (hole : j'.child 0 = 0 → r.lo ≠ 0)
    (inner' : Addr → Option Internode) (new : inner' p = some j')
    (keep : ∀ a t, span a = some t → a ≠ n → a ≠ p → inner' a = inner a) :
    Whole (Function.update up c (some p)) inner' fresh (Function.update span n none) top := by
  have ok := tree.node n s i here inner_n
  have ok_p := tree.node p r j owns inner_p
  have tiles := ok.tiles
  rw [only] at tiles
  obtain ⟨rfl, m, -, own, last⟩ := tiles
  obtain rfl : m = s.hi := last
  have below : height inner c < i.height := ok.below (s.lo, c) (by simp [only])
  have above_n := ok_p.parent (s.lo, n) (by simp [list])
  have below_n : height inner n < j.height := ok_p.below (s.lo, n) (by simp [list])
  have above_c := ok.parent (s.lo, c) (by simp [only])
  rw [height_internode inner_n] at below_n
  have n_ne_p : n ≠ p := by
    rintro rfl
    obtain rfl := Option.some.inj (inner_n.symm.trans inner_p)
    exact Nat.lt_irrefl _ below_n
  have c_ne_n : c ≠ n := by
    rintro rfl
    rw [height_internode inner_n] at below
    exact Nat.lt_irrefl _ below
  have c_ne_p : c ≠ p := by
    rintro rfl
    rw [height_internode inner_p] at below
    omega
  have c_ne_top : c ≠ top := by
    rintro rfl
    exact tree.ne_zero here (Option.some.inj (above_c.symm.trans tree.root))
  have n_ne_top : n ≠ top := by
    rintro rfl
    exact tree.ne_zero owns (Option.some.inj (above_n.symm.trans tree.root))
  have heights (a : Addr) (t : Span) (known : span a = some t) (ne : a ≠ n) : height inner' a = height inner a := by
    by_cases equal : a = p
    · rw [equal, height_internode new, height_internode inner_p, same]
    · rw [height, height, keep a t known ne equal]
  have old {a : Addr} {t : Span} (here' : Function.update span n none a = some t) : a ≠ n ∧ span a = some t := by
    by_cases same : a = n
    · rw [same, Function.update_self] at here'
      cases here'
    · rw [Function.update_of_ne same] at here'
      exact ⟨same, here'⟩
  have split := ok_p.tiles
  rw [list] at split
  obtain ⟨m', tile⟩ := split.tile
  have off_n := tiles_not_mem tile.before here (tree.wide n s here) (.inl le_rfl)
  have own_n : m' = s.hi := @owns_unique span s.lo _ _ _ tile.here here
  have off_n' := tiles_not_mem tile.behind here (tree.wide n s here) (.inr own_n.ge)
  have off_c := tiles_not_mem tile.before own (tree.wide n s here) (.inl le_rfl)
  have off_c' := tiles_not_mem tile.behind own (tree.wide n s here) (.inr own_n.ge)
  have rest {z : Nat × Addr} (member : z ∈ before ++ behind) : z.2 ≠ n ∧ z.2 ≠ c ∧ z ∈ slots r.lo j := by
    rw [list]
    rcases List.mem_append.mp member with first | second
    · exact ⟨off_n z first, off_c z first, by simp [first]⟩
    · exact ⟨off_n' z second, off_c' z second, by simp [second]⟩
  have whole_tile : Tiles (Owns (Function.update span n none)) r.lo r.hi (before ++ [(s.lo, c)] ++ behind) := by
    refine tiles_append.mpr ⟨s.hi, tiles_append.mpr ⟨s.lo, ?_, rfl, s.hi, tree.wide n s here, ?_, rfl⟩, ?_⟩
    · refine tile.before.mono fun k c' m member _ _ own' => ?_
      rw [Owns, Function.update_of_ne (off_n _ member)]
      exact own'
    · rw [Owns, Function.update_of_ne c_ne_n]
      exact own
    · rw [← own_n]
      refine tile.behind.mono fun k c' m member _ _ own' => ?_
      rw [Owns, Function.update_of_ne (off_n' _ member)]
      exact own'
  refine ⟨?_, fun a t here' => ?_, fun a t here' => tree.small a t (old here').2,
    fun a t here' => tree.wide a t (old here').2, fun a t j₁ here' kind => ?_, fun a t here' ne _ => ?_, ?_, ?_⟩
  · rw [Function.update_of_ne (tree.ne_zero here).symm]
    exact tree.null
  · by_cases equal : a = c
    · exact ⟨p, by rw [equal, Function.update_self]⟩
    · rw [Function.update_of_ne equal]
      exact tree.known a t (old here').2
  · obtain ⟨apart, known⟩ := old here'
    by_cases equal : a = p
    · subst equal
      obtain rfl := Option.some.inj (owns.symm.trans known)
      obtain rfl := Option.some.inj (new.symm.trans kind)
      have member {z : Nat × Addr} (inside : z ∈ slots r.lo j') : z ∈ before ++ behind ∨ z = (s.lo, c) := by
        rw [list'] at inside
        simp only [List.mem_append, List.mem_cons] at inside ⊢
        tauto
      refine ⟨width, ?_, fun z inside => ?_, fun z inside => ?_, hole⟩
      · rw [list', ← List.append_cons before (s.lo, c) behind] at *
        exact whole_tile
      · rcases member inside with other | rfl
        · obtain ⟨-, ne, mem⟩ := rest other
          rw [Function.update_of_ne ne]
          exact ok_p.parent z mem
        · exact Function.update_self ..
      · rcases member inside with other | rfl
        · obtain ⟨ne, -, mem⟩ := rest other
          obtain ⟨t', owned⟩ := tiles_owned ok_p.tiles mem
          rw [heights z.2 t' owned ne, same]
          exact ok_p.below z mem
        · rw [heights c _ own c_ne_n, same]
          omega
    · rw [keep a t known apart equal] at kind
      have ok' := tree.node a t j₁ known kind
      refine ok'.transfer fun z inside => ?_
      have parent := ok'.parent z inside
      have ne : z.2 ≠ n := by
        intro same
        rw [same, above_n] at parent
        exact equal (Option.some.inj parent).symm
      have ne' : z.2 ≠ c := by
        intro same
        rw [same, above_c] at parent
        exact apart (Option.some.inj parent).symm
      obtain ⟨t', owned⟩ := tiles_owned ok'.tiles inside
      exact ⟨Function.update_of_ne ne .., Function.update_of_ne ne' .., heights z.2 t' owned ne⟩
  · obtain ⟨apart, known⟩ := old here'
    by_cases equal : a = c
    · subst equal
      obtain rfl := Option.some.inj (own.symm.trans known)
      exact ⟨p, r, j', Function.update_self .., by rw [Function.update_of_ne n_ne_p.symm, owns], new,
        by simp [list']⟩
    · obtain ⟨q, s', j₁, above, owns', kind, member⟩ := tree.above a t known ne not_false
      have q_ne : q ≠ n := by
        rintro rfl
        obtain rfl := Option.some.inj (here.symm.trans owns')
        obtain rfl := Option.some.inj (inner_n.symm.trans kind)
        rw [only, List.mem_singleton] at member
        exact equal (congrArg Prod.snd member)
      by_cases same' : q = p
      · subst same'
        obtain rfl := Option.some.inj (owns.symm.trans owns')
        obtain rfl := Option.some.inj (inner_p.symm.trans kind)
        refine ⟨q, r, j', by rw [Function.update_of_ne equal, above], by rw [Function.update_of_ne q_ne, owns], new, ?_⟩
        rw [list] at member
        rw [list']
        simp only [List.mem_append, List.mem_cons, Prod.mk.injEq] at member ⊢
        tauto
      · exact ⟨q, s', j₁, by rw [Function.update_of_ne equal, above], by rw [Function.update_of_ne q_ne, owns'],
          by rw [keep q s' owns' q_ne same', kind], member⟩
  · rw [Function.update_of_ne n_ne_top.symm]
    exact tree.whole
  · rw [Function.update_of_ne c_ne_top.symm]
    exact tree.root

end Whole
end Incll.Proof.Layers
