import Incll.Proof.Layers.Hang

/-! # The loop of `make_split` -/

namespace Incll.Proof.Layers
open Incll.Lib Incll.Model Incll.Model.Layers

variable {m m' : Mem} {span span' : Addr → Option Span} {top n child p next : Addr} {s t : Span}
  {held : Finset Addr} {key : Nat}

theorem unlock_root {v : Nodeversion} (splits : v.splitting = true) : v.unlock.root = false := by
  have same := congrArg Nodeversion.root (flags_unlock v)
  rw [show v.unlock.root = (flags v.unlock).root from rfl, same]
  simp [splits]

/-- The nodes of an iteration are unlocked. -/
theorem Calm.unlockBoth {split : Addr → Prop} (extra : Finset Addr) (split' : Addr → Prop)
    (calm : Calm m span top (extra ∪ insert child (insert n held)) split) (ne : n ≠ child) (ne_top : n ≠ top)
    (splits : (m.version n).splitting = true) (out : n ∉ held) (out' : child ∉ held) (outside : n ∉ extra)
    (outside' : child ∉ extra) (only : ∀ a, split a → split' a ∨ a = n) :
    Calm ((m.setVersion n (m.version n).unlock).setVersion child (m.version child).unlock) span top
      (extra ∪ held) split' := by
  have first := calm.unlock (a := n) (by simp)
  have second := first.unlock (a := child) (by simp [ne.symm])
  have same : ((extra ∪ insert child (insert n held)).erase n).erase child = extra ∪ held := by
    ext a
    simp only [Finset.mem_erase, Finset.mem_union, Finset.mem_insert]
    refine ⟨fun ⟨a_child, a_n, rest⟩ => ?_, fun rest => ⟨?_, ?_, ?_⟩⟩
    · tauto
    · rintro rfl
      tauto
    · rintro rfl
      tauto
    · tauto
  rw [same, Mem.version_setVersion, Function.update_of_ne ne.symm] at second
  refine second.settle ne_top ?_ only
  rw [settled, if_neg (by simp [outside, out]), Mem.version_setVersion, Function.update_of_ne ne,
    Mem.version_setVersion, Function.update_self]
  exact unlock_root splits

/-- The end of the loop: the tree is whole, and nodes in `held` are as before. -/
structure Ended (m : Mem) (span : Addr → Option Span) (held : Finset Addr) (m' : Mem)
    (span' : Addr → Option Span) (top' : Addr) : Prop where
  grown : Grown m span m' span'
  whole : Whole m'.up m'.inner m'.fresh span' top'
  calm : Calm m' span' top' held fun _ => False
  same : ∀ a ∈ held, m'.version a = m.version a

/-- The two nodes of an iteration are unlocked. -/
theorem unlockBoth_ok {α : Type} {f : T α} {Q : α → Mem → Prop} (ne : n ≠ child) (here : ∃ q, m.up n = some q)
    (here' : ∃ q, m.up child = some q)
    (rest : Runs f ((m.setVersion n (m.version n).unlock).setVersion child (m.version child).unlock) Q) :
    Runs (do unlock n; unlock child; f) m Q := by
  obtain ⟨q, above⟩ := here
  obtain ⟨q', above'⟩ := here'
  refine Wp.step (unlock_ok above) ?_
  refine Wp.step (unlock_ok (s := m.setVersion n (m.version n).unlock) above') ?_
  rwa [Mem.version_setVersion, Function.update_of_ne ne.symm]

/-- Only the new internode is added, and it is not above the node that was split. -/
theorem higher_next_le {key : Nat} {split : Addr → Prop} (step : Next m span top held split p next key m' span' s t)
    (small : ∀ a r, span a = some r → a < m.fresh) :
    higher m'.inner m'.fresh span' (height m'.inner p) ≤ higher m.inner m.fresh span (height m'.inner p) := by
  refine Finset.card_le_card fun b member => ?_
  simp only [Finset.mem_filter, Finset.mem_range] at member ⊢
  obtain ⟨-, known, more⟩ := member
  obtain ⟨r, here⟩ := Option.isSome_iff_exists.mp known
  rcases step.only b r here with rfl | ⟨r', old⟩
  · exact absurd more (step.splitting.half.same ▸ lt_irrefl _)
  · exact ⟨small b r' old, by rw [old]; rfl, step.height b r' old ▸ more⟩

theorem splitUp_ok (fuel splitType : Nat) (st : Splitting m span top (insert child (insert n held)) (· = n) n child s t)
    (out : n ∉ held) (out' : child ∉ held) (low : ∀ a ∈ held, height m.inner a ≤ height m.inner n)
    (splits : (m.version n).splitting = true)
    (enough : higher m.inner m.fresh span (height m.inner n) < fuel) :
    Runs (splitUp fuel n child t.lo (height m.inner n) splitType) m fun _ m' => ∃ span' top',
      Ended m span held m' span' top' := by
  induction fuel generalizing m span n child s t held with
  | zero => exact absurd enough (Nat.not_lt_zero _)
  | succ fuel ih =>
      have ne := st.half.ne
      have all (a : Addr) (member : a ∈ insert child (insert n held)) : height m.inner a ≤ height m.inner n := by
        rcases Finset.mem_insert.mp member with rfl | member
        · exact st.half.same.ge
        · rcases Finset.mem_insert.mp member with rfl | member
          · exact le_rfl
          · exact low a member
      rw [splitUp]
      refine Wp.call (st.hang_ok all splitType) fun r m' hung => ?_
      obtain ⟨p, more⟩ := r
      have apart (a : Addr) (member : a ∈ held) : a ≠ n ∧ a ≠ child :=
        ⟨fun same => out (same ▸ member), fun same => out' (same ▸ member)⟩
      let m₁ := (m'.setVersion n (m'.version n).unlock).setVersion child (m'.version child).unlock
      have version₁ (a : Addr) (first : a ≠ n) (second : a ≠ child) : m₁.version a = m'.version a := by
        simp [m₁, first, second]
      cases more with
      | none =>
          obtain ⟨span', top', grown, same, whole, calm, ne_top, out_p, known⟩ := hung
          obtain ⟨s', here, -⟩ := grown.old n s st.half.left
          obtain ⟨t', here', -⟩ := grown.old child t st.half.right
          refine unlockBoth_ok ne (whole.known n s' here) (whole.known child t' here') ?_
          have splits' : (m'.version n).splitting = true := by
            rw [same n st.left]
            exact splits
          have grown₁ : Grown m span m₁ span' := grown.trans (Grown.refl m₁ rfl rfl rfl)
          have same₁ (a : Addr) (member : a ∈ held) : m₁.version a = m.version a := by
            obtain ⟨first, second⟩ := apart a member
            rw [version₁ a first second, same a (by simp [member])]
          by_cases root : p = 0
          · rw [if_pos root] at calm
            have calm₁ := Calm.unlockBoth ∅ (fun _ => False)
              (by rwa [Finset.empty_union]) ne ne_top splits' out out' (by simp) (by simp) fun a => .inr
            rw [Finset.empty_union] at calm₁
            change Runs (if p = 0 then pure () else unlock p) m₁ _
            rw [if_pos root]
            exact Wp.pure ⟨span', top', grown₁, whole, calm₁, same₁⟩
          · rw [if_neg root, Finset.insert_eq] at calm
            simp only [Finset.mem_insert, not_or] at out_p
            have calm₁ := calm.unlockBoth _ (fun _ => False) ne ne_top splits' out out'
              (by simpa using Ne.symm out_p.2.1) (by simpa using Ne.symm out_p.1) fun a => .inr
            rw [← Finset.insert_eq] at calm₁
            have calm₂ := calm₁.unlock (a := p) (Finset.mem_insert_self ..)
            rw [Finset.erase_insert out_p.2.2] at calm₂
            obtain ⟨sp, owns⟩ := known root
            obtain ⟨sp', owns', -⟩ := grown.old p sp owns
            obtain ⟨q, above⟩ := whole.known p sp' owns'
            change Runs (if p = 0 then pure () else unlock p) m₁ _
            rw [if_neg root]
            refine Wp.of_ok (unlock_ok (s := m₁) above) ⟨span', top', grown₁.trans (Grown.refl _ rfl rfl rfl),
              whole, calm₂, fun a member => ?_⟩
            have other : a ≠ p := fun same => out_p.2.2 (same ▸ member)
            rw [Mem.version_setVersion, Function.update_of_ne other, same₁ a member]
      | some more =>
          obtain ⟨next, key⟩ := more
          obtain ⟨span', s', t', step, ne_top, out_p, level, sp, here⟩ := hung
          obtain rfl := step.start
          obtain ⟨r, owns, -⟩ := step.grown.old n s st.half.left
          obtain ⟨r', owns', -⟩ := step.grown.old child t st.half.right
          have half := step.splitting.half
          refine unlockBoth_ok ne (half.tree.known n r owns) (half.tree.known child r' owns') ?_
          change Runs (splitUp fuel p next t'.lo (height m.inner n + 1) splitType) m₁ _
          simp only [Finset.mem_insert, not_or] at out_p
          have height_p : height m'.inner p = height m.inner n + 1 := (step.height p sp here).trans level
          have below (a : Addr) (member : a ∈ held) : height m'.inner a ≤ height m.inner n := by
            obtain ⟨r, owns⟩ := st.known a (by simp [member])
            rw [step.height a r owns]
            exact low a member
          have above (a : Addr) (member : a ∈ insert child (insert n held)) : a ≠ next := by
            rintro rfl
            obtain ⟨r, owns⟩ := st.known _ member
            have := all _ member
            have := step.height _ r owns
            have := half.same
            omega
          have outside (a : Addr) (member : a ∈ insert child (insert n held)) (ne : a ≠ p) :
              a ∉ ({next, p} : Finset Addr) := by
            simpa using ⟨above a member, ne⟩
          have sets (h : Finset Addr) : insert next (insert p h) = {next, p} ∪ h := by
            rw [Finset.insert_union, Finset.singleton_union]
          have calm := step.splitting.calm
          rw [sets] at calm
          have calm₁ := calm.unlockBoth _ (· = p) ne ne_top
            (by rw [step.same n (by simp) (Ne.symm out_p.2.1), splits]) out out'
            (outside n (by simp) (Ne.symm out_p.2.1)) (outside child (by simp) (Ne.symm out_p.1)) fun a => Or.symm
          rw [← sets] at calm₁
          have st₁ : Splitting m₁ span' top (insert next (insert p held)) (· = p) p next s' t' := by
            refine ⟨half, calm₁, rfl, by simp, by simp, fun a member => step.splitting.known a ?_⟩
            simp only [Finset.mem_insert] at member ⊢
            tauto
          have climbs : higher m.inner m.fresh span (height m.inner p) <
              higher m.inner m.fresh span (height m.inner n) :=
            higher_lt (st.half.tree.small p sp here) here (level ▸ Nat.lt_succ_self _)
          have less := higher_next_le step st.half.tree.small
          rw [step.height p sp here] at less
          have run := ih st₁ out_p.2.2 (fun member => above next (by simp [member]) rfl)
            (fun a member => (below a member).trans (height_p ▸ Nat.le_succ _))
            (by rw [version₁ p out_p.2.1 out_p.1, step.splits]) (by
              change higher m'.inner m'.fresh span' (height m'.inner p) < fuel
              rw [step.height p sp here]
              omega)
          rw [show height m₁.inner p = height m.inner n + 1 from height_p] at run
          refine run.mono fun _ m'' ⟨span'', top', ended⟩ => ⟨span'', top',
            (step.grown.trans (Grown.refl m₁ rfl rfl rfl)).trans ended.grown, ended.whole, ended.calm, fun a member => ?_⟩
          obtain ⟨first, second⟩ := apart a member
          rw [ended.same a member, version₁ a first second, step.same a (by simp [member]) fun same =>
            out_p.2.2 (same ▸ member)]

end Incll.Proof.Layers
