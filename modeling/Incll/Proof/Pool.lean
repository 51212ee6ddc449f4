import Incll.Model.Pool
import Mathlib.Data.List.Perm.Basic
import Mathlib.Tactic.Ring

/-! # Size classes of the pool allocator -/

namespace Incll.Proof.Pool
open Incll.Lib Incll.Model Incll.Model.Pool
open Incll.Model.Kvthread (poolMaxNlines cacheLineSize)

variable {n : Nat} {build : Build} {superpageSize : Nat} {s s' : State n}

def Apart (a b : Nat × Nat) : Prop :=
  a.1 + a.2 * cacheLineSize ≤ b.1 ∨ b.1 + b.2 * cacheLineSize ≤ a.1

/-- The block and the class that a caller gives back. -/
def block (build : Build) (u : Used) : Nat × Nat := (u.ptr - build.headerSize, nlines build u.sz)

/-- The blocks in use, in limbo and on the free lists, each with the class that its release computes
or has computed. -/
def owned (build : Build) (s : State n) : List (Nat × Nat) :=
  s.used.map (block build) ++ s.limbo.map (fun x => (x.2.1, x.2.2 &&& memtagPoolMask)) ++
    s.free.map fun x => (x.2.2, x.2.1)

structure Sound (build : Build) (s : State n) : Prop where
  header : ∀ u ∈ s.used, build.headerSize ≤ u.ptr
  disjoint : (owned build s).Pairwise Apart
  classes : ∀ b ∈ owned build s, 1 ≤ b.2 ∧ b.2 ≤ poolMaxNlines
  carved : (owned build s).Perm s.carved

/-- The caller does not use the calls that lose the class: in the plain build, blocks are not released
with `deallocate_rcu` and no block has size 0. -/
def keepsClass (build : Build) (_ : State n) : Label n → Prop
  | .allocate _ sz _ _ | .poolAllocate _ sz _ _ => build = .plain → sz ≠ 0
  | .deallocateRcu _ _ => build ≠ .plain
  | _ => True

structure Inv (build : Build) (superpageSize : Nat) (s : State n) : Prop where
  header : ∀ u ∈ s.used, build.headerSize ≤ u.ptr
  perm : (owned build s).Perm s.carved
  disjoint : s.carved.Pairwise Apart
  classes : ∀ b ∈ s.carved, 1 ≤ b.2 ∧ b.2 ≤ poolMaxNlines
  inside : ∀ b ∈ s.carved, ∃ page ∈ s.pages,
    page ≤ b.1 ∧ b.1 + b.2 * cacheLineSize ≤ page + superpageSize
  region : build = .pallocator → ∀ page ∈ s.pages, page + superpageSize ≤ s.nvmFreeAddr

theorem Inv.sound (inv : Inv build superpageSize s) : Sound build s where
  header := inv.header
  disjoint := inv.perm.symm.pairwise inv.disjoint fun h => h.symm
  classes b member := inv.classes b (inv.perm.mem_iff.mp member)
  carved := inv.perm

/-- The steps that only move blocks between the lists. -/
theorem Inv.moved (inv : Inv build superpageSize s) (header : ∀ u ∈ s'.used, u ∈ s.used)
    (perm : (owned build s').Perm (owned build s))
    (rest : s'.carved = s.carved ∧ s'.pages = s.pages ∧ s'.nvmFreeAddr = s.nvmFreeAddr) :
    Inv build superpageSize s' := by
  obtain ⟨carved, pages, region⟩ := rest
  refine ⟨fun u member => inv.header u (header u member), ?_, ?_, ?_, ?_, ?_⟩
  · rw [carved]
    exact perm.trans inv.perm
  · rw [carved]
    exact inv.disjoint
  · rw [carved]
    exact inv.classes
  · rw [carved, pages]
    exact inv.inside
  · rw [pages, region]
    exact inv.region

theorem initializePool_eq {page nl : Nat} (large : poolMaxNlines * cacheLineSize ≤ superpageSize)
    (small : nl ≤ poolMaxNlines) :
    Pool.initializePool superpageSize page nl = Kvthread.initializePool superpageSize page nl :=
  if_pos ((Nat.mul_le_mul_right _ small).trans large)

theorem initializePool_inside {page nl : Nat} {x : Nat × Nat}
    (member : x ∈ Kvthread.initializePool superpageSize page nl) :
    x.1 = nl ∧ page ≤ x.2 ∧ x.2 + nl * cacheLineSize ≤ page + superpageSize := by
  obtain ⟨i, small, rfl⟩ := List.mem_map.mp member
  have fits := Nat.div_mul_le_self superpageSize (nl * cacheLineSize)
  have bound := Nat.mul_le_mul_right (nl * cacheLineSize) (Nat.succ_le_of_lt (List.mem_range.mp small))
  rw [Nat.succ_mul] at bound
  refine ⟨rfl, Nat.le_add_right _ _, ?_⟩
  omega

theorem initializePool_apart (superpageSize page nl : Nat) :
    ((Kvthread.initializePool superpageSize page nl).map Prod.swap).Pairwise Apart := by
  rw [Kvthread.initializePool, List.map_map, List.pairwise_map]
  refine List.pairwise_lt_range.imp fun {i j} less => .inl ?_
  have next := Nat.mul_le_mul_right (nl * cacheLineSize) (Nat.succ_le_of_lt less)
  rw [Nat.succ_mul] at next
  simp only [Function.comp_apply, Prod.fst_swap, Prod.snd_swap]
  omega

/-- A page that a refill gets lies beside the pages that there are. -/
theorem Inv.fresh (inv : Inv build superpageSize s) {page : Nat}
    (offered : offers build superpageSize s page = true) {b c : Nat × Nat} (old : b ∈ s.carved)
    (new : page ≤ c.1 ∧ c.1 + c.2 * cacheLineSize ≤ page + superpageSize) : Apart c b := by
  obtain ⟨page', member, low, high⟩ := inv.inside b old
  have beside : page' + superpageSize ≤ page ∨ page + superpageSize ≤ page' := by
    cases build with
    | pallocator =>
        have bound := inv.region rfl page' member
        have here : page = s.nvmFreeAddr := of_decide_eq_true offered
        exact .inl (here ▸ bound)
    | plain =>
        have free := (Bool.and_eq_true_iff.mp offered).2
        exact of_decide_eq_true (List.all_eq_true.mp free page' member)
  rcases beside with below | above
  · exact .inr (by omega)
  · exact .inl (by omega)

theorem owned_refill (s : State n) (t : Fin n) (blocks : List (Nat × Nat)) (pages : List Nat)
    (carved : List (Nat × Nat)) (nvm : Nat) :
    (owned build { s with
      nvmFreeAddr := nvm, pages := pages, carved := carved,
      free := blocks.map (t, ·) ++ s.free }).Perm (blocks.map Prod.swap ++ owned build s) := by
  simp only [owned, List.map_append, List.map_map]
  exact (List.perm_append_comm_assoc _ _ _).trans (.refl _)

theorem inv_refillPool {t : Fin n} {nl page : Nat}
    (large : poolMaxNlines * cacheLineSize ≤ superpageSize) (small : nl ≤ poolMaxNlines)
    (inv : Inv build superpageSize s) (offered : offers build superpageSize s page = true)
    (refill : s.refillPool superpageSize t nl page = some s') : Inv build superpageSize s' := by
  simp only [State.refillPool, initializePool_eq large small,
    Option.ite_none_left_eq_some, Option.some.injEq] at refill
  obtain ⟨some, rfl⟩ := refill
  have blocks {b : Nat × Nat}
      (member : b ∈ (Kvthread.initializePool superpageSize page nl).map Prod.swap) :
      b.2 = nl ∧ page ≤ b.1 ∧ b.1 + b.2 * cacheLineSize ≤ page + superpageSize := by
    obtain ⟨x, made, rfl⟩ := List.mem_map.mp member
    obtain ⟨rfl, inside⟩ := initializePool_inside made
    exact ⟨rfl, inside⟩
  refine ⟨inv.header, ?_, ?_, ?_, ?_, ?_⟩
  · exact (owned_refill s t _ _ _ _).trans (inv.perm.append_left _)
  · refine List.pairwise_append.mpr ⟨initializePool_apart _ _ _, inv.disjoint, ?_⟩
    intro c new b old
    exact inv.fresh offered old (blocks new).2
  · intro b member
    rcases List.mem_append.mp member with new | old
    · obtain ⟨rfl, -⟩ := blocks new
      exact ⟨Nat.pos_of_ne_zero some, small⟩
    · exact inv.classes b old
  · intro b member
    rcases List.mem_append.mp member with new | old
    · exact ⟨page, List.mem_cons_self, (blocks new).2⟩
    · obtain ⟨page', member, inside⟩ := inv.inside b old
      exact ⟨page', List.mem_cons_of_mem _ member, inside⟩
  · rintro rfl page' member
    have here : page = s.nvmFreeAddr := of_decide_eq_true offered
    show page' + superpageSize ≤ s.nvmFreeAddr + superpageSize
    rcases List.mem_cons.mp member with rfl | member
    · exact Nat.le_of_eq (by rw [here])
    · exact (inv.region rfl page' member).trans (Nat.le_add_right _ _)

theorem inv_pop {t : Fin n} {sz : Nat} {tag : Memtag} {x : Fin n × Nat × Nat}
    (inv : Inv build superpageSize s) (found : s.first t (nlines build sz) = some x) :
    Inv build superpageSize { s with
      free := s.free.erase x
      used := ⟨x.2.2 + build.headerSize, sz, tag⟩ :: s.used } := by
  have member := List.mem_of_find?_eq_some found
  have same : x.1 = t ∧ x.2.1 = nlines build sz := by
    simpa using List.find?_some found
  have gained : block build ⟨x.2.2 + build.headerSize, sz, tag⟩ = (x.2.2, x.2.1) := by
    rw [block, same.2, Nat.add_sub_cancel]
  refine ⟨?_, ?_, inv.disjoint, inv.classes, inv.inside, inv.region⟩
  · intro u used
    rcases List.mem_cons.mp used with rfl | used
    · exact Nat.le_add_left _ _
    · exact inv.header u used
  · refine List.Perm.trans ?_ inv.perm
    have moved := (List.perm_cons_erase member).map fun x => (x.2.2, x.2.1)
    rw [owned, owned, List.map_cons, gained, List.cons_append, List.cons_append]
    exact (List.perm_middle.symm.trans ((moved.symm).append_left _))

theorem inv_poolAllocate {t : Fin n} {sz page : Nat} {tag : Memtag}
    (large : poolMaxNlines * cacheLineSize ≤ superpageSize) (inv : Inv build superpageSize s)
    (offered : offers build superpageSize s page = true)
    (h : s.poolAllocate build superpageSize t sz tag page = some s') :
    Inv build superpageSize s' := by
  simp only [State.poolAllocate, Option.ite_none_left_eq_some, Nat.not_lt] at h
  obtain ⟨small, h⟩ := h
  obtain ⟨filled, refill, h⟩ := Option.bind_eq_some_iff.mp h
  obtain ⟨x, found, rfl⟩ := Option.map_eq_some_iff.mp h
  refine inv_pop ?_ found
  split at refill
  · exact inv_refillPool large small inv offered refill
  · cases refill
    exact inv

/-- `free_rcu` finds the class in the tag: no memtag has bits in `memtag_pool_mask`. -/
theorem tag_class (tag : Memtag) {nl : Nat} (small : nl ≤ poolMaxNlines) :
    (tag.toNat + nl) &&& memtagPoolMask = nl := by
  have low : (tag.toNat + nl) % 2 ^ 8 = nl := by
    simp only [poolMaxNlines] at small
    cases tag <;> simp only [Memtag.toNat] <;> omega
  exact (Nat.and_two_pow_sub_one_eq_mod _ 8).trans low

theorem owned_release {u : Used} (held : u ∈ s.used) :
    (owned build s).Perm (block build u :: owned build { s with used := s.used.erase u }) := by
  have moved := (List.perm_cons_erase held).map (block build)
  simp only [owned, List.append_assoc]
  exact moved.append_right _

theorem owned_push (s : State n) (t : Fin n) (nl p : Nat) :
    (owned build (s.push t nl p)).Perm ((p, nl) :: owned build s) := by
  simp only [owned, State.push, List.map_cons]
  exact List.perm_middle

theorem owned_recordRcu (build : Build) (s : State n) (t : Fin n) (p tag : Nat) :
    (owned build (s.recordRcu t p tag)).Perm ((p, tag &&& memtagPoolMask) :: owned build s) := by
  simp only [owned, State.recordRcu, List.map_append, List.map_cons, List.map_nil, List.append_assoc,
    List.singleton_append]
  rw [← List.append_assoc, ← List.append_assoc]
  exact List.perm_middle

theorem Inv.block_class (inv : Inv build superpageSize s) {u : Used} (held : u ∈ s.used) :
    nlines build u.sz ≤ poolMaxNlines := by
  have member : block build u ∈ owned build s := by
    simp only [owned, List.append_assoc]
    exact List.mem_append_left _ (List.mem_map_of_mem held)
  exact (inv.sound.classes _ member).2

section
variable {u : Used} {f : State n → State n}

/-- A release that puts the block of the caller elsewhere, with its class. -/
theorem inv_release (inv : Inv build superpageSize s) (h : release s u f = some s')
    (put : ∀ s : State n, (owned build (f s)).Perm (block build u :: owned build s) ∧
      (f s).used = s.used ∧ (f s).carved = s.carved ∧ (f s).pages = s.pages ∧
      (f s).nvmFreeAddr = s.nvmFreeAddr)
    : Inv build superpageSize s' := by
  simp only [release, Option.ite_none_right_eq_some, Option.some.injEq] at h
  obtain ⟨held, rfl⟩ := h
  obtain ⟨perm, used, rest⟩ := put { s with used := s.used.erase u }
  refine inv.moved ?_ (perm.trans (owned_release held).symm) rest
  rw [used]
  exact fun v member => List.mem_of_mem_erase member

theorem held_of_release (h : release s u f = some s') : u ∈ s.used := by
  simp only [release, Option.ite_none_right_eq_some] at h
  exact h.1

theorem inv_poolDeallocate {t : Fin n} (inv : Inv build superpageSize s)
    (h : release s u (fun s => s.poolDeallocate build t u) = some s') :
    Inv build superpageSize s' :=
  inv_release inv h fun s => ⟨owned_push s t _ _, rfl, rfl, rfl, rfl⟩

/-- The block goes to limbo with its class in the tag. -/
theorem inv_poolDeallocateRcu {t : Fin n} (inv : Inv build superpageSize s)
    (h : release s u (fun s => s.poolDeallocateRcu build t u) = some s') :
    Inv build superpageSize s' := by
  have small := inv.block_class (held_of_release h)
  refine inv_release inv h fun s => ⟨?_, rfl, rfl, rfl, rfl⟩
  have recorded := owned_recordRcu build s t (u.ptr - build.headerSize)
    (u.tag.toNat + nlines build u.sz)
  rw [tag_class u.tag small] at recorded
  exact recorded

end

theorem inv_freeRcu {t : Fin n} {x : Fin n × Nat × Nat} (inv : Inv build superpageSize s)
    (recorded : x ∈ s.limbo) :
    Inv build superpageSize ({ s with limbo := s.limbo.erase x }.freeRcu t x.2.1 x.2.2) := by
  refine inv.moved (fun u member => member) ?_ ⟨rfl, rfl, rfl⟩
  refine (owned_push _ t _ _).trans ?_
  have moved := (List.perm_cons_erase recorded).map fun x => (x.2.1, x.2.2 &&& memtagPoolMask)
  simp only [owned, List.append_assoc]
  exact List.perm_middle.symm.trans ((moved.symm.append_right _).append_left _)

theorem inv_step {l : Label n} (large : poolMaxNlines * cacheLineSize ≤ superpageSize)
    (inv : Inv build superpageSize s) (keeps : keepsClass build s l)
    (h : step build superpageSize s l = some s') : Inv build superpageSize s' := by
  cases l with
  | allocate t sz tag page | poolAllocate t sz tag page =>
      simp only [step, Option.ite_none_right_eq_some] at h
      exact inv_poolAllocate large inv h.1 h.2
  | deallocate t u | poolDeallocate t u => exact inv_poolDeallocate inv h
  | deallocateRcu t u =>
      cases build with
      | pallocator => exact inv_poolDeallocateRcu inv h
      | plain => exact absurd rfl keeps
  | poolDeallocateRcu t u => exact inv_poolDeallocateRcu inv h
  | freeRcu t =>
      simp only [step, Option.map_eq_some_iff] at h
      obtain ⟨x, found, rfl⟩ := h
      exact inv_freeRcu inv (List.mem_of_find?_eq_some found)

instance (build : Build) (s : State n) : (l : Label n) → Decidable (keepsClass build s l)
  | .allocate _ sz _ _ | .poolAllocate _ sz _ _ =>
      inferInstanceAs (Decidable (build = .plain → sz ≠ 0))
  | .deallocateRcu _ _ => inferInstanceAs (Decidable (build ≠ .plain))
  | .deallocate _ _ | .poolDeallocate _ _ | .poolDeallocateRcu _ _ | .freeRcu _ => .isTrue trivial

/-- The first page, where the region of the persistent build starts as well. -/
def page : Nat := 2 ^ 21

def started (n : Nat) : State n := ⟨page, [], [], [], [], []⟩

end Incll.Proof.Pool
