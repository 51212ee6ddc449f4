import Incll.Proof.Layers.Reserve
import Incll.Proof.Layers.SplitUp

/-! # `make_split` on the leaf

The steps that change the leaf of the cursor and the leaf split off from it. -/

namespace Incll.Proof.Layers
open Incll.Lib Incll.Model Incll.Model.Layers

variable {m : Mem} {a : Addr} {b b' : LeafBody} {k : Key} {i : Nat} {c : Layers.Tcursor}

/-- `m'` is `m` with another leaf body. -/
structure Wrote (m m' : Mem) (a : Addr) (b : LeafBody) : Prop where
  up : m'.up = m.up
  inner : m'.inner = m.inner
  body : m'.body = Function.update m.body a (some b)
  version : m'.version = m.version
  fresh : m'.fresh = m.fresh

theorem Wrote.trans {m' m'' : Mem} (first : Wrote m m' a b) (second : Wrote m' m'' a b') : Wrote m m'' a b' :=
  ⟨second.up.trans first.up, second.inner.trans first.inner,
    by rw [second.body, first.body, Function.update_idem], second.version.trans first.version,
    second.fresh.trans first.fresh⟩

theorem bare_of_body (h : m.body a = some b) : b.parent = 0 := by
  obtain ⟨l, -, rfl⟩ := exists_leaf h
  rfl

theorem modifyBody_wrote (f : LeafBody → LeafBody) (h : m.body a = some b)
    (plain : ∀ b, (f b).parent = b.parent) (bare : ∀ b, (f b).bare = f b.bare) :
    ∃ m', modifyBody a f m = .ok ((), m') ∧ Wrote m m' a (f b) := by
  refine ⟨_, modifyBody_ok f h, Mem.up_mapBody _ _ _ plain, Mem.inner_mapBody .., ?_, rfl, rfl⟩
  rw [Mem.body_mapBody _ _ _ bare, h]
  rfl

theorem setPermutation_wrote (perm : Kpermuter) (h : m.body a = some b) :
    ∃ m', modifyBody a (.setPermutation perm) m = .ok ((), m') ∧ Wrote m m' a (b.setPermutation perm) :=
  modifyBody_wrote _ h (fun _ => rfl) fun _ => rfl

/-- Nothing depends on the parent that is stored in a leaf. -/
theorem EntriesOk.setParent (ok : EntriesOk b) (p : Addr) : EntriesOk { b with parent := p } :=
  ⟨⟨⟨ok.valid.body.permutation, ok.valid.body.iksuf, ok.valid.body.ksuf⟩, ok.valid.bag⟩, ok.sorted, ok.each⟩

theorem Place.setParent {r : Nat} {slot : Option Nat} (place : Place b r i slot) (p : Addr) :
    Place { b with parent := p } r i slot :=
  ⟨place.small, place.before, place.found, place.missing⟩

theorem EntriesOk.bare (ok : EntriesOk b) : EntriesOk b.bare := ok.setParent 0

/-- The key is written to the next free slot of a leaf. -/
theorem assign_reserved (h : m.body a = some b) (ok : EntriesOk b) (room : b.size < leafWidth)
    (place : Place b (Key.rank k) i none) (key : KeyOk k) :
    ∃ m' b', assign a b.permutation.back k m = .ok ((), m') ∧ Wrote m m' a b' ∧
      entries b' = entries b ∧ SameLinks b b' ∧ b'.permutation = b.permutation ∧
      (b.permutation.back ≠ 0 → b'.ikeyBound = b.ikeyBound) ∧ Reserved b' k i (some b.permutation.back) := by
  obtain ⟨q, above⟩ := up_of_body h
  have read := leaf_ok h above
  obtain ⟨b', assign_eq, assigned, same, reserved⟩ := reserve (ok.setParent q) room (place.setParent q) key
  have parent : b'.parent = q := assigned.links.parent
  refine ⟨m.mapBody a fun _ => b', b'.bare, ?_, ⟨?_, Mem.inner_mapBody .., ?_, rfl, rfl⟩, same,
    ⟨assigned.links.next, assigned.links.nextMark, assigned.links.prev, (bare_of_body h).symm,
      assigned.links.modstate⟩, assigned.permutation,
    fun ne => assigned.ikey0 0 ne.symm, ⟨reserved.ok.bare, reserved.room, reserved.slot, reserved.key,
      reserved.place.setParent 0⟩⟩
  · rw [Layers.assign, bind_ok read]
    simp only [assign_eq]
    exact modifyBody_ok _ h
  · exact Mem.up_setBody _ _ _ (by rw [parent, above])
  · rw [Mem.body_setBody, h]
    rfl

/-- What `make_split` reads of a leaf. -/
theorem leaf_read (h : m.body a = some b) : ∃ x, Layers.leaf a m = .ok (x, m) ∧
    x.permutation = b.permutation ∧ x.size = b.size ∧ x.next = b.next := by
  obtain ⟨q, above⟩ := up_of_body h
  exact ⟨_, leaf_ok h above, rfl, rfl, rfl⟩

/-! `exchangeSlot`. -/

/-- A free slot other than slot 0 is used for the key. -/
structure Exchanged (m m' : Mem) (c c' : Layers.Tcursor) (b b' : LeafBody) : Prop where
  wrote : Wrote m m' c.n b'
  cursor : c' = { c with p := c'.p }
  entries : entries b' = entries b
  links : SameLinks b b'
  bound : b'.ikeyBound = b.ikeyBound
  reserved : Reserved b' c.key c.i c'.p

theorem exchangeSlot_ok (h : m.body c.n = some b) (ok : EntriesOk b)
    (place : Place b (Key.rank c.key) c.i none) (key : KeyOk c.key)
    (last : b.size < leafWidth → b.permutation.back = 0) :
    (∃ m' c' b', exchangeSlot c m = .ok (some c', m') ∧ Exchanged m m' c c' b b') ∨
      exchangeSlot c m = .ok (none, m) ∧ leafWidth ≤ b.size + 1 := by
  obtain ⟨x, read, perm_x, size_x, -⟩ := leaf_read h
  have perm := ok.valid.body.permutation
  have size : b.size ≤ leafWidth := perm.size
  rw [exchangeSlot, bind_ok read]
  simp only [perm_x, size_x]
  by_cases room : b.size < leafWidth
  · have back := back_exchange b.permutation perm.length room
    rw [if_pos room]
    by_cases zero : b.permutation.get b.size = 0
    · right
      rw [if_neg (by rwa [back, not_not])]
      refine ⟨rfl, ?_⟩
      have := perm.get_inj room (by decide) (zero.trans (last room).symm)
      simp only [leafWidth] at this ⊢
      omega
    · left
      obtain ⟨ok', same, place'⟩ := exchanged ok room place
      obtain ⟨m₁, set, first⟩ := setPermutation_wrote (b.permutation.exchange b.size (leafWidth - 1)) h
      have h₁ : m₁.body c.n = some (b.setPermutation (b.permutation.exchange b.size (leafWidth - 1))) := by
        rw [first.body, Function.update_self]
      obtain ⟨m₂, b', assign, second, same', links, -, bound, reserved⟩ :=
        assign_reserved h₁ ok' room place' key
      refine ⟨m₂, { c with p := some (b.permutation.exchange b.size (leafWidth - 1)).back }, b', ?_,
        first.trans second, rfl, same'.trans same, ⟨links.next, links.nextMark, links.prev, links.parent,
          links.modstate⟩, bound ?_, reserved⟩
      · rw [if_pos (by rwa [back]), bind_ok set]
        exact bind_ok assign
      · change (b.permutation.exchange b.size (leafWidth - 1)).back ≠ 0
        rwa [back]
  · right
    rw [if_neg room]
    exact ⟨rfl, by omega⟩

/-! `finishLeafSplit`. -/

/-- The cursor after the split. -/
def splitCursor (c : Layers.Tcursor) (nr : Addr) (n : Nat) (slot splitType : Nat) : Layers.Tcursor :=
  if splitType = 0 then { c with p := some slot } else { c with n := nr, i := c.i - n, p := some (c.i - n) }

/-- The left leaf, cut behind the first `n` entries. -/
structure Cut (b left : LeafBody) (k : Key) (i n splitType : Nat) : Prop where
  ok : EntriesOk left
  entries : entries left = (entries b).take n
  links : SameLinks b left
  bound : (leftPermutation b n).back ≠ 0 ∨ splitType ≠ 0 → left.ikeyBound = b.ikeyBound
  reserved : splitType = 0 → Reserved left k i (some (leftPermutation b n).back)

theorem finishLeafSplit_ok {nr : Addr} {r : LeafBody} {n splitType : Nat} (h : m.body a = some b)
    (h' : m.body nr = some r) (ok : EntriesOk b) (place : Place b (Key.rank c.key) c.i none)
    (key : KeyOk c.key) (bound : n ≤ b.size) (size : r.size = b.size - n)
    (zero : splitType = 0 → c.i ≤ n ∧ n < b.size) :
    ∃ m' left, finishLeafSplit a nr c splitType m =
        .ok (splitCursor c nr n (leftPermutation b n).back splitType, m') ∧
      Wrote (m.setVersion a { m.version a with splitting := true }) m' a left ∧
      Cut b left c.key c.i n splitType := by
  obtain ⟨q, above⟩ := up_of_body h
  obtain ⟨x, read, perm_x, size_x, -⟩ := leaf_read h
  obtain ⟨y, read', -, size_y, -⟩ := leaf_read h'
  have perm := ok.valid.body.permutation
  have width : b.size ≤ leafWidth := perm.size
  have cut : b.size - (b.size - n) = n := Nat.sub_sub_self bound
  have permutation : (if b.size ≠ leafWidth then
      (b.permutation.setSize n).exchange (b.permutation.setSize n).size (leafWidth - 1)
      else b.permutation.setSize n) = leftPermutation b n := rfl
  let m₁ := m.setVersion a { m.version a with splitting := true }
  obtain ⟨m₂, set, first⟩ := setPermutation_wrote (m := m₁) (leftPermutation b n) h
  have h₂ : m₂.body a = some (b.setPermutation (leftPermutation b n)) := by
    rw [first.body, Function.update_self]
  have entries_eq := entries_left perm bound
  have ok' := left_ok ok bound
  rw [finishLeafSplit, bind_ok read, bind_ok read']
  simp only [perm_x, size_x, size_y, size, cut, permutation]
  rw [bind_ok (markSplit_ok above), bind_ok set]
  by_cases left : splitType = 0
  · obtain ⟨low, less⟩ := zero left
    have room : (b.setPermutation (leftPermutation b n)).size < leafWidth :=
      (size_leftPermutation n).trans_lt (less.trans_le width)
    obtain ⟨m₃, b', assign, second, same, links, -, keep, reserved⟩ :=
      assign_reserved h₂ ok' room (place_left ok place bound low) key
    refine ⟨m₃, b', ?_, first.trans second, reserved.ok, same.trans entries_eq, ⟨links.next, links.nextMark,
      links.prev, links.parent, links.modstate⟩, fun h => keep ?_, fun _ => reserved⟩
    · rw [if_pos left, splitCursor, if_pos left]
      exact bind_ok assign
    · exact h.resolve_right (not_not.mpr left)
  · refine ⟨m₂, _, ?_, first, ok', entries_eq, ⟨rfl, rfl, rfl, rfl, rfl⟩, fun _ => rfl, fun h => absurd h left⟩
    rw [if_neg left, splitCursor, if_neg left, size_leftPermutation]
    rfl

end Incll.Proof.Layers
