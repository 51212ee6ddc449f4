import Incll.Proof.Layers.MakeSplit

/-! # The entries after `make_split` -/

namespace Incll.Proof.Layers
open Incll.Lib Incll.Model Incll.Model.Layers

variable {m m' : Mem} {span span' : Addr → Option Span} {top top' : Addr} {c c' : Layers.Tcursor} {s : Span}
  {b left right : LeafBody} {key splitType n : Nat}

/-- The entries of the leaf `a`, with the key of the cursor if its slot is there. -/
def withKey (b : LeafBody) (a : Addr) (c : Layers.Tcursor) : List Entry :=
  if c.n = a then afterInsert b c.key c.i else entries b

/-- The old entries and the key are in the two leaves. -/
structure TwoLeaves (b : LeafBody) (c c' : Layers.Tcursor) (nr : Addr) (left right : LeafBody) (key : Nat) : Prop where
  apart : c.n ≠ nr
  linked : left.next = nr
  old : entries left ++ entries right = entries b
  all : withKey left c.n c' ++ withKey right nr c' = afterInsert b c.key c.i
  below : ∀ e ∈ withKey left c.n c', e.ikey < key
  above : ∀ e ∈ withKey right nr c', key ≤ e.ikey
  first : (withKey right nr c').head?.map Entry.ikey = some key
  reserved : c'.n = c.n ∧ Reserved left c.key c'.i c'.p ∨ c'.n = nr ∧ Reserved right c.key c'.i c'.p

theorem insertIdx_take {α : Type} {l : List α} {i n : Nat} {x : α} (low : i ≤ n) (bound : n ≤ l.length) :
    (l.take n).insertIdx i x = (l.insertIdx i x).take (n + 1) :=
  List.ext_getElem (by grind) (by grind)

theorem drop_insertIdx {α : Type} {l : List α} {i n : Nat} {x : α} (low : i ≤ n) (bound : n ≤ l.length) :
    (l.insertIdx i x).drop (n + 1) = l.drop n :=
  List.ext_getElem (by grind) (by grind)

theorem take_insertIdx {α : Type} {l : List α} {i n : Nat} {x : α} (far : n ≤ i) (bound : i ≤ l.length) :
    (l.insertIdx i x).take n = l.take n :=
  List.ext_getElem (by grind) (by grind)

theorem insertIdx_drop {α : Type} {l : List α} {i n : Nat} {x : α} (far : n ≤ i) (bound : i ≤ l.length) :
    (l.drop n).insertIdx (i - n) x = (l.insertIdx i x).drop n :=
  List.ext_getElem (by grind) (by grind)

theorem key_splitCursor (c : Layers.Tcursor) (nr : Addr) (n slot splitType : Nat) :
    (splitCursor c nr n slot splitType).key = c.key := by
  by_cases zero : splitType = 0 <;> simp [splitCursor, Layers.Tcursor.key, zero]

/-- The key goes to the left leaf. -/
theorem Split.key_left (split : Split m span c s b left right key splitType n c' m' span' top') (ok : EntriesOk b)
    (apart : c.n ≠ m.fresh) (zero : splitType = 0) (far : c.i ≤ n) (less : c.key.ikey < key) :
    TwoLeaves b c c' m.fresh left (right.setLinks b.next c.n) key := by
  have left_eq : entries left = (entries b).take n := split.cut.entries
  have right_eq : entries (right.setLinks b.next c.n) = (entries b).drop n := split.parts.entries
  have length := length_entries ok.valid.body.permutation
  have bound : n ≤ (entries b).length := by rw [length]; exact split.parts.bound
  have cursor := split.cursor
  rw [splitCursor, if_pos zero] at cursor
  have reserved : Reserved left c.key c'.i c'.p := by
    rw [cursor]
    exact split.cut.reserved zero
  have left_key : withKey left c.n c' = (afterInsert b c.key c.i).take (n + 1) := by
    rw [withKey, cursor, if_pos rfl]
    change (entries left).insertIdx c.i (Key.entry c.key .empty) = _
    rw [left_eq, insertIdx_take far bound]
    rfl
  have right_key : withKey (right.setLinks b.next c.n) m.fresh c' = (afterInsert b c.key c.i).drop (n + 1) := by
    rw [withKey, cursor, if_neg apart, right_eq, afterInsert, drop_insertIdx far bound]
  refine ⟨apart, split.cut.links.next, ?_, ?_, fun e member => ?_, fun e member => ?_, ?_, .inl ⟨?_, reserved⟩⟩
  · rw [left_eq, right_eq, List.take_append_drop]
  · rw [left_key, right_key, List.take_append_drop]
  · rw [withKey, cursor, if_pos rfl] at member
    rcases List.eq_or_mem_of_mem_insertIdx (show e ∈ (entries left).insertIdx c.i (Key.entry c.key .empty) from member)
      with same | old
    · rw [same]
      exact less
    · rw [left_eq] at old
      exact split.parts.below e old
  · rw [withKey, cursor, if_neg apart, right_eq] at member
    exact split.parts.above e member
  · rw [right_key]
    have first := split.parts.first
    rwa [if_pos zero] at first
  · rw [cursor]

/-- The key goes to the right leaf. -/
theorem Split.key_right (split : Split m span c s b left right key splitType n c' m' span' top')
    (ok : EntriesOk b) (place : Place b (Key.rank c.key) c.i none) (apart : c.n ≠ m.fresh)
    (other : splitType ≠ 0) (far : n ≤ c.i) (room : right.size < leafWidth)
    (back : right.permutation.back = c.i - n) (entry : entryAt right (c.i - n) = Key.entry c.key .empty)
    (more : key ≤ c.key.ikey) : TwoLeaves b c c' m.fresh left (right.setLinks b.next c.n) key := by
  have left_eq : entries left = (entries b).take n := split.cut.entries
  have right_eq : entries (right.setLinks b.next c.n) = (entries b).drop n := split.parts.entries
  have length := length_entries ok.valid.body.permutation
  have bound : c.i ≤ (entries b).length := by rw [length]; exact place.small
  have cursor := split.cursor
  rw [splitCursor, if_neg other] at cursor
  have reserved : Reserved (right.setLinks b.next c.n) c.key c'.i c'.p := by
    rw [cursor]
    have second := split.halves.second
    have place' := place_right place split.parts far
    refine ⟨⟨⟨⟨second.valid.body.permutation, second.valid.body.iksuf, second.valid.body.ksuf⟩,
      second.valid.bag⟩, second.sorted, second.each⟩, room, ?_, ?_, ⟨place'.small, place'.before, place'.found,
      place'.missing⟩⟩
    · exact congrArg some back.symm
    · change entryAt right right.permutation.back = _
      rw [back, entry]
  have left_key : withKey left c.n c' = (afterInsert b c.key c.i).take n := by
    rw [withKey, cursor, if_neg apart.symm, left_eq, afterInsert, take_insertIdx far bound]
  have right_key : withKey (right.setLinks b.next c.n) m.fresh c' = (afterInsert b c.key c.i).drop n := by
    rw [withKey, cursor, if_pos rfl]
    change (entries (right.setLinks b.next c.n)).insertIdx (c.i - n) (Key.entry c.key .empty) = _
    rw [right_eq, insertIdx_drop far bound]
    rfl
  refine ⟨apart, split.cut.links.next, ?_, ?_, fun e member => ?_, fun e member => ?_, ?_, .inr ⟨?_, reserved⟩⟩
  · rw [left_eq, right_eq, List.take_append_drop]
  · rw [left_key, right_key, List.take_append_drop]
  · rw [withKey, cursor, if_neg apart.symm, left_eq] at member
    exact split.parts.below e member
  · rw [withKey, cursor, if_pos rfl] at member
    rcases List.eq_or_mem_of_mem_insertIdx
      (show e ∈ (entries (right.setLinks b.next c.n)).insertIdx (c.i - n) (Key.entry c.key .empty) from member)
      with same | old
    · rw [same]
      exact more
    · rw [right_eq] at old
      exact split.parts.above e old
  · rw [right_key]
    have first := split.parts.first
    rwa [if_neg other] at first
  · rw [cursor]

/-- Either the leaf keeps its entries, and the key has a free slot of it, or it has been split. -/
def EntriesAfter (c : Layers.Tcursor) (b : LeafBody) (c' : Layers.Tcursor) (m' : Mem) : Prop :=
  c'.key = c.key ∧
  ((∃ b', m'.body c.n = some b' ∧ c'.n = c.n ∧ entries b' = entries b ∧ Reserved b' c.key c'.i c'.p ∧
    withKey b' c.n c' = afterInsert b c.key c.i) ∨
  ∃ mid nr left right key, b.splitMid c.key c.i = some mid ∧ 0 < mid ∧ mid ≤ b.size ∧
    m'.body c.n = some left ∧ m'.body nr = some right ∧ TwoLeaves b c c' nr left right key)

def fullLeaf : LeafBody :=
  { LeafBody.make 0 with
    ikey0 := fun p => 2 * p + 2
    keylenx := fun _ => ikeySize
    permutation := .makeSorted leafWidth }

def fullMem : Mem where
  kind a := if a = 512 then some (.leaf ⟨.make 0, fullLeaf⟩) else none
  version _ := { Nodeversion.make with locked := true, root := true }
  fresh := 1024
  root := 512
  callbacks := []

def fullSpan (a : Addr) : Option Span := if a = 512 then some ⟨0, ikeyLimit⟩ else none

/-- The key has the ikey 15. -/
def fullCursor : Layers.Tcursor := ⟨512, 512, 7, none, 2, [], [0, 0, 0, 0, 0, 0, 0, 15]⟩

theorem fullSpan_eq {a : Addr} {s : Span} (known : fullSpan a = some s) : a = 512 ∧ s = ⟨0, ikeyLimit⟩ := by
  unfold fullSpan at known
  split at known
  · next same => exact ⟨same, (Option.some.inj known).symm⟩
  · cases known

theorem fullLeaf_ok : EntriesOk fullLeaf := by
  have valid := leafValid_make 0
  have live : entries fullLeaf = (List.range leafWidth).map (entryAt fullLeaf) :=
    congrArg (List.map _) (live_makeSorted leafWidth)
  refine ⟨⟨⟨permValid_makeSorted le_rfl, valid.body.iksuf, valid.body.ksuf⟩, valid.bag⟩, ?_, fun e member => ?_⟩
  · rw [live]
    refine List.pairwise_map.mpr (List.pairwise_lt_range.imp fun {p q} less => ?_)
    change rank (2 * p + 2) ikeySize < rank (2 * q + 2) ikeySize
    simp only [rank]
    omega
  · rw [live] at member
    obtain ⟨p, -, rfl⟩ := List.mem_map.mp member
    exact ⟨.inl le_rfl, by simp [entryAt, fullLeaf, LeafBody.hasKsuf, ikeySize, ksufKeylenx]⟩

theorem fullLeaf_inside (e : Entry) (member : e ∈ entries fullLeaf) : 0 ≤ e.ikey ∧ e.ikey < ikeyLimit := by
  obtain ⟨p, live, rfl⟩ := mem_entries.mp member
  have small := fullLeaf_ok.valid.body.permutation.live_lt live
  refine ⟨Nat.zero_le _, ?_⟩
  change 2 * p + 2 < ikeyLimit
  simp only [ikeyLimit, leafWidth] at small ⊢
  omega

theorem layer_full : Layer fullMem fullSpan 512 {512} := by
  refine ⟨⟨rfl, fun a s known => ?_, fun a s known => ?_, fun a s known => ?_, fun a s i known inner => ?_,
    fun a s known ne => ?_, rfl, rfl⟩, ⟨fun a s known => ?_, fun _ => rfl, fun a s known _ ne => ?_,
    fun a _ => rfl⟩, fun a s b known body => ?_⟩ <;> obtain ⟨rfl, rfl⟩ := fullSpan_eq known
  · exact ⟨0, rfl⟩
  · decide
  · decide
  · cases inner
  · exact absurd rfl ne
  · exact ⟨rfl, rfl, rfl, rfl⟩
  · exact absurd rfl ne
  · obtain rfl : fullLeaf = b := Option.some.inj body
    exact ⟨fullLeaf_ok, fullLeaf_inside, fun pos => absurd rfl pos, fun _ => rfl, fun pos => absurd rfl pos,
      fun _ => rfl, fun less => absurd rfl less⟩

theorem noSlot_full : NoSlot fullMem fullSpan 512 fullCursor ⟨0, ikeyLimit⟩ fullLeaf :=
  ⟨layer_full, rfl, rfl, by decide, by decide, fun pos => absurd rfl pos, by decide⟩

end Incll.Proof.Layers
