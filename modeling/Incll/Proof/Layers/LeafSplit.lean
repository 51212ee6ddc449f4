import Incll.Proof.Layers.LeafEntries

/-! # `leaf::split_into`

The old entries and the new key, in order, are cut where the ikey changes. -/

namespace Incll.Proof.Layers
open Incll.Model

/-- The entries with the new key at position `p`. -/
def afterInsert (b : LeafBody) (k : Key) (p : Nat) : List Entry :=
  (entries b).insertIdx p (Key.entry k .empty)

variable {b : LeafBody} {k : Key} {p : Nat}

theorem length_afterInsert (ok : EntriesOk b) (small : p ≤ b.size) :
    (afterInsert b k p).length = b.size + 1 := by
  have length := length_entries ok.valid.body.permutation
  rw [afterInsert, List.length_insertIdx, if_pos (by omega), length]

theorem sorted_afterInsert (ok : EntriesOk b) (place : Place b (Key.rank k) p none) :
    Sorted (afterInsert b k p) := by
  refine ok.sorted.insertIdx ?_ ?_ ?_
  · rw [length_entries ok.valid.body.permutation]
    exact place.small
  · intro e member
    rw [Key.rank_entry]
    exact place.before e member
  · intro e member
    rw [Key.rank_entry]
    exact place.missing rfl e member

/-- The entry at position `x` after the insertion. -/
def entryAfter (b : LeafBody) (k : Key) (p x : Nat) : Entry :=
  if x < p then entryAt b (b.permutation.get x)
  else if x = p then Key.entry k .empty
  else entryAt b (b.permutation.get (x - 1))

theorem getElem_afterInsert (ok : EntriesOk b) (small : p ≤ b.size) {x : Nat} (low : x ≤ b.size) :
    (afterInsert b k p)[x]? = some (entryAfter b k p x) := by
  have valid := ok.valid.body.permutation
  have length := length_entries valid
  rw [afterInsert, entryAfter, List.getElem?_insertIdx]
  split
  · exact getElem_entries valid (by omega)
  · split
    · rw [if_pos (by omega)]
    · exact getElem_entries valid (by omega)

theorem ikeyAfterInsert_eq (x : Nat) : b.ikeyAfterInsert x k p = (entryAfter b k p x).ikey := by
  simp only [LeafBody.ikeyAfterInsert, entryAfter]
  split
  · rfl
  · split <;> rfl

/-- The ranks of the entries increase. -/
theorem rank_entryAfter_lt (ok : EntriesOk b) (place : Place b (Key.rank k) p none) {x y : Nat}
    (less : x < y) (low : y ≤ b.size) : (entryAfter b k p x).rank < (entryAfter b k p y).rank := by
  obtain ⟨left, here⟩ := List.getElem?_eq_some_iff.mp
    (getElem_afterInsert (k := k) ok place.small (show x ≤ b.size by omega))
  obtain ⟨right, there⟩ := List.getElem?_eq_some_iff.mp
    (getElem_afterInsert (k := k) ok place.small low)
  rw [← here, ← there]
  exact List.pairwise_iff_getElem.mp (sorted_afterInsert ok place) x y left right less

theorem ikey_entryAfter_le (ok : EntriesOk b) (place : Place b (Key.rank k) p none) {x y : Nat}
    (less : x ≤ y) (low : y ≤ b.size) : (entryAfter b k p x).ikey ≤ (entryAfter b k p y).ikey := by
  rcases Nat.lt_or_eq_of_le less with less | rfl
  · exact rank_le (rank_entryAfter_lt ok place less low).le
  · exact le_rfl

/-- At most ten entries have one ikey. -/
theorem ikey_entryAfter_lt (ok : EntriesOk b) (place : Place b (Key.rank k) p none) {x : Nat}
    (low : x + 10 ≤ b.size) : (entryAfter b k p x).ikey < (entryAfter b k p (x + 10)).ikey := by
  have step (d : Nat) (bound : d ≤ 10) :
      (entryAfter b k p x).rank + d ≤ (entryAfter b k p (x + d)).rank := by
    induction d with
    | zero => exact le_rfl
    | succ d ih =>
        have := ih (by omega)
        have : (entryAfter b k p (x + d)).rank < (entryAfter b k p (x + (d + 1))).rank :=
          rank_entryAfter_lt ok place (by omega) (by omega)
        omega
  have far := step 10 le_rfl
  simp only [Entry.rank, rank] at far
  omega

/-! The place of the cut. -/

theorem moveMid_total {midIkey fuel midr : Nat} {midl : Int} (low : midl + 1 < midr)
    (pair : 2 ≤ midr) (first : midl + 1 ≤ b.size)
    (inside : ∀ j : Nat, midl < j → j < midr → j ≤ b.size → (entryAfter b k p j).ikey = midIkey)
    (enough : ∃ j : Nat, j ≤ b.size ∧ (entryAfter b k p j).ikey ≠ midIkey ∧ j < midr + fuel ∧
      midl < j + fuel) :
    ∃ mid, b.moveMid k p midIkey fuel midl midr = some mid ∧ 1 ≤ mid ∧ mid ≤ b.size ∧
      (entryAfter b k p (mid - 1)).ikey ≠ (entryAfter b k p mid).ikey := by
  induction fuel generalizing midl midr with
  | zero =>
      obtain ⟨j, small, other, left, right⟩ := enough
      exact absurd (inside j (by omega) (by omega) small) other
  | succ fuel ih =>
      simp only [LeafBody.moveMid, ikeyAfterInsert_eq]
      split
      · next found =>
          refine ⟨midr, rfl, by omega, found.1, ?_⟩
          rw [inside (midr - 1) (by omega) (by omega) (by omega)]
          exact found.2
      · next right =>
          split
          · next found =>
              refine ⟨(midl + 1).toNat, rfl, by omega, by omega, ?_⟩
              rw [inside (midl + 1).toNat (by omega) (by omega) (by omega),
                show (midl + 1).toNat - 1 = midl.toNat by omega]
              exact Ne.symm found.2
          · next left =>
              obtain ⟨j, small, other, less, more⟩ := enough
              have same (j : Nat) (from' : midl - 1 < j) (upto : j < midr + 1) (bound : j ≤ b.size) :
                  (entryAfter b k p j).ikey = midIkey := by
                by_cases hi : j = midr
                · by_contra ne
                  exact right ⟨hi ▸ bound, hi ▸ Ne.symm ne⟩
                · by_cases lo : midl = j
                  · by_contra ne
                    refine left ⟨by omega, ?_⟩
                    rw [lo, Int.toNat_natCast]
                    exact Ne.symm ne
                  · exact inside j (by omega) (by omega) bound
              exact ih (by omega) (by omega) (by omega) same ⟨j, small, other, by omega, by omega⟩

theorem splitMid_total (ok : EntriesOk b) (place : Place b (Key.rank k) p none)
    (full : leafWidth ≤ b.size + 1) :
    ∃ mid, b.splitMid k p = some mid ∧ 1 ≤ mid ∧ mid ≤ b.size ∧
      (entryAfter b k p (mid - 1)).ikey < (entryAfter b k p mid).ikey := by
  have small : b.size ≤ leafWidth := ok.valid.body.permutation.size
  simp only [leafWidth] at full small
  suffices ∃ mid, b.splitMid k p = some mid ∧ 1 ≤ mid ∧ mid ≤ b.size ∧
      (entryAfter b k p (mid - 1)).ikey ≠ (entryAfter b k p mid).ikey by
    obtain ⟨mid, split, low, high, ne⟩ := this
    exact ⟨mid, split, low, high,
      lt_of_le_of_ne (ikey_entryAfter_le ok place (Nat.sub_le ..) high) ne⟩
  have start : ∃ mid, (if p = 0 ∧ b.prev = 0 then 1
      else if p = b.size ∧ b.next = 0 then b.size else leafWidth / 2 + 1) = mid ∧
      1 ≤ mid ∧ mid ≤ b.size := by
    refine ⟨_, rfl, ?_⟩
    simp only [leafWidth]
    split
    · omega
    · split <;> omega
  obtain ⟨mid, mid_eq, low, high⟩ := start
  simp only [LeafBody.splitMid, mid_eq, ikeyAfterInsert_eq]
  split
  · next same =>
      refine moveMid_total (by omega) (by omega) (by omega) (fun j from' upto _ => ?_) ?_
      · by_cases last : j = mid
        · rw [last]
        · rw [show j = mid - 1 by omega, same]
      · have apart := ikey_entryAfter_lt ok place (show 0 + 10 ≤ b.size by omega)
        by_cases zero : (entryAfter b k p 0).ikey = (entryAfter b k p mid).ikey
        · refine ⟨10, by omega, ?_, by simp only [leafWidth]; omega, by simp only [leafWidth]; omega⟩
          rw [← zero]
          exact apart.ne'
        · exact ⟨0, by omega, zero, by simp only [leafWidth]; omega, by simp only [leafWidth]; omega⟩
  · next ne => exact ⟨mid, rfl, low, high, Ne.symm ne⟩

/-! Filling the new leaf. -/

theorem entryOk_key (ok : KeyOk k) (lv : Leafvalue) : EntryOk (Key.entry k lv) := by
  simp only [Key.entry]
  cases long : k.hasSuffix
  · have short := (not_hasSuffix_iff k).mp long
    refine ⟨.inl short, ?_⟩
    simp only [ok.short long, Bool.false_eq_true, if_false, ksufKeylenx]
    refine ⟨fun absent => absurd rfl absent, fun same => ?_⟩
    omega
  · exact ⟨.inr (.inl rfl), fun _ => rfl, fun _ => ok.long long⟩

theorem getKsuf_ne_nil {q : Nat} (ok : EntryOk (entryAt b q)) (has : b.hasKsuf q = true) :
    b.getKsuf q ≠ [] := by
  have len : b.keylenx q = ksufKeylenx := by simpa [LeafBody.hasKsuf] using has
  have suffix := ok.suffix.mpr len
  simpa [entryAt, has] using suffix

theorem entryOk_entryAfter (ok : EntriesOk b) (key : KeyOk k) (small : p ≤ b.size) {x : Nat}
    (low : x ≤ b.size) : EntryOk (entryAfter b k p x) := by
  have member := List.mem_of_getElem? (getElem_afterInsert (k := k) ok small low)
  rcases List.eq_or_mem_of_mem_insertIdx member with same | old
  · rw [same]
    exact entryOk_key key _
  · exact ok.each _ old

theorem headD_drop (perm : Kpermuter) (x : Nat) : (perm.slots.drop x).headD 0 = perm.get x := by
  simp [Kpermuter.get, List.headD_eq_head?_getD, List.head?_drop]

theorem fillRight_total {mid n x : Nat} {slots : List Nat} {nr : LeafBody} (ok : EntriesOk b)
    (key : KeyOk k) (small : p ≤ b.size) (last : x + n = b.size + 1) (low : mid ≤ x)
    (left : slots = b.permutation.slots.drop (if x ≤ p then x else x - 1)) (valid : LeafValid nr)
    (done : ∀ j, j < x - mid → entryAt nr j = entryAfter b k p (mid + j)) :
    ∃ nr', b.fillRight k p mid n x slots nr = some nr' ∧ LeafValid nr' ∧ SameLinks nr nr' ∧
      nr'.permutation = nr.permutation ∧
      ∀ j, mid + j ≤ b.size → entryAt nr' j = entryAfter b k p (mid + j) := by
  induction n generalizing x slots nr with
  | zero => exact ⟨nr, rfl, valid, ⟨rfl, rfl, rfl, rfl, rfl⟩, rfl, fun j bound => done j (by omega)⟩
  | succ n ih =>
      have ksufs : KsufsOk nr (x - mid) true := by
        intro q _ kept has
        have before : q < x - mid := kept
        refine getKsuf_ne_nil ?_ has
        rw [done q before]
        exact entryOk_entryAfter ok key small (by omega)
      have continue' {nr₁ : LeafBody} {slots₁ : List Nat} {e : Entry}
          (assigned : AssignedTo nr nr₁ (x - mid) true e) (here : e = entryAfter b k p x)
          (left₁ : slots₁ = b.permutation.slots.drop (if x + 1 ≤ p then x + 1 else x + 1 - 1)) :
          ∃ nr', b.fillRight k p mid n (x + 1) slots₁ nr₁ = some nr' ∧ LeafValid nr' ∧
            SameLinks nr nr' ∧ nr'.permutation = nr.permutation ∧
            ∀ j, mid + j ≤ b.size → entryAt nr' j = entryAfter b k p (mid + j) := by
        obtain ⟨nr', fill, valid', links, perm, all⟩ := ih (by omega) (by omega) left₁ assigned.valid
          (fun j less => by
            by_cases same : j = x - mid
            · rw [same, assigned.here, here, show mid + (x - mid) = x by omega]
            · rw [assigned.others j same (show j < x - mid by omega), done j (by omega)])
        refine ⟨nr', fill, valid', ?_, perm.trans assigned.permutation, all⟩
        exact ⟨links.next.trans assigned.links.next, links.nextMark.trans assigned.links.nextMark,
          links.prev.trans assigned.links.prev, links.parent.trans assigned.links.parent,
          links.modstate.trans assigned.links.modstate⟩
      simp only [LeafBody.fillRight]
      split
      · next same =>
          obtain ⟨nr₁, assign, assigned⟩ := assign_total valid key ksufs nofun
          rw [assign]
          refine continue' assigned ?_ ?_
          · simp [entryAfter, same]
          · rw [left, if_pos same.le, if_neg (by omega)]
            rfl
      · next other =>
          have place : (if x ≤ p then x else x - 1) < b.size := by
            split <;> omega
          have slot : slots.headD 0 = b.permutation.get (if x ≤ p then x else x - 1) := by
            rw [left, headD_drop]
          have here : entryAt b (slots.headD 0) = entryAfter b k p x := by
            rw [slot, entryAfter]
            rcases Nat.lt_or_gt_of_ne other with less | more
            · rw [if_pos less.le, if_pos less]
            · rw [if_neg (by omega), if_neg (by omega), if_neg other]
          have suffix : b.hasKsuf (slots.headD 0) = true → b.getKsuf (slots.headD 0) ≠ [] := by
            refine getKsuf_ne_nil ?_
            rw [here]
            exact entryOk_entryAfter ok key small (by omega)
          obtain ⟨nr₁, assign, assigned⟩ := assignFrom_total valid suffix ksufs
          rw [assign]
          refine continue' assigned here ?_
          rw [left, List.tail_drop]
          congr 1
          split <;> split <;> omega

theorem ikey_entryAfter {P : Nat → Prop} (ok : EntriesOk b) (small : p ≤ b.size) {x : Nat}
    (low : x ≤ b.size) (old : ∀ e ∈ entries b, P e.ikey) (new : P k.ikey) :
    P (entryAfter b k p x).ikey := by
  have member := List.mem_of_getElem? (getElem_afterInsert (k := k) ok small low)
  rcases List.eq_or_mem_of_mem_insertIdx member with same | member
  · rw [same]
    exact new
  · exact old _ member

/-- Where the old entries are after the insertion. -/
theorem entry_eq_after (ok : EntriesOk b) {j : Nat} (low : j < b.size) :
    (entries b)[j]? = some (entryAfter b k p (if j < p then j else j + 1)) := by
  rw [getElem_entries ok.valid.body.permutation low, entryAfter]
  by_cases before : j < p
  · simp [before]
  · simp [before, show ¬ j + 1 < p by omega, show j + 1 ≠ p by omega]

/-! The two leaves: the first `m` entries stay. -/

structure SplitOk (b right : LeafBody) (k : Key) (p key splitType m : Nat) : Prop where
  valid : LeafValid right
  entries : entries right = (entries b).drop m
  bound : m ≤ b.size
  size : right.size = b.size - m
  parent : right.parent = 0
  modstate : right.modstate = .insert
  ikey : right.ikey0 0 = key
  first : ((afterInsert b k p).drop (if splitType = 0 then m + 1 else m)).head?.map Entry.ikey = some key
  below : ∀ e ∈ (Layers.entries b).take m, e.ikey < key
  above : ∀ e ∈ (Layers.entries b).drop m, key ≤ e.ikey
  low : ∀ lo, (∀ e ∈ Layers.entries b, lo ≤ e.ikey) → lo ≤ k.ikey → lo < key
  high : ∀ hi, (∀ e ∈ Layers.entries b, e.ikey < hi) → k.ikey < hi → key < hi
  place : splitType = 0 ∧ p ≤ m ∧ m < b.size ∧ k.ikey < key ∨
    splitType ≠ 0 ∧ m ≤ p ∧ right.size < leafWidth ∧ right.permutation.back = p - m ∧
      entryAt right (p - m) = Key.entry k .empty ∧ key ≤ k.ikey

theorem live_makeSorted (n : Nat) : (Kpermuter.makeSorted n).live = List.range n := by
  simp [Kpermuter.live, Kpermuter.makeSorted]

theorem live_removeToBack {n i : Nat} (small : i < n) :
    ((Kpermuter.makeSorted n).removeToBack i).live = (List.range n).eraseIdx i := by
  simp only [Kpermuter.live, Kpermuter.removeToBack, Kpermuter.makeSorted]
  exact List.ext_getElem (by grind) (by grind)

theorem back_removeToBack (perm : Kpermuter) (i : Nat) (full : perm.slots.length = leafWidth)
    (small : i < leafWidth) : (perm.removeToBack i).back = perm.get i := by
  have length : (perm.slots.eraseIdx i).length = leafWidth - 1 := by
    rw [List.length_eraseIdx_of_lt (by omega), full]
  simp [Kpermuter.back, Kpermuter.get, Kpermuter.removeToBack, length]

/-- The entries that are moved, if the new key stays to the left. -/
theorem entries_right_sorted (ok : EntriesOk b) {nr : LeafBody} {mid : Nat} (low : 1 ≤ mid)
    (high : mid ≤ b.size) (left : p < mid)
    (all : ∀ j, mid + j ≤ b.size → entryAt nr j = entryAfter b k p (mid + j)) :
    (List.range (b.size + 1 - mid)).map (entryAt nr) = (entries b).drop (mid - 1) := by
  have valid := ok.valid.body.permutation
  refine List.ext_getElem? fun j => ?_
  rw [List.getElem?_drop]
  by_cases small : j < b.size + 1 - mid
  · rw [List.getElem?_map, List.getElem?_range small, getElem_entries valid (by omega),
      Option.map_some, all j (by omega), entryAfter, if_neg (by omega), if_neg (by omega),
      show mid + j - 1 = mid - 1 + j by omega]
  · rw [List.getElem?_eq_none (by simp; omega),
      List.getElem?_eq_none (by rw [length_entries valid]; omega)]

theorem entries_right_removed (ok : EntriesOk b) {nr : LeafBody} {mid : Nat}
    (high : mid ≤ b.size) (right : mid ≤ p) (small : p ≤ b.size)
    (all : ∀ j, mid + j ≤ b.size → entryAt nr j = entryAfter b k p (mid + j)) :
    ((List.range (b.size + 1 - mid)).eraseIdx (p - mid)).map (entryAt nr) =
      (entries b).drop mid := by
  have valid := ok.valid.body.permutation
  refine List.ext_getElem? fun j => ?_
  rw [List.getElem?_drop]
  by_cases bound : j < b.size - mid
  · rw [List.getElem?_map, List.getElem?_eraseIdx, getElem_entries valid (by omega)]
    by_cases before : j < p - mid
    · rw [if_pos before, List.getElem?_range (by omega), Option.map_some, all j (by omega),
        entryAfter, if_pos (by omega)]
    · rw [if_neg before, List.getElem?_range (by omega), Option.map_some, all (j + 1) (by omega),
        entryAfter, if_neg (by omega), if_neg (by omega), show mid + (j + 1) - 1 = mid + j by omega]
  · rw [List.getElem?_eq_none (by rw [List.length_map, List.length_eraseIdx, List.length_range]; split <;> omega),
      List.getElem?_eq_none (by rw [length_entries valid]; omega)]

theorem splitInto_total {nr : LeafBody} (ok : EntriesOk b) (key : KeyOk k)
    (place : Place b (Key.rank k) p none) (full : leafWidth ≤ b.size + 1) (valid : LeafValid nr)
    (parent : nr.parent = 0) (modstate : nr.modstate = .insert) :
    ∃ right ikey splitType m, b.splitInto nr p k = some (right, ikey, splitType) ∧
      SplitOk b right k p ikey splitType m := by
  have small := place.small
  have width : b.size ≤ leafWidth := ok.valid.body.permutation.size
  obtain ⟨mid, split, low, high, cut⟩ := splitMid_total ok place full
  obtain ⟨nr', fill, valid', links, perm, all⟩ := @fillRight_total b k p mid (b.size + 1 - mid) mid
    (b.permutation.slots.drop (mid - if p < mid then 1 else 0)) nr ok key small (by omega) le_rfl
    (by congr 1; split <;> split <;> omega) valid (fun j less => absurd less (by omega))
  -- the entries that stay and those that go
  have bounds {m : Nat} (m_eq : m = if p < mid then mid - 1 else mid) :
      (∀ e ∈ (entries b).take m, e.ikey < (entryAfter b k p mid).ikey) ∧
        ∀ e ∈ (entries b).drop m, (entryAfter b k p mid).ikey ≤ e.ikey := by
    have length := length_entries ok.valid.body.permutation
    constructor
    · intro e member
      obtain ⟨j, bound, rfl⟩ := List.mem_take_iff_getElem.mp member
      have less : j < m := by omega
      have here := entry_eq_after (k := k) (p := p) ok (show j < b.size by omega)
      rw [(List.getElem?_eq_some_iff.mp here).2]
      refine (ikey_entryAfter_le ok place ?_ (by omega)).trans_lt cut
      split at m_eq <;> split <;> omega
    · intro e member
      obtain ⟨j, bound, rfl⟩ := List.mem_drop_iff_getElem.mp member
      rw [length] at bound
      have here := entry_eq_after (k := k) (p := p) ok (show m + j < b.size by omega)
      rw [(List.getElem?_eq_some_iff.mp here).2]
      refine ikey_entryAfter_le ok place ?_ ?_
      · split at m_eq <;> split <;> omega
      · split <;> omega
  have lowest (lo : Nat) (old : ∀ e ∈ entries b, lo ≤ e.ikey) (new : lo ≤ k.ikey) :
      lo < (entryAfter b k p mid).ikey :=
    (ikey_entryAfter (P := (lo ≤ ·)) ok small (by omega) old new).trans_lt cut
  have highest (hi : Nat) (old : ∀ e ∈ entries b, e.ikey < hi) (new : k.ikey < hi) :
      (entryAfter b k p mid).ikey < hi := ikey_entryAfter (P := (· < hi)) ok small high old new
  have first : nr'.ikey0 0 = (entryAfter b k p mid).ikey := congrArg Entry.ikey (all 0 high)
  have head : ((afterInsert b k p).drop mid).head?.map Entry.ikey = some (entryAfter b k p mid).ikey := by
    rw [List.head?_drop, getElem_afterInsert ok small high]
    rfl
  simp only [LeafBody.splitInto, split, fill, Option.bind_eq_bind, Option.bind_some]
  by_cases left : p < mid
  · have right : ¬ mid ≤ p := by omega
    simp only [right, if_false]
    obtain ⟨below, above⟩ := bounds rfl
    rw [if_pos left] at below above
    refine ⟨_, _, _, mid - 1, rfl, ?_⟩
    have sorted := permValid_makeSorted (show b.size + 1 - mid ≤ leafWidth by omega)
    refine ⟨valid'.setPermutation sorted, ?_, by omega, ?_, links.parent.trans parent,
      links.modstate.trans modstate, rfl, ?_, ?_, ?_, ?_, ?_, .inl ⟨rfl, by omega, by omega, ?_⟩⟩
    · change (Kpermuter.makeSorted _).live.map (entryAt nr') = _
      rw [live_makeSorted]
      exact entries_right_sorted ok low high left all
    · change b.size + 1 - mid = _
      omega
    · rw [if_pos rfl, Nat.sub_add_cancel low, head, first]
    · rwa [first]
    · rwa [first]
    · rwa [first]
    · rwa [first]
    · rw [first]
      have new : k.ikey = (entryAfter b k p p).ikey := by simp [entryAfter, Key.entry]
      rw [new]
      exact (ikey_entryAfter_le ok place (by omega) (by omega)).trans_lt cut
  · have right : mid ≤ p := by omega
    simp only [right, if_true]
    obtain ⟨below, above⟩ := bounds rfl
    rw [if_neg left] at below above
    refine ⟨_, _, _, mid, rfl, ?_⟩
    have sorted := permValid_makeSorted (show b.size + 1 - mid ≤ leafWidth by omega)
    have removed := sorted.removeToBack (show p - mid < leafWidth by omega)
    refine ⟨valid'.setPermutation removed, ?_, high, ?_, links.parent.trans parent,
      links.modstate.trans modstate, rfl, ?_, ?_, ?_, ?_, ?_,
      .inr ⟨by omega, right, ?_, ?_, ?_, ?_⟩⟩
    · change ((Kpermuter.makeSorted _).removeToBack _).live.map (entryAt nr') = _
      rw [live_removeToBack (by omega)]
      exact entries_right_removed ok high right small all
    · change b.size + 1 - mid - 1 = _
      omega
    · rw [if_neg (by omega), head, first]
    · rwa [first]
    · rwa [first]
    · rwa [first]
    · rwa [first]
    · change b.size + 1 - mid - 1 < _
      omega
    · change ((Kpermuter.makeSorted _).removeToBack _).back = _
      rw [back_removeToBack _ _ sorted.length (by omega)]
      simp [Kpermuter.get, Kpermuter.makeSorted, List.getElem?_append, show p - mid < b.size + 1 - mid by omega]
    · change entryAt nr' (p - mid) = _
      rw [all _ (by omega), show mid + (p - mid) = p by omega]
      simp [entryAfter]
    · rw [first]
      have new : k.ikey = (entryAfter b k p p).ikey := by simp [entryAfter, Key.entry]
      rw [new]
      exact ikey_entryAfter_le ok place right small

end Incll.Proof.Layers
