import Mathlib.Order.Lattice

/-! # Tilings of an interval

A list of places, each with its start, covers an interval without gaps. `owns lo hi c` says that the
place `c` is responsible for the interval from `lo` to `hi`. -/

namespace Incll.Lib

variable {κ α : Type} [LinearOrder κ] {owns : κ → κ → α → Prop} {lo hi : κ} {l : List (κ × α)}

def Tiles (owns : κ → κ → α → Prop) : κ → κ → List (κ × α) → Prop
  | lo, hi, [] => lo = hi
  | lo, hi, (k, c) :: l => k = lo ∧ ∃ m, lo < m ∧ owns lo m c ∧ Tiles owns m hi l

theorem tiles_cons {k : κ} {c : α} : Tiles owns lo hi ((k, c) :: l) ↔
    k = lo ∧ ∃ m, lo < m ∧ owns lo m c ∧ Tiles owns m hi l := Iff.rfl

theorem tiles_append {l' : List (κ × α)} : Tiles owns lo hi (l ++ l') ↔
    ∃ m, Tiles owns lo m l ∧ Tiles owns m hi l' := by
  induction l generalizing lo with
  | nil => exact ⟨fun h => ⟨lo, rfl, h⟩, fun ⟨m, same, h⟩ => same ▸ h⟩
  | cons x l ih =>
      simp only [List.cons_append, Tiles]
      constructor
      · rintro ⟨start, m, less, here, rest⟩
        obtain ⟨n, first, second⟩ := ih.mp rest
        exact ⟨n, ⟨start, m, less, here, first⟩, second⟩
      · rintro ⟨n, ⟨start, m, less, here, first⟩, second⟩
        exact ⟨start, m, less, here, ih.mpr ⟨n, first, second⟩⟩

theorem Tiles.le (h : Tiles owns lo hi l) : lo ≤ hi := by
  induction l generalizing lo with
  | nil => exact le_of_eq h
  | cons x l ih =>
      obtain ⟨-, m, less, -, rest⟩ := h
      exact less.le.trans (ih rest)

theorem Tiles.ne_nil (h : Tiles owns lo hi l) (wide : lo < hi) : l ≠ [] := by
  rintro rfl
  exact absurd h wide.ne

theorem Tiles.lt (h : Tiles owns lo hi l) (some : l ≠ []) : lo < hi := by
  cases l with
  | nil => exact absurd rfl some
  | cons x l =>
      obtain ⟨-, m, less, -, rest⟩ := h
      exact less.trans_le rest.le

/-- The same places for another notion of responsibility. -/
theorem Tiles.mono {owns' : κ → κ → α → Prop} (h : Tiles owns lo hi l)
    (weaker : ∀ k c m, (k, c) ∈ l → lo ≤ k → m ≤ hi → owns k m c → owns' k m c) :
    Tiles owns' lo hi l := by
  induction l generalizing lo with
  | nil => exact h
  | cons x l ih =>
      obtain ⟨start, m, less, here, rest⟩ := h
      refine ⟨start, m, less, weaker _ _ _ (by simp [← start]) le_rfl rest.le here, ?_⟩
      exact ih rest fun k c n member low high => weaker k c n (by simp [member]) (less.le.trans low) high

/-- A place of a tiling with what is before and behind it. -/
structure Tile (owns : κ → κ → α → Prop) (lo hi : κ) (l before : List (κ × α)) (k m : κ) (c : α)
    (behind : List (κ × α)) : Prop where
  eq : l = before ++ (k, c) :: behind
  before : Tiles owns lo k before
  less : k < m
  here : owns k m c
  behind : Tiles owns m hi behind

theorem Tiles.tile {before behind : List (κ × α)} {k : κ} {c : α}
    (h : Tiles owns lo hi (before ++ (k, c) :: behind)) :
    ∃ m, Tile owns lo hi (before ++ (k, c) :: behind) before k m c behind := by
  obtain ⟨n, first, start, m, less, here, rest⟩ := tiles_append.mp h
  exact ⟨m, rfl, start ▸ first, start ▸ less, start ▸ here, rest⟩

theorem Tiles.of_mem {k : κ} {c : α} (h : Tiles owns lo hi l) (member : (k, c) ∈ l) :
    ∃ before m behind, Tile owns lo hi l before k m c behind := by
  obtain ⟨before, behind, rfl⟩ := List.append_of_mem member
  obtain ⟨m, tile⟩ := h.tile
  exact ⟨before, m, behind, tile⟩

/-- The place that is responsible for `x`. -/
theorem Tiles.find {x : κ} (h : Tiles owns lo hi l) (low : lo ≤ x) (high : x < hi) :
    ∃ before k m c behind, Tile owns lo hi l before k m c behind ∧ k ≤ x ∧ x < m := by
  induction l generalizing lo with
  | nil => exact absurd h (low.trans_lt high).ne
  | cons y l ih =>
      obtain ⟨start, m, less, here, rest⟩ := h
      by_cases inside : x < m
      · refine ⟨[], lo, m, y.2, l, ⟨?_, rfl, less, here, rest⟩, low, inside⟩
        rw [← start]
        rfl
      · obtain ⟨before, k, n, c, behind, tile, from', upto⟩ := ih rest (le_of_not_gt inside)
        refine ⟨y :: before, k, n, c, behind, ⟨?_, ?_, tile.less, tile.here, tile.behind⟩, from', upto⟩
        · rw [tile.eq]
          rfl
        · exact ⟨start, m, less, here, tile.before⟩

section
variable {before behind : List (κ × α)} {k m : κ} {c : α}

theorem Tile.low (t : Tile owns lo hi l before k m c behind) : lo ≤ k := t.before.le

theorem Tile.high (t : Tile owns lo hi l before k m c behind) : m ≤ hi := t.behind.le

theorem Tile.mem (t : Tile owns lo hi l before k m c behind) : (k, c) ∈ l := by
  rw [t.eq]
  simp

/-- Another list in the place of one entry. -/
theorem Tile.replace (t : Tile owns lo hi l before k m c behind) {l' : List (κ × α)}
    (h : Tiles owns k m l') : Tiles owns lo hi (before ++ l' ++ behind) :=
  tiles_append.mpr ⟨m, tiles_append.mpr ⟨k, t.before, h⟩, t.behind⟩

end

/-- The starts of the places lie in the interval. -/
theorem Tiles.bounds {k : κ} {c : α} (h : Tiles owns lo hi l) (member : (k, c) ∈ l) :
    lo ≤ k ∧ k < hi := by
  obtain ⟨_, m, _, tile⟩ := h.of_mem member
  exact ⟨tile.low, tile.less.trans_le tile.high⟩

/-- Two places that are responsible for one `x` are the same. -/
theorem Tiles.unique {x k k' m m' : κ} {c c' : α} (h : Tiles owns lo hi l)
    (functional : ∀ k m m' c, owns k m c → owns k m' c → m = m')
    (left : (k, c) ∈ l) (right : (k', c') ∈ l) (here : owns k m c) (there : owns k' m' c')
    (low : k ≤ x) (high : x < m) (low' : k' ≤ x) (high' : x < m') : (k, c) = (k', c') := by
  induction l generalizing lo with
  | nil => cases left
  | cons y l ih =>
      obtain ⟨start, n, less, first, rest⟩ := h
      rcases List.mem_cons.mp left with rfl | inner <;> rcases List.mem_cons.mp right with same | inner'
      · exact same.symm
      · simp only at start first
        subst start
        have := functional _ _ _ _ first here
        subst this
        exact absurd ((rest.bounds inner').1.trans low') (not_le.mpr high)
      · subst same
        simp only at start first
        subst start
        have := functional _ _ _ _ first there
        subst this
        exact absurd ((rest.bounds inner).1.trans low) (not_le.mpr high')
      · exact ih rest inner inner'

/-- The starts increase. -/
theorem Tiles.pairwise (h : Tiles owns lo hi l) : l.Pairwise fun x y => x.1 < y.1 := by
  induction l generalizing lo with
  | nil => exact .nil
  | cons y l ih =>
      obtain ⟨start, m, less, -, rest⟩ := h
      refine List.pairwise_cons.mpr ⟨fun x member => ?_, ih rest⟩
      rw [start]
      exact less.trans_le (rest.bounds (k := x.1) (c := x.2) member).1

/-- Places are given up. `φ` moves each boundary of such a place to the place behind it. -/
theorem Tiles.contract {owns' : κ → κ → α → Prop} (h : Tiles owns lo hi l) (φ : κ → κ) (keep : α → Bool)
    (gone : ∀ k m c, (k, c) ∈ l → owns k m c → keep c = false → φ k = φ m)
    (stay : ∀ k m c, (k, c) ∈ l → owns k m c → keep c = true → φ k < φ m ∧ owns' (φ k) (φ m) c) :
    Tiles owns' (φ lo) (φ hi) ((l.filter fun y => keep y.2).map fun y => (φ y.1, y.2)) := by
  induction l generalizing lo with
  | nil =>
      rw [show lo = hi from h]
      rfl
  | cons y l ih =>
      obtain ⟨start, m, less, here, rest⟩ := h
      have tail := ih rest (fun k m c member => gone k m c (List.mem_cons_of_mem _ member))
        fun k m c member => stay k m c (List.mem_cons_of_mem _ member)
      have first : (lo, y.2) ∈ y :: l := by
        rw [← start]
        exact List.mem_cons_self
      cases kept : keep y.2 with
      | false =>
          rw [List.filter_cons_of_neg (by simp [kept]), gone lo m y.2 first here kept]
          exact tail
      | true =>
          obtain ⟨less', here'⟩ := stay lo m y.2 first here kept
          rw [List.filter_cons_of_pos (by simpa using kept), List.map_cons, start]
          exact ⟨rfl, φ m, less', here', tail⟩

end Incll.Lib
