/-
# Tilings of a range of numbers

A list of ranges that follow one another from `lo` to `hi`.  A range is given by its first
number and the one after its last; it may be empty.
-/
import Mathlib.Algebra.BigOperators.Group.List.Basic
import Mathlib.Algebra.GroupWithZero.Nat
import Mathlib.Data.List.Range

namespace Chorrent.Lib

/-- The ranges follow one another from `lo` to `hi`. -/
def Tiles : ℕ → List (ℕ × ℕ) → ℕ → Prop
  | lo, [], hi => lo = hi
  | lo, r :: rs, hi => r.1 = lo ∧ lo ≤ r.2 ∧ Tiles r.2 rs hi

/-- The numbers of a range. -/
def members (r : ℕ × ℕ) : List ℕ := List.range' r.1 (r.2 - r.1)

/-- Bounds that do not decrease tile what is between the first and the last. -/
lemma tiles_of_bounds {b : ℕ → ℕ} (hb : ∀ i, b i ≤ b (i + 1)) (n : ℕ) : ∀ k,
    Tiles (b k) ((List.range' k n).map fun i => (b i, b (i + 1))) (b (k + n)) := by
  induction n with
  | zero => exact fun k => rfl
  | succ n ih =>
    intro k
    have hrest := ih (k + 1)
    rw [show k + 1 + n = k + (n + 1) by omega] at hrest
    exact ⟨rfl, hb k, hrest⟩

lemma Tiles.le {rs : List (ℕ × ℕ)} : ∀ {lo hi : ℕ}, Tiles lo rs hi → lo ≤ hi := by
  induction rs with
  | nil => exact fun h => Nat.le_of_eq h
  | cons r rs ih => exact fun ⟨_, hle, hrest⟩ => hle.trans (ih hrest)

/-- The widths of the tiles add up. -/
lemma Tiles.sum_width {rs : List (ℕ × ℕ)} : ∀ {lo hi : ℕ}, Tiles lo rs hi →
    (rs.map fun r => r.2 - r.1).sum = hi - lo := by
  induction rs with
  | nil =>
    intro lo hi h
    obtain rfl : lo = hi := h
    simp
  | cons r rs ih =>
    rintro lo hi ⟨rfl, hle, hrest⟩
    have := hrest.le
    rw [List.map_cons, List.sum_cons, ih hrest]
    omega

/-- The members of the tiles are all numbers from `lo` to `hi`, in order. -/
lemma Tiles.flatMap_members {rs : List (ℕ × ℕ)} : ∀ {lo hi : ℕ}, Tiles lo rs hi →
    rs.flatMap members = List.range' lo (hi - lo) := by
  induction rs with
  | nil =>
    intro lo hi h
    obtain rfl : lo = hi := h
    simp
  | cons r rs ih =>
    rintro lo hi ⟨rfl, hle, hrest⟩
    have hhi := hrest.le
    have happend := @List.range'_append_1 r.1 (r.2 - r.1) (hi - r.2)
    rw [show r.1 + (r.2 - r.1) = r.2 by omega,
      show r.2 - r.1 + (hi - r.2) = hi - r.1 by omega] at happend
    rw [List.flatMap_cons, ih hrest, members, happend]

end Chorrent.Lib
