/-
# Computations that may fail

When a sequence of computations succeeds, all of them do.
-/
import Mathlib.Tactic

namespace Chorrent.Lib

variable {α β ε : Type}

lemma except_bind_eq_ok {r : Except ε α} {g : α → Except ε β} {b : β} :
    (r >>= g) = .ok b ↔ ∃ a, r = .ok a ∧ g a = .ok b := by
  cases r <;> simp [bind, Except.bind]

lemma except_map_eq_ok {r : Except ε α} {g : α → β} {b : β} :
    r.map g = .ok b ↔ ∃ a, r = .ok a ∧ g a = b := by
  cases r <;> simp [Except.map]

lemma mapM_eq_ok_iff {g : α → Except ε β} {xs : List α} {ys : List β} :
    xs.mapM g = .ok ys ↔ List.Forall₂ (fun x y => g x = .ok y) xs ys := by
  induction xs generalizing ys with
  | nil =>
    rw [List.mapM_nil, List.forall₂_nil_left_iff]
    exact ⟨fun h => (Except.ok.inj h).symm, fun h => by rw [h]; rfl⟩
  | cons x xs ih =>
    rw [List.mapM_cons, except_bind_eq_ok, List.forall₂_cons_left_iff]
    constructor
    · rintro ⟨y, hy, h⟩
      obtain ⟨ys', hys, h⟩ := except_bind_eq_ok.1 h
      exact ⟨y, ys', hy, ih.1 hys, (Except.ok.inj h).symm⟩
    · rintro ⟨y, ys', hy, hys, rfl⟩
      exact ⟨y, hy, except_bind_eq_ok.2 ⟨ys', ih.2 hys, rfl⟩⟩

/-- What each item of a list is turned into. -/
lemma mapM_eq_ok {g : α → Except ε β} {xs : List α} {ys : List β} (h : xs.mapM g = .ok ys)
    {k : ℕ} {x : α} (hx : xs[k]? = some x) : ∃ y, ys[k]? = some y ∧ g x = .ok y := by
  obtain ⟨hlength, hget⟩ := List.forall₂_iff_get.1 (mapM_eq_ok_iff.1 h)
  obtain ⟨hk, rfl⟩ := List.getElem?_eq_some_iff.1 hx
  have hk' : k < ys.length := hlength ▸ hk
  exact ⟨ys[k], List.getElem?_eq_getElem hk', hget k hk hk'⟩

/-- Where each result comes from. -/
lemma exists_of_mem_mapM {g : α → Except ε β} {xs : List α} {ys : List β}
    (h : xs.mapM g = .ok ys) {y : β} (hy : y ∈ ys) : ∃ x ∈ xs, g x = .ok y := by
  have h := mapM_eq_ok_iff.1 h
  induction h with
  | nil => cases hy
  | cons hx _ ih =>
    rcases List.mem_cons.1 hy with rfl | hy
    · exact ⟨_, List.mem_cons_self, hx⟩
    · obtain ⟨x, hmem, hx⟩ := ih (mapM_eq_ok_iff.2 ‹_›) hy
      exact ⟨x, List.mem_cons_of_mem _ hmem, hx⟩

end Chorrent.Lib
