/-
# Cells that others write to

Cells are written over by others while they are read.  Some versions carry a stamp, and no two
versions of a cell carry the same one.  Then what was seen of a version holds as long as the cell
has not been written since, and a stamp names the version it was taken of: whatever holds of
that version holds of the cell whenever it carries the stamp again.
-/
import Mathlib.Data.List.Pairwise
import Mathlib.Logic.Function.Basic

namespace Chorrent.Lib

variable {P V T : Type*}

/-- What is in each cell, and what was in it before, the latest first. -/
structure Versions (P V : Type*) where
  now : P → V
  past : P → List V

namespace Versions

variable (c : Versions P V)

/-- Cells that were never written over. -/
def new (now : P → V) : Versions P V := ⟨now, fun _ => []⟩

/-- All versions of a cell, the latest first. -/
def all (p : P) : List V := c.now p :: c.past p

/-- How often a cell was written over. -/
def count (p : P) : ℕ := (c.past p).length

/-- The versions from number `n` on, the latest first. -/
def since (p : P) (n : ℕ) : List V := (c.all p).take (c.count p - n + 1)

def write [DecidableEq P] (p : P) (v : V) : Versions P V where
  now := Function.update c.now p v
  past := Function.update c.past p (c.all p)

variable (stamp : V → Option T)

/-- No version of the cell had the stamp of this one. -/
def Fresh (p : P) (v : V) : Prop := ∀ old ∈ c.all p, ∀ t, stamp v = some t → stamp old ≠ some t

/-- No two versions of a cell have the same stamp. -/
def Once : Prop := ∀ p, (c.all p).Pairwise fun a b => ∀ t, stamp a = some t → stamp b ≠ some t

/-- If the cell is still at version number `n`, it has this property. -/
def Seen (Q : V → Prop) (p : P) (n : ℕ) : Prop := n ≤ c.count p ∧ (c.count p = n → Q (c.now p))

/-- The stamp is that of a version with this property. -/
def Named (Q : V → Prop) (p : P) (t : T) : Prop := ∃ v ∈ c.all p, stamp v = some t ∧ Q v

variable {c stamp} {Q : V → Prop} {p : P} {n : ℕ}

lemma since_count : c.since p (c.count p) = [c.now p] := by
  rw [since, Nat.sub_self]
  rfl

lemma once_new (now : P → V) : (new now).Once stamp := fun _ => List.pairwise_singleton _ _

lemma Seen.now (h : Q (c.now p)) : c.Seen Q p (c.count p) := ⟨Nat.le_refl _, fun _ => h⟩

lemma Seen.imp {R : V → Prop} (h : c.Seen Q p n)
    (himp : c.count p = n → Q (c.now p) → R (c.now p)) :
    c.Seen R p n := ⟨h.1, fun hn => himp hn (h.2 hn)⟩

section

variable [DecidableEq P] {p' : P} {v : V}

@[simp] lemma now_write : (c.write p' v).now = Function.update c.now p' v := rfl

lemma all_write_same : (c.write p v).all p = v :: c.all p := by
  simp [all, write]

lemma all_write_ne (h : p ≠ p') : (c.write p' v).all p = c.all p := by
  simp [all, write, h]

lemma count_write_same : (c.write p v).count p = c.count p + 1 := by
  simp [count, write, all]

lemma count_write_ne (h : p ≠ p') : (c.write p' v).count p = c.count p := by
  simp [count, write, h]

lemma Once.write (h : c.Once stamp) (hfresh : c.Fresh stamp p' v) : (c.write p' v).Once stamp := by
  intro p
  by_cases hp : p = p'
  · subst hp
    rw [all_write_same, List.pairwise_cons]
    exact ⟨fun old hold t ht => hfresh old hold t ht, h p⟩
  · rw [all_write_ne hp]
    exact h p

lemma Seen.write (h : c.Seen Q p n) : (c.write p' v).Seen Q p n := by
  by_cases hp : p = p'
  · subst hp
    rw [Seen, count_write_same]
    have := h.1
    exact ⟨by omega, fun hn => by omega⟩
  · rw [Seen, count_write_ne hp, now_write, Function.update_of_ne hp]
    exact h

lemma Named.write {t : T} (h : c.Named stamp Q p t) : (c.write p' v).Named stamp Q p t := by
  obtain ⟨old, hold, hstamp⟩ := h
  refine ⟨old, ?_, hstamp⟩
  by_cases hp : p = p'
  · subst hp
    rw [all_write_same]
    exact List.mem_cons_of_mem _ hold
  · rwa [all_write_ne hp]

end

/-- What was seen of a cell that has not been written since is named by the stamp it has. -/
lemma Seen.named {t : T} (h : c.Seen Q p n) (hn : c.count p = n) (ht : stamp (c.now p) = some t) :
    c.Named stamp Q p t :=
  ⟨c.now p, List.mem_cons_self, ht, h.2 hn⟩

/-- A cell that carries a stamp again is the version that the stamp was taken of. -/
lemma Named.of_stamp {t : T} (h : c.Named stamp Q p t) (honce : c.Once stamp)
    (ht : stamp (c.now p) = some t) : Q (c.now p) := by
  obtain ⟨v, hv, hstamp, hQ⟩ := h
  rcases List.mem_cons.1 hv with rfl | hv
  · exact hQ
  · exact absurd hstamp ((List.pairwise_cons.1 (honce p)).1 v hv t ht)

/-! ## The first version -/

lemma getLast?_all_write [DecidableEq P] {p' : P} {v : V} :
    ((c.write p' v).all p).getLast? = (c.all p).getLast? := by
  by_cases hp : p = p'
  · subst hp
    rw [all_write_same, all, List.getLast?_cons_cons]
  · rw [all_write_ne hp]

lemma now_eq_of_count {v : V} (hfirst : (c.all p).getLast? = some v) (hn : c.count p = 0) :
    c.now p = v := by
  rw [all, List.length_eq_zero_iff.1 hn] at hfirst
  exact Option.some.inj hfirst

/-- A cell that was written over does not carry the stamp of its first version again. -/
lemma Once.stamp_ne {v : V} {t : T} (h : c.Once stamp) (hfirst : (c.all p).getLast? = some v)
    (hn : 0 < c.count p) (ht : stamp v = some t) : stamp (c.now p) ≠ some t := by
  obtain ⟨old, rest, hpast⟩ := List.exists_cons_of_length_pos hn
  have hmem : v ∈ c.past p := by
    rw [all, hpast, List.getLast?_cons_cons] at hfirst
    rw [hpast]
    exact List.mem_of_getLast? hfirst
  exact fun hnow => (List.pairwise_cons.1 (h p)).1 v hmem t hnow ht

end Versions

end Chorrent.Lib
