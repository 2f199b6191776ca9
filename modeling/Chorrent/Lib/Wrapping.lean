/-
# Wrapping machine arithmetic

Release arithmetic wraps silently.  A computation is what it comes to, together with whether
an operation on the way wrapped; a computation that wrapped nowhere was exact.
-/
import Mathlib.Tactic

namespace Chorrent.Lib

/-- A value, and whether an operation on the way to it wrapped. -/
@[ext]
structure Wrapping (α : Type) where
  value : α
  wrapped : Bool
deriving DecidableEq

namespace Wrapping

variable {α β : Type}

instance : Monad Wrapping where
  pure a := ⟨a, false⟩
  bind x f := ⟨(f x.value).value, x.wrapped || (f x.value).wrapped⟩

/-- The low `w` bits of a result. -/
def fit (w n : ℕ) : Wrapping ℕ := ⟨n % 2 ^ w, 2 ^ w ≤ n⟩

/-- `a - b` in `w` bits. -/
def sub (w a b : ℕ) : Wrapping ℕ := ⟨(a + 2 ^ w - b) % 2 ^ w, a < b⟩

/-- `Iterator::sum`, from `total` on. -/
def sum (w : ℕ) : ℕ → List ℕ → Wrapping ℕ
  | total, [] => pure total
  | total, n :: ns => do
      let total ← fit w (total + n)
      sum w total ns

@[simp] lemma pure_eq (a : α) : (pure a : Wrapping α) = ⟨a, false⟩ := rfl

lemma bind_eq (x : Wrapping α) (f : α → Wrapping β) :
    (x >>= f) = ⟨(f x.value).value, x.wrapped || (f x.value).wrapped⟩ := rfl

/-- A computation that starts exactly. -/
@[simp] lemma exact_bind (a : α) (f : α → Wrapping β) : (⟨a, false⟩ >>= f) = f a := by
  ext1 <;> simp [bind_eq]

lemma wrapped_bind {x : Wrapping α} {f : α → Wrapping β} :
    (x >>= f).wrapped = false ↔ x.wrapped = false ∧ (f x.value).wrapped = false := by
  rw [bind_eq, Bool.or_eq_false_iff]

lemma fit_of_lt {w n : ℕ} (h : n < 2 ^ w) : fit w n = ⟨n, false⟩ := by
  rw [fit, Nat.mod_eq_of_lt h, decide_eq_false (not_le.2 h)]

lemma wrapped_fit {w n : ℕ} : (fit w n).wrapped = false ↔ n < 2 ^ w := by
  rw [fit, decide_eq_false_iff_not, not_le]

lemma sub_of_le {w a b : ℕ} (h : b ≤ a) (ha : a < 2 ^ w) : sub w a b = ⟨a - b, false⟩ := by
  have hmod : (a + 2 ^ w - b) % 2 ^ w = a - b := by
    rw [show a + 2 ^ w - b = a - b + 2 ^ w by omega, Nat.add_mod_right, Nat.mod_eq_of_lt (by omega)]
  rw [sub, hmod, decide_eq_false (not_lt.2 h)]

/-- A sum is exact if it fits. -/
lemma sum_of_lt {w : ℕ} (ns : List ℕ) : ∀ total, total + ns.sum < 2 ^ w →
    sum w total ns = ⟨total + ns.sum, false⟩ := by
  induction ns with
  | nil => exact fun total _ => rfl
  | cons n ns ih =>
    intro total h
    rw [List.sum_cons, ← Nat.add_assoc] at h
    rw [sum, fit_of_lt (Nat.lt_of_le_of_lt (Nat.le_add_right _ _) h), exact_bind, ih _ h,
      List.sum_cons, Nat.add_assoc]

/-- The value of a sum is a word. -/
lemma value_sum_lt {w : ℕ} (ns : List ℕ) : ∀ total, total < 2 ^ w →
    (sum w total ns).value < 2 ^ w := by
  induction ns with
  | nil => exact fun total h => h
  | cons n ns ih => exact fun total _ => ih _ (Nat.mod_lt _ (Nat.two_pow_pos w))

/-- A sum that does not fit wraps somewhere. -/
lemma wrapped_sum {w : ℕ} (ns : List ℕ) : ∀ total, total < 2 ^ w →
    ((sum w total ns).wrapped = false ↔ total + ns.sum < 2 ^ w) := by
  induction ns with
  | nil => exact fun total h => iff_of_true rfl h
  | cons n ns ih =>
    intro total h
    rw [sum, wrapped_bind, wrapped_fit, List.sum_cons, ← Nat.add_assoc]
    constructor
    · rintro ⟨hfits, hrest⟩
      rw [fit_of_lt hfits] at hrest
      exact (ih _ hfits).1 hrest
    · intro hall
      have hfits : total + n < 2 ^ w := Nat.lt_of_le_of_lt (Nat.le_add_right _ _) hall
      rw [fit_of_lt hfits]
      exact ⟨hfits, (ih _ hfits).2 hall⟩

end Wrapping

end Chorrent.Lib
