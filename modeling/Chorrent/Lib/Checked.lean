/-
# Checked machine arithmetic

Counters are natural numbers; a subtraction that would go below zero and an addition that
would not fit the machine word have no result.
-/
import Mathlib.Data.Option.Basic
import Mathlib.Algebra.Group.Nat.Defs

namespace Chorrent.Lib

/-- `a - b`, or nothing if that underflows. -/
def checkedSub (a b : ℕ) : Option ℕ :=
  if b ≤ a then some (a - b) else none

/-- `a + b`, or nothing if that does not fit into `w` bits. -/
def checkedAdd (w a b : ℕ) : Option ℕ :=
  if a + b < 2 ^ w then some (a + b) else none

/-- `a * b`, or nothing if that does not fit into `w` bits. -/
def checkedMul (w a b : ℕ) : Option ℕ :=
  if a * b < 2 ^ w then some (a * b) else none

lemma checkedSub_of_le {a b : ℕ} (h : b ≤ a) : checkedSub a b = some (a - b) :=
  if_pos h

lemma checkedAdd_of_lt {w a b : ℕ} (h : a + b < 2 ^ w) : checkedAdd w a b = some (a + b) :=
  if_pos h

lemma checkedMul_of_lt {w a b : ℕ} (h : a * b < 2 ^ w) : checkedMul w a b = some (a * b) :=
  if_pos h

lemma checkedSub_eq_some {a b c : ℕ} : checkedSub a b = some c ↔ b ≤ a ∧ a - b = c := by
  simp [checkedSub]

lemma checkedAdd_eq_some {w a b c : ℕ} :
    checkedAdd w a b = some c ↔ a + b < 2 ^ w ∧ a + b = c := by
  simp [checkedAdd]

lemma checkedMul_eq_some {w a b c : ℕ} :
    checkedMul w a b = some c ↔ a * b < 2 ^ w ∧ a * b = c := by
  simp [checkedMul]

end Chorrent.Lib
