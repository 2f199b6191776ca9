/-
# Decimal numbers

Reading an unsigned number of `w` bits (`from_str`), and what such a text is: decimal digits,
possibly after a plus sign.
-/
import Mathlib.Tactic
import Chorrent.Lib.Checked

namespace Chorrent.Lib

/-- `char::to_digit(10)` -/
def toDigit (c : Char) : Option ℕ :=
  if c.isDigit then some (c.toNat - '0'.toNat) else none

/-- The loop over the digits, with what was read so far. -/
def parseDigits (w : ℕ) : ℕ → List Char → Option ℕ
  | n, [] => some n
  | n, c :: cs => do
      let scaled ← checkedMul w n 10
      let digit ← toDigit c
      parseDigits w (← checkedAdd w scaled digit) cs

/-- `from_str` of the unsigned integers of `w` bits. -/
def parseUnsigned (w : ℕ) : List Char → Option ℕ
  | [] => none
  | c :: digits =>
      if c = '+' ∧ digits ≠ [] then parseDigits w 0 digits else parseDigits w 0 (c :: digits)

/-- The text spells the number. -/
inductive Spells : List Char → ℕ → Prop
  | digits {digits : List Char} (hne : digits ≠ []) (hdigits : ∀ c ∈ digits, c.isDigit) :
      Spells digits (Nat.ofDigitChars 10 digits 0)
  | plus {digits : List Char} (hne : digits ≠ []) (hdigits : ∀ c ∈ digits, c.isDigit) :
      Spells ('+' :: digits) (Nat.ofDigitChars 10 digits 0)

variable {w n m : ℕ} {text : List Char}

lemma toDigit_eq_some {c : Char} {d : ℕ} :
    toDigit c = some d ↔ c.isDigit = true ∧ c.toNat - '0'.toNat = d := by
  rw [toDigit]
  split_ifs with h <;> simp [h]

lemma le_ofDigitChars (digits : List Char) : ∀ n, n ≤ Nat.ofDigitChars 10 digits n := by
  induction digits with
  | nil => exact fun n => Nat.ofDigitChars_nil.ge
  | cons c cs ih =>
    intro n
    rw [Nat.ofDigitChars_cons]
    have := ih (10 * n + (c.toNat - '0'.toNat))
    omega

/-- The loop reads digits, as long as the number fits. -/
lemma parseDigits_eq_some (digits : List Char) : ∀ n, n < 2 ^ w →
    (parseDigits w n digits = some m ↔
      (∀ c ∈ digits, c.isDigit) ∧ Nat.ofDigitChars 10 digits n = m ∧ m < 2 ^ w) := by
  induction digits with
  | nil =>
    intro n hn
    simp only [parseDigits, Nat.ofDigitChars_nil, Option.some.injEq]
    constructor
    · rintro rfl
      exact ⟨nofun, rfl, hn⟩
    · exact fun h => h.2.1
  | cons c cs ih =>
    intro n hn
    rw [parseDigits, Nat.ofDigitChars_cons, List.forall_mem_cons]
    simp only [Option.bind_eq_bind, Option.bind_eq_some_iff, checkedMul_eq_some, toDigit_eq_some,
      checkedAdd_eq_some]
    constructor
    · rintro ⟨-, ⟨hmul, rfl⟩, -, ⟨hc, rfl⟩, -, ⟨hadd, rfl⟩, hrest⟩
      obtain ⟨hcs, hvalue, hm⟩ := (ih _ hadd).1 hrest
      exact ⟨⟨hc, hcs⟩, by rwa [Nat.mul_comm 10], hm⟩
    · rintro ⟨⟨hc, hcs⟩, hvalue, hm⟩
      -- what was read so far is at most the whole number
      have hle := le_ofDigitChars cs (10 * n + (c.toNat - '0'.toNat))
      rw [Nat.mul_comm 10] at hle hvalue
      exact ⟨_, ⟨by omega, rfl⟩, _, ⟨hc, rfl⟩, _, ⟨by omega, rfl⟩,
        (ih _ (by omega)).2 ⟨hcs, hvalue, hm⟩⟩

lemma Spells.ne_nil (h : Spells text n) : text ≠ [] := by
  cases h with
  | digits hne => exact hne
  | plus => exact List.cons_ne_nil _ _

lemma Spells.mem (h : Spells text n) {c : Char} (hc : c ∈ text) : c.isDigit = true ∨ c = '+' := by
  cases h with
  | digits _ hdigits => exact Or.inl (hdigits c hc)
  | plus _ hdigits => exact (List.mem_cons.1 hc).symm.imp_left (hdigits c)

/-- A text spells one number. -/
lemma Spells.unique (h : Spells text n) (h' : Spells text m) : n = m := by
  cases h with
  | digits _ hdigits =>
    cases h' with
    | digits => rfl
    | plus => exact absurd (hdigits '+' List.mem_cons_self) (by decide)
  | plus =>
    cases h' with
    | digits _ hdigits => exact absurd (hdigits '+' List.mem_cons_self) (by decide)
    | plus => rfl

/-- A number that is read is spelled, and one that is spelled is read if it fits. -/
theorem parseUnsigned_eq_some : parseUnsigned w text = some n ↔ Spells text n ∧ n < 2 ^ w := by
  have hzero : 0 < 2 ^ w := Nat.two_pow_pos w
  cases text with
  | nil => exact iff_of_false nofun fun h => h.1.ne_nil rfl
  | cons c digits =>
    rw [parseUnsigned]
    split_ifs with hplus
    · obtain ⟨rfl, hne⟩ := hplus
      rw [parseDigits_eq_some _ _ hzero]
      constructor
      · rintro ⟨hdigits, rfl, hn⟩
        exact ⟨.plus hne hdigits, hn⟩
      · rintro ⟨hspells, hn⟩
        cases hspells with
        | digits _ hdigits => exact absurd (hdigits '+' List.mem_cons_self) (by decide)
        | plus _ hdigits => exact ⟨hdigits, rfl, hn⟩
    · rw [parseDigits_eq_some _ _ hzero]
      constructor
      · rintro ⟨hdigits, rfl, hn⟩
        exact ⟨.digits (List.cons_ne_nil _ _) hdigits, hn⟩
      · rintro ⟨hspells, hn⟩
        cases hspells with
        | digits _ hdigits => exact ⟨hdigits, rfl, hn⟩
        | plus hne => exact absurd ⟨rfl, hne⟩ hplus

/-- A number as it is printed spells itself. -/
lemma spells_toDigits (n : ℕ) : Spells (Nat.toDigits 10 n) n := by
  have h := Spells.digits Nat.toDigits_ne_nil fun c hc =>
    Nat.isDigit_of_mem_toDigits (n := n) (b := 10) (by decide) (by decide) hc
  rwa [Nat.ofDigitChars_toDigits (by decide) (by decide)] at h

end Chorrent.Lib
