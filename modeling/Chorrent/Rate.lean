/-
# Rates on the command line

How the limits of the command line are read (`parse_rate`): a number, then possibly a suffix
that multiplies it.  The product is on 64 bits; a debug build panics where it overflows, and a
release build wraps.
-/
import Chorrent.Lib.Decimal
import Chorrent.Lib.Text
import Chorrent.Lib.Wrapping
import Chorrent.Share.Code
import Chorrent.Limits

namespace Chorrent

open Lib

/-- Why `parse_rate` refuses a text. -/
inductive InvalidRate where
  /-- "{s:?} isn't a rate like 500K or 2M" -/
  | notARate (s : List Char)
deriving DecidableEq

/-- What a suffix multiplies by. -/
def suffixMult : Char → Option ℕ
  | 'k' | 'K' => some 1024
  | 'm' | 'M' => some (1024 * 1024)
  | 'g' | 'G' => some (1024 * 1024 * 1024)
  | _ => none

/-- The text before the suffix, if there is one, and what it is multiplied by. -/
def splitSuffix (s : List Char) : Except (Stop InvalidRate) (List Char × ℕ) :=
  match (charIndices 0 s).getLast? with
  | none => .ok (s, 1)
  | some (i, c) =>
      match suffixMult c with
      | none => .ok (s, 1)
      | some mult => do
          let digits ← orPanic (sliceTo s i)
          return (digits, mult)

/-- `n * mult` on `u64`. -/
def mulRate (overflowChecks : Bool) (n mult : ℕ) : Except (Stop InvalidRate) ℕ :=
  if overflowChecks then orPanic (checkedMul 64 n mult) else .ok (Wrapping.fit 64 (n * mult)).value

def parseRate (overflowChecks : Bool) (s : List Char) : Except (Stop InvalidRate) ℕ := do
  let s := trim s
  let (digits, mult) ← splitSuffix s
  match parseUnsigned 64 (trim digits) with
  | some n => mulRate overflowChecks n mult
  | none => .error (.fail (.notARate s))

/-! ## What a rate says -/

/-- A suffix of either case, and what it stands for. -/
inductive Suffix : Char → ℕ → Prop
  | kilo {c : Char} (h : c = 'k' ∨ c = 'K') : Suffix c 1024
  | mega {c : Char} (h : c = 'm' ∨ c = 'M') : Suffix c (1024 ^ 2)
  | giga {c : Char} (h : c = 'g' ∨ c = 'G') : Suffix c (1024 ^ 3)

/-- The text is a number, and possibly a suffix, which may stand apart from it. -/
inductive SpellsRate : List Char → ℕ → ℕ → Prop
  | plain {number space : List Char} {n : ℕ} (hnumber : Spells number n)
      (hspace : ∀ c ∈ space, isWhitespace c = true) : SpellsRate (number ++ space) n 1
  | suffixed {number space : List Char} {c : Char} {n mult : ℕ} (hnumber : Spells number n)
      (hspace : ∀ c ∈ space, isWhitespace c = true) (hsuffix : Suffix c mult) :
      SpellsRate (number ++ space ++ [c]) n mult

/-- A rate is read exactly or refused, and the program does not panic. -/
structure ParsesExactly (overflowChecks : Bool) (s : List Char) : Prop where
  no_panic : parseRate overflowChecks s ≠ .error .panic
  exact : ∀ v, parseRate overflowChecks s = .ok v →
    ∃ n mult, SpellsRate (trim s) n mult ∧ n < 2 ^ 64 ∧ v = n * mult
  refused : ∀ n mult, SpellsRate (trim s) n mult → 2 ^ 64 ≤ n * mult →
    parseRate overflowChecks s = .error (.fail (.notARate (trim s)))

/-- No number that fits into 64 bits stands before a suffix with which it does not. -/
def SuffixFits (s : List Char) : Prop :=
  ∀ n mult, SpellsRate (trim s) n mult → n < 2 ^ 64 → n * mult < 2 ^ 64

/-! ## Splitting off the suffix -/

lemma suffixMult_eq_some {c : Char} {mult : ℕ} : suffixMult c = some mult ↔ Suffix c mult := by
  constructor
  · intro h
    rw [suffixMult.eq_def] at h
    split at h
    case h_1 | h_2 => cases h; exact .kilo (by simp)
    case h_3 | h_4 => cases h; exact .mega (by simp)
    case h_5 | h_6 => cases h; exact .giga (by simp)
    case h_7 => cases h
  · rintro (⟨rfl | rfl⟩ | ⟨rfl | rfl⟩ | ⟨rfl | rfl⟩) <;> rfl

lemma Suffix.not_digit {c : Char} {mult : ℕ} (h : Suffix c mult) :
    c.isDigit = false ∧ c ≠ '+' ∧ isWhitespace c = false := by
  rcases h with ⟨rfl | rfl⟩ | ⟨rfl | rfl⟩ | ⟨rfl | rfl⟩ <;> decide

lemma getLast?_charIndices (text : List Char) (c : Char) :
    (charIndices 0 (text ++ [c])).getLast? = some (utf8Len text, c) := by
  rw [charIndices_append, List.getLast?_append, Nat.zero_add]
  rfl

/-- The text is cut before its last character if that is a suffix, and left whole if not. -/
lemma splitSuffix_spec (text : List Char) :
    (∃ front c mult, text = front ++ [c] ∧ Suffix c mult ∧
      splitSuffix text = .ok (front, mult)) ∨
    (∀ c ∈ text.getLast?, ∀ mult, ¬ Suffix c mult) ∧ splitSuffix text = .ok (text, 1) := by
  obtain rfl | ⟨front, c, htext⟩ := text.eq_nil_or_concat
  · exact Or.inr ⟨by simp, rfl⟩
  · rw [List.concat_eq_append] at htext
    subst htext
    cases hmult : suffixMult c with
    | none =>
      refine Or.inr ⟨fun d hd mult hd' => ?_, ?_⟩
      · obtain rfl : c = d := by simpa using hd
        cases hmult.symm.trans (suffixMult_eq_some.2 hd')
      · simp only [splitSuffix, getLast?_charIndices, hmult]
    | some mult =>
      refine Or.inl ⟨front, c, mult, rfl, suffixMult_eq_some.1 hmult, ?_⟩
      simp only [splitSuffix, getLast?_charIndices, hmult, sliceTo_append]
      rfl

/-! ## The texts that spell a rate -/

lemma isWhitespace_of_isDigit {c : Char} (h : c.isDigit = true) : isWhitespace c = false := by
  obtain ⟨hlow, hhigh⟩ : 48 ≤ c.toNat ∧ c.toNat ≤ 57 := Char.isDigit_iff_toNat.1 h
  simp [isWhitespace]
  omega

lemma Lib.Spells.not_isWhitespace {number : List Char} {n : ℕ} (h : Spells number n) :
    ∀ c ∈ number, isWhitespace c = false := by
  intro c hc
  rcases h.mem hc with hdigit | rfl
  · exact isWhitespace_of_isDigit hdigit
  · decide

lemma trim_number {number space : List Char} {n : ℕ} (hnumber : Spells number n)
    (hspace : ∀ c ∈ space, isWhitespace c = true) : trim (number ++ space) = number := by
  have hnone : ∀ c ∈ ([] : List Char), isWhitespace c = true := fun _ hc => by cases hc
  simpa using trim_surrounded hnone hspace hnumber.not_isWhitespace

/-- A text that spells a rate is split into its number and what it is multiplied by. -/
lemma SpellsRate.splitSuffix {text : List Char} {n mult : ℕ} (h : SpellsRate text n mult) :
    ∃ digits, splitSuffix text = .ok (digits, mult) ∧ Spells (trim digits) n := by
  cases h with
  | @plain number space _ hnumber hspace =>
    refine ⟨number ++ space, ?_, by rwa [trim_number hnumber hspace]⟩
    rcases splitSuffix_spec (number ++ space) with ⟨front, c, mult, htext, hsuffix, -⟩ | ⟨-, hsplit⟩
    · -- the last character belongs to the number or to the space
      exfalso
      obtain ⟨hdigit, hplus, hwhite⟩ := hsuffix.not_digit
      have hc : c ∈ number ++ space := by simp [htext]
      rcases List.mem_append.1 hc with hc | hc
      · rcases hnumber.mem hc with hc | rfl
        · cases hc.symm.trans hdigit
        · exact hplus rfl
      · cases (hspace c hc).symm.trans hwhite
    · exact hsplit
  | @suffixed number space c _ _ hnumber hspace hsuffix =>
    refine ⟨number ++ space, ?_, by rwa [trim_number hnumber hspace]⟩
    rcases splitSuffix_spec (number ++ space ++ [c]) with
      ⟨front, d, mult', htext, hsuffix', hsplit⟩ | ⟨hlast, -⟩
    · obtain ⟨rfl, rfl⟩ := List.append_singleton_inj.1 htext
      rw [hsplit, Option.some.inj ((suffixMult_eq_some.2 hsuffix').symm.trans
        (suffixMult_eq_some.2 hsuffix))]
    · exact absurd hsuffix (hlast c (by simp) _)

/-- What `trim` takes away is whitespace. -/
lemma trim_cases (text : List Char) : ∃ left right, text = left ++ trim text ++ right ∧
    (∀ c ∈ left, isWhitespace c = true) ∧ ∀ c ∈ right, isWhitespace c = true := by
  refine ⟨text.takeWhile isWhitespace, (text.dropWhile isWhitespace).rtakeWhile isWhitespace, ?_,
    fun c hc => List.mem_takeWhile_imp hc, fun c hc => List.mem_rtakeWhile_imp hc⟩
  rw [List.append_assoc, trim, trimEnd, List.rdropWhile_append_rtakeWhile,
    List.takeWhile_append_dropWhile]

lemma not_isWhitespace_head_trim {text : List Char} {c : Char} (h : (trim text).head? = some c) :
    isWhitespace c = false := by
  obtain ⟨rest, hrest⟩ : trim text <+: text.dropWhile isWhitespace := List.rdropWhile_prefix _ _
  have hhead : (text.dropWhile isWhitespace).head? = some c := by
    rw [← hrest, List.head?_append, h]
    rfl
  simpa [hhead] using List.head?_dropWhile_not isWhitespace text

/-- What a trimmed text starts with has whitespace at its end only. -/
lemma exists_space {s digits rest : List Char} (hs : trim s = digits ++ rest) :
    ∃ space, digits = trim digits ++ space ∧ ∀ c ∈ space, isWhitespace c = true := by
  obtain ⟨left, right, hdigits, hleft, hright⟩ := trim_cases digits
  cases left with
  | nil => exact ⟨right, hdigits, hright⟩
  | cons c cs =>
    have hhead : (trim s).head? = some c := by
      rw [hs, hdigits]
      rfl
    cases (hleft c List.mem_cons_self).symm.trans (not_isWhitespace_head_trim hhead)

/-! ## What is read -/

lemma parseRate_of_split {overflowChecks : Bool} {s digits : List Char} {mult : ℕ}
    (h : splitSuffix (trim s) = .ok (digits, mult)) : parseRate overflowChecks s =
      match parseUnsigned 64 (trim digits) with
      | some n => mulRate overflowChecks n mult
      | none => .error (.fail (.notARate (trim s))) := by
  rw [parseRate, h]
  rfl

/-- A rate is its number times its suffix, as the machine multiplies. -/
theorem parseRate_of_spells {overflowChecks : Bool} {s : List Char} {n mult : ℕ}
    (h : SpellsRate (trim s) n mult) : parseRate overflowChecks s =
      if n < 2 ^ 64 then mulRate overflowChecks n mult
      else .error (.fail (.notARate (trim s))) := by
  obtain ⟨digits, hsplit, hspells⟩ := h.splitSuffix
  rw [parseRate_of_split hsplit]
  split_ifs with hn
  · rw [parseUnsigned_eq_some.2 ⟨hspells, hn⟩]
  · cases hnumber : parseUnsigned 64 (trim digits) with
    | none => rfl
    | some m =>
      obtain ⟨hm, hlt⟩ := parseUnsigned_eq_some.1 hnumber
      exact absurd (hspells.unique hm ▸ hlt) hn

/-- A text is refused, or spells a rate whose number fits. -/
theorem parseRate_cases (overflowChecks : Bool) (s : List Char) :
    parseRate overflowChecks s = .error (.fail (.notARate (trim s))) ∨
      ∃ n mult, SpellsRate (trim s) n mult ∧ n < 2 ^ 64 ∧
        parseRate overflowChecks s = mulRate overflowChecks n mult := by
  have hread : ∀ digits mult rest, splitSuffix (trim s) = .ok (digits, mult) →
      trim s = digits ++ rest →
      (∀ n space, Spells (trim digits) n → digits = trim digits ++ space →
        (∀ c ∈ space, isWhitespace c = true) → SpellsRate (trim s) n mult) →
      parseRate overflowChecks s = .error (.fail (.notARate (trim s))) ∨
        ∃ n mult, SpellsRate (trim s) n mult ∧ n < 2 ^ 64 ∧
          parseRate overflowChecks s = mulRate overflowChecks n mult := by
    intro digits mult rest hsplit hs hrate
    rw [parseRate_of_split hsplit]
    cases hnumber : parseUnsigned 64 (trim digits) with
    | none => exact Or.inl rfl
    | some n =>
      obtain ⟨hspells, hn⟩ := parseUnsigned_eq_some.1 hnumber
      obtain ⟨space, hdigits, hspace⟩ := exists_space hs
      exact Or.inr ⟨n, mult, hrate n space hspells hdigits hspace, hn, rfl⟩
  rcases splitSuffix_spec (trim s) with ⟨front, c, mult, hs, hsuffix, hsplit⟩ | ⟨-, hsplit⟩
  · refine hread front mult [c] hsplit hs fun n space hspells hdigits hspace => ?_
    rw [hs, hdigits]
    exact .suffixed hspells hspace hsuffix
  · refine hread (trim s) 1 [] hsplit (List.append_nil _).symm
      fun n space hspells hdigits hspace => ?_
    rw [hdigits]
    exact .plain hspells hspace

lemma mulRate_of_lt (overflowChecks : Bool) {n mult : ℕ} (h : n * mult < 2 ^ 64) :
    mulRate overflowChecks n mult = .ok (n * mult) := by
  rw [mulRate, checkedMul_of_lt h, Wrapping.fit_of_lt h]
  cases overflowChecks <;> rfl

/-- A product that does not fit is no error. -/
lemma mulRate_ne_fail (overflowChecks : Bool) (n mult : ℕ) (e : InvalidRate) :
    mulRate overflowChecks n mult ≠ .error (.fail e) := by
  rw [mulRate]
  split_ifs
  · cases checkedMul 64 n mult <;> simp [orPanic]
  · simp

lemma not_exact_of_spells {overflowChecks : Bool} {s : List Char} {n mult : ℕ}
    (hrate : SpellsRate (trim s) n mult) (hn : n < 2 ^ 64) (hbig : 2 ^ 64 ≤ n * mult) :
    ¬ ParsesExactly overflowChecks s := by
  intro h
  have hrefused := h.refused n mult hrate hbig
  rw [parseRate_of_spells hrate, if_pos hn] at hrefused
  exact mulRate_ne_fail _ _ _ _ hrefused

/-- Rates are read exactly or refused just where no number that fits stands before a suffix
with which it does not. -/
theorem rate_exact_iff (overflowChecks : Bool) (s : List Char) :
    ParsesExactly overflowChecks s ↔ SuffixFits s := by
  constructor
  · intro h n mult hrate hn
    by_contra hbig
    exact not_exact_of_spells hrate hn (not_lt.1 hbig) h
  · intro h
    have hcases := parseRate_cases overflowChecks s
    refine ⟨fun hpanic => ?_, fun v hv => ?_, fun n mult hrate hbig => ?_⟩
    · rcases hcases with hfail | ⟨n, mult, hrate, hn, heq⟩
      · cases hpanic.symm.trans hfail
      · rw [mulRate_of_lt _ (h n mult hrate hn)] at heq
        cases hpanic.symm.trans heq
    · rcases hcases with hfail | ⟨n, mult, hrate, hn, heq⟩
      · cases hv.symm.trans hfail
      · rw [mulRate_of_lt _ (h n mult hrate hn)] at heq
        exact ⟨n, mult, hrate, hn, Except.ok.inj (hv.symm.trans heq)⟩
    · rw [parseRate_of_spells hrate, if_neg fun hn => absurd (h n mult hrate hn) (not_lt.2 hbig)]

lemma trim_suffixed {number : List Char} {c : Char} {n mult : ℕ} (hnumber : Spells number n)
    (hsuffix : Suffix c mult) : trim (number ++ [c]) = number ++ [c] := by
  refine trim_eq_self fun d hd => ?_
  rcases List.mem_append.1 hd with hd | hd
  · exact hnumber.not_isWhitespace d hd
  · rw [List.mem_singleton.1 hd]
    exact hsuffix.not_digit.2.2

lemma spellsRate_suffixed {number : List Char} {c : Char} {n mult : ℕ} (hnumber : Spells number n)
    (hsuffix : Suffix c mult) : SpellsRate (trim (number ++ [c])) n mult := by
  rw [trim_suffixed hnumber hsuffix]
  have hnone : ∀ c ∈ ([] : List Char), isWhitespace c = true := fun _ hc => by cases hc
  simpa using SpellsRate.suffixed hnumber hnone hsuffix

/-- Every rate that fits can be given with each suffix. -/
theorem parseRate_printed (overflowChecks : Bool) {c : Char} {n mult : ℕ} (hsuffix : Suffix c mult)
    (hfits : n * mult < 2 ^ 64) :
    parseRate overflowChecks (Nat.toDigits 10 n ++ [c]) = .ok (n * mult) := by
  have hmult : 1 ≤ mult := by
    cases hsuffix <;> decide
  have hn : n < 2 ^ 64 := (Nat.le_mul_of_pos_right n hmult).trans_lt hfits
  rw [parseRate_of_spells (spellsRate_suffixed (spells_toDigits n) hsuffix), if_pos hn,
    mulRate_of_lt _ hfits]

/-- A limit of 16 EiB per second. -/
def sixteenEiB : List Char := "17179869184G".toList

lemma spellsRate_sixteenEiB : SpellsRate (trim sixteenEiB) 17179869184 (1024 ^ 3) := by
  have hnumber : Spells "17179869184".toList 17179869184 :=
    .digits (by decide) (List.forall_iff_forall_mem.1 (by decide))
  exact spellsRate_suffixed hnumber (.giga (Or.inr rfl))

/-- It is read as a limit of zero, which the limiter takes for one byte per second; a debug
build panics. -/
theorem sixteenEiB_not_exact :
    (∀ overflowChecks, ¬ ParsesExactly overflowChecks sixteenEiB) ∧
      parseRate true sixteenEiB = .error .panic ∧ parseRate false sixteenEiB = .ok 0 ∧
      (RateLimiter.new 0 0).bytesPerSec = 1 := by
  have hrate := spellsRate_sixteenEiB
  refine ⟨fun _ => not_exact_of_spells hrate (by decide) (by decide), ?_, ?_, ?_⟩
  · rw [parseRate_of_spells hrate, if_pos (by decide)]
    rfl
  · rw [parseRate_of_spells hrate, if_pos (by decide)]
    rfl
  · simp [RateLimiter.new]

end Chorrent
