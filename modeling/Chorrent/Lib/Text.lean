/-
# Texts as bytes

The UTF-8 bytes of a text, positions in it counted in bytes, hexadecimal digits, and two texts
joined by a zero byte.
-/
import Chorrent.Lib.Bytes

namespace Chorrent.Lib

/-- `str::as_bytes` -/
def utf8 (text : String) : Bytes := text.toByteArray.data.toList

lemma utf8_injective : Function.Injective utf8 := by
  intro s t h
  refine String.toByteArray_inj.1 (ByteArray.ext ?_)
  exact Array.toList_inj.1 h

/-- The text of some bytes. -/
def ofUtf8 (bytes : Bytes) : Option String :=
  let text := ByteArray.mk bytes.toArray
  if h : text.IsValidUTF8 then some ⟨text, h⟩ else none

lemma ofUtf8_utf8 (text : String) : ofUtf8 (utf8 text) = some text := by
  have htext : ByteArray.mk (utf8 text).toArray = text.toByteArray := by simp [utf8]
  simp only [ofUtf8, htext, text.isValidUTF8, dite_true]

lemma utf8_of_ofUtf8 {bytes : Bytes} {text : String} (h : ofUtf8 bytes = some text) :
    utf8 text = bytes := by
  rw [ofUtf8] at h
  split_ifs at h with hvalid
  cases h
  simp [utf8]

/-! ## Positions in bytes -/

/-- How many bytes a text takes. -/
def utf8Len (text : List Char) : ℕ := (text.map Char.utf8Size).sum

/-- `str::char_indices`, for what is left of a text from a position on. -/
def charIndices : ℕ → List Char → List (ℕ × Char)
  | _, [] => []
  | i, c :: cs => (i, c) :: charIndices (i + c.utf8Size) cs

/-- `&text[..i]`; there is none if `i` is inside a character or behind the end. -/
def sliceTo : List Char → ℕ → Option (List Char)
  | _, 0 => some []
  | [], _ + 1 => none
  | c :: cs, i + 1 =>
      if c.utf8Size ≤ i + 1 then (sliceTo cs (i + 1 - c.utf8Size)).map (c :: ·) else none

lemma charIndices_append (left right : List Char) : ∀ i,
    charIndices i (left ++ right) = charIndices i left ++ charIndices (i + utf8Len left) right := by
  induction left with
  | nil => simp [charIndices, utf8Len]
  | cons c cs ih =>
    intro i
    rw [List.cons_append, charIndices, ih, charIndices, List.cons_append, utf8Len, utf8Len,
      List.map_cons, List.sum_cons, Nat.add_assoc]

/-- A text can be cut behind any of its characters. -/
lemma sliceTo_append (left right : List Char) :
    sliceTo (left ++ right) (utf8Len left) = some left := by
  induction left with
  | nil => cases right <;> rfl
  | cons c cs ih =>
    have hpos := c.utf8Size_pos
    obtain ⟨i, hi⟩ : ∃ i, utf8Len (c :: cs) = i + 1 :=
      Nat.exists_eq_succ_of_ne_zero (by simp [utf8Len]; omega)
    have hrest : i + 1 - c.utf8Size = utf8Len cs := by
      rw [← hi, utf8Len, List.map_cons, List.sum_cons, Nat.add_sub_cancel_left, utf8Len]
    have hle : c.utf8Size ≤ i + 1 := by
      rw [← hi, utf8Len, List.map_cons, List.sum_cons]
      exact Nat.le_add_right _ _
    rw [hi, List.cons_append, sliceTo, if_pos hle, hrest, ih, Option.map_some]

/-! ## Hexadecimal digits -/

/-- Two lower-case digits for each byte. -/
def hexDigits (bytes : Bytes) : List Char :=
  bytes.flatMap fun b => [Nat.digitChar (b.toNat / 16), Nat.digitChar (b.toNat % 16)]

def hex (bytes : Bytes) : String := .ofList (hexDigits bytes)

/-- The value of a hexadecimal digit of either case. -/
def hexValue (c : Char) : Option ℕ :=
  if '0' ≤ c ∧ c ≤ '9' then some (c.toNat - '0'.toNat)
  else if 'a' ≤ c ∧ c ≤ 'f' then some (c.toNat - 'a'.toNat + 10)
  else if 'A' ≤ c ∧ c ≤ 'F' then some (c.toNat - 'A'.toNat + 10)
  else none

/-- The bytes that a list of digits spells. -/
def ofHexDigits : List Char → Option Bytes
  | [] => some []
  | [_] => none
  | a :: b :: text => do
      let high ← hexValue a
      let low ← hexValue b
      let rest ← ofHexDigits text
      return UInt8.ofNat (high * 16 + low) :: rest

def ofHex (text : String) : Option Bytes := ofHexDigits text.toList

lemma hexValue_digitChar {n : ℕ} (hn : n < 16) : hexValue (Nat.digitChar n) = some n := by
  interval_cases n <;> rfl

lemma ofHexDigits_hexDigits (bytes : Bytes) : ofHexDigits (hexDigits bytes) = some bytes := by
  induction bytes with
  | nil => rfl
  | cons b bytes ih =>
    have hlt : b.toNat < 256 := b.toNat_lt
    have hbyte : UInt8.ofNat (b.toNat / 16 * 16 + b.toNat % 16) = b := by
      rw [Nat.div_add_mod', UInt8.ofNat_toNat]
    rw [hexDigits, List.flatMap_cons, ← hexDigits]
    simp only [List.cons_append, List.nil_append, ofHexDigits, ih,
      hexValue_digitChar (show b.toNat / 16 < 16 by omega),
      hexValue_digitChar (show b.toNat % 16 < 16 by omega), Option.bind_eq_bind, Option.bind_some,
      hbyte]
    rfl

lemma ofHex_hex (bytes : Bytes) : ofHex (hex bytes) = some bytes := by
  rw [ofHex, hex, String.toList_ofList, ofHexDigits_hexDigits]

lemma hex_injective : Function.Injective hex := by
  intro a b h
  have hread := ofHex_hex a
  rw [h, ofHex_hex] at hread
  exact (Option.some.inj hread).symm

/-- A text that does not spell bytes is not what bytes are spelled as. -/
lemma hex_ne_of_ofHex_eq_none {text : String} (h : ofHex text = none) (bytes : Bytes) :
    hex bytes ≠ text := by
  rintro rfl
  rw [ofHex_hex] at h
  cases h

/-! ## Joining with a zero byte -/

/-- The bytes of two texts with a zero byte between them. -/
def joinZero (first second : String) : Bytes := utf8 first ++ 0 :: utf8 second

lemma takeWhile_joinZero {first : String} (second : String) (h : 0 ∉ utf8 first) :
    (joinZero first second).takeWhile (· ≠ 0) = utf8 first := by
  have hall : ∀ b ∈ utf8 first, (fun b : UInt8 => decide (b ≠ 0)) b = true := by
    intro b hb
    simp only [decide_eq_true_eq]
    rintro rfl
    exact h hb
  rw [joinZero, List.takeWhile_append_of_pos hall]
  simp

/-- When the first text has no zero byte, both texts can be told from the bytes. -/
lemma joinZero_inj {a a' b b' : String} (ha : 0 ∉ utf8 a) (ha' : 0 ∉ utf8 a')
    (h : joinZero a b = joinZero a' b') : a = a' ∧ b = b' := by
  have hfirst : utf8 a = utf8 a' := by
    rw [← takeWhile_joinZero b ha, h, takeWhile_joinZero b' ha']
  rw [joinZero, joinZero, hfirst] at h
  exact ⟨utf8_injective hfirst, utf8_injective (List.cons.inj (List.append_cancel_left h)).2⟩

end Chorrent.Lib
