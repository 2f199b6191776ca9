/-
# Base64 without padding

The URL-safe alphabet, four characters for every three bytes.  What is left over at the end
takes two or three characters, whose last bits must be zero, so that every text stands for at
most one byte string and every byte string has one text.
-/
import Chorrent.Lib.Bytes

namespace Chorrent.Lib.Base64

def alphabet : List Char :=
  "ABCDEFGHIJKLMNOPQRSTUVWXYZabcdefghijklmnopqrstuvwxyz0123456789-_".toList

/-- The character for six bits. -/
def digit (n : ℕ) : Char := alphabet.getD n 'A'

def value (c : Char) : Option ℕ := alphabet.idxOf? c

def encode : Bytes → List Char
  | [] => []
  | [a] => [digit (a.toNat / 4), digit (a.toNat % 4 * 16)]
  | [a, b] =>
      [digit (a.toNat / 4), digit (a.toNat % 4 * 16 + b.toNat / 16), digit (b.toNat % 16 * 4)]
  | a :: b :: c :: bytes =>
      digit (a.toNat / 4) :: digit (a.toNat % 4 * 16 + b.toNat / 16) ::
        digit (b.toNat % 16 * 4 + c.toNat / 64) :: digit (c.toNat % 64) :: encode bytes

def decode : List Char → Option Bytes
  | [] => some []
  | [_] => none
  | [p, q] => do
      let x ← value p
      let y ← value q
      if y % 16 = 0 then some [UInt8.ofNat (x * 4 + y / 16)] else none
  | [p, q, r] => do
      let x ← value p
      let y ← value q
      let z ← value r
      if z % 4 = 0 then
        some [UInt8.ofNat (x * 4 + y / 16), UInt8.ofNat (y % 16 * 16 + z / 4)]
      else none
  | p :: q :: r :: s :: text => do
      let x ← value p
      let y ← value q
      let z ← value r
      let w ← value s
      let bytes ← decode text
      some (UInt8.ofNat (x * 4 + y / 16) :: UInt8.ofNat (y % 16 * 16 + z / 4) ::
        UInt8.ofNat (z % 4 * 64 + w) :: bytes)

lemma nodup_alphabet : alphabet.Nodup := by decide

lemma digit_eq {n : ℕ} (hn : n < alphabet.length) : digit n = alphabet[n] := by
  rw [digit, List.getD_eq_getElem?_getD, List.getElem?_eq_getElem hn, Option.getD_some]

lemma value_eq_some {c : Char} {n : ℕ} : value c = some n ↔ n < 64 ∧ digit n = c := by
  rw [value, List.idxOf?_eq_some_iff]
  constructor
  · rintro ⟨hn, hc, -⟩
    exact ⟨hn, (digit_eq hn).trans hc⟩
  · rintro ⟨hn, rfl⟩
    refine ⟨hn, (digit_eq hn).symm, fun j hj heq => ?_⟩
    rw [digit_eq hn] at heq
    exact hj.ne ((nodup_alphabet.getElem_inj_iff).1 heq)

lemma value_digit {n : ℕ} (hn : n < 64) : value (digit n) = some n := value_eq_some.2 ⟨hn, rfl⟩

lemma digit_mem (n : ℕ) : digit n ∈ alphabet := by
  rw [digit, List.getD_eq_getElem?_getD]
  cases h : alphabet[n]? with
  | none => exact List.mem_cons_self
  | some c => exact List.mem_of_getElem? h

lemma mem_alphabet {bytes : Bytes} : ∀ c ∈ encode bytes, c ∈ alphabet := by
  induction bytes using encode.induct with
  | case1 => exact fun c hc => absurd hc List.not_mem_nil
  | case4 a b c bytes ih =>
    intro d hd
    simp only [encode, List.mem_cons] at hd
    rcases hd with rfl | rfl | rfl | rfl | hd
    · exact digit_mem _
    · exact digit_mem _
    · exact digit_mem _
    · exact digit_mem _
    · exact ih d hd
  | _ =>
    intro d hd
    simp only [encode, List.mem_cons, List.not_mem_nil, or_false] at hd
    rcases hd with rfl | hd
    · exact digit_mem _
    · rcases hd with rfl | rfl <;> exact digit_mem _

/-- What was encoded is decoded. -/
theorem decode_encode (bytes : Bytes) : decode (encode bytes) = some bytes := by
  induction bytes using encode.induct with
  | case1 => rfl
  | case2 a =>
    have ha : a.toNat < 256 := a.toNat_lt
    have hbyte : a.toNat / 4 * 4 + a.toNat % 4 * 16 / 16 = a.toNat := by omega
    rw [encode, decode, value_digit (by omega), value_digit (by omega)]
    simp only [Option.bind_eq_bind, Option.bind_some, hbyte, UInt8.ofNat_toNat]
    rw [if_pos (by omega)]
  | case3 a b =>
    have ha : a.toNat < 256 := a.toNat_lt
    have hb : b.toNat < 256 := b.toNat_lt
    have hbyte : a.toNat / 4 * 4 + (a.toNat % 4 * 16 + b.toNat / 16) / 16 = a.toNat := by omega
    have hbyte' : (a.toNat % 4 * 16 + b.toNat / 16) % 16 * 16 + b.toNat % 16 * 4 / 4 = b.toNat := by
      omega
    rw [encode, decode, value_digit (by omega), value_digit (by omega), value_digit (by omega)]
    simp only [Option.bind_eq_bind, Option.bind_some, hbyte, hbyte', UInt8.ofNat_toNat]
    rw [if_pos (by omega)]
  | case4 a b c bytes ih =>
    have ha : a.toNat < 256 := a.toNat_lt
    have hb : b.toNat < 256 := b.toNat_lt
    have hc : c.toNat < 256 := c.toNat_lt
    have hbyte : a.toNat / 4 * 4 + (a.toNat % 4 * 16 + b.toNat / 16) / 16 = a.toNat := by omega
    have hbyte' : (a.toNat % 4 * 16 + b.toNat / 16) % 16 * 16 +
        (b.toNat % 16 * 4 + c.toNat / 64) / 4 = b.toNat := by omega
    have hbyte'' : (b.toNat % 16 * 4 + c.toNat / 64) % 4 * 64 + c.toNat % 64 = c.toNat := by omega
    rw [encode, decode, value_digit (by omega), value_digit (by omega), value_digit (by omega),
      value_digit (by omega), ih]
    simp only [Option.bind_eq_bind, Option.bind_some, hbyte, hbyte', hbyte'', UInt8.ofNat_toNat]

/-- What decodes is the text of what it decodes to. -/
theorem encode_of_decode {text : List Char} : ∀ {bytes : Bytes}, decode text = some bytes →
    encode bytes = text := by
  have hbyte : ∀ {n : ℕ}, n < 256 → (UInt8.ofNat n).toNat = n := fun hn => by
    rw [UInt8.toNat_ofNat', Nat.mod_eq_of_lt hn]
  induction text using decode.induct with
  | case1 =>
    intro bytes h
    cases h
    rfl
  | case2 => exact fun h => by cases h
  | case3 p q =>
    intro bytes h
    simp only [decode, Option.bind_eq_bind, Option.bind_eq_some_iff] at h
    obtain ⟨x, hx, y, hy, h⟩ := h
    split_ifs at h with hzero
    cases h
    obtain ⟨hx, rfl⟩ := value_eq_some.1 hx
    obtain ⟨hy, rfl⟩ := value_eq_some.1 hy
    rw [encode, hbyte (by omega)]
    congr <;> omega
  | case4 p q r =>
    intro bytes h
    simp only [decode, Option.bind_eq_bind, Option.bind_eq_some_iff] at h
    obtain ⟨x, hx, y, hy, z, hz, h⟩ := h
    split_ifs at h with hzero
    cases h
    obtain ⟨hx, rfl⟩ := value_eq_some.1 hx
    obtain ⟨hy, rfl⟩ := value_eq_some.1 hy
    obtain ⟨hz, rfl⟩ := value_eq_some.1 hz
    rw [encode, hbyte (by omega), hbyte (by omega)]
    congr <;> omega
  | case5 p q r s text ih =>
    intro bytes h
    simp only [decode, Option.bind_eq_bind, Option.bind_eq_some_iff] at h
    obtain ⟨x, hx, y, hy, z, hz, w, hw, rest, hrest, h⟩ := h
    cases h
    obtain ⟨hx, rfl⟩ := value_eq_some.1 hx
    obtain ⟨hy, rfl⟩ := value_eq_some.1 hy
    obtain ⟨hz, rfl⟩ := value_eq_some.1 hz
    obtain ⟨hw, rfl⟩ := value_eq_some.1 hw
    rw [encode, hbyte (by omega), hbyte (by omega), hbyte (by omega), ih hrest]
    congr <;> omega

/-- The start of a text, where it decodes, stands for the start of the bytes. -/
theorem prefix_of_decode {text : List Char} : ∀ {n : ℕ} {bytes bytes' : Bytes},
    decode text = some bytes → decode (text.take n) = some bytes' → bytes' <+: bytes := by
  have hsame : ∀ {text : List Char} {n : ℕ} {bytes bytes' : Bytes}, text.length ≤ n →
      decode text = some bytes → decode (text.take n) = some bytes' → bytes' <+: bytes := by
    intro text n bytes bytes' hle h h'
    rw [List.take_of_length_le hle, h] at h'
    cases h'
    exact List.prefix_rfl
  -- a group that is cut off after one letter does not decode
  induction text using decode.induct with
  | case1 => exact fun h h' => hsame (Nat.zero_le _) h h'
  | case2 => exact fun h _ => by cases h
  | case3 p q =>
    intro n bytes bytes' h h'
    rcases n with _ | _ | n
    · cases h'
      exact List.nil_prefix
    · cases h'
    · exact hsame (Nat.le_add_left 2 n) h h'
  | case4 p q r =>
    intro n bytes bytes' h h'
    rcases n with _ | _ | _ | n
    · cases h'
      exact List.nil_prefix
    · cases h'
    · simp only [List.take_succ_cons, List.take_zero, decode, Option.bind_eq_bind,
        Option.bind_eq_some_iff] at h h'
      obtain ⟨x, hx, y, hy, z, -, h⟩ := h
      obtain ⟨x', hx', y', hy', h'⟩ := h'
      cases hx.symm.trans hx'
      cases hy.symm.trans hy'
      split_ifs at h h'
      cases h
      cases h'
      exact List.cons_prefix_cons.2 ⟨rfl, List.nil_prefix⟩
    · exact hsame (Nat.le_add_left 3 n) h h'
  | case5 p q r s text ih =>
    intro n bytes bytes' h h'
    simp only [decode, Option.bind_eq_bind, Option.bind_eq_some_iff] at h
    obtain ⟨x, hx, y, hy, z, hz, w, hw, rest, hrest, h⟩ := h
    cases h
    rcases n with _ | _ | _ | _ | n
    · cases h'
      exact List.nil_prefix
    · cases h'
    · simp only [List.take_succ_cons, List.take_zero, decode, Option.bind_eq_bind,
        Option.bind_eq_some_iff] at h'
      obtain ⟨x', hx', y', hy', h'⟩ := h'
      cases hx.symm.trans hx'
      cases hy.symm.trans hy'
      split_ifs at h'
      cases h'
      exact List.cons_prefix_cons.2 ⟨rfl, List.nil_prefix⟩
    · simp only [List.take_succ_cons, List.take_zero, decode, Option.bind_eq_bind,
        Option.bind_eq_some_iff] at h'
      obtain ⟨x', hx', y', hy', z', hz', h'⟩ := h'
      cases hx.symm.trans hx'
      cases hy.symm.trans hy'
      cases hz.symm.trans hz'
      split_ifs at h'
      cases h'
      exact List.cons_prefix_cons.2 ⟨rfl, List.cons_prefix_cons.2 ⟨rfl, List.nil_prefix⟩⟩
    · simp only [List.take_succ_cons, decode, Option.bind_eq_bind, Option.bind_eq_some_iff] at h'
      obtain ⟨x', hx', y', hy', z', hz', w', hw', rest', hrest', h'⟩ := h'
      cases hx.symm.trans hx'
      cases hy.symm.trans hy'
      cases hz.symm.trans hz'
      cases hw.symm.trans hw'
      cases h'
      have hstart := ih hrest hrest'
      simp only [List.cons_prefix_cons, true_and]
      exact hstart

end Chorrent.Lib.Base64
