/-
# Binary codecs

A codec pairs an encoder with a decoder that reads one value off the front of a byte list
and returns what is left.  The combinators follow the postcard format: integers are
variable-length with seven bits a byte, strings and lists are prefixed with their length,
the parts of a record stand one after another.
-/
import Mathlib.Tactic

namespace Chorrent.Lib

/-- An encoder and a decoder for `α`; every value that `Fits` is read back. -/
structure Codec (α : Type) where
  encode : α → List UInt8
  decode : List UInt8 → Option (α × List UInt8)
  Fits : α → Prop
  decode_encode : ∀ a rest, Fits a → decode (encode a ++ rest) = some (a, rest)

namespace Codec

variable {α β : Type}

/-! ## Variable-length integers -/

/-- At most `k` bytes of `v`, low bits first; all but the last have the high bit set. -/
def putVarint : ℕ → ℕ → List UInt8
  | 0, _ => []
  | k + 1, v =>
      if v < 128 then [UInt8.ofNat v] else UInt8.ofNat (v % 128 + 128) :: putVarint k (v / 128)

/-- How many bytes that are. -/
def varintLength : ℕ → ℕ → ℕ
  | 0, _ => 0
  | k + 1, v => if v < 128 then 1 else varintLength k (v / 128) + 1

lemma length_putVarint (k v : ℕ) : (putVarint k v).length = varintLength k v := by
  induction k generalizing v with
  | zero => rfl
  | succ k ih =>
    rw [putVarint, varintLength]
    split_ifs
    · rfl
    · rw [List.length_cons, ih]

lemma varintLength_pos (k v : ℕ) : 0 < varintLength (k + 1) v := by
  rw [varintLength]
  split_ifs <;> omega

/-- Read an integer of at most `k` bytes, the last of which must not exceed `top`. -/
def takeVarint (top : ℕ) : ℕ → List UInt8 → Option (ℕ × List UInt8)
  | 0, _ => none
  | _ + 1, [] => none
  | k + 1, b :: rest =>
      if b.toNat < 128 then
        if k = 0 ∧ top < b.toNat then none else some (b.toNat, rest)
      else (takeVarint top k rest).map fun r => (b.toNat % 128 + 128 * r.1, r.2)

lemma takeVarint_putVarint {top : ℕ} (htop : top < 128) (rest : List UInt8) : ∀ k v,
    v < (top + 1) * 128 ^ k →
    takeVarint top (k + 1) (putVarint (k + 1) v ++ rest) = some (v, rest) := by
  intro k
  induction k with
  | zero =>
    intro v hv
    have h : v % 256 = v := by omega
    simp [putVarint, takeVarint, show v < 128 by omega, UInt8.toNat_ofNat', h]
    omega
  | succ k ih =>
    intro v hv
    by_cases hlow : v < 128
    · have h : v % 256 = v := by omega
      simp [putVarint, hlow, takeVarint, UInt8.toNat_ofNat', h]
    · have hdiv : v / 128 < (top + 1) * 128 ^ k := by
        rw [pow_succ, ← mul_assoc] at hv
        exact (Nat.div_lt_iff_lt_mul (by decide)).2 hv
      have hbyte : (UInt8.ofNat (v % 128 + 128)).toNat = v % 128 + 128 := by
        rw [UInt8.toNat_ofNat']
        omega
      rw [putVarint, if_neg hlow, List.cons_append, takeVarint, hbyte, if_neg (by omega),
        ih _ hdiv]
      simp only [Option.map_some, Option.some.injEq, Prod.mk.injEq, and_true]
      omega

lemma takeVarint_lt {top : ℕ} : ∀ k bytes v rest,
    takeVarint top (k + 1) bytes = some (v, rest) → v < (top + 1) * 128 ^ k := by
  intro k
  induction k with
  | zero =>
    intro bytes v rest h
    cases bytes with
    | nil => simp [takeVarint] at h
    | cons b bs =>
      simp only [takeVarint, true_and] at h
      split_ifs at h with h₁ h₂
      · simp at h
        omega
      · simp at h
  | succ k ih =>
    intro bytes v rest h
    have hpos : 1 ≤ 128 ^ k := Nat.one_le_pow _ _ (by decide)
    have hlow : 128 ≤ (top + 1) * 128 ^ k * 128 :=
      Nat.le_mul_of_pos_left 128 (Nat.mul_pos (Nat.succ_pos top) hpos)
    rw [pow_succ, ← mul_assoc]
    cases bytes with
    | nil => simp [takeVarint] at h
    | cons b bs =>
      rw [takeVarint] at h
      split_ifs at h with h₁ h₂
      · simp only [Option.some.injEq, Prod.mk.injEq] at h
        omega
      · obtain ⟨⟨hi, rest'⟩, hr, hv⟩ := Option.map_eq_some_iff.1 h
        have := ih _ _ _ hr
        simp only [Prod.mk.injEq] at hv
        omega

/-- A 64-bit unsigned integer: at most ten bytes. -/
def varint : Codec ℕ where
  encode := putVarint 10
  decode := takeVarint 1 10
  Fits v := v < 2 ^ 64
  decode_encode v rest hv := takeVarint_putVarint (by decide) rest 9 v hv

lemma varint_decode_lt {bytes rest : List UInt8} {v : ℕ}
    (h : varint.decode bytes = some (v, rest)) : v < 2 ^ 64 :=
  takeVarint_lt 9 _ _ _ h

/-- A 32-bit unsigned integer: at most five bytes. -/
def varint32 : Codec ℕ where
  encode := putVarint 5
  decode := takeVarint 15 5
  Fits v := v < 2 ^ 32
  decode_encode v rest hv := takeVarint_putVarint (by decide) rest 4 v hv

/-! ## Strings, records and lists -/

/-- A UTF-8 string after its length in bytes. -/
def string : Codec String where
  encode s := varint.encode s.toByteArray.size ++ s.toByteArray.data.toList
  decode bytes := do
    let (n, bytes) ← varint.decode bytes
    if n ≤ bytes.length then
      let text := ByteArray.mk (bytes.take n).toArray
      if h : text.IsValidUTF8 then return (⟨text, h⟩, bytes.drop n) else none
    else none
  Fits s := s.toByteArray.size < 2 ^ 64
  decode_encode s rest hs := by
    have hlen : s.toByteArray.data.toList.length = s.toByteArray.size := rfl
    have htext : ByteArray.mk s.toByteArray.data.toList.toArray = s.toByteArray := by simp
    rw [List.append_assoc, varint.decode_encode _ _ hs]
    simp only [Option.bind_eq_bind, Option.bind_some]
    rw [if_pos (by rw [List.length_append, hlen]; omega), List.take_left' hlen,
      List.drop_left' hlen]
    simp only [htext, s.isValidUTF8, dite_true]
    rfl

/-- One value after another. -/
def seq (a : Codec α) (b : Codec β) : Codec (α × β) where
  encode v := a.encode v.1 ++ b.encode v.2
  decode bytes := do
    let (x, bytes) ← a.decode bytes
    let (y, bytes) ← b.decode bytes
    return ((x, y), bytes)
  Fits v := a.Fits v.1 ∧ b.Fits v.2
  decode_encode v rest hv := by
    rw [List.append_assoc, a.decode_encode _ _ hv.1]
    simp [b.decode_encode _ _ hv.2]

/-- Read `n` values. -/
def decodeMany (c : Codec α) : ℕ → List UInt8 → Option (List α × List UInt8)
  | 0, bytes => some ([], bytes)
  | n + 1, bytes => do
      let (x, bytes) ← c.decode bytes
      let (xs, bytes) ← decodeMany c n bytes
      return (x :: xs, bytes)

lemma decodeMany_encode (c : Codec α) (rest : List UInt8) : ∀ l : List α, (∀ a ∈ l, c.Fits a) →
    decodeMany c l.length (l.flatMap c.encode ++ rest) = some (l, rest) := by
  intro l
  induction l with
  | nil => simp [decodeMany]
  | cons a l ih =>
    intro hl
    rw [List.flatMap_cons, List.append_assoc, List.length_cons, decodeMany,
      c.decode_encode _ _ (hl a (by simp))]
    simp [ih fun b hb => hl b (by simp [hb])]

/-- The values of a list after its length. -/
def list (c : Codec α) : Codec (List α) where
  encode l := varint.encode l.length ++ l.flatMap c.encode
  decode bytes := do
    let (n, bytes) ← varint.decode bytes
    c.decodeMany n bytes
  Fits l := l.length < 2 ^ 64 ∧ ∀ a ∈ l, c.Fits a
  decode_encode l rest hl := by
    rw [List.append_assoc, varint.decode_encode _ _ hl.1]
    exact c.decodeMany_encode rest l hl.2

/-- Values of `β` written as values of `α`; some values of `α` may stand for none. -/
def convert (c : Codec α) (write : β → α) (read : α → Option β)
    (h : ∀ b, read (write b) = some b) : Codec β where
  encode b := c.encode (write b)
  decode bytes := do
    let (a, bytes) ← c.decode bytes
    let b ← read a
    return (b, bytes)
  Fits b := c.Fits (write b)
  decode_encode b rest hb := by
    rw [c.decode_encode _ _ hb]
    simp [h]

/-- Fixed-size byte arrays are written as they are. -/
def array (n : ℕ) : Codec (List.Vector UInt8 n) where
  encode v := v.toList
  decode bytes :=
    if h : n ≤ bytes.length then some (⟨bytes.take n, by simp [h]⟩, bytes.drop n) else none
  Fits _ := True
  decode_encode v rest _ := by
    have hlen : v.toList.length = n := v.toList_length
    rw [dif_pos (by simp)]
    exact congrArg some (Prod.ext (Subtype.ext (List.take_left' hlen)) (List.drop_left' hlen))

/-- One byte. -/
def byte : Codec UInt8 where
  encode b := [b]
  decode
    | [] => none
    | b :: rest => some (b, rest)
  Fits _ := True
  decode_encode _ _ _ := rfl

def bool : Codec Bool :=
  byte.convert (fun b => if b then 1 else 0) (fun b => if b = 0 then some false
    else if b = 1 then some true else none) (fun b => by cases b <;> rfl)

/-- A byte string after its length. -/
def byteString : Codec (List UInt8) := list byte

def u32 : Codec UInt32 :=
  varint32.convert UInt32.toNat (fun v => some (UInt32.ofNat v)) (fun v => by simp)

/-- A byte that says whether a value follows. -/
def option (c : Codec α) : Codec (Option α) where
  encode
    | none => [0]
    | some a => 1 :: c.encode a
  decode bytes := do
    let (present, bytes) ← bool.decode bytes
    if present then
      let (a, bytes) ← c.decode bytes
      return (some a, bytes)
    else return (none, bytes)
  Fits v := ∀ a ∈ v, c.Fits a
  decode_encode v rest hv := by
    cases v with
    | none => rfl
    | some a =>
      have hbool : bool.decode (1 :: (c.encode a ++ rest)) = some (true, c.encode a ++ rest) := rfl
      rw [List.cons_append, hbool]
      simp [c.decode_encode a rest (hv a rfl)]

/-! ## Bytes that follow -/

/-- The decoder looks at no more bytes than it takes. -/
def Extends (c : Codec α) : Prop :=
  ∀ bytes a rest more, c.decode bytes = some (a, rest) →
    c.decode (bytes ++ more) = some (a, rest ++ more)

/-- A part of an encoding does not decode. -/
lemma Extends.decode_take {c : Codec α} (hc : c.Extends) {a b : α} {rest : List UInt8} {n : ℕ}
    (hfits : c.Fits a) (h : c.decode ((c.encode a).take n) = some (b, rest)) :
    (c.encode a).length ≤ n := by
  have hwhole := hc _ _ _ ((c.encode a).drop n) h
  have hdecode := c.decode_encode a [] hfits
  rw [List.append_nil] at hdecode
  rw [List.take_append_drop, hdecode] at hwhole
  have hnil := (Prod.mk.inj (Option.some.inj hwhole)).2
  exact List.drop_eq_nil_iff.1 (List.append_eq_nil_iff.1 hnil.symm).2

lemma takeVarint_append {top : ℕ} : ∀ k bytes v rest more,
    takeVarint top k bytes = some (v, rest) →
    takeVarint top k (bytes ++ more) = some (v, rest ++ more) := by
  intro k
  induction k with
  | zero =>
    intro bytes v rest more h
    cases h
  | succ k ih =>
    intro bytes v rest more h
    cases bytes with
    | nil => cases h
    | cons b bytes =>
      rw [List.cons_append, takeVarint]
      rw [takeVarint] at h
      split_ifs at h ⊢ with hlow htop
      · obtain ⟨rfl, rfl⟩ := Prod.mk.inj (Option.some.inj h)
        rfl
      · obtain ⟨r, hr, heq⟩ := Option.map_eq_some_iff.1 h
        obtain ⟨rfl, rfl⟩ := Prod.mk.inj heq
        rw [ih _ _ _ more hr]
        rfl

lemma extends_varint : varint.Extends := fun _ _ _ _ h => takeVarint_append _ _ _ _ _ h

lemma extends_varint32 : varint32.Extends := fun _ _ _ _ h => takeVarint_append _ _ _ _ _ h

lemma extends_byte : byte.Extends := by
  intro bytes b rest more h
  cases bytes with
  | nil => cases h
  | cons c bytes =>
    obtain ⟨rfl, rfl⟩ := Prod.mk.inj (Option.some.inj h)
    rfl

lemma Extends.map {c : Codec α} (hc : c.Extends) {f : α → β} {bytes rest : List UInt8} {b : β}
    (more : List UInt8) (h : (c.decode bytes).map (fun r => (f r.1, r.2)) = some (b, rest)) :
    (c.decode (bytes ++ more)).map (fun r => (f r.1, r.2)) = some (b, rest ++ more) := by
  obtain ⟨r, hr, heq⟩ := Option.map_eq_some_iff.1 h
  cases heq
  rw [hc _ _ _ more hr]
  rfl

lemma Extends.decodeMany {c : Codec α} (hc : c.Extends) : ∀ n bytes l rest more,
    c.decodeMany n bytes = some (l, rest) →
    c.decodeMany n (bytes ++ more) = some (l, rest ++ more) := by
  intro n
  induction n with
  | zero =>
    intro bytes l rest more h
    obtain ⟨rfl, rfl⟩ := Prod.mk.inj (Option.some.inj h)
    rfl
  | succ n ih =>
    intro bytes l rest more h
    simp only [Codec.decodeMany, Option.bind_eq_bind, Option.bind_eq_some_iff] at h ⊢
    obtain ⟨⟨a, bytes'⟩, ha, ⟨l', rest'⟩, hl, heq⟩ := h
    obtain ⟨rfl, rfl⟩ := Prod.mk.inj (Option.some.inj heq)
    exact ⟨_, hc _ _ _ more ha, _, ih _ _ _ more hl, rfl⟩

lemma Extends.list {c : Codec α} (hc : c.Extends) : (list c).Extends := by
  intro bytes l rest more h
  simp only [Codec.list, Option.bind_eq_bind, Option.bind_eq_some_iff] at h ⊢
  obtain ⟨⟨n, bytes'⟩, hn, hl⟩ := h
  exact ⟨_, extends_varint _ _ _ more hn, hc.decodeMany _ _ _ _ more hl⟩

lemma Extends.convert {c : Codec α} (hc : c.Extends) (write : β → α) (read : α → Option β)
    (h : ∀ b, read (write b) = some b) : (c.convert write read h).Extends := by
  intro bytes b rest more hdecode
  simp only [Codec.convert, Option.bind_eq_bind, Option.bind_eq_some_iff] at hdecode ⊢
  obtain ⟨⟨a, bytes'⟩, ha, b', hb, heq⟩ := hdecode
  obtain ⟨rfl, rfl⟩ := Prod.mk.inj (Option.some.inj heq)
  exact ⟨_, hc _ _ _ more ha, _, hb, rfl⟩

lemma extends_byteString : byteString.Extends := extends_byte.list

lemma extends_u32 : u32.Extends := extends_varint32.convert _ _ _

end Codec

end Chorrent.Lib
