/-
# Values written in one way only

A variable-length integer may be written with more bytes than it needs, and then a decoder
reads what no encoder writes.  The check here looks for such bytes: a value at the front of a
byte list passes it exactly when it is written as the encoder writes it.
-/
import Chorrent.Lib.Codec

namespace Chorrent.Lib.Codec

variable {α β : Type}

/-- A check that the value at the front is written as the encoder writes it. -/
structure Strict (c : Codec α) where
  shortest : List UInt8 → Bool
  shortest_iff : ∀ {bytes a rest}, c.decode bytes = some (a, rest) →
    (shortest bytes = true ↔ bytes = c.encode a ++ rest)
  fits : ∀ {bytes a rest}, c.decode bytes = some (a, rest) → c.Fits a

/-- No byte with the high bit set is followed by a zero byte, up to the first without it. -/
def noLeadingZero : List UInt8 → Bool
  | [] => true
  | b :: bytes => b.toNat < 128 || (bytes.head? != some 0 && noLeadingZero bytes)

lemma takeVarint_zero {top k v : ℕ} {bytes rest : List UInt8}
    (h : takeVarint top k bytes = some (v, rest)) (hhead : bytes.head? = some 0) : v = 0 := by
  cases k with
  | zero => cases h
  | succ k =>
    cases bytes with
    | nil => cases hhead
    | cons b bytes =>
      cases hhead
      rw [takeVarint, if_pos (by decide), if_neg (by simp)] at h
      cases h
      rfl

lemma noLeadingZero_iff {top : ℕ} : ∀ (k v : ℕ) (bytes rest : List UInt8),
    takeVarint top k bytes = some (v, rest) →
    (noLeadingZero bytes = true ↔ bytes = putVarint k v ++ rest) := by
  intro k
  induction k with
  | zero => exact fun v bytes rest h => by cases h
  | succ k ih =>
    intro v bytes rest h
    cases bytes with
    | nil => cases h
    | cons b bytes =>
      have hb : b.toNat < 256 := b.toNat_lt
      rw [takeVarint] at h
      split_ifs at h with hlow htop
      · cases h
        rw [noLeadingZero, putVarint, if_pos hlow, UInt8.ofNat_toNat]
        simp [hlow]
      · obtain ⟨⟨high, rest'⟩, hhigh, heq⟩ := Option.map_eq_some_iff.1 h
        cases heq
        have hrest := ih high bytes rest' hhigh
        have hbit : noLeadingZero (b :: bytes) = true ↔
            bytes.head? ≠ some 0 ∧ noLeadingZero bytes = true := by
          simp [noLeadingZero, hlow]
        rw [hbit]
        by_cases hzero : high = 0
        · -- the bytes that follow stand for nothing
          subst hzero
          have hshort : b.toNat % 128 + 128 * 0 < 128 := by omega
          rw [putVarint, if_pos hshort]
          constructor
          · rintro ⟨hhead, hbytes⟩
            cases k with
            | zero => cases hhigh
            | succ k => exact absurd (congrArg List.head? (hrest.1 hbytes)) hhead
          · intro hbytes
            have hfirst := congrArg UInt8.toNat (List.cons.inj hbytes).1
            rw [UInt8.toNat_ofNat'] at hfirst
            omega
        · have hlong : ¬ b.toNat % 128 + 128 * high < 128 := by omega
          have hmod : (b.toNat % 128 + 128 * high) % 128 + 128 = b.toNat := by omega
          have hdiv : (b.toNat % 128 + 128 * high) / 128 = high := by omega
          rw [putVarint, if_neg hlong, hmod, hdiv, UInt8.ofNat_toNat, List.cons_append,
            List.cons_inj_right, hrest]
          exact and_iff_right fun hhead => hzero (takeVarint_zero hhigh hhead)

/-! ## How the parts are read -/

section

variable {a : Codec α} {b : Codec β} {bytes rest : List UInt8}

lemma seq_eq_some {v : α × β} : (a.seq b).decode bytes = some (v, rest) ↔
    ∃ mid, a.decode bytes = some (v.1, mid) ∧ b.decode mid = some (v.2, rest) := by
  simp only [seq, Option.bind_eq_bind, Option.bind_eq_some_iff]
  constructor
  · rintro ⟨⟨x, mid⟩, hx, ⟨y, rest'⟩, hy, h⟩
    cases h
    exact ⟨mid, hx, hy⟩
  · rintro ⟨mid, hx, hy⟩
    exact ⟨_, hx, _, hy, rfl⟩

lemma decodeMany_succ_eq_some {n : ℕ} {l : List α} :
    a.decodeMany (n + 1) bytes = some (l, rest) ↔
      ∃ x l' mid, l = x :: l' ∧ a.decode bytes = some (x, mid) ∧
        a.decodeMany n mid = some (l', rest) := by
  simp only [decodeMany, Option.bind_eq_bind, Option.bind_eq_some_iff]
  constructor
  · rintro ⟨⟨x, mid⟩, hx, ⟨l', rest'⟩, hl, h⟩
    cases h
    exact ⟨x, l', mid, rfl, hx, hl⟩
  · rintro ⟨x, l', mid, rfl, hx, hl⟩
    exact ⟨_, hx, _, hl, rfl⟩

lemma list_eq_some {l : List α} : (list a).decode bytes = some (l, rest) ↔
    ∃ n mid, varint.decode bytes = some (n, mid) ∧ a.decodeMany n mid = some (l, rest) := by
  simp only [list, Option.bind_eq_bind, Option.bind_eq_some_iff, Prod.exists]

lemma string_eq_some {s : String} : string.decode bytes = some (s, rest) ↔
    ∃ mid, varint.decode bytes = some (s.toByteArray.size, mid) ∧
      mid = s.toByteArray.data.toList ++ rest := by
  simp only [string, Option.bind_eq_bind, Option.bind_eq_some_iff]
  constructor
  · rintro ⟨⟨n, mid⟩, hn, h⟩
    dsimp only at h
    split_ifs at h with hle hvalid
    cases h
    have hsize : (mid.take n).length = n := List.length_take_of_le hle
    refine ⟨mid, ?_, (List.take_append_drop n mid).symm⟩
    rw [hn]
    simp [ByteArray.size, hsize]
  · rintro ⟨mid, hn, rfl⟩
    have hlen : s.toByteArray.data.toList.length = s.toByteArray.size := rfl
    have htext : ByteArray.mk s.toByteArray.data.toList.toArray = s.toByteArray := by simp
    refine ⟨_, hn, ?_⟩
    rw [if_pos (by rw [List.length_append, hlen]; omega)]
    simp only [List.take_left' hlen, List.drop_left' hlen, htext, s.isValidUTF8, dite_true]
    rfl

lemma convert_eq_some {write : β → α} {read : α → Option β} {h : ∀ b, read (write b) = some b}
    {v : β} : (a.convert write read h).decode bytes = some (v, rest) ↔
      ∃ x, a.decode bytes = some (x, rest) ∧ read x = some v := by
  simp only [convert, Option.bind_eq_bind, Option.bind_eq_some_iff]
  constructor
  · rintro ⟨⟨x, mid⟩, hx, y, hy, heq⟩
    cases heq
    exact ⟨x, hx, hy⟩
  · rintro ⟨x, hx, hy⟩
    exact ⟨_, hx, _, hy, rfl⟩

lemma option_eq_some {v : Option α} : (option a).decode bytes = some (v, rest) ↔
    (v = none ∧ bytes = 0 :: rest) ∨
      ∃ x mid, v = some x ∧ bytes = 1 :: mid ∧ a.decode mid = some (x, rest) := by
  constructor
  · intro h
    obtain ⟨⟨present, mid⟩, hpresent, h⟩ := Option.bind_eq_some_iff.1 h
    obtain ⟨first, hfirst, hread⟩ := convert_eq_some.1 hpresent
    cases bytes with
    | nil => cases hfirst
    | cons _ _ =>
      cases hfirst
      cases present with
      | false =>
        cases h
        split_ifs at hread with hzero hone
        · exact .inl ⟨rfl, congrArg (· :: rest) hzero⟩
        · cases hread
      | true =>
        obtain ⟨⟨x, _⟩, hx, heq⟩ := Option.bind_eq_some_iff.1 h
        cases heq
        split_ifs at hread with hzero hone
        · cases hread
        · exact .inr ⟨x, mid, rfl, congrArg (· :: mid) hone, hx⟩
  · rintro (⟨rfl, rfl⟩ | ⟨x, mid, rfl, rfl, hx⟩)
    · rfl
    · have hbool : bool.decode (1 :: mid) = some (true, mid) := rfl
      simp [option, hbool, hx]

/-- The parts of what is written in one way are where they are read. -/
lemma append_eq_iff {x : α} {mid tail : List UInt8} (hfits : a.Fits x)
    (hx : a.decode bytes = some (x, mid)) :
    bytes = a.encode x ++ tail ↔ bytes = a.encode x ++ mid ∧ mid = tail := by
  constructor
  · intro hbytes
    have hagain := a.decode_encode x tail hfits
    rw [← hbytes, hx] at hagain
    cases hagain
    exact ⟨hbytes, rfl⟩
  · rintro ⟨hbytes, rfl⟩
    exact hbytes

end

/-! ## Checks -/

/-- Whether `n` values are written as the encoder writes them. -/
def shortestMany (c : Codec α) (shortest : List UInt8 → Bool) : ℕ → List UInt8 → Bool
  | 0, _ => true
  | n + 1, bytes => shortest bytes &&
      (c.decode bytes).all fun r => shortestMany c shortest n r.2

namespace Strict

def varint : Strict varint where
  shortest := noLeadingZero
  shortest_iff h := noLeadingZero_iff _ _ _ _ h
  fits := varint_decode_lt

def array (n : ℕ) : Strict (array n) where
  shortest _ := true
  shortest_iff {bytes a rest} h := by
    simp only [Codec.array] at h
    split_ifs at h with hlen
    cases h
    exact iff_of_true rfl (List.take_append_drop n bytes).symm
  fits _ := trivial

/-- What follows the length of a text is the text. -/
def string : Strict string where
  shortest := noLeadingZero
  shortest_iff {bytes s rest} h := by
    obtain ⟨mid, hn, rfl⟩ := string_eq_some.1 h
    rw [Codec.string, List.append_assoc]
    exact varint.shortest_iff hn
  fits {bytes s rest} h := by
    obtain ⟨mid, hn, -⟩ := string_eq_some.1 h
    exact varint.fits hn

variable {a : Codec α} {b : Codec β}

def seq (sa : Strict a) (sb : Strict b) : Strict (a.seq b) where
  shortest bytes := sa.shortest bytes && (a.decode bytes).all fun r => sb.shortest r.2
  shortest_iff {bytes v rest} h := by
    obtain ⟨mid, hx, hy⟩ := seq_eq_some.1 h
    rw [hx, Option.all_some, Bool.and_eq_true, sa.shortest_iff hx, sb.shortest_iff hy, Codec.seq,
      List.append_assoc]
    exact (append_eq_iff (sa.fits hx) hx).symm
  fits {bytes v rest} h := by
    obtain ⟨mid, hx, hy⟩ := seq_eq_some.1 h
    exact ⟨sa.fits hx, sb.fits hy⟩

lemma decodeMany_spec (sa : Strict a) : ∀ (n : ℕ) (bytes : List UInt8) (l : List α)
    (rest : List UInt8), a.decodeMany n bytes = some (l, rest) →
    (shortestMany a sa.shortest n bytes = true ↔ bytes = l.flatMap a.encode ++ rest) ∧
      l.length = n ∧ ∀ x ∈ l, a.Fits x := by
  intro n
  induction n with
  | zero =>
    intro bytes l rest h
    cases h
    exact ⟨iff_of_true rfl rfl, rfl, fun x hx => absurd hx List.not_mem_nil⟩
  | succ n ih =>
    intro bytes l rest h
    obtain ⟨x, l, mid, rfl, hx, hl⟩ := decodeMany_succ_eq_some.1 h
    obtain ⟨hiff, hlength, hfits⟩ := ih _ _ _ hl
    refine ⟨?_, congrArg (· + 1) hlength, List.forall_mem_cons.2 ⟨sa.fits hx, hfits⟩⟩
    rw [shortestMany, hx, Option.all_some, Bool.and_eq_true, sa.shortest_iff hx, hiff,
      List.flatMap_cons, List.append_assoc]
    exact (append_eq_iff (sa.fits hx) hx).symm

def list (sa : Strict a) : Strict (list a) where
  shortest bytes := noLeadingZero bytes &&
    (Codec.varint.decode bytes).all fun r => shortestMany a sa.shortest r.1 r.2
  shortest_iff {bytes l rest} h := by
    obtain ⟨n, mid, hn, hl⟩ := list_eq_some.1 h
    obtain ⟨hiff, rfl, hfits⟩ := sa.decodeMany_spec _ _ _ _ hl
    have hlength := varint.shortest_iff hn
    rw [hn, Option.all_some, Bool.and_eq_true, hiff, Codec.list, List.append_assoc,
      append_eq_iff (varint.fits hn) hn]
    exact and_congr_left fun _ => hlength
  fits {bytes l rest} h := by
    obtain ⟨n, mid, hn, hl⟩ := list_eq_some.1 h
    obtain ⟨-, rfl, hfits⟩ := sa.decodeMany_spec _ _ _ _ hl
    exact ⟨varint.fits hn, hfits⟩

def option (sa : Strict a) : Strict (option a) where
  shortest
    | [] => true
    | present :: bytes => present == 0 || sa.shortest bytes
  shortest_iff {bytes v rest} h := by
    rcases option_eq_some.1 h with ⟨rfl, rfl⟩ | ⟨x, mid, rfl, rfl, hx⟩
    · exact iff_of_true rfl rfl
    · have hiff := sa.shortest_iff hx
      simpa [Codec.option] using hiff
  fits {bytes v rest} h := by
    rcases option_eq_some.1 h with ⟨rfl, rfl⟩ | ⟨x, mid, rfl, rfl, hx⟩
    · exact fun x hx => by cases hx
    · rintro _ ⟨⟩
      exact sa.fits hx

/-- Nothing else is read as the value that was written. -/
def convert (sa : Strict a) (write : β → α) (read : α → Option β)
    (h : ∀ b, read (write b) = some b) (hread : ∀ x b, read x = some b → write b = x) :
    Strict (a.convert write read h) where
  shortest := sa.shortest
  shortest_iff {bytes v rest} hdecode := by
    obtain ⟨x, hx, hy⟩ := convert_eq_some.1 hdecode
    rw [sa.shortest_iff hx, ← hread x v hy]
    rfl
  fits {bytes v rest} hdecode := by
    obtain ⟨x, hx, hy⟩ := convert_eq_some.1 hdecode
    rw [← hread x v hy] at hx
    exact sa.fits hx

end Strict

/-! ## Bytes that follow -/

lemma extends_array (n : ℕ) : (array n).Extends := by
  intro bytes v rest more h
  simp only [array] at h ⊢
  split_ifs at h with hlen
  cases h
  rw [dif_pos (by rw [List.length_append]; omega)]
  simp only [List.take_append_of_le_length hlen, List.drop_append_of_le_length hlen]

lemma extends_string : string.Extends := by
  intro bytes s rest more h
  obtain ⟨mid, hn, rfl⟩ := string_eq_some.1 h
  exact string_eq_some.2 ⟨_, extends_varint _ _ _ more hn, List.append_assoc _ _ _⟩

lemma Extends.seq {a : Codec α} {b : Codec β} (ha : a.Extends) (hb : b.Extends) :
    (a.seq b).Extends := by
  intro bytes v rest more h
  obtain ⟨mid, hx, hy⟩ := seq_eq_some.1 h
  exact seq_eq_some.2 ⟨_, ha _ _ _ more hx, hb _ _ _ more hy⟩

lemma Extends.option {a : Codec α} (ha : a.Extends) : (option a).Extends := by
  intro bytes v rest more h
  rcases option_eq_some.1 h with ⟨rfl, rfl⟩ | ⟨x, mid, rfl, rfl, hx⟩
  · exact option_eq_some.2 (.inl ⟨rfl, rfl⟩)
  · exact option_eq_some.2 (.inr ⟨x, _, rfl, rfl, ha _ _ _ more hx⟩)

end Chorrent.Lib.Codec
