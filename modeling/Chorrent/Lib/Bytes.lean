/-
# Byte files

The contents of a file as a list of bytes: reading a range, writing at a position (writing
past the end leaves zeros in between) and setting the length.
-/
import Mathlib.Tactic

namespace Chorrent.Lib

abbrev Bytes := List UInt8

namespace Bytes

def zeros (n : ℕ) : Bytes := List.replicate n 0

/-- The bytes from `pos` on, at most `n` of them. -/
def slice (f : Bytes) (pos n : ℕ) : Bytes := (f.drop pos).take n

/-- `bs` written at `pos`. -/
def overwrite (f : Bytes) (pos : ℕ) (bs : Bytes) : Bytes :=
  if bs = [] then f
  else f.take pos ++ zeros (pos - f.length) ++ bs ++ f.drop (pos + bs.length)

/-- The file cut or filled with zeros to `n` bytes. -/
def setLen (f : Bytes) (n : ℕ) : Bytes := f.take n ++ zeros (n - f.length)

@[simp] lemma length_zeros (n : ℕ) : (zeros n).length = n := List.length_replicate

@[simp] lemma length_slice (f : Bytes) (pos n : ℕ) :
    (slice f pos n).length = min n (f.length - pos) := by
  simp [slice]

@[simp] lemma length_setLen (f : Bytes) (n : ℕ) : (setLen f n).length = n := by
  simp [setLen]
  omega

lemma length_overwrite (f : Bytes) (pos : ℕ) {bs : Bytes} (h : bs ≠ []) :
    (overwrite f pos bs).length = max f.length (pos + bs.length) := by
  simp [overwrite, h]
  omega

/-- Writing inside a file keeps its length. -/
lemma length_overwrite_of_le {f : Bytes} {pos : ℕ} {bs : Bytes} (h : pos + bs.length ≤ f.length) :
    (overwrite f pos bs).length = f.length := by
  by_cases hbs : bs = []
  · simp [overwrite, hbs]
  · rw [length_overwrite f pos hbs]
    omega

lemma getElem?_slice (f : Bytes) (pos n i : ℕ) :
    (slice f pos n)[i]? = if i < n then f[pos + i]? else none := by
  rw [slice, List.getElem?_take, List.getElem?_drop]

lemma getElem?_overwrite {f : Bytes} {pos : ℕ} {bs : Bytes} (h : pos ≤ f.length) (i : ℕ) :
    (overwrite f pos bs)[i]? =
      if pos ≤ i ∧ i < pos + bs.length then bs[i - pos]? else f[i]? := by
  by_cases hbs : bs = []
  · subst hbs
    simp only [overwrite, if_true, List.length_nil, Nat.add_zero]
    rw [if_neg (by omega)]
  · have htake : (f.take pos).length = pos := List.length_take_of_le h
    simp only [overwrite, if_neg hbs, show pos - f.length = 0 by omega, zeros, List.replicate_zero,
      List.append_nil]
    split_ifs with hi
    · rw [List.append_assoc, List.getElem?_append_right (by omega), htake,
        List.getElem?_append_left (by omega)]
    · rcases Nat.lt_or_ge i pos with hlt | hge
      · rw [List.append_assoc, List.getElem?_append_left (by omega), List.getElem?_take_of_lt hlt]
      · rw [List.getElem?_append_right (by simp; omega), List.getElem?_drop]
        congr 1
        simp only [List.length_append, htake]
        omega

lemma overwrite_nil (f : Bytes) (pos : ℕ) : overwrite f pos [] = f := by
  simp [overwrite]

/-- Writing past the end of a file. -/
lemma overwrite_of_length_lt {f : Bytes} {pos : ℕ} {bs : Bytes} (h : f.length < pos)
    (hbs : bs ≠ []) :
    overwrite f pos bs = f ++ zeros (pos - f.length) ++ bs := by
  simp [overwrite, hbs, List.take_of_length_le h.le,
    List.drop_eq_nil_of_le (show f.length ≤ pos + bs.length by omega)]

lemma le_length_overwrite (f : Bytes) (pos : ℕ) (bs : Bytes) :
    f.length ≤ (overwrite f pos bs).length := by
  by_cases hbs : bs = []
  · rw [hbs, overwrite_nil]
  · rw [length_overwrite f pos hbs]
    exact le_max_left _ _

/-- What was written is read back. -/
lemma slice_overwrite_self (f : Bytes) (pos : ℕ) (bs : Bytes) :
    slice (overwrite f pos bs) pos bs.length = bs := by
  by_cases hbs : bs = []
  · simp [hbs, slice]
  rcases Nat.lt_or_ge f.length pos with hlt | hge
  · have hpos : (f ++ zeros (pos - f.length)).length = pos := by
      simp
      omega
    rw [overwrite_of_length_lt hlt hbs, slice, List.drop_left' hpos, List.take_length]
  · ext1 i
    rw [getElem?_slice, getElem?_overwrite hge]
    by_cases hi : i < bs.length
    · rw [if_pos hi, if_pos (by omega), Nat.add_sub_cancel_left]
    · rw [if_neg hi, List.getElem?_eq_none (by omega)]

/-- A write does not change the bytes outside its range. -/
lemma slice_overwrite_of_disjoint {f : Bytes} {pos pos' n : ℕ} {bs : Bytes} (h : pos ≤ f.length)
    (hd : pos' + n ≤ pos ∨ pos + bs.length ≤ pos') :
    slice (overwrite f pos bs) pos' n = slice f pos' n := by
  ext1 i
  rw [getElem?_slice, getElem?_slice, getElem?_overwrite h]
  by_cases hi : i < n
  · rw [if_pos hi, if_pos hi, if_neg (by omega)]
  · rw [if_neg hi, if_neg hi]

/-- A write does not change a range of the old file that it does not touch. -/
lemma slice_overwrite_of_le {f : Bytes} {pos pos' n : ℕ} (bs : Bytes) (h : pos' + n ≤ f.length)
    (hd : pos' + n ≤ pos ∨ pos + bs.length ≤ pos') :
    slice (overwrite f pos bs) pos' n = slice f pos' n := by
  by_cases hbs : bs = []
  · rw [hbs, overwrite_nil]
  rcases Nat.lt_or_ge f.length pos with hlt | hge
  · rw [overwrite_of_length_lt hlt hbs, List.append_assoc, slice,
      List.drop_append_of_le_length (by omega),
      List.take_append_of_le_length (by simp; omega), slice]
  · exact slice_overwrite_of_disjoint hge hd

/-- A write inside a range, seen in that range. -/
lemma slice_overwrite_of_subset {f : Bytes} {start pos n : ℕ} {bs : Bytes} (h : start ≤ pos)
    (hn : pos + bs.length ≤ start + n) (hf : start + n ≤ f.length) :
    slice (overwrite f pos bs) start n = overwrite (slice f start n) (pos - start) bs := by
  ext1 i
  rw [getElem?_slice, getElem?_overwrite (by omega), getElem?_overwrite (by simp; omega),
    getElem?_slice]
  by_cases hi : i < n
  · rw [if_pos hi, if_pos hi]
    by_cases hin : pos ≤ start + i ∧ start + i < pos + bs.length
    · rw [if_pos hin, if_pos (by omega)]
      congr 1
      omega
    · rw [if_neg hin, if_neg (by omega)]
  · rw [if_neg hi, if_neg hi, if_neg (by omega)]

/-- How far past the end of the file a range goes does not matter. -/
lemma slice_clip {f : Bytes} {pos m n : ℕ} (h : min m (f.length - pos) = min n (f.length - pos)) :
    slice f pos m = slice f pos n := by
  ext1 i
  rw [getElem?_slice, getElem?_slice]
  by_cases hi : pos + i < f.length
  · congr 1
    rw [eq_iff_iff]
    omega
  · rw [List.getElem?_eq_none (by omega), ite_self, ite_self]

lemma slice_slice (f : Bytes) (start n pos k : ℕ) (h : pos + k ≤ n) :
    slice (slice f start n) pos k = slice f (start + pos) k := by
  ext1 i
  rw [getElem?_slice, getElem?_slice, getElem?_slice]
  by_cases hi : i < k
  · rw [if_pos hi, if_pos hi, if_pos (by omega), Nat.add_assoc]
  · rw [if_neg hi, if_neg hi]

/-- Two neighbouring ranges together. -/
lemma slice_append_slice (f : Bytes) (pos m n : ℕ) :
    slice f pos m ++ slice f (pos + m) n = slice f pos (m + n) := by
  rw [slice, slice, slice, List.take_add, List.drop_drop]

lemma slice_self (f : Bytes) : slice f 0 f.length = f := by
  simp [slice]

@[simp] lemma slice_zero (f : Bytes) (pos : ℕ) : slice f pos 0 = [] := by
  simp [slice]

lemma slice_zeros {pos n m : ℕ} (h : pos + n ≤ m) : slice (zeros m) pos n = zeros n := by
  simp only [slice, zeros, List.drop_replicate, List.take_replicate]
  congr 1
  omega

/-- Cutting a file keeps the ranges that lie before the cut. -/
lemma slice_setLen {f : Bytes} {pos n m : ℕ} (h : pos + n ≤ f.length) (hm : pos + n ≤ m) :
    slice (setLen f m) pos n = slice f pos n := by
  ext1 i
  rw [getElem?_slice, getElem?_slice, setLen]
  by_cases hi : i < n
  · rw [if_pos hi, if_pos hi, List.getElem?_append_left (by simp; omega),
      List.getElem?_take_of_lt (by omega)]
  · rw [if_neg hi, if_neg hi]

/-- Overwriting everything leaves just what was written. -/
lemma overwrite_all {f bs : Bytes} (h : bs.length = f.length) : overwrite f 0 bs = bs := by
  by_cases hbs : bs = []
  · subst hbs
    simp [overwrite, List.eq_nil_of_length_eq_zero (by simpa using h.symm)]
  · simp [overwrite, hbs, zeros, h]

/-- Writing in two steps. -/
lemma overwrite_append {f : Bytes} {pos : ℕ} (a b : Bytes)
    (h : pos + a.length + b.length ≤ f.length) :
    overwrite (overwrite f pos a) (pos + a.length) b = overwrite f pos (a ++ b) := by
  ext1 i
  rw [getElem?_overwrite (by rw [length_overwrite_of_le (by omega)]; omega),
    getElem?_overwrite (by omega), getElem?_overwrite (by omega), List.length_append]
  by_cases ha : pos ≤ i ∧ i < pos + a.length
  · rw [if_neg (by omega), if_pos ha, if_pos (by omega), List.getElem?_append_left (by omega)]
  · by_cases hb : pos + a.length ≤ i ∧ i < pos + a.length + b.length
    · rw [if_pos hb, if_pos (by omega), List.getElem?_append_right (by omega)]
      congr 1
      omega
    · rw [if_neg hb, if_neg ha, if_neg (by omega)]

/-- Files of equal length that agree on every block of `k` bytes are equal. -/
lemma eq_of_blocks {f g : Bytes} {k : ℕ} (hk : 0 < k) (hlen : f.length = g.length)
    (h : ∀ i, i * k < f.length → slice f (i * k) k = slice g (i * k) k) : f = g := by
  ext1 i
  by_cases hi : i < f.length
  · have hmod : i % k < k := Nat.mod_lt i hk
    have hdiv : i / k * k + i % k = i := by
      rw [Nat.mul_comm]
      exact Nat.div_add_mod i k
    have hblock := congrArg (·[i % k]?) (h (i / k) (by omega))
    simpa only [getElem?_slice, if_pos hmod, hdiv] using hblock
  · rw [List.getElem?_eq_none (by omega), List.getElem?_eq_none (by omega)]

end Bytes

/-! ## Little-endian integers -/

/-- The lowest `n` bytes of `v`, low byte first. -/
def leBytes : ℕ → ℕ → Bytes
  | 0, _ => []
  | n + 1, v => UInt8.ofNat v :: leBytes n (v / 256)

@[simp] lemma length_leBytes (n v : ℕ) : (leBytes n v).length = n := by
  induction n generalizing v with
  | zero => rfl
  | succ n ih => simp [leBytes, ih]

/-- The number that bytes spell, low byte first. -/
def leNat : Bytes → ℕ
  | [] => 0
  | b :: bytes => b.toNat + 256 * leNat bytes

lemma leNat_leBytes {n v : ℕ} (hv : v < 256 ^ n) : leNat (leBytes n v) = v := by
  induction n generalizing v with
  | zero =>
    rw [pow_zero] at hv
    rw [leBytes, leNat]
    omega
  | succ n ih =>
    rw [leBytes, leNat, ih (by rw [pow_succ] at hv; omega), UInt8.toNat_ofNat']
    omega

lemma leBytes_injective {n v w : ℕ} (hv : v < 256 ^ n) (hw : w < 256 ^ n)
    (h : leBytes n v = leBytes n w) : v = w := by
  induction n generalizing v w with
  | zero =>
    rw [pow_zero] at hv hw
    omega
  | succ n ih =>
    obtain ⟨hlow, hhigh⟩ := List.cons.inj h
    have hlow' := congrArg UInt8.toNat hlow
    rw [UInt8.toNat_ofNat', UInt8.toNat_ofNat'] at hlow'
    have hdiv := ih (by rw [pow_succ] at hv; omega) (by rw [pow_succ] at hw; omega) hhigh
    omega

end Chorrent.Lib
