/-
# The encrypted store as a flat file

What an encrypted file is for: an array of bytes, zero at first, and the set of pieces that
were ever written.  This module has the array and its operations, and what the piece, slot
and range arithmetic of the store comes to; the store is compared with it in the next one.
-/
import Mathlib.Data.Set.Insert
import Chorrent.Storage.Basic

namespace Chorrent

open Lib Bytes

/-- A file of a fixed length: its bytes and the pieces that were written. -/
structure Flat where
  bytes : Bytes
  written : Set ℕ

/-- Piece `i` has bytes in common with the `n` bytes from `pos` on. -/
def Touched (pos n i : ℕ) : Prop := pos < (i + 1) * blockSize ∧ i * blockSize < pos + n ∧ 0 < n

namespace Flat

def zero (size : ℕ) : Flat := ⟨Bytes.zeros size, ∅⟩

/-- Write the part of `buf` that lies inside the file. -/
def write (f : Flat) (pos : ℕ) (buf : Bytes) : Flat where
  bytes := f.bytes.overwrite pos (buf.take (f.bytes.length - pos))
  written := f.written ∪ {i | Touched pos (min buf.length (f.bytes.length - pos)) i}

/-- The bytes of piece `i`. -/
def piece (f : Flat) (i : ℕ) : Bytes := f.bytes.slice (i * blockSize) blockSize

@[simp] lemma length_write (f : Flat) (pos : ℕ) (buf : Bytes) :
    (f.write pos buf).bytes.length = f.bytes.length := by
  by_cases h : pos ≤ f.bytes.length
  · rw [write, length_overwrite_of_le]
    simp only [List.length_take]
    omega
  · simp [write, show f.bytes.length - pos = 0 by omega, overwrite_nil]

lemma length_piece (f : Flat) (i : ℕ) :
    (f.piece i).length = min blockSize (f.bytes.length - i * blockSize) := by
  rw [piece, length_slice]

lemma write_of_ge {f : Flat} {pos : ℕ} (h : f.bytes.length ≤ pos) (buf : Bytes) :
    f.write pos buf = f := by
  have hzero : f.bytes.length - pos = 0 := by omega
  simp [write, hzero, overwrite_nil, Touched]

lemma write_nil (f : Flat) (pos : ℕ) : f.write pos [] = f := by
  simp [write, overwrite_nil, Touched]

/-- Writing `a` and then `b` right after it is writing both at once. -/
lemma write_write {f : Flat} {pos : ℕ} (a b : Bytes) (h : pos + a.length ≤ f.bytes.length) :
    (f.write pos a).write (pos + a.length) b = f.write pos (a ++ b) := by
  have ha : a.take (f.bytes.length - pos) = a := List.take_of_length_le (by omega)
  have hsub : f.bytes.length - (pos + a.length) = f.bytes.length - pos - a.length := by omega
  have hmin : min a.length (f.bytes.length - pos) = a.length := by omega
  have hb : (b.take (f.bytes.length - (pos + a.length))).length =
      min b.length (f.bytes.length - (pos + a.length)) := by
    rw [List.length_take, Nat.min_comm]
  rw [write, length_write]
  simp only [write, List.length_append]
  congr 1
  · rw [ha, List.take_append, ha, hsub, overwrite_append a _ (by rw [← hsub]; omega)]
  · rw [hmin, Set.union_assoc]
    congr 1
    ext i
    have hpos : 0 < blockSize := by decide
    simp only [Touched, Set.mem_union, Set.mem_ofPred_eq, Nat.add_mul, Nat.one_mul]
    omega

/-- A piece outside the range keeps its bytes. -/
lemma piece_write_of_not_touched {f : Flat} {pos i : ℕ} {buf : Bytes}
    (h : ¬ Touched pos (min buf.length (f.bytes.length - pos)) i) :
    (f.write pos buf).piece i = f.piece i := by
  by_cases hpos : pos ≤ f.bytes.length
  · rw [piece, piece, write]
    by_cases hn : min buf.length (f.bytes.length - pos) = 0
    · have : buf.take (f.bytes.length - pos) = [] := by
        apply List.eq_nil_of_length_eq_zero
        rw [List.length_take, Nat.min_comm, hn]
      rw [this, overwrite_nil]
    · refine slice_overwrite_of_disjoint hpos ?_
      simp only [Touched, not_and, not_lt, List.length_take, Nat.add_mul, Nat.one_mul] at h ⊢
      omega
  · rw [write_of_ge (by omega)]

end Flat

/-! ## Piece and slot arithmetic -/

lemma lt_blockCount {size i : ℕ} : i < blockCount size ↔ i * blockSize < size := by
  simp only [blockCount, blockSize]
  omega

lemma div_mul_blockSize_add_mod (pos : ℕ) :
    pos / blockSize * blockSize + pos % blockSize = pos := by
  rw [Nat.mul_comm]
  exact Nat.div_add_mod _ _

lemma mod_blockSize_lt (pos : ℕ) : pos % blockSize < blockSize := Nat.mod_lt _ (by decide)

/-- The length of piece `i` of a file. -/
def pieceLen (size i : ℕ) : ℕ := min (size - i * blockSize) blockSize

lemma pieceLen_le_blockSize (size i : ℕ) : pieceLen size i ≤ blockSize := min_le_right _ _

lemma pieceLen_le_sub (size i : ℕ) : pieceLen size i ≤ size - i * blockSize := min_le_left _ _

lemma le_pieceLen {size i n : ℕ} :
    n ≤ pieceLen size i ↔ n ≤ size - i * blockSize ∧ n ≤ blockSize := le_min_iff

lemma pieceLen_pos {size i : ℕ} (hi : i * blockSize < size) : 0 < pieceLen size i :=
  le_pieceLen.2 ⟨by omega, by decide⟩

/-- A block of a file ends with the file. -/
lemma slice_blockSize {content : Bytes} {size : ℕ} (h : content.length = size) (i : ℕ) :
    content.slice (i * blockSize) blockSize = content.slice (i * blockSize) (pieceLen size i) := by
  refine slice_clip ?_
  rw [h, min_eq_left (pieceLen_le_sub size i)]
  exact Nat.min_comm _ _

/-- Where slot `i` starts. -/
def slotPos (i : ℕ) : ℕ := headerSize + i * slotSize

lemma slotStart_eq {i : ℕ} (h : slotPos i < 2 ^ 64) : slotStart i = .ok (slotPos i) := by
  rw [slotPos] at h
  rw [slotStart, checkedMul_of_lt (show i * slotSize < 2 ^ 64 by omega), orPanic_some_bind,
    checkedAdd_of_lt h]
  rfl

/-- The slots of a file that could be created start at 64-bit positions. -/
lemma slotPos_lt_of_fits {size i : ℕ} (hfits : headerSize + blockCount size * slotSize < 2 ^ 64)
    (hi : i * blockSize < size) : slotPos i < 2 ^ 64 := by
  have hcount := Nat.mul_le_mul_right slotSize (lt_blockCount.2 hi).le
  rw [slotPos]
  omega

/-- A file that could be created has fewer than 2^64 bytes of content. -/
lemma size_lt_of_fits {size : ℕ} (hfits : headerSize + blockCount size * slotSize < 2 ^ 64) :
    size < 2 ^ 64 := by
  have hblocks : size ≤ blockCount size * blockSize := by
    by_contra hlt
    exact absurd (lt_blockCount.2 (not_le.1 hlt)) (lt_irrefl _)
  have hslots : blockCount size * blockSize ≤ blockCount size * slotSize :=
    Nat.mul_le_mul_left _ (by decide)
  omega

lemma slotPos_add_le {i j : ℕ} (h : i < j) : slotPos i + slotSize ≤ slotPos j := by
  have hle : (i + 1) * slotSize ≤ j * slotSize := Nat.mul_le_mul_right slotSize h
  rw [Nat.add_mul, Nat.one_mul] at hle
  simp only [slotPos]
  omega

lemma slot_length_le (size i : ℕ) : nonceSize + pieceLen size i + tagSize ≤ slotSize := by
  have := pieceLen_le_blockSize size i
  simp only [slotSize]
  omega

/-- A range inside one piece touches just that piece. -/
lemma touched_iff_eq {pos n i : ℕ} (hn : 0 < n) (hle : pos % blockSize + n ≤ blockSize) :
    Touched pos n i ↔ i = pos / blockSize := by
  have h := div_mul_blockSize_add_mod pos
  constructor
  · rintro ⟨hlow, hhigh, -⟩
    by_contra hne
    rcases Nat.lt_or_gt_of_ne hne with hlt | hgt
    · have := Nat.mul_le_mul_right blockSize (show i + 1 ≤ pos / blockSize from hlt)
      omega
    · have := Nat.mul_le_mul_right blockSize (show pos / blockSize + 1 ≤ i from hgt)
      rw [Nat.add_mul, Nat.one_mul] at this
      omega
  · rintro rfl
    refine ⟨?_, by omega, hn⟩
    have := mod_blockSize_lt pos
    rw [Nat.add_mul, Nat.one_mul]
    omega

/-- The first `k` bytes of a range lie in one piece; the others are a range again. -/
lemma touched_split {pos n k i : ℕ} (hk : 0 < k) (hkn : k ≤ n)
    (hle : pos % blockSize + k ≤ blockSize) :
    Touched pos n i ↔ i = pos / blockSize ∨ Touched (pos + k) (n - k) i := by
  rw [← touched_iff_eq hk hle]
  have hb : 0 < blockSize := by decide
  simp only [Touched, Nat.add_mul, Nat.one_mul]
  omega

end Chorrent
