/-
# Piece numbers

Pieces are numbered across all files of a manifest, in order (`Layout` of `manifest.rs`).
The arithmetic is exact.  A panic (an index out of range, a subtraction below zero) is
`none`.
-/
import Chorrent.Lib.Checked
import Chorrent.Manifest.Basic
import Chorrent.Storage.Flat

namespace Chorrent

open Lib

variable {Hash : Type}

/-- How many pieces the file has. -/
def FileEntry.pieces (file : FileEntry Hash) : ℕ := blockCount file.size

/-- The first piece of each file, the first file starting at `total`. -/
def firstPieces : ℕ → List ℕ → List ℕ
  | _, [] => []
  | total, n :: ns => total :: firstPieces (total + n) ns

structure Layout where
  /-- First piece of each file. -/
  firstPiece : List ℕ
  sizes : List ℕ
  totalPieces : ℕ
deriving DecidableEq

/-- Where a piece lies: the bytes from `start` to `stop` of a file. -/
structure PieceLocation where
  file : ℕ
  start : ℕ
  stop : ℕ
deriving DecidableEq

namespace Layout

def new (m : Manifest Hash) : Layout where
  firstPiece := firstPieces 0 (m.files.map FileEntry.pieces)
  sizes := m.files.map FileEntry.size
  totalPieces := (m.files.map FileEntry.pieces).sum

/-- The file and the byte range of a piece. -/
def locate (l : Layout) (piece : ℕ) : Option PieceLocation := do
  -- the last file whose first piece is at most `piece`, skipping empty files
  let last ← checkedSub (l.firstPiece.takeWhile (· ≤ piece)).length 1
  let file := ((List.range (last + 1)).reverse.find? fun f => l.sizes[f]?.any (0 < ·)).getD last
  let first ← l.firstPiece[file]?
  let size ← l.sizes[file]?
  let block ← checkedSub piece first
  let start := block * blockSize
  return ⟨file, start, min (start + blockSize) size⟩

/-- The pieces of a file: the first one and how many there are. -/
def piecesOf (l : Layout) (file : ℕ) : Option (ℕ × ℕ) := do
  let first ← l.firstPiece[file]?
  let size ← l.sizes[file]?
  return (first, blockCount size)

end Layout

/-! ## The pieces of the files make up all pieces -/

lemma getElem?_firstPieces (ns : List ℕ) : ∀ total f, f < ns.length →
    (firstPieces total ns)[f]? = some (total + (ns.take f).sum) := by
  induction ns with
  | nil => simp
  | cons n ns ih =>
    intro total f hf
    rcases f with _ | f
    · simp [firstPieces]
    · simp only [firstPieces, List.getElem?_cons_succ, List.take_succ_cons, List.sum_cons]
      rw [ih _ f (by simpa using hf), Nat.add_assoc]

/-- The files that start at or before piece `i` of file `f` are those up to `f`. -/
lemma length_takeWhile_firstPieces (ns : List ℕ) : ∀ total f i n p, ns[f]? = some n → i < n →
    p = total + (ns.take f).sum + i →
    ((firstPieces total ns).takeWhile (· ≤ p)).length = f + 1 := by
  induction ns with
  | nil => simp
  | cons m ns ih =>
    intro total f i n p hf hi hp
    rcases f with _ | f
    · obtain rfl : m = n := by simpa using hf
      rcases ns with _ | ⟨m', ns⟩
      · simp [firstPieces, hp]
      · simp [firstPieces, hp, show ¬ total + m ≤ total + i by omega]
    · rw [List.take_succ_cons, List.sum_cons] at hp
      have := ih (total + m) f i n p (by simpa using hf) hi (by omega)
      rw [firstPieces, List.takeWhile_cons_of_pos (by simp; omega), List.length_cons, this]

/-- Every number below the total is a piece of one of the files. -/
lemma exists_of_lt_sum (ns : List ℕ) : ∀ p, p < ns.sum →
    ∃ f i n, ns[f]? = some n ∧ i < n ∧ p = (ns.take f).sum + i := by
  induction ns with
  | nil => simp
  | cons m ns ih =>
    intro p hp
    by_cases hm : p < m
    · exact ⟨0, p, m, rfl, hm, by simp⟩
    · rw [List.sum_cons] at hp
      obtain ⟨f, i, n, hf, hi, heq⟩ := ih (p - m) (by omega)
      refine ⟨f + 1, i, n, by simpa using hf, hi, ?_⟩
      rw [List.take_succ_cons, List.sum_cons]
      omega

namespace Layout

/-- The first piece of file `f`. -/
def firstOf (m : Manifest Hash) (f : ℕ) : ℕ := ((m.files.map FileEntry.pieces).take f).sum

variable {m : Manifest Hash} {f i : ℕ} {entry : FileEntry Hash}

lemma piecesOf_eq (hf : m.files[f]? = some entry) :
    (new m).piecesOf f = some (firstOf m f, entry.pieces) := by
  have hlt : f < m.files.length := (List.getElem?_eq_some_iff.1 hf).1
  have hfirst : (new m).firstPiece[f]? = some (firstOf m f) := by
    have := getElem?_firstPieces (m.files.map FileEntry.pieces) 0 f (by simpa using hlt)
    rwa [Nat.zero_add] at this
  have hsize : (new m).sizes[f]? = some entry.size := by simp [new, hf]
  simp [piecesOf, hfirst, hsize, FileEntry.pieces]

/-- Piece `i` of file `f` is found there. -/
lemma locate_eq (hf : m.files[f]? = some entry) (hi : i < entry.pieces) :
    (new m).locate (firstOf m f + i) =
      some ⟨f, i * blockSize, min (i * blockSize + blockSize) entry.size⟩ := by
  have hpieces : (m.files.map FileEntry.pieces)[f]? = some entry.pieces := by simp [hf]
  have hlt : f < m.files.length := (List.getElem?_eq_some_iff.1 hf).1
  have htake : ((new m).firstPiece.takeWhile (· ≤ firstOf m f + i)).length = f + 1 :=
    length_takeWhile_firstPieces _ 0 f i _ _ hpieces hi (by rw [Nat.zero_add]; rfl)
  have hfirst : (new m).firstPiece[f]? = some (firstOf m f) := by
    have := getElem?_firstPieces (m.files.map FileEntry.pieces) 0 f (by simpa using hlt)
    rwa [Nat.zero_add] at this
  have hsize : (new m).sizes[f]? = some entry.size := by simp [new, hf]
  have hpos : 0 < entry.size := by
    have := lt_blockCount.1 hi
    omega
  have hfind : ((List.range (f + 1)).reverse.find? fun f => (new m).sizes[f]?.any (0 < ·)) =
      some f := by
    rw [List.range_succ, List.reverse_append, List.reverse_singleton, List.singleton_append,
      List.find?_cons_of_pos]
    simp [hsize, hpos]
  simp only [locate, htake, checkedSub_of_le (show 1 ≤ f + 1 by omega), Nat.add_sub_cancel,
    Option.bind_eq_bind, Option.bind_some, hfind, Option.getD_some, hfirst, hsize,
    checkedSub_of_le (show firstOf m f ≤ firstOf m f + i by omega), Nat.add_sub_cancel_left]
  rfl

/-- Every piece number belongs to a file. -/
lemma exists_piece {p : ℕ} (hp : p < (new m).totalPieces) :
    ∃ f i entry, m.files[f]? = some entry ∧ i < entry.pieces ∧ p = firstOf m f + i := by
  obtain ⟨f, i, n, hf, hi, heq⟩ := exists_of_lt_sum _ p hp
  rw [List.getElem?_map, Option.map_eq_some_iff] at hf
  obtain ⟨entry, hentry, rfl⟩ := hf
  exact ⟨f, i, entry, hentry, hi, heq⟩

lemma firstOf_add_lt (hf : m.files[f]? = some entry) (hi : i < entry.pieces) :
    firstOf m f + i < (new m).totalPieces := by
  have hlt : f < m.files.length := (List.getElem?_eq_some_iff.1 hf).1
  have hpieces : (m.files.map FileEntry.pieces)[f]? = some entry.pieces := by simp [hf]
  have hsplit := List.sum_take_add_sum_drop (m.files.map FileEntry.pieces) f
  have hdrop : (m.files.map FileEntry.pieces).drop f =
      entry.pieces :: (m.files.map FileEntry.pieces).drop (f + 1) := by
    obtain ⟨hlt', hget⟩ := List.getElem?_eq_some_iff.1 hpieces
    rw [List.drop_eq_getElem_cons hlt', hget]
  rw [hdrop, List.sum_cons] at hsplit
  show firstOf m f + i < (m.files.map FileEntry.pieces).sum
  rw [firstOf]
  omega

/-- Different pieces of the files have different numbers. -/
lemma firstOf_add_inj {f' i' : ℕ} {entry' : FileEntry Hash} (hf : m.files[f]? = some entry)
    (hi : i < entry.pieces) (hf' : m.files[f']? = some entry') (hi' : i' < entry'.pieces)
    (h : firstOf m f + i = firstOf m f' + i') : f = f' ∧ i = i' := by
  have hloc := locate_eq hf hi
  rw [h, locate_eq hf' hi'] at hloc
  simp only [Option.some.injEq, PieceLocation.mk.injEq] at hloc
  obtain ⟨rfl, -, -⟩ := hloc
  exact ⟨rfl, by omega⟩

end Layout

end Chorrent
