/-
# The pieces of a share

The pieces of a file tile the file, the files' pieces tile the pieces of the share, and
`locate` finds each piece there: no byte is in two pieces or in none, whatever files are empty.
-/
import Chorrent.Lib.Tiling
import Chorrent.Manifest.Layout

namespace Chorrent

open Lib

variable {Hash : Type} {m : Manifest Hash} {f : ℕ} {entry : FileEntry Hash}

/-- Piece `p` of the share is this part of a file. -/
structure Locates (m : Manifest Hash) (p : ℕ) (loc : PieceLocation) : Prop where
  inside : ∃ entry first n, m.files[loc.file]? = some entry ∧ 0 < entry.size ∧
    loc.stop ≤ entry.size ∧ (Layout.new m).piecesOf loc.file = some (first, n) ∧
      first ≤ p ∧ p < first + n
  aligned : blockSize ∣ loc.start
  nonempty : loc.start < loc.stop
  short : loc.stop ≤ loc.start + blockSize

namespace PieceLocation

/-- The bytes of the file. -/
def range (loc : PieceLocation) : ℕ × ℕ := (loc.start, loc.stop)

def length (loc : PieceLocation) : ℕ := loc.stop - loc.start

end PieceLocation

namespace Layout

/-- `LocalShare::piece_len` -/
def pieceLen (l : Layout) (piece : ℕ) : Option ℕ := (l.locate piece).map PieceLocation.length

/-- Where the pieces of a file lie. -/
def places (f : ℕ) (entry : FileEntry Hash) : List PieceLocation :=
  (List.range entry.pieces).map fun i =>
    ⟨f, i * blockSize, min (i * blockSize + blockSize) entry.size⟩

lemma locate_places (hf : m.files[f]? = some entry) :
    (List.range' (firstOf m f) entry.pieces).map (new m).locate = (places f entry).map some := by
  rw [places, List.map_map, List.range'_eq_map_range, List.map_map]
  exact List.map_congr_left fun i hi => locate_eq hf (List.mem_range.1 hi)

/-- The pieces of a file tile the file. -/
lemma tiles_places (f : ℕ) (entry : FileEntry Hash) :
    Tiles 0 ((places f entry).map PieceLocation.range) entry.size := by
  have hblock : 0 < blockSize := by decide
  have hmono : ∀ i, min (i * blockSize) entry.size ≤ min ((i + 1) * blockSize) entry.size :=
    fun i => min_le_min_right _ (Nat.mul_le_mul_right _ (Nat.le_succ i))
  have htiles := tiles_of_bounds hmono entry.pieces 0
  have hlast : min ((0 + entry.pieces) * blockSize) entry.size = entry.size := by
    have hnot : ¬ entry.pieces < entry.pieces := lt_irrefl _
    rw [FileEntry.pieces, lt_blockCount] at hnot
    rw [Nat.zero_add, FileEntry.pieces]
    omega
  rw [hlast, Nat.zero_mul, Nat.zero_min, ← List.range_eq_range'] at htiles
  have hsame : (places f entry).map PieceLocation.range = (List.range entry.pieces).map fun i =>
      (min (i * blockSize) entry.size, min ((i + 1) * blockSize) entry.size) := by
    rw [places, List.map_map]
    refine List.map_congr_left fun i hi => ?_
    have hlt : i * blockSize < entry.size := lt_blockCount.1 (List.mem_range.1 hi)
    rw [Function.comp_apply, PieceLocation.range, Nat.min_eq_left (Nat.le_of_lt hlt), Nat.succ_mul]
  rw [hsame]
  exact htiles

lemma firstOf_succ (hf : m.files[f]? = some entry) :
    firstOf m (f + 1) = firstOf m f + entry.pieces := by
  have hpieces : (m.files.map FileEntry.pieces)[f]? = some entry.pieces := by simp [hf]
  obtain ⟨hlt, hget⟩ := List.getElem?_eq_some_iff.1 hpieces
  rw [firstOf, List.sum_take_succ _ _ hlt, hget, firstOf]

lemma firstOf_le_succ (m : Manifest Hash) (f : ℕ) : firstOf m f ≤ firstOf m (f + 1) := by
  cases hf : m.files[f]? with
  | some entry =>
    rw [firstOf_succ hf]
    exact Nat.le_add_right _ _
  | none =>
    have hle := List.getElem?_eq_none_iff.1 hf
    rw [firstOf, firstOf, List.take_of_length_le (by simpa using hle),
      List.take_of_length_le (by simp; omega)]

/-- The files' pieces tile the pieces of the share. -/
lemma tiles_files (m : Manifest Hash) : Tiles 0
    ((List.range m.files.length).map fun f => (firstOf m f, firstOf m (f + 1)))
    (new m).totalPieces := by
  have htiles := tiles_of_bounds (firstOf_le_succ m) m.files.length 0
  have hlast : firstOf m (0 + m.files.length) = (new m).totalPieces := by
    rw [firstOf, List.take_of_length_le (by simp)]
    rfl
  rw [hlast, ← List.range_eq_range'] at htiles
  exact htiles

/-- Where all pieces of the share lie. -/
def allPlaces (m : Manifest Hash) : List PieceLocation :=
  m.files.zipIdx.flatMap fun x => places x.2 x.1

lemma locate_allPlaces (m : Manifest Hash) :
    (List.range (new m).totalPieces).map (new m).locate = (allPlaces m).map some := by
  have hmembers := (tiles_files m).flatMap_members
  rw [Nat.sub_zero, ← List.range_eq_range', List.flatMap_map, List.range_eq_range',
    ← List.zipIdx_map_snd, List.flatMap_map] at hmembers
  rw [← hmembers, allPlaces, List.map_flatMap, List.map_flatMap]
  refine List.flatMap_congr fun x hx => ?_
  have hf : m.files[x.2]? = some x.1 := List.mem_zipIdx_iff_getElem?.1 hx
  rw [← locate_places hf, members, firstOf_succ hf, Nat.add_sub_cancel_left]

lemma sum_length_places (f : ℕ) (entry : FileEntry Hash) :
    ((places f entry).map PieceLocation.length).sum = entry.size := by
  have hsum := (tiles_places f entry).sum_width
  rwa [List.map_map, Nat.sub_zero] at hsum

/-- The lengths of all pieces add up to the size of the share. -/
lemma sum_length_allPlaces (m : Manifest Hash) :
    ((allPlaces m).map PieceLocation.length).sum = m.totalSize := by
  rw [allPlaces, List.map_flatMap, List.flatMap_def, List.sum_flatten, List.map_map,
    Manifest.totalSize]
  nth_rewrite 2 [← List.zipIdx_map_fst 0 m.files]
  rw [List.map_map]
  congr 1
  exact List.map_congr_left fun x _ => sum_length_places x.2 x.1

/-- Every piece is found in its file, and only there. -/
lemma locates {p : ℕ} (hp : p < (new m).totalPieces) :
    ∃ loc, (new m).locate p = some loc ∧ Locates m p loc := by
  obtain ⟨f, i, entry, hf, hi, rfl⟩ := exists_piece hp
  have hlt : i * blockSize < entry.size := lt_blockCount.1 hi
  refine ⟨_, locate_eq hf hi, ⟨entry, firstOf m f, entry.pieces, hf, by omega, min_le_right _ _,
    piecesOf_eq hf, Nat.le_add_right _ _, Nat.add_lt_add_left hi _⟩, Nat.dvd_mul_left _ _, ?_,
    min_le_left _ _⟩
  exact lt_min (Nat.lt_add_of_pos_right (by decide)) hlt

end Layout

/-- The layout of a manifest is a partition: piece numbers to files, and files to pieces. -/
structure Partition (m : Manifest Hash) : Prop where
  total : (Layout.new m).totalPieces = (m.files.map FileEntry.pieces).sum
  located : ∀ p < (Layout.new m).totalPieces,
    ∃ loc, (Layout.new m).locate p = some loc ∧ Locates m p loc
  injective : ∀ p < (Layout.new m).totalPieces, ∀ q < (Layout.new m).totalPieces,
    (Layout.new m).locate p = (Layout.new m).locate q → p = q
  /-- The pieces of a file, in order, tile the file. -/
  file : ∀ f entry, m.files[f]? = some entry → ∃ (first : ℕ) (locs : List PieceLocation),
    (Layout.new m).piecesOf f = some (first, entry.pieces) ∧
      (List.range' first entry.pieces).map (Layout.new m).locate = locs.map some ∧
      (∀ loc ∈ locs, loc.file = f) ∧ Tiles 0 (locs.map PieceLocation.range) entry.size
  /-- The pieces of the files, in order, tile all pieces. -/
  files : ∃ ranges : List (ℕ × ℕ),
    (List.range m.files.length).map (Layout.new m).piecesOf = ranges.map some ∧
    Tiles 0 (ranges.map fun r => (r.1, r.1 + r.2)) (Layout.new m).totalPieces
  size : ∃ lengths : List ℕ,
    (List.range (Layout.new m).totalPieces).map (Layout.new m).pieceLen = lengths.map some ∧
      lengths.sum = m.totalSize

theorem layout_partition (m : Manifest Hash) : Partition m where
  total := rfl
  located _ hp := Layout.locates hp
  injective p hp q hq heq := by
    obtain ⟨f, i, entry, hf, hi, rfl⟩ := Layout.exists_piece hp
    obtain ⟨f', i', entry', hf', hi', rfl⟩ := Layout.exists_piece hq
    rw [Layout.locate_eq hf hi, Layout.locate_eq hf' hi'] at heq
    simp only [Option.some.injEq, PieceLocation.mk.injEq] at heq
    obtain ⟨rfl, hstart, -⟩ := heq
    rw [Nat.eq_of_mul_eq_mul_right (by decide) hstart]
  file f entry hf := by
    refine ⟨_, _, Layout.piecesOf_eq hf, Layout.locate_places hf, fun loc hloc => ?_,
      Layout.tiles_places f entry⟩
    obtain ⟨i, -, rfl⟩ := List.mem_map.1 hloc
    rfl
  files := by
    refine ⟨(List.range m.files.length).map fun f =>
      (Layout.firstOf m f, Layout.firstOf m (f + 1) - Layout.firstOf m f), ?_, ?_⟩
    · rw [List.map_map]
      refine List.map_congr_left fun f hf => ?_
      have hlt : f < m.files.length := List.mem_range.1 hf
      have hf : m.files[f]? = some m.files[f] := List.getElem?_eq_getElem hlt
      rw [Function.comp_apply, Layout.piecesOf_eq hf, Layout.firstOf_succ hf,
        Nat.add_sub_cancel_left]
    · rw [List.map_map]
      have hsame : (fun f => (Layout.firstOf m f, Layout.firstOf m (f + 1))) =
          (fun r : ℕ × ℕ => (r.1, r.1 + r.2)) ∘ fun f =>
            (Layout.firstOf m f, Layout.firstOf m (f + 1) - Layout.firstOf m f) := by
        funext f
        exact Prod.ext rfl (Nat.add_sub_of_le (Layout.firstOf_le_succ m f)).symm
      exact hsame ▸ Layout.tiles_files m
  size := by
    refine ⟨(Layout.allPlaces m).map PieceLocation.length, ?_, Layout.sum_length_allPlaces m⟩
    have hlocate :=
      congrArg (List.map (Option.map PieceLocation.length)) (Layout.locate_allPlaces m)
    rw [List.map_map, List.map_map] at hlocate
    rw [List.map_map]
    exact hlocate

end Chorrent
