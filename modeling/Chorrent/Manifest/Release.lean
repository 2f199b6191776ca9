/-
# Sizes and piece numbers in machine words

`Manifest::total_size` and `Layout` as a release build computes them: sizes are 64-bit words,
piece numbers are words of the platform's width, and what does not fit wraps.  When nothing
wraps, this is the exact arithmetic of `Layout`.
-/
import Chorrent.Lib.Wrapping
import Chorrent.Manifest.Layout

namespace Chorrent

open Lib

variable {Hash : Type}

namespace Release

/-- Combined size of all files. -/
def totalSize (m : Manifest Hash) : Wrapping ℕ := Wrapping.sum 64 0 (m.files.map FileEntry.size)

/-- How many pieces the file has, in a word of `w` bits. -/
def pieces (w : ℕ) (file : FileEntry Hash) : Wrapping ℕ := Wrapping.fit w (blockCount file.size)

/-- The loop of `Layout::new`: the first piece of each file, and the total. -/
def firstPieces (w : ℕ) : ℕ → List (FileEntry Hash) → Wrapping (List ℕ × ℕ)
  | total, [] => pure ([], total)
  | total, file :: files => do
      let n ← pieces w file
      let next ← Wrapping.fit w (total + n)
      let (firsts, last) ← firstPieces w next files
      return (total :: firsts, last)

/-- `Layout::new` -/
def layout (w : ℕ) (m : Manifest Hash) : Wrapping Layout := do
  let (firstPiece, totalPieces) ← firstPieces w 0 m.files
  return ⟨firstPiece, m.files.map FileEntry.size, totalPieces⟩

/-- `Layout::locate`; an index out of range panics. -/
def locate (w : ℕ) (l : Layout) (piece : ℕ) : Option (Wrapping PieceLocation) := do
  -- below zero, the index that follows is out of range
  let last ← checkedSub (l.firstPiece.takeWhile (· ≤ piece)).length 1
  let file := ((List.range (last + 1)).reverse.find? fun f => l.sizes[f]?.any (0 < ·)).getD last
  let first ← l.firstPiece[file]?
  let size ← l.sizes[file]?
  return do
    let block ← Wrapping.sub w piece first
    let start ← Wrapping.fit 64 (block * blockSize)
    let stop ← Wrapping.fit 64 (start + blockSize)
    return ⟨file, start, min stop size⟩

/-- `Layout::pieces_of`: the first piece of a file and the one after its last. -/
def piecesOf (w : ℕ) (l : Layout) (file : ℕ) : Option (Wrapping (ℕ × ℕ)) := do
  let first ← l.firstPiece[file]?
  let size ← l.sizes[file]?
  return do
    let n ← Wrapping.fit w (blockCount size)
    let stop ← Wrapping.fit w (first + n)
    return (first, stop)

/-- No computation on the manifest wraps: not the total size, not the layout, not the pieces
of any file and not the place of any piece. -/
structure Exact (w : ℕ) (m : Manifest Hash) : Prop where
  totalSize : (totalSize m).wrapped = false
  layout : (layout w m).wrapped = false
  piecesOf : ∀ f < m.files.length, ∃ r, piecesOf w (Release.layout w m).value f = some r ∧
    r.wrapped = false
  locate : ∀ p < (Release.layout w m).value.totalPieces, ∃ r,
    locate w (Release.layout w m).value p = some r ∧ r.wrapped = false

/-! ## When the words suffice -/

/-- The sizes of the manifest suit the words: their sum and the number of pieces fit, and a
block can be added to where the last block of a file starts. -/
structure Suits (w : ℕ) (m : Manifest Hash) : Prop where
  totalSize : m.totalSize < 2 ^ 64
  sizes : ∀ file ∈ m.files, file.size ≤ 2 ^ 64 - blockSize
  pieces : (Layout.new m).totalPieces < 2 ^ w

variable {w : ℕ} {m : Manifest Hash}

lemma totalSize_eq (h : m.totalSize < 2 ^ 64) : totalSize m = ⟨m.totalSize, false⟩ := by
  have hsum := Wrapping.sum_of_lt (m.files.map FileEntry.size) 0 (by rwa [Nat.zero_add])
  rwa [Nat.zero_add] at hsum

lemma wrapped_totalSize : (totalSize m).wrapped = false ↔ m.totalSize < 2 ^ 64 := by
  have hsum := Wrapping.wrapped_sum (w := 64) (m.files.map FileEntry.size) 0 (by decide)
  rwa [Nat.zero_add] at hsum

lemma firstPieces_eq (files : List (FileEntry Hash)) : ∀ total,
    total + (files.map FileEntry.pieces).sum < 2 ^ w →
    firstPieces w total files = ⟨(Chorrent.firstPieces total (files.map FileEntry.pieces),
      total + (files.map FileEntry.pieces).sum), false⟩ := by
  induction files with
  | nil => exact fun total _ => rfl
  | cons file files ih =>
    intro total h
    rw [List.map_cons, List.sum_cons] at h
    have hpieces : pieces w file = ⟨file.pieces, false⟩ :=
      Wrapping.fit_of_lt (show blockCount file.size < 2 ^ w by rw [FileEntry.pieces] at h; omega)
    rw [firstPieces, hpieces, Wrapping.exact_bind,
      Wrapping.fit_of_lt (show total + file.pieces < 2 ^ w by omega), Wrapping.exact_bind,
      ih _ (by omega), Wrapping.exact_bind]
    simp only [List.map_cons, List.sum_cons, Chorrent.firstPieces, Wrapping.pure_eq, Nat.add_assoc]

lemma wrapped_firstPieces (files : List (FileEntry Hash)) : ∀ total, total < 2 ^ w →
    (firstPieces w total files).wrapped = false →
    total + (files.map FileEntry.pieces).sum < 2 ^ w := by
  induction files with
  | nil => exact fun total h _ => h
  | cons file files ih =>
    intro total h hexact
    rw [firstPieces, Wrapping.wrapped_bind, pieces, Wrapping.wrapped_fit] at hexact
    obtain ⟨hn, hexact⟩ := hexact
    rw [Wrapping.fit_of_lt hn, Wrapping.wrapped_bind, Wrapping.wrapped_fit] at hexact
    obtain ⟨hnext, hexact⟩ := hexact
    simp only at hnext
    rw [Wrapping.fit_of_lt hnext, Wrapping.wrapped_bind] at hexact
    have hrest := ih _ hnext hexact.1
    rw [List.map_cons, List.sum_cons, FileEntry.pieces]
    omega

/-- The layout of a release build is the exact one. -/
lemma layout_eq (h : (Layout.new m).totalPieces < 2 ^ w) : layout w m = ⟨Layout.new m, false⟩ := by
  have hsum : 0 + (m.files.map FileEntry.pieces).sum < 2 ^ w := by rwa [Nat.zero_add]
  rw [layout, firstPieces_eq _ _ hsum, Wrapping.exact_bind, Nat.zero_add]
  rfl

lemma wrapped_layout (h : (layout w m).wrapped = false) : (Layout.new m).totalPieces < 2 ^ w := by
  rw [layout, Wrapping.wrapped_bind] at h
  have hsum := wrapped_firstPieces m.files 0 (Nat.two_pow_pos w) h.1
  rwa [Nat.zero_add] at hsum

variable {f i : ℕ} {entry : FileEntry Hash}

lemma piecesOf_eq (h : (Layout.new m).totalPieces < 2 ^ w) (hf : m.files[f]? = some entry) :
    piecesOf w (Layout.new m) f =
      some ⟨(Layout.firstOf m f, Layout.firstOf m f + entry.pieces), false⟩ := by
  have hexact := Layout.piecesOf_eq hf
  have hle : Layout.firstOf m f + entry.pieces ≤ (Layout.new m).totalPieces := by
    rcases Nat.eq_zero_or_pos entry.pieces with hzero | hpos
    · rw [hzero, Nat.add_zero]
      have hsplit := List.sum_take_add_sum_drop (m.files.map FileEntry.pieces) f
      exact (Nat.le_add_right _ _).trans_eq hsplit
    · have hlast := Layout.firstOf_add_lt hf (show entry.pieces - 1 < entry.pieces by omega)
      omega
  simp only [Layout.piecesOf, Option.bind_eq_bind, Option.bind_eq_some_iff] at hexact
  obtain ⟨first, hfirst, size, hsize, heq⟩ := hexact
  obtain ⟨rfl, hcount⟩ := Prod.mk.inj (Option.some.inj heq)
  simp only [piecesOf, hfirst, hsize, Option.bind_eq_bind, Option.bind_some, hcount]
  rw [Wrapping.fit_of_lt (by omega), Wrapping.exact_bind, Wrapping.fit_of_lt (by omega),
    Wrapping.exact_bind]
  rfl

/-- The place of a piece, and what has to fit for it to be found. -/
lemma locate_eq (h : (Layout.new m).totalPieces < 2 ^ w) (hf : m.files[f]? = some entry)
    (hi : i < entry.pieces) : locate w (Layout.new m) (Layout.firstOf m f + i) =
      some (Wrapping.fit 64 (i * blockSize + blockSize) >>= fun stop =>
        pure ⟨f, i * blockSize, min stop entry.size⟩) := by
  have hexact := Layout.locate_eq hf hi
  have hlt := Layout.firstOf_add_lt hf hi
  have hstart := lt_blockCount.1 hi
  have hsize := entry.size_lt
  simp only [Layout.locate, Option.bind_eq_bind, Option.bind_eq_some_iff] at hexact
  obtain ⟨last, hlast, first, hfirst, size, hsize', block, hblock, heq⟩ := hexact
  obtain ⟨hle, rfl⟩ := checkedSub_eq_some.1 hblock
  obtain ⟨hfile, hoffset, -⟩ := PieceLocation.mk.inj (Option.some.inj heq)
  have hentry : entry.size = size := by
    rw [hfile] at hsize'
    simpa [Layout.new, hf] using hsize'
  simp only [locate, hlast, Option.bind_eq_bind, Option.bind_some, hfirst, hsize']
  rw [Wrapping.sub_of_le hle (by omega), Wrapping.exact_bind, hoffset,
    Wrapping.fit_of_lt (by omega), Wrapping.exact_bind, hfile, hentry]
  rfl

/-- Adding a block to the start of every block of a file fits exactly if the file is at least
a block smaller than the largest number. -/
lemma last_block_fits (entry : FileEntry Hash) :
    (∀ i < entry.pieces, i * blockSize + blockSize < 2 ^ 64) ↔ entry.size ≤ 2 ^ 64 - blockSize := by
  simp only [FileEntry.pieces, lt_blockCount]
  constructor
  · intro hall
    by_contra hgt
    have := hall ((2 ^ 64 - blockSize) / blockSize) (by simp only [blockSize] at *; omega)
    simp only [blockSize] at this
    omega
  · intro hle i hi
    exact Nat.lt_of_lt_of_le (Nat.add_lt_add_right hi _) (Nat.add_le_of_le_sub (by decide) hle)

/-- Nothing wraps exactly if the sizes suit the words. -/
theorem exact_iff : Exact w m ↔ Suits w m := by
  constructor
  · intro h
    have hpieces := wrapped_layout h.layout
    refine ⟨wrapped_totalSize.1 h.totalSize, fun file hmem => ?_, hpieces⟩
    obtain ⟨f, hf⟩ := List.mem_iff_getElem?.1 hmem
    refine (last_block_fits file).1 fun i hi => ?_
    have hlocate := h.locate (Layout.firstOf m f + i)
    rw [layout_eq hpieces] at hlocate
    obtain ⟨r, hr, hexact⟩ := hlocate (Layout.firstOf_add_lt hf hi)
    rw [locate_eq hpieces hf hi] at hr
    rw [← Option.some.inj hr, Wrapping.wrapped_bind] at hexact
    exact Wrapping.wrapped_fit.1 hexact.1
  · intro h
    have hlayout := layout_eq h.pieces
    refine ⟨wrapped_totalSize.2 h.totalSize, by rw [hlayout], fun f hf => ?_, fun p hp => ?_⟩
    · rw [hlayout]
      exact ⟨_, piecesOf_eq h.pieces (List.getElem?_eq_getElem hf), rfl⟩
    · rw [hlayout] at hp ⊢
      obtain ⟨f, i, entry, hf, hi, rfl⟩ := Layout.exists_piece hp
      have hfits := (last_block_fits entry).2 (h.sizes entry (List.mem_of_getElem? hf)) i hi
      refine ⟨_, locate_eq h.pieces hf hi, ?_⟩
      rw [Wrapping.fit_of_lt hfits]
      rfl

end Release

end Chorrent
