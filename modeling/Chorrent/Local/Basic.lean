/-
# Shares as this node holds them

A share's files, the pieces we have and the outboards that prove them (`local.rs`), and how
finished files are read.  The file system is a map from paths to the contents of ordinary
files; what the operating system may refuse is part of the arguments.
-/
import Mathlib.Logic.Function.Basic
import Chorrent.Chunker.Basic
import Chorrent.Manifest.Layout

namespace Chorrent

open Lib

/-- The contents of the files there are. -/
abbrev FileSystem := Path → Option Bytes

structure LocalFile (Master Hash : Type) where
  data : FileData Master
  outboard : Outboard Hash

structure LocalShare (Master Hash : Type) where
  manifest : Manifest Hash
  layout : Layout
  files : List (LocalFile Master Hash)
  /-- The share's file or folder on disk, or its folder in the encrypted store. -/
  root : Path
  /-- Which pieces we have (`have`). -/
  held : List Bool

namespace LocalShare

variable {Master Key Hash : Type}

def totalPieces (share : LocalShare Master Hash) : ℕ := share.layout.totalPieces

/-- Whether we have the piece. -/
def has (share : LocalShare Master Hash) (piece : ℕ) : Bool := share.held[piece]?.getD false

/-- The file with this number, if all its pieces are here. -/
def checkFile (share : LocalShare Master Hash) (index : ℕ) : Result (LocalFile Master Hash) :=
  match share.files[index]? with
  | none => .error (.fail .notAvailable)
  | some file => do
      let (first, n) ← orPanic (share.layout.piecesOf index)
      if (List.range' first n).all share.has then return file
      else throw (.fail .notAvailable)

/-- Read bytes of a fully downloaded file, decrypting if needed. -/
def readRange (S : StoreKeys Master Key) (fs : FileSystem) (share : LocalShare Master Hash)
    (index offset len : ℕ) : Result Bytes := do
  let file ← share.checkFile index
  let entry ← orPanic share.manifest.files[index]?
  let len := min len (entry.size - offset)
  let path := file.data.path
  let handle ← (file.data.openWith S false true (fs path)).orError (.io path)
  (handle.readExactAt S.cipher ((fs path).getD []) offset len).orError (.io path)

/-- What an export meets: the size of its read buffer, and what the operating system refuses.
Reading and writing may fail once so many bytes were copied. -/
structure ExportEnv where
  buffer : ℕ
  buffer_pos : 0 < buffer
  folderFails : Bool
  createFails : Bool
  openFails : Bool
  readFault : Option ℕ
  fault : Option ℕ
  removeFails : Bool

/-- What was copied of a file of `size` bytes until reading failed. -/
def ExportEnv.cut (env : ExportEnv) (size : ℕ) (copied : Bytes × Option (Stop IoError)) :
    Bytes × Option (Stop IoError) :=
  match env.readFault with
  | some k =>
      if k ≤ copied.1.length ∧ k < size then (copied.1.take k, some (.fail .other)) else copied
  | none => copied

/-- `io::copy` into the new file of what is read, and the check that nothing is missing. -/
def ExportEnv.copyTo (env : ExportEnv) (fs : FileSystem) (dest : Path) (size : ℕ) :
    Bytes × Option (Stop IoError) → FileSystem × Result Unit
  | (copied, e) =>
      if env.fault.any (· < copied.length) then
        (Function.update fs dest (some (copied.take (env.fault.getD 0))),
          .error (.fail (.io dest .other)))
      else
        let fs := Function.update fs dest (some copied)
        match e with
        | some e => (fs, IoResult.orError (.io dest) (.error e))
        | none =>
            if copied.length ≠ size then
              (if env.removeFails then fs else Function.update fs dest none,
                .error (.fail (.io dest .unexpectedEof)))
            else (fs, .ok ())

lemma ExportEnv.cut_cases (env : ExportEnv) (size : ℕ) (copied : Bytes × Option (Stop IoError)) :
    env.cut size copied = copied ∨ (env.cut size copied).2 = some (.fail .other) := by
  unfold ExportEnv.cut
  split
  · split_ifs
    · exact Or.inr rfl
    · exact Or.inl rfl
  · exact Or.inl rfl

/-- Write a fully downloaded file out as an ordinary file at `dest`, which must not exist
yet. -/
def exportFile (S : StoreKeys Master Key) (env : ExportEnv) (fs : FileSystem)
    (share : LocalShare Master Hash) (index : ℕ) (dest : Path) : FileSystem × Result Unit :=
  match share.checkFile index with
  | .error e => (fs, .error e)
  | .ok file =>
      match share.manifest.files[index]? with
      | none => (fs, .error .panic)
      | some entry =>
          let path := file.data.path
          if env.folderFails then (fs, .error (.fail (.io dest .other)))
          else if (fs dest).isSome then (fs, .error (.fail (.io dest .alreadyExists)))
          else if env.createFails then (fs, .error (.fail (.io dest .other)))
          else
            let fs := Function.update fs dest (some [])
            match
              if env.openFails then .error (.fail .other)
              else file.data.openWith S false true (fs path)
            with
            | .error e => (fs, IoResult.orError (.io dest) (.error e))
            | .ok handle =>
                env.copyTo fs dest entry.size <| env.cut entry.size <|
                  handle.copy S.cipher ((fs path).getD []) env.buffer entry.size 0 entry.size

/-- The share holds all pieces of the file with this number, whose bytes are kept in `data`
and which has `size` bytes. -/
structure HoldsFile (share : LocalShare Master Hash) (index : ℕ) (data : FileData Master)
    (size : ℕ) : Prop where
  layout_eq : share.layout = Layout.new share.manifest
  file_eq : ∃ outboard, share.files[index]? = some ⟨data, outboard⟩
  entry_eq : ∃ entry, share.manifest.files[index]? = some entry ∧ entry.size = size
  held : ∀ i < blockCount size, share.has (Layout.firstOf share.manifest index + i) = true

variable {share : LocalShare Master Hash} {index size : ℕ} {data : FileData Master}

lemma HoldsFile.checkFile_eq (h : HoldsFile share index data size) :
    ∃ outboard, share.checkFile index = .ok ⟨data, outboard⟩ := by
  obtain ⟨outboard, hfile⟩ := h.file_eq
  obtain ⟨entry, hentry, hsize⟩ := h.entry_eq
  have hpieces : share.layout.piecesOf index =
      some (Layout.firstOf share.manifest index, entry.pieces) := by
    rw [h.layout_eq]
    exact Layout.piecesOf_eq hentry
  have hall : (List.range' (Layout.firstOf share.manifest index) entry.pieces).all share.has =
      true := by
    rw [List.all_eq_true]
    intro p hp
    obtain ⟨i, hi, rfl⟩ := List.mem_range'.1 hp
    rw [Nat.one_mul]
    exact h.held i (by rwa [FileEntry.pieces, hsize] at hi)
  refine ⟨outboard, ?_⟩
  rw [checkFile, hfile]
  simp only [hpieces, orPanic, bind, Except.bind, hall]
  rfl

/-- `read_range` on a file we hold is a strict read of the range, cut at the end of the
file. -/
lemma HoldsFile.readRange_eq (h : HoldsFile share index data size) (S : StoreKeys Master Key)
    (fs : FileSystem) (offset len : ℕ) :
    share.readRange S fs index offset len =
      ((data.openWith S false true (fs data.path)).orError (.io data.path) >>= fun handle =>
        (handle.readExactAt S.cipher ((fs data.path).getD []) offset
          (min len (size - offset))).orError (.io data.path)) := by
  obtain ⟨outboard, hcheck⟩ := h.checkFile_eq
  obtain ⟨entry, hentry, hsize⟩ := h.entry_eq
  rw [readRange, hcheck]
  simp only [bind, Except.bind, hentry, orPanic, hsize]

/-- Where the file opens, that is a read through its handle. -/
lemma HoldsFile.readRange_of_opens (h : HoldsFile share index data size) {S : StoreKeys Master Key}
    {fs : FileSystem} {handle : Handle Key}
    (hopen : data.openWith S false true (fs data.path) = .ok handle) (offset len : ℕ) :
    share.readRange S fs index offset len =
      (handle.readExactAt S.cipher ((fs data.path).getD []) offset
        (min len (size - offset))).orError (.io data.path) := by
  rw [h.readRange_eq, hopen]
  rfl

end LocalShare

end Chorrent
