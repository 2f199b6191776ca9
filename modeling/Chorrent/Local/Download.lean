/-
# Downloading a share

`for_download` prepares the files of a manifest, `store_piece` verifies and stores a piece
that arrived, `restore_progress` works out what is there after a restart, and `encode_piece`
passes a piece on.  A function that changes files or the share returns them, also when it
fails.
-/
import Chorrent.Local.Basic
import Chorrent.Manifest.Confined

namespace Chorrent

open Lib

/-- What storing a piece meets: whether the file can be opened for writing, and the writes. -/
structure StoreEnv where
  openFails : Bool
  write : ℕ → ℕ → WriteEnv

/-- What looking at a file after a restart meets: whether verifying its bytes fails, and
whether checking its slots fails. -/
structure RestoreEnv where
  rangesFail : Bool
  writtenFail : Bool

/-- A share and the files there are. -/
structure Disk (Master Hash : Type) where
  fs : FileSystem
  share : LocalShare Master Hash

namespace LocalShare

variable {Master Key Hash Wire : Type}

/-! ## Preparing a download -/

/-- Where a download keeps file `index`: under its own path, or in the encrypted store. -/
def fileData (os : Os) (dest : Path) (key : Option Master) (index : ℕ) (entry : FileEntry Hash) :
    FileData Master :=
  match key with
  | some key => .encrypted (dest.join os (toString index ++ ".enc")) key entry.size
  | none => .plain (entry.downloadPath os dest)

/-- One round of the loop of `for_download`: the file, and whether it was found complete. -/
def prepareFile [DecidableEq Hash] (B : Bao Hash Wire) (os : Os) (dest : Path)
    (key : Option Master) (env : PrepareEnv) (fs : FileSystem) (index : ℕ)
    (entry : FileEntry Hash) : FileSystem × Result (LocalFile Master Hash × Bool) :=
  let data := fileData os dest key index entry
  let existing := !data.isEncrypted && (fs data.path).any (·.length = entry.size)
  let full :=
    if existing && !env.hashFails then
      some (B.create ((fs data.path).getD []))
    else none
  match full.filter (·.root = entry.rootHash) with
  | some full => (fs, .ok (⟨data, full⟩, true))
  | none =>
      let (file, r) := preallocate env data entry.size (fs data.path)
      let fs := Function.update fs data.path file
      (fs, (IoResult.orError (.io data.path) r).map fun _ =>
        (⟨data, emptyOutboard B entry.rootHash entry.size⟩, false))

/-- The loop of `for_download` over the files from `index` on. -/
def prepareFiles [DecidableEq Hash] (B : Bao Hash Wire) (os : Os) (dest : Path)
    (key : Option Master) (env : ℕ → PrepareEnv) :
    FileSystem → ℕ → List (FileEntry Hash) →
      FileSystem × Result (List (LocalFile Master Hash × Bool))
  | fs, _, [] => (fs, .ok [])
  | fs, index, entry :: entries =>
      match prepareFile B os dest key (env index) fs index entry with
      | (fs, .error e) => (fs, .error e)
      | (fs, .ok file) =>
          let (fs, r) := prepareFiles B os dest key env fs (index + 1) entries
          (fs, r.map (file :: ·))

/-- `have[piece] = true` -/
def markHave (share : LocalShare Master Hash) (piece : ℕ) : Option (LocalShare Master Hash) :=
  if piece < share.held.length then some { share with held := share.held.set piece true }
  else none

/-- Mark all pieces of a file. -/
def markFile (share : LocalShare Master Hash) (index : ℕ) : Option (LocalShare Master Hash) := do
  let (first, n) ← share.layout.piecesOf index
  (List.range' first n).foldlM markHave share

/-- Prepare to download a manifest: plain into `dest`, under the share's own names, where
files already there in full count as downloaded; or encrypted, into the store folder `dest`. -/
def forDownload [DecidableEq Hash] (B : Bao Hash Wire) (os : Os) (env : ℕ → PrepareEnv)
    (m : Manifest Hash) (dest : Path) (key : Option Master) (fs : FileSystem) :
    FileSystem × Result (LocalShare Master Hash) :=
  match prepareFiles B os dest key env fs 0 m.files with
  | (fs, .error e) => (fs, .error e)
  | (fs, .ok files) =>
      let layout := Layout.new m
      let share : LocalShare Master Hash :=
        { manifest := m, layout, files := files.map Prod.fst,
          root := if key.isSome then dest else m.downloadRoot os dest,
          held := List.replicate layout.totalPieces false }
      let alreadyComplete := (List.range files.length).filter fun i => files[i]?.any Prod.snd
      (fs, orPanic (alreadyComplete.foldlM markFile share))

/-! ## Pieces -/

/-- Verify and store a piece.  Returns false if we already had it. -/
def storePiece (S : StoreKeys Master Key) (B : Bao Hash Wire) (env : StoreEnv)
    (disk : Disk Master Hash) (piece : ℕ) (encoded : Wire) : Disk Master Hash × Result Bool :=
  let share := disk.share
  if share.has piece then (disk, .ok false)
  else
    match share.layout.locate piece with
    | none => (disk, .error .panic)
    | some loc =>
        match share.files[loc.file]?, share.manifest.files[loc.file]? with
        | some file, some entry =>
            let path := file.data.path
            let failed := fun e => Error.chunker (.receiveFailed path e)
            if env.openFails then (disk, .error (.fail (failed .other)))
            else
              match file.data.openWith S true false (disk.fs path) with
              | .error e => (disk, IoResult.orError failed (.error e))
              | .ok handle =>
                  let (bytes, r) := decodeRange B S.cipher handle env.write
                    ((disk.fs path).getD []) entry.rootHash entry.size loc.start loc.stop encoded
                  let disk := { disk with fs := Function.update disk.fs path (some bytes) }
                  match r with
                  | .error e => (disk, IoResult.orError failed (.error e))
                  | .ok nodes =>
                      let file := { file with outboard := applyProof file.outboard nodes }
                      let share := { share with files := share.files.set loc.file file }
                      match share.markHave piece with
                      | none => ({ disk with share }, .error .panic)
                      | some share => ({ disk with share }, .ok true)
        | _, _ => (disk, .error .panic)

/-- Encode a piece we hold, with its proof.  `fails`: the file cannot be opened. -/
def encodePiece (S : StoreKeys Master Key) (B : Bao Hash Wire) (fails : Bool) (fs : FileSystem)
    (share : LocalShare Master Hash) (piece : ℕ) : Result Wire := do
  let loc ← orPanic (share.layout.locate piece)
  let file ← orPanic share.files[loc.file]?
  let path := file.data.path
  if fails then throw (.fail (.chunker (.openFailed path .other)))
  IoResult.orError (fun e => .chunker (.serveFailed path e))
    (encodeRange B S file.data file.outboard (fs path) loc.start loc.stop)

/-! ## After a restart -/

/-- `written_pieces`: for a file of the encrypted store, which pieces were written. -/
def writtenPieces (S : StoreKeys Master Key) (data : FileData Master) (file : Option Bytes) :
    IoResult (Option (List Bool)) := do
  match ← data.openWith S false false file with
  | .plain => return none
  | .encrypted h => return some (← Chorrent.writtenPieces S.cipher h (file.getD []))

/-- What `restore_progress` takes from the bytes of a file: the ranges its outboard verifies
and the pieces that were written. -/
def checkBytes (S : StoreKeys Master Key) (B : Bao Hash Wire) (env : RestoreEnv)
    (file : LocalFile Master Hash) (bytes : Option Bytes) :
    IoResult (List (ℕ × ℕ) × Option (List Bool)) := do
  if env.rangesFail then throw (.fail .other)
  let ranges ← validByteRanges B S file.data file.outboard bytes
  if env.writtenFail then throw (.fail .other)
  let written ← writtenPieces S file.data bytes
  return (ranges, written)

/-- The loop of `restore_progress` over the pieces of a file. -/
def restorePieces (ranges : List (ℕ × ℕ)) (written : Option (List Bool)) (size first : ℕ)
    (share : LocalShare Master Hash) : List ℕ → Option (LocalShare Master Hash)
  | [] => some share
  | piece :: pieces => do
      let loc ← share.layout.locate piece
      let stop := min loc.stop size
      let verified := ranges.any fun r => r.1 ≤ loc.start && stop ≤ min r.2 size
      let onDisk := written.all fun w => w[piece - first]?.getD false
      let share ← if verified && onDisk then share.markHave piece else some share
      restorePieces ranges written size first share pieces

/-- `restore_progress` for one file and its saved outboard. -/
def restoreFile (S : StoreKeys Master Key) (B : Bao Hash Wire) (env : RestoreEnv)
    (fs : FileSystem) (share : LocalShare Master Hash) (index : ℕ) (data : List (Hash × Hash)) :
    LocalShare Master Hash × Result Unit :=
  match share.files[index]?, share.layout.piecesOf index, share.manifest.files[index]? with
  | some file, some (first, n), some entry =>
      if (List.range' first n).all share.has then (share, .ok ())
      else if data.length ≠ file.outboard.data.length then (share, .ok ())
      else
        let path := file.data.path
        let file := { file with outboard := { file.outboard with data } }
        let share := { share with files := share.files.set index file }
        match checkBytes S B env file (fs path) with
        | .error e => (share, IoResult.orError (.io path) (.error e))
        | .ok (ranges, written) =>
            match restorePieces ranges written entry.size first share (List.range' first n) with
            | none => (share, .error .panic)
            | some share => (share, .ok ())
  | _, _, _ => (share, .error .panic)

/-- The loop of `restore_progress` over the files from `index` on. -/
def restoreFiles (S : StoreKeys Master Key) (B : Bao Hash Wire) (env : ℕ → RestoreEnv)
    (fs : FileSystem) :
    LocalShare Master Hash → ℕ → List (List (Hash × Hash)) → LocalShare Master Hash × Result Unit
  | share, _, [] => (share, .ok ())
  | share, index, data :: outboards =>
      match restoreFile S B (env index) fs share index data with
      | (share, .error e) => (share, .error e)
      | (share, .ok ()) => restoreFiles S B env fs share (index + 1) outboards

/-- Given a saved outboard for each file, work out which pieces on disk are really there and
intact. -/
def restoreProgress (S : StoreKeys Master Key) (B : Bao Hash Wire) (env : ℕ → RestoreEnv)
    (fs : FileSystem) (share : LocalShare Master Hash) (outboards : List (List (Hash × Hash))) :
    LocalShare Master Hash × Result Unit :=
  restoreFiles S B env fs share 0 (outboards.take share.files.length)

/-- The outboards, as they are saved. -/
def outboardSnapshots (share : LocalShare Master Hash) : List (List (Hash × Hash)) :=
  share.files.map fun file => file.outboard.data

end LocalShare

end Chorrent
