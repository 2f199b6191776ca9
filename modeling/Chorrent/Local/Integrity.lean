/-
# Integrity of a download

Whatever arrives, fails or is found on disk: a piece that is marked is stored and is the
piece of the content that the manifest names, and it stays so.
-/
import Chorrent.Chunker.Reference
import Chorrent.Lib.Run
import Chorrent.Local.Restore

namespace Chorrent

open Lib

variable {Master Key Hash Wire : Type}

/-- What is done to the share of a download after `for_download`. -/
inductive DownloadOp (Hash Wire : Type) where
  | storePiece (env : StoreEnv) (piece : ℕ) (encoded : Wire)
  | restoreProgress (env : ℕ → RestoreEnv) (outboards : List (List (Hash × Hash)))

/-- One operation on the share: a piece arrives, with a number below `total_pieces`, or
progress is restored. -/
inductive DownloadStep (S : StoreKeys Master Key) (B : Bao Hash Wire) :
    Disk Master Hash → DownloadOp Hash Wire → Disk Master Hash → Prop
  | storePiece {disk env piece encoded} (h : piece < disk.share.totalPieces) :
      DownloadStep S B disk (.storePiece env piece encoded)
        (LocalShare.storePiece S B env disk piece encoded).1
  | restoreProgress {disk env outboards} :
      DownloadStep S B disk (.restoreProgress env outboards)
        ⟨disk.fs, (LocalShare.restoreProgress S B env disk.fs disk.share outboards).1⟩

/-- The stored bytes of piece `i` of a file are those of the content with the root hash that
the manifest gives; in the encrypted store, the slot was written and decrypts. -/
structure HoldsPiece (S : StoreKeys Master Key) (B : Bao Hash Wire) (T : Target Master)
    (fs : FileSystem) (f : ℕ) (entry : FileEntry Hash) (i : ℕ) : Prop where
  content : ∃ d, T.stored S fs f entry i = some d ∧
    ∀ content, B.rootHash content = entry.rootHash → d = block content i
  written : ∀ path key size, T.data f entry = .encrypted path key size →
    ∃ file h, fs path = some file ∧ openEncrypted S key size false false file = .ok h ∧
      h.blockWritten S.cipher file i = .ok true

/-- Every piece that is marked is held, in the place where it is looked for. -/
def Intact (S : StoreKeys Master Key) (B : Bao Hash Wire) (T : Target Master) (m : Manifest Hash)
    (disk : Disk Master Hash) : Prop :=
  ∀ p, disk.share.has p = true → ∃ (f : ℕ) (entry : FileEntry Hash) (i : ℕ),
    m.files[f]? = some entry ∧ i < entry.pieces ∧
      disk.share.layout.locate p = some ⟨f, i * blockSize, pieceEnd entry.size i⟩ ∧
      HoldsPiece S B T disk.fs f entry i

variable {S : StoreKeys Master Key} {B : Bao Hash Wire} {T : Target Master} {m : Manifest Hash}
  {disk disk' : Disk Master Hash} {toLowercase : String → String}

/-- A stored piece of the encrypted store was written and decrypts. -/
lemma blockWritten_of_stored {fs : FileSystem} {f i size : ℕ} {entry : FileEntry Hash}
    {path : Path} {key : Master} {d : Bytes} (hdata : T.data f entry = .encrypted path key size)
    (hstored : T.stored S fs f entry i = some d) :
    ∃ file h, fs path = some file ∧ openEncrypted S key size false false file = .ok h ∧
      h.blockWritten S.cipher file i = .ok true := by
  rw [Target.stored, hdata, FileData.path] at hstored
  cases hfile : fs path with
  | none =>
    rw [hfile] at hstored
    cases hstored
  | some file =>
    rw [hfile, FileData.pieceAt, FileData.openWith] at hstored
    cases hopen : openEncrypted S key size false false file with
    | error e =>
      rw [hopen] at hstored
      cases hstored
    | ok h =>
      rw [hopen] at hstored
      refine ⟨file, h, rfl, hopen, ?_⟩
      have hslot := Handle.pieceAt_encrypted_eq_some.1 hstored
      rw [show (some file).getD [] = file from rfl] at hslot
      rw [Encrypted.blockWritten, hslot]
      rfl

lemma Stores.holdsPiece {fs : FileSystem} {load : ℕ → Option (Hash × Hash)} {f i : ℕ}
    {entry : FileEntry Hash} (h : Stores S B T fs load f entry i) :
    HoldsPiece S B T fs f entry i := by
  obtain ⟨d, hstored, hproves⟩ := h
  exact ⟨⟨d, hstored, fun _ hroot => hproves.eq_block hroot⟩,
    fun path key size hdata => blockWritten_of_stored hdata hstored⟩

lemma lt_totalPieces_of_has {share : LocalShare Master Hash} (hd : IsDownload T m share) {p : ℕ}
    (h : share.has p = true) : p < (Layout.new m).totalPieces := by
  rw [← hd.held_length]
  by_contra hge
  rw [LocalShare.has, List.getElem?_eq_none (not_lt.1 hge)] at h
  cases h

lemma Genuine.intact (hd : IsDownload T m disk.share) (hg : Genuine S B T m disk) :
    Intact S B T m disk := by
  intro p hp
  obtain ⟨f, i, entry, hf, hi, rfl⟩ := Layout.exists_piece (lt_totalPieces_of_has hd hp)
  obtain ⟨load, hstores⟩ := hg f entry i hf hi hp
  exact ⟨f, entry, i, hf, hi, by rw [hd.layout_eq]; exact Layout.locate_eq hf hi,
    hstores.holdsPiece⟩

/-- What every operation keeps. -/
lemma DownloadStep.keeps {op : DownloadOp Hash Wire} (hvalid : m.validate toLowercase = .ok ())
    (hd : IsDownload T m disk.share) (hg : Genuine S B T m disk)
    (h : DownloadStep S B disk op disk') :
    IsDownload T m disk'.share ∧ Genuine S B T m disk' ∧ Advances S T m disk disk' := by
  cases h with
  | @storePiece env piece encoded hlt =>
    rw [LocalShare.totalPieces, hd.layout_eq] at hlt
    obtain ⟨f, i, entry, hf, hi, rfl⟩ := Layout.exists_piece hlt
    have hstep := storePiece_spec S B encoded env hd hf hi
    exact ⟨hstep.isDownload hd hf, hstep.genuine hvalid hf hi hg, hstep.advances hvalid hf⟩
  | @restoreProgress env outboards =>
    have hstep := restoreProgress_spec S B disk.fs env hd outboards
    exact ⟨hstep.isDownload, hstep.genuine hg, hstep.has_mono, fun _ _ _ _ _ _ _ => id⟩

lemma run_keeps {ops : List (DownloadOp Hash Wire)} (hvalid : m.validate toLowercase = .ok ())
    (hd : IsDownload T m disk.share) (hg : Genuine S B T m disk)
    (h : Run (DownloadStep S B) disk ops disk') :
    IsDownload T m disk'.share ∧ Genuine S B T m disk' ∧ Advances S T m disk disk' := by
  induction h with
  | nil disk => exact ⟨hd, hg, .refl disk⟩
  | cons hstep _ ih =>
    obtain ⟨hd₁, hg₁, hadv⟩ := hstep.keeps hvalid hd hg
    obtain ⟨hd', hg', hadv'⟩ := ih hd₁ hg₁
    exact ⟨hd', hg', hadv.trans hadv'⟩

/-- Integrity of a download.  After `for_download` and any sequence of operations, every
marked piece holds the bytes of the content that the manifest names; what was marked stays
marked; and storing a piece that is refused changes neither the marks nor an outboard. -/
theorem download_integrity [DecidableEq Hash] (S : StoreKeys Master Key) (B : Bao Hash Wire)
    {env : ℕ → PrepareEnv} {fs fs₀ : FileSystem} {share₀ : LocalShare Master Hash}
    (hvalid : m.validate toLowercase = .ok ())
    (hstart : LocalShare.forDownload B T.os env m T.dest T.key fs = (fs₀, .ok share₀))
    {ops : List (DownloadOp Hash Wire)}
    (hrun : Run (DownloadStep S B) ⟨fs₀, share₀⟩ ops disk) :
    Intact S B T m disk ∧
      (∀ ops' disk', Run (DownloadStep S B) disk ops' disk' →
        ∀ p, disk.share.has p = true → disk'.share.has p = true) ∧
      ∀ env piece encoded e, piece < disk.share.totalPieces →
        (LocalShare.storePiece S B env disk piece encoded).2 = .error e →
        (LocalShare.storePiece S B env disk piece encoded).1.share = disk.share := by
  have hprep := forDownload_ok (S := S) hvalid hstart
  obtain ⟨hd, hg, -⟩ :=
    run_keeps hvalid hprep.isDownload (hprep.canServe.genuine hprep.isDownload) hrun
  refine ⟨hg.intact hd, fun ops' disk' hrun' => (run_keeps hvalid hd hg hrun').2.2.has_mono,
    fun env piece encoded e hlt herror => ?_⟩
  rw [LocalShare.totalPieces, hd.layout_eq] at hlt
  obtain ⟨f, i, entry, hf, hi, rfl⟩ := Layout.exists_piece hlt
  refine (storePiece_spec S B encoded env hd hf hi).refused ?_
  rw [herror]
  exact fun h => by cases h

/-! ## A share of one file -/

namespace OneFile

def content : Bytes := [1, 2, 3, 4, 5]

lemma content_fits : content.length < 2 ^ 64 := by decide

def entry : FileEntry Digest := ⟨["a"], 5, FileEntry.five_lt, referenceBao.rootHash content⟩

def manifest : Manifest Digest := ⟨"a", [entry]⟩

def target : Target Bytes := ⟨.unix, ⟨none, true, ["d"]⟩, none⟩

def keys : StoreKeys Bytes Bytes := ⟨fun m salt => salt ++ m, Aead.tagging⟩

def prepareEnv (_ : ℕ) : PrepareEnv := ⟨false, false, false, ⟨List.replicate 16 7, rfl⟩⟩

def storeEnv : StoreEnv := ⟨false, fun _ _ => ⟨⟨List.replicate 24 1, rfl, rfl⟩, none⟩⟩

/-- The download of the file into an empty folder. -/
def prepared : Disk Bytes Digest where
  fs := Function.update (fun _ => none) (target.data 0 entry).path (some (Bytes.zeros 5))
  share :=
    { manifest, layout := Layout.new manifest,
      files := [⟨target.data 0 entry, emptyOutboard referenceBao entry.rootHash entry.size⟩],
      root := manifest.downloadRoot target.os target.dest, held := [false] }

/-- The piece of the file has arrived. -/
def arrived : Disk Bytes Digest :=
  (LocalShare.storePiece keys referenceBao storeEnv prepared 0 ([], content)).1

lemma validate_manifest : manifest.validate id = .ok () := rfl

lemma forDownload_prepared :
    LocalShare.forDownload referenceBao target.os prepareEnv manifest target.dest target.key
      (fun _ => none) = (prepared.fs, .ok prepared.share) := rfl

lemma run_arrived : Run (DownloadStep keys referenceBao) prepared
    [.storePiece storeEnv 0 ([], content)] arrived :=
  .single (.storePiece (by decide))

end OneFile

open OneFile in
/-- The piece of a file of five bytes arrives. -/
theorem download_integrity_one_file :
    arrived.share.has 0 = true ∧ Intact keys referenceBao target manifest arrived :=
  ⟨by decide, (download_integrity keys referenceBao validate_manifest forDownload_prepared
    run_arrived).1⟩

end Chorrent
