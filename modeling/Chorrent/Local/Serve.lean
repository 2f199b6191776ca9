/-
# Passing pieces on

A piece that is marked can be encoded with its proof, and every other share of the same
manifest accepts it: after one restart at most, the outboard proves all marked pieces, since
each piece that arrives brings the pairs on its own path.  Whatever is done to the files, what
is encoded is genuine.
-/
import Chorrent.Local.Integrity

namespace Chorrent

open Lib

variable {Master Key Hash Wire : Type} {S : StoreKeys Master Key} {B : Bao Hash Wire}
  {T : Target Master} {m : Manifest Hash} {disk disk' : Disk Master Hash}
  {toLowercase : String → String} {f i : ℕ} {entry : FileEntry Hash}

/-- A state of a download: after `for_download` and any operations. -/
def Reached [DecidableEq Hash] (S : StoreKeys Master Key) (B : Bao Hash Wire) (T : Target Master)
    (m : Manifest Hash) (disk : Disk Master Hash) : Prop :=
  ∃ env fs fs₀ share₀ ops, LocalShare.forDownload B T.os env m T.dest T.key fs = (fs₀, .ok share₀) ∧
    Run (DownloadStep S B) ⟨fs₀, share₀⟩ ops disk

def DownloadOp.isStorePiece : DownloadOp Hash Wire → Bool
  | .storePiece _ _ _ => true
  | .restoreProgress _ _ => false

/-- A state of a download in which progress was restored at most once, at the start. -/
def ReachedOnce [DecidableEq Hash] (S : StoreKeys Master Key) (B : Bao Hash Wire)
    (T : Target Master) (m : Manifest Hash) (disk : Disk Master Hash) : Prop :=
  ∃ env fs fs₀ share₀ share₁ ops,
    LocalShare.forDownload B T.os env m T.dest T.key fs = (fs₀, .ok share₀) ∧
    (share₁ = share₀ ∨
      ∃ env outboards, share₁ = (LocalShare.restoreProgress S B env fs₀ share₀ outboards).1) ∧
    Run (DownloadStep S B) ⟨fs₀, share₁⟩ ops disk ∧
    ∀ op ∈ ops, op.isStorePiece = true

lemma Reached.isDownload [DecidableEq Hash] (hvalid : m.validate toLowercase = .ok ())
    (h : Reached S B T m disk) : IsDownload T m disk.share := by
  obtain ⟨env, fs, fs₀, share₀, ops, hstart, hrun⟩ := h
  have hprep := forDownload_ok (S := S) hvalid hstart
  exact (run_keeps hvalid hprep.isDownload (hprep.canServe.genuine hprep.isDownload) hrun).1

lemma Reached.genuine [DecidableEq Hash] (hvalid : m.validate toLowercase = .ok ())
    (h : Reached S B T m disk) : Genuine S B T m disk := by
  obtain ⟨env, fs, fs₀, share₀, ops, hstart, hrun⟩ := h
  have hprep := forDownload_ok (S := S) hvalid hstart
  exact (run_keeps hvalid hprep.isDownload (hprep.canServe.genuine hprep.isDownload) hrun).2.1

lemma run_canServe {ops : List (DownloadOp Hash Wire)} (hvalid : m.validate toLowercase = .ok ())
    (hd : IsDownload T m disk.share) (hserve : CanServe S B T m disk)
    (hrun : Run (DownloadStep S B) disk ops disk') (hops : ∀ op ∈ ops, op.isStorePiece = true) :
    IsDownload T m disk'.share ∧ CanServe S B T m disk' := by
  induction hrun with
  | nil => exact ⟨hd, hserve⟩
  | cons hstep _ ih =>
    have hhead := hops _ List.mem_cons_self
    cases hstep with
    | @storePiece env piece encoded hlt =>
      rw [LocalShare.totalPieces, hd.layout_eq] at hlt
      obtain ⟨f, i, entry, hf, hi, rfl⟩ := Layout.exists_piece hlt
      have hspec := storePiece_spec S B encoded env hd hf hi
      exact ih (hspec.isDownload hd hf) (hspec.canServe hvalid hd hf hi hserve)
        fun op hop => hops op (List.mem_cons_of_mem _ hop)
    | restoreProgress => cases hhead

/-- The outboards prove all marked pieces. -/
lemma ReachedOnce.canServe [DecidableEq Hash] (hvalid : m.validate toLowercase = .ok ())
    (h : ReachedOnce S B T m disk) : IsDownload T m disk.share ∧ CanServe S B T m disk := by
  obtain ⟨env, fs, fs₀, share₀, share₁, ops, hstart, hrestore, hrun, hops⟩ := h
  have hprep := forDownload_ok (S := S) hvalid hstart
  have hbegin : IsDownload T m share₁ ∧ CanServe S B T m ⟨fs₀, share₁⟩ := by
    rcases hrestore with rfl | ⟨env', outboards, rfl⟩
    · exact ⟨hprep.isDownload, hprep.canServe⟩
    · have hstep := restoreProgress_spec S B fs₀ env' hprep.isDownload outboards
      exact ⟨hstep.isDownload,
        hstep.canServe (fun f entry _ hf => hprep.whole f entry hf) hprep.canServe⟩
  exact run_canServe hvalid hbegin.1 hbegin.2 hrun hops

/-! ## Encoding a piece -/

/-- `encode_piece` on a download reads the piece through a handle of its file. -/
lemma encodePiece_eq_ok {fs : FileSystem} {share : LocalShare Master Hash} {fails : Bool}
    {encoded : Wire} {outboard : Outboard Hash} (hd : IsDownload T m share)
    (hf : m.files[f]? = some entry) (hi : i < entry.pieces)
    (hfile : share.files[f]? = some ⟨T.data f entry, outboard⟩) :
    LocalShare.encodePiece S B fails fs share (Layout.firstOf m f + i) = .ok encoded ↔
      fails = false ∧ encodeRange B S (T.data f entry) outboard (fs (T.data f entry).path)
        (i * blockSize) (pieceEnd entry.size i) = .ok encoded := by
  rw [LocalShare.encodePiece, hd.layout_eq, Layout.locate_eq hf hi, orPanic_some_bind]
  simp only
  rw [hfile, orPanic_some_bind]
  cases fails with
  | true =>
    simp only [if_true, Bool.true_eq_false, false_and, iff_false]
    exact fun h => by cases h
  | false =>
    simp only [Bool.false_eq_true, if_false, true_and]
    exact IoResult.orError_eq_ok

/-- What is encoded decodes to a proof of the piece. -/
lemma encodePiece_valid {fs : FileSystem} {share : LocalShare Master Hash} {fails : Bool}
    {encoded : Wire} (hd : IsDownload T m share) (hf : m.files[f]? = some entry)
    (hi : i < entry.pieces)
    (h : LocalShare.encodePiece S B fails fs share (Layout.firstOf m f + i) = .ok encoded) :
    ∃ load d, ProvesBlock B.hasher load entry.rootHash entry.size i d ∧
      B.decode entry.rootHash entry.size (i * blockSize) (pieceEnd entry.size i) encoded =
        (proofItems load entry.size i d, true) := by
  obtain ⟨outboard, hfile, hroot, hsize, -⟩ := hd.file_eq f entry hf
  obtain ⟨-, hencode⟩ := (encodePiece_eq_ok hd hf hi hfile).1 h
  obtain ⟨handle, -, hencode⟩ := except_bind_eq_ok.1 hencode
  rw [← hsize] at hencode
  obtain ⟨d, -, hproves, hdecode⟩ :=
    B.encode_valid outboard _ i encoded (by rw [hsize]; exact hi) hencode
  rw [hroot, hsize] at hproves hdecode
  exact ⟨outboard.load, d, hproves, hdecode⟩

/-- A marked piece can be encoded. -/
lemma encodePiece_succeeds (hd : IsDownload T m disk.share) (hserve : CanServe S B T m disk)
    (hf : m.files[f]? = some entry) (hi : i < entry.pieces)
    (hhas : disk.share.has (Layout.firstOf m f + i) = true) :
    ∃ encoded, LocalShare.encodePiece S B false disk.fs disk.share (Layout.firstOf m f + i) =
      .ok encoded := by
  obtain ⟨outboard, hfile, hroot, hsize, -⟩ := hd.file_eq f entry hf
  obtain ⟨d, hstored, hproves⟩ := hserve f entry outboard i hf hfile hi hhas
  rw [Target.stored] at hstored
  obtain ⟨bytes, handle, hbytes, hopen⟩ := openWith_of_pieceAt hstored
  rw [hbytes] at hstored hopen
  have hread := readExactAt_of_pieceAt hopen (T.sized f entry) (lt_blockCount.1 hi) hproves.2
    hstored
  obtain ⟨encoded, hencode⟩ := B.encode_succeeds outboard
    (fun pos n => handle.readExactAt S.cipher bytes pos n) i d (by rw [hsize]; exact hi)
    (by rw [hroot, hsize]; exact hproves) (by rw [hsize]; exact hread)
  refine ⟨encoded, (encodePiece_eq_ok hd hf hi hfile).2 ⟨rfl, ?_⟩⟩
  rw [encodeRange, hbytes, hopen, ← hsize]
  exact hencode

/-- The file of piece `i` can be written: it opens, the slot is at an offset a file can have,
and the write succeeds. -/
structure CanWrite (S : StoreKeys Master Key) (T : Target Master) (disk : Disk Master Hash)
    (env : StoreEnv) (f : ℕ) (entry : FileEntry Hash) (i : ℕ) : Prop where
  opens : env.openFails = false ∧ ∃ handle,
    (T.data f entry).openWith S true false (disk.fs (T.data f entry).path) = .ok handle
  offset : slotPos i < 2 ^ 64
  calm : (env.write 0 0).fault = none

/-- What an encoding of piece `i` of a file is good for. -/
structure Genuinely (B : Bao Hash Wire) (entry : FileEntry Hash) (i : ℕ)
    (encoded : Wire) : Prop where
  decodes : ∃ load d, B.decode entry.rootHash entry.size (i * blockSize) (pieceEnd entry.size i)
      encoded = (proofItems load entry.size i d, true) ∧
    ∀ content, B.rootHash content = entry.rootHash → d = block content i

/-- An encoding that one download makes is accepted by another that lacks the piece. -/
lemma accepts_encoded {Master' Key' : Type} {S' : StoreKeys Master' Key'} {T' : Target Master'}
    {other : Disk Master' Hash} {env : StoreEnv} {fails : Bool} {encoded : Wire}
    (hd : IsDownload T m disk.share) (hg : Genuine S B T m disk)
    (hd' : IsDownload T' m other.share) (hf : m.files[f]? = some entry) (hi : i < entry.pieces)
    (hhas : disk.share.has (Layout.firstOf m f + i) = true)
    (hlacks : other.share.has (Layout.firstOf m f + i) = false)
    (hencode : LocalShare.encodePiece S B fails disk.fs disk.share (Layout.firstOf m f + i) =
      .ok encoded)
    (hwrite : CanWrite S' T' other env f entry i) :
    ∃ other' d, LocalShare.storePiece S' B env other (Layout.firstOf m f + i) encoded =
        (other', .ok true) ∧ other'.share.has (Layout.firstOf m f + i) = true ∧
      T.stored S disk.fs f entry i = some d ∧ T'.stored S' other'.fs f entry i = some d := by
  obtain ⟨load, d, hproves, hdecode⟩ := encodePiece_valid hd hf hi hencode
  have hspec := storePiece_spec S' B encoded env hd' hf hi
  obtain ⟨hopens, handle, hopen⟩ := hwrite.opens
  have hok := hspec.accepts load d handle hlacks hproves hdecode hopen hopens hwrite.calm
    hwrite.offset
  obtain ⟨⟨other', r⟩, hres⟩ : ∃ result, LocalShare.storePiece S' B env other
      (Layout.firstOf m f + i) encoded = result := ⟨_, rfl⟩
  rw [hres] at hspec hok
  obtain rfl : r = .ok true := hok
  have hacc := hspec.accepted rfl
  obtain ⟨load', e, -, hproves', hstored', -, -⟩ := hacc.learns
  obtain ⟨load'', x, hstored, hproves''⟩ := hg f entry i hf hi hhas
  obtain rfl := hproves''.unique hproves'
  exact ⟨other', x, hres, (hacc.has_iff _).2 (Or.inl rfl), hstored, hstored'⟩

/-- Held pieces can be passed on, and only genuine pieces are.  In every state of a download
after one restart at most, a marked piece can be encoded, and every other download of the same
manifest that lacks it accepts it and then holds the same bytes.  Whatever the files contain,
what is encoded decodes to the piece of the content that the manifest names. -/
theorem held_pieces_passed_on [DecidableEq Hash] (S : StoreKeys Master Key) (B : Bao Hash Wire)
    (hvalid : m.validate toLowercase = .ok ()) (hreach : ReachedOnce S B T m disk)
    (hf : m.files[f]? = some entry) (hi : i < entry.pieces) :
    (disk.share.has (Layout.firstOf m f + i) = true →
      ∃ encoded, LocalShare.encodePiece S B false disk.fs disk.share (Layout.firstOf m f + i) =
          .ok encoded ∧
        ∀ {Master' Key' : Type} (S' : StoreKeys Master' Key') (T' : Target Master')
          (other : Disk Master' Hash) (env : StoreEnv), Reached S' B T' m other →
          other.share.has (Layout.firstOf m f + i) = false → CanWrite S' T' other env f entry i →
          ∃ other' d, LocalShare.storePiece S' B env other (Layout.firstOf m f + i) encoded =
              (other', .ok true) ∧ other'.share.has (Layout.firstOf m f + i) = true ∧
            T.stored S disk.fs f entry i = some d ∧ T'.stored S' other'.fs f entry i = some d) ∧
      ∀ fs fails encoded,
        LocalShare.encodePiece S B fails fs disk.share (Layout.firstOf m f + i) = .ok encoded →
        Genuinely B entry i encoded := by
  obtain ⟨hd, hserve⟩ := hreach.canServe hvalid
  refine ⟨fun hhas => ?_, fun fs fails encoded hencode => ?_⟩
  · obtain ⟨encoded, hencode⟩ := encodePiece_succeeds hd hserve hf hi hhas
    exact ⟨encoded, hencode, fun S' T' other env hother hlacks hwrite =>
      accepts_encoded hd (hserve.genuine hd) (hother.isDownload hvalid) hf hi hhas hlacks hencode
        hwrite⟩
  · obtain ⟨load, d, hproves, hdecode⟩ := encodePiece_valid hd hf hi hencode
    exact ⟨load, d, hdecode, fun content hroot => hproves.eq_block hroot⟩

open OneFile in
/-- The piece of a file of five bytes is passed on once it has arrived. -/
theorem held_pieces_passed_on_one_file :
    ∃ encoded other d,
      LocalShare.encodePiece keys referenceBao false arrived.fs arrived.share 0 = .ok encoded ∧
      LocalShare.storePiece keys referenceBao storeEnv prepared 0 encoded = (other, .ok true) ∧
      target.stored keys other.fs 0 OneFile.entry 0 = some d := by
  have hreach : ReachedOnce keys referenceBao target manifest arrived :=
    ⟨_, _, _, _, _, _, forDownload_prepared, Or.inl rfl, run_arrived, fun op hop => by
      rw [List.mem_singleton.1 hop]
      rfl⟩
  obtain ⟨encoded, hencode, haccept⟩ := (held_pieces_passed_on (f := 0) (i := 0) keys referenceBao
    validate_manifest hreach rfl (by decide)).1 (by decide)
  obtain ⟨other, d, hstore, -, -, hstored⟩ := haccept keys target prepared storeEnv
    ⟨_, _, _, _, _, forDownload_prepared, .nil _⟩ (by decide) ⟨⟨rfl, .plain, rfl⟩, by decide, rfl⟩
  exact ⟨encoded, other, d, hencode, hstore, hstored⟩

end Chorrent
