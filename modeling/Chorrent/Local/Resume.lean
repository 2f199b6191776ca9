/-
# Resuming a download

The progress of a download is saved as its outboards.  After a restart, the pieces that were
marked when it was saved are found again: their bytes are still on disk, and the saved
outboards prove them.
-/
import Chorrent.Local.Serve
import Chorrent.Store.Keep

namespace Chorrent

open Lib

variable {Master Key Hash Wire : Type} {S : StoreKeys Master Key} {B : Bao Hash Wire}
  {T : Target Master} {m : Manifest Hash} {disk disk' : Disk Master Hash}
  {toLowercase : String → String} {fs : FileSystem} {share share' : LocalShare Master Hash}

/-- The bytes of an outboard: its hash pairs, one after another. -/
structure PairForm (Hash : Type) where
  write : List (Hash × Hash) → Bytes
  read : Bytes → List (Hash × Hash)
  read_write : ∀ pairs, read (write pairs) = pairs

namespace LocalShare

/-- The progress of a share, as it is saved. -/
def progress (form : PairForm Hash) (share : LocalShare Master Hash) : List Bytes :=
  share.outboardSnapshots.map form.write

/-- `restore_progress`, from progress that was loaded. -/
def resume (form : PairForm Hash) (S : StoreKeys Master Key) (B : Bao Hash Wire)
    (env : ℕ → RestoreEnv) (fs : FileSystem) (share : LocalShare Master Hash)
    (progress : List Bytes) : LocalShare Master Hash × Result Unit :=
  share.restoreProgress S B env fs (progress.map form.read)

lemma map_read_progress (form : PairForm Hash) (share : LocalShare Master Hash) :
    (share.progress form).map form.read = share.outboardSnapshots := by
  simp only [progress, List.map_map, Function.comp_def, form.read_write, List.map_id']

end LocalShare

/-- Every piece that was marked when the outboards were taken is marked again, if the bytes of
all marked pieces were kept. -/
lemma restored_of_snapshots {env : ℕ → RestoreEnv} (hd : IsDownload T m disk.share)
    (hserve : CanServe S B T m disk) (hd' : IsDownload T m share)
    (hkeeps : ∀ (f : ℕ) (entry : FileEntry Hash) (i : ℕ) (d : Bytes), m.files[f]? = some entry →
      i < entry.pieces → disk.share.has (Layout.firstOf m f + i) = true →
      T.stored S disk.fs f entry i = some d → T.stored S fs f entry i = some d)
    (hrestore : share.restoreProgress S B env fs disk.share.outboardSnapshots = (share', .ok ()))
    {p : ℕ} (hhas : disk.share.has p = true) : share'.has p = true := by
  have hspec := restoreProgress_spec S B fs env hd' disk.share.outboardSnapshots
  rw [hrestore] at hspec
  have hlt := lt_totalPieces_of_has hd hhas
  obtain ⟨f, i, entry, hf, hi, rfl⟩ := Layout.exists_piece hlt
  obtain ⟨outboard, hfile, hroot, hsize, hlength⟩ := hd.file_eq f entry hf
  obtain ⟨d, hstored, hproves⟩ := hserve f entry outboard i hf hfile hi hhas
  have hsnapshot : (disk.share.outboardSnapshots.take share.files.length)[f]? =
      some outboard.data := by
    have hflt : f < share.files.length := by
      rw [hd'.files_length]
      exact (List.getElem?_eq_some_iff.1 hf).1
    rw [List.getElem?_take_of_lt hflt, LocalShare.outboardSnapshots, List.getElem?_map, hfile]
    rfl
  have hdone :=
    hspec.complete rfl f outboard.data entry i hsnapshot (by rwa [Nat.zero_add]) hlength hi
    (by rw [Nat.zero_add]; exact ⟨d, hkeeps f entry i d hf hi hhas hstored, hproves⟩)
  rwa [Nat.zero_add] at hdone

/-! ## When nothing fails -/

/-- The file can be opened, and its bytes and its slots can be looked at. -/
structure Readable (S : StoreKeys Master Key) (T : Target Master) (fs : FileSystem) (f : ℕ)
    (entry : FileEntry Hash) : Prop where
  reads : ∃ handle, (T.data f entry).openWith S false false (fs (T.data f entry).path) =
      .ok handle ∧ ∀ i < entry.pieces, ∃ d,
        handle.readExactAt S.cipher ((fs (T.data f entry).path).getD []) (i * blockSize)
          (pieceLen entry.size i) = .ok d
  slots : ∃ written, LocalShare.writtenPieces S (T.data f entry) (fs (T.data f entry).path) =
      .ok written

/-- `valid_ranges` fails only where the bytes it checks cannot be read. -/
def RangesTotal (B : Bao Hash Wire) : Prop :=
  ∀ outboard read, (∀ i < blockCount outboard.size, ∃ d,
    read (i * blockSize) (pieceLen outboard.size i) = .ok d) →
      ∃ ranges, B.validRanges outboard read = .ok ranges

lemma checkBytes_succeeds {env : RestoreEnv} {f : ℕ} {entry : FileEntry Hash}
    (data : List (Hash × Hash)) (htotal : RangesTotal B)
    (hcalm : env.rangesFail = false ∧ env.writtenFail = false) (h : Readable S T fs f entry) :
    ∃ checked, LocalShare.checkBytes S B env ⟨T.data f entry, savedOutboard entry data⟩
      (fs (T.data f entry).path) = .ok checked := by
  obtain ⟨handle, hopen, hreads⟩ := h.reads
  obtain ⟨written, hwritten⟩ := h.slots
  obtain ⟨ranges, hranges⟩ := htotal (savedOutboard entry data)
    (fun pos n => handle.readExactAt S.cipher ((fs (T.data f entry).path).getD []) pos n) hreads
  have hvalid : validByteRanges B S (T.data f entry) (savedOutboard entry data)
      (fs (T.data f entry).path) = .ok ranges := by
    rw [validByteRanges, hopen]
    exact hranges
  refine ⟨(ranges, written), ?_⟩
  rw [LocalShare.checkBytes, hcalm.1, hcalm.2]
  simp only [Bool.false_eq_true, if_false, hvalid, hwritten]
  rfl

lemma restoreFile_succeeds {env : RestoreEnv} {f : ℕ} {entry : FileEntry Hash}
    (data : List (Hash × Hash)) (htotal : RangesTotal B)
    (hcalm : env.rangesFail = false ∧ env.writtenFail = false) (hd : IsDownload T m share)
    (hf : m.files[f]? = some entry) (h : Readable S T fs f entry) :
    (LocalShare.restoreFile S B env fs share f data).2 = .ok () := by
  obtain ⟨outboard, hfile, hroot, hsize, -⟩ := hd.file_eq f entry hf
  have hentry : share.manifest.files[f]? = some entry := by rw [hd.manifest_eq, hf]
  have hpieces := Layout.piecesOf_eq hf
  rw [← hd.layout_eq] at hpieces
  rw [LocalShare.restoreFile, hfile, hpieces, hentry]
  simp only
  split_ifs
  · rfl
  · rfl
  · obtain ⟨⟨ranges, written⟩, hcheck⟩ := checkBytes_succeeds data htotal hcalm h
    have hset : ({ outboard with data } : Outboard Hash) = savedOutboard entry data := by
      rw [savedOutboard, ← hroot, ← hsize]
    have hrange : List.range' (Layout.firstOf m f) entry.pieces =
        (List.range entry.pieces).map (Layout.firstOf m f + ·) := List.range'_eq_map_range
    obtain ⟨share₁, hloop, -⟩ := restorePieces_spec ranges written hf (List.range entry.pieces)
      (share.setFile f ⟨T.data f entry, savedOutboard entry data⟩) hd.layout_eq hd.held_length
      fun i hi => List.mem_range.1 hi
    rw [← hrange, LocalShare.setFile] at hloop
    rw [hset]
    simp only [hcheck, hloop]

lemma restoreFiles_succeeds {env : ℕ → RestoreEnv} (htotal : RangesTotal B)
    (hcalm : ∀ f, (env f).rangesFail = false ∧ (env f).writtenFail = false)
    (hread : ∀ f entry, m.files[f]? = some entry → Readable S T fs f entry)
    (outboards : List (List (Hash × Hash))) : ∀ (index : ℕ) (share : LocalShare Master Hash),
    IsDownload T m share → index + outboards.length ≤ m.files.length →
    (LocalShare.restoreFiles S B env fs share index outboards).2 = .ok () := by
  induction outboards with
  | nil => exact fun _ _ _ _ => rfl
  | cons data outboards ih =>
    intro index share hd hlt
    rw [List.length_cons] at hlt
    have hf : m.files[index]? = some m.files[index] := List.getElem?_eq_getElem (by omega)
    have hstep := restoreFile_spec S B fs data (env index) hd hf
    have hok := restoreFile_succeeds data htotal (hcalm index) hd hf (hread index _ hf)
    rw [LocalShare.restoreFiles]
    obtain ⟨⟨share₁, r⟩, hres⟩ :
        ∃ one, LocalShare.restoreFile S B (env index) fs share index data = one := ⟨_, rfl⟩
    rw [hres] at hstep hok
    obtain rfl : r = .ok () := hok
    rw [hres]
    exact ih (index + 1) share₁ (hstep.isDownload hd hf) (by omega)

/-! ## The progress of a download -/

variable {StorageKey NodeKey NameKey Code : Type} {D : Sealing StorageKey NodeKey NameKey}
  {F : Formats Code} {sealer sealer' : Option (Sealer NodeKey NameKey)}
  {dir dir' : DataDir NodeKey NameKey}

/-- What a store saved as the progress of a download is what a later one loads. -/
lemma loadProgress_saved {events events' : List (DirEvent StorageKey Code)} {env env' : TxEnv}
    {id : ShareId} {destDir : String} {outboards : List Bytes}
    (hrun : Run (DirStep D F) .fresh events dir) (hsession : dir.session = some sealer)
    (henv : env.fails = false) (hfits : F.outboards.Fits outboards)
    (hafter : Run (DirStep D F)
      ⟨Store.saveProgress D F sealer env dir.db id destDir outboards, some sealer⟩ events' dir')
    (hnot : ∀ op env, .call op env ∈ events' →
      ¬ op.Touches F .progress (downloadKey id destDir))
    (hsession' : dir'.session = some sealer') (henv' : env'.fails = false) :
    Store.loadProgress D F sealer' env' dir'.db id destDir = some outboards := by
  have htable : Table.progress ≠ .meta := by decide
  have hsaved := (saved_put htable hrun hsession henv).run htable hnot hafter
  rw [Store.loadProgress, hsaved.get htable hsession' henv']
  have hdecode := F.outboards.decode_encode outboards [] hfits
  rw [List.append_nil] at hdecode
  simp only [hdecode, Option.map_some]

/-- Resuming loses nothing.  If the progress of a download was saved and, up to the restart, its
files changed through the share only, then setting up the download again and restoring the
progress that is loaded marks every piece that was marked when it was saved; and restoring
succeeds if every file can be read. -/
theorem resume_loses_nothing [DecidableEq Hash] (S : StoreKeys Master Key) (B : Bao Hash Wire)
    (D : Sealing StorageKey NodeKey NameKey) (F : Formats Code) (form : PairForm Hash)
    (hvalid : m.validate toLowercase = .ok ()) (hreached : ReachedOnce S B T m disk)
    {events events' : List (DirEvent StorageKey Code)} {saveEnv loadEnv : TxEnv} {id : ShareId}
    {destDir : String} (hrun : Run (DirStep D F) .fresh events dir)
    (hsession : dir.session = some sealer) (hsaved : saveEnv.fails = false)
    (hfits : F.outboards.Fits (disk.share.progress form))
    (hafter : Run (DirStep D F) ⟨Store.saveProgress D F sealer saveEnv dir.db id destDir
      (disk.share.progress form), some sealer⟩ events' dir')
    (hnot : ∀ op env, .call op env ∈ events' →
      ¬ op.Touches F .progress (downloadKey id destDir))
    (hsession' : dir'.session = some sealer') (hloads : loadEnv.fails = false)
    {ops : List (DownloadOp Hash Wire)}
    (hpieces : Run (DownloadStep S B) disk ops disk') {prepareEnv : ℕ → PrepareEnv}
    (hprepare : LocalShare.forDownload B T.os prepareEnv m T.dest T.key disk'.fs =
      (fs, .ok share)) :
    ∃ loaded, Store.loadProgress D F sealer' loadEnv dir'.db id destDir = some loaded ∧
      ∀ restoreEnv share' r, share.resume form S B restoreEnv fs loaded = (share', r) →
        (r = .ok () → ∀ p, disk.share.has p = true → share'.has p = true) ∧
        (RangesTotal B → (∀ f, (restoreEnv f).rangesFail = false ∧
          (restoreEnv f).writtenFail = false) →
          (∀ f entry, m.files[f]? = some entry → Readable S T fs f entry) → r = .ok ()) := by
  obtain ⟨hd, hserve⟩ := hreached.canServe hvalid
  have hadvances := (run_keeps hvalid hd (hserve.genuine hd) hpieces).2.2
  have hstarts := forDownload_ok (S := S) hvalid hprepare
  refine ⟨_, loadProgress_saved hrun hsession hsaved hfits hafter hnot hsession' hloads,
    fun restoreEnv share' r hresume => ?_⟩
  rw [LocalShare.resume, LocalShare.map_read_progress] at hresume
  constructor
  · rintro rfl p hhas
    exact restored_of_snapshots hd hserve hstarts.isDownload
      (fun f entry i d hf hi hmarked hstored => hstarts.keeps f entry i d hf hi
        (hadvances.keeps f entry i d hf hi hmarked hstored)) hresume hhas
  · intro htotal hcalm hread
    have hok := restoreFiles_succeeds htotal hcalm hread
      (disk.share.outboardSnapshots.take share.files.length) 0 share hstarts.isDownload (by
        rw [Nat.zero_add, List.length_take, hstarts.isDownload.files_length]
        exact min_le_left _ _)
    rw [LocalShare.restoreProgress] at hresume
    rwa [hresume] at hok

/-! ## A share of one file -/

namespace Digest

/-- A digest before some bytes. -/
def put : Digest → Bytes → Bytes
  | zero, rest => 0 :: rest
  | leaf i isRoot data, rest =>
      1 :: (if isRoot then 1 else 0) :: packName (List.replicate i 0) (packName data rest)
  | parent isRoot left right, rest =>
      2 :: (if isRoot then 1 else 0) :: left.put (right.put rest)

/-- Read a digest, with as much fuel as it is deep. -/
def take : ℕ → Bytes → Option (Digest × Bytes)
  | 0, _ => none
  | _ + 1, 0 :: rest => some (zero, rest)
  | _ + 1, 1 :: isRoot :: rest => do
      let (i, rest) ← unpackName rest
      let (data, rest) ← unpackName rest
      return (leaf i.length (isRoot == 1) data, rest)
  | fuel + 1, 2 :: isRoot :: rest => do
      let (left, rest) ← take fuel rest
      let (right, rest) ← take fuel rest
      return (parent (isRoot == 1) left right, rest)
  | _, _ => none

lemma length_lt_put (d : Digest) : ∀ rest, rest.length < (d.put rest).length := by
  have hpack : ∀ name value : Bytes, value.length < (packName name value).length := by
    intro name value
    induction name with
    | nil => simp [packName]
    | cons b name ih => simp only [packName, List.length_cons]; omega
  induction d with
  | zero => simp [put]
  | leaf i isRoot data =>
    intro rest
    have h := hpack data rest
    have h' := hpack (List.replicate i 0) (packName data rest)
    simp only [put, List.length_cons]
    omega
  | parent isRoot left right ihl ihr =>
    intro rest
    have h := ihr rest
    have h' := ihl (right.put rest)
    simp only [put, List.length_cons]
    omega

lemma take_put (d : Digest) : ∀ rest fuel, (d.put rest).length ≤ fuel →
    take fuel (d.put rest) = some (d, rest) := by
  induction d with
  | zero =>
    intro rest fuel hfuel
    obtain ⟨fuel, rfl⟩ : ∃ k, fuel = k + 1 := ⟨fuel - 1, by simp [put] at hfuel; omega⟩
    rfl
  | leaf i isRoot data =>
    intro rest fuel hfuel
    obtain ⟨fuel, rfl⟩ : ∃ k, fuel = k + 1 := ⟨fuel - 1, by simp [put] at hfuel; omega⟩
    cases isRoot <;> simp [put, take, unpackName_packName]
  | parent isRoot left right ihl ihr =>
    intro rest fuel hfuel
    have hright := length_lt_put left (right.put rest)
    simp only [put, List.length_cons] at hfuel
    obtain ⟨fuel, rfl⟩ : ∃ k, fuel = k + 1 := ⟨fuel - 1, by omega⟩
    have hl := ihl (right.put rest) fuel (by omega)
    have hr := ihr rest fuel (by omega)
    cases isRoot <;> simp [put, take, hl, hr]

/-- A list of pairs as one digest. -/
def ofPairs : List (Digest × Digest) → Digest
  | [] => zero
  | (left, right) :: pairs => parent false (parent false left right) (ofPairs pairs)

def toPairs : Digest → List (Digest × Digest)
  | parent _ (parent _ left right) pairs => (left, right) :: toPairs pairs
  | _ => []

lemma toPairs_ofPairs (pairs : List (Digest × Digest)) : toPairs (ofPairs pairs) = pairs := by
  induction pairs with
  | nil => rfl
  | cons pair pairs ih => rw [ofPairs, toPairs, ih]

def pairForm : PairForm Digest where
  write pairs := (ofPairs pairs).put []
  read bytes := ((take bytes.length bytes).map fun r => toPairs r.1).getD []
  read_write pairs := by rw [take_put _ _ _ le_rfl, Option.map_some, Option.getD_some,
    toPairs_ofPairs]

end Digest

namespace OneFile

def shareId : ShareId := ⟨List.replicate 32 1, rfl⟩

def dataSealer : Option (Sealer Bytes Bytes) := some (.new referenceSealing SetUp.key)

/-- The data dir, opened with its key. -/
def dataDir : DataDir Bytes Bytes :=
  (DataDir.open referenceSealing SetUp.env .fresh (some SetUp.key)).1

/-- The progress was saved. -/
def saved : Database Bytes Bytes :=
  Store.saveProgress referenceSealing referenceFormats dataSealer
    (SetUp.env 0) dataDir.db shareId "d"
    (arrived.share.progress Digest.pairForm)

/-- The data dir was closed and opened again. -/
def reopened : DataDir Bytes Bytes :=
  (DataDir.open referenceSealing SetUp.env ⟨saved, none⟩ (some SetUp.key)).1

/-- The share set up again. -/
def restarted : LocalShare Bytes Digest :=
  { prepared.share with
    files := [⟨target.data 0 entry, Digest.createOutboard content⟩], held := [true] }

lemma forDownload_restarted :
    LocalShare.forDownload referenceBao target.os prepareEnv manifest target.dest target.key
      arrived.fs = (arrived.fs, .ok restarted) := rfl

lemma reached_arrived : ReachedOnce keys referenceBao target manifest arrived :=
  ⟨prepareEnv, _, _, _, _, _, forDownload_prepared, Or.inl rfl, run_arrived,
    by simp [DownloadOp.isStorePiece]⟩

lemma run_dataDir : Run (DirStep referenceSealing referenceFormats) .fresh
    [.open (some SetUp.key) SetUp.env] dataDir :=
  .single (.open (some SetUp.key) SetUp.env)

lemma run_reopened : Run (DirStep referenceSealing referenceFormats) ⟨saved, some dataSealer⟩
    [.close, .open (some SetUp.key) SetUp.env] reopened :=
  .cons .close (.single (.open (some SetUp.key) SetUp.env))

lemma fits_progress :
    referenceFormats.outboards.Fits (arrived.share.progress Digest.pairForm) :=
  ⟨by decide, fun _ h => ⟨by rw [List.mem_singleton.1 h]; decide, fun _ _ => trivial⟩⟩

end OneFile

open OneFile in
/-- The data dir is closed and opened again between saving and loading. -/
theorem resume_loses_nothing_one_file :
    ∃ loaded, Store.loadProgress referenceSealing referenceFormats dataSealer
      (SetUp.env 0) reopened.db
        shareId "d" = some loaded ∧
      ∀ share', restarted.resume Digest.pairForm keys referenceBao (fun _ => ⟨false, false⟩)
        arrived.fs loaded = (share', .ok ()) → share'.has 0 = true := by
  have hcalm : (SetUp.env 0).fails = false := rfl
  have hopened : dataDir.session = some dataSealer := rfl
  have hreopened : reopened.session = some dataSealer := rfl
  have hcalls : ∀ op env, .call op env ∈
      ([.close, .open (some SetUp.key) SetUp.env] : List (DirEvent Bytes ShareId)) →
        ¬ op.Touches referenceFormats .progress (downloadKey shareId "d") := by simp
  obtain ⟨loaded, hloaded, hresume⟩ := resume_loses_nothing keys referenceBao referenceSealing
    referenceFormats Digest.pairForm validate_manifest reached_arrived run_dataDir hopened hcalm
    fits_progress run_reopened hcalls hreopened hcalm (.nil arrived) forDownload_restarted
  exact ⟨loaded, hloaded, fun share' h => (hresume _ share' _ h).1 rfl 0 (by decide)⟩

end Chorrent
