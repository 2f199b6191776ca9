/-
# A download over many sessions

A download is started, saves its progress from time to time, is stopped or killed, and is started
again, as often as it takes.  Starting may fail at any file, a piece may be torn by a write that
fails, and saving may fail; the data dir may be closed and opened again and is used for other
things meanwhile.  What was saved once stays, and so do its bytes.
-/
import Chorrent.Local.Resume

namespace Chorrent

open Lib

variable {Master Key Hash Wire StorageKey NodeKey NameKey Code : Type}

/-- The files of a download, the data dir, and its share while a session runs. -/
structure Sessions (Master Hash NodeKey NameKey : Type) where
  fs : FileSystem
  dir : DataDir NodeKey NameKey
  share : Option (LocalShare Master Hash)

inductive SessionEvent (StorageKey Code Wire : Type) where
  /-- The data dir is opened, closed, or used for something else. -/
  | store (event : DirEvent StorageKey Code)
  | start (prepare : ℕ → PrepareEnv) (load : TxEnv) (restore : ℕ → RestoreEnv)
  | arrive (env : StoreEnv) (piece : ℕ) (encoded : Wire)
  | save (env : TxEnv)
  /-- The session ends, or its process is killed. -/
  | stop

/-- Where the progress of a download is saved, and how. -/
structure Slot (StorageKey NodeKey NameKey Code Hash : Type) where
  sealing : Sealing StorageKey NodeKey NameKey
  formats : Formats Code
  form : PairForm Hash
  id : ShareId
  destDir : String

namespace Slot

/-- The name of the record. -/
def name (L : Slot StorageKey NodeKey NameKey Code Hash) : String := downloadKey L.id L.destDir

/-- The record that says these outboards. -/
def record (L : Slot StorageKey NodeKey NameKey Code Hash) (outboards : List (List (Hash × Hash))) :
    Bytes :=
  L.formats.outboards.encode (outboards.map L.form.write)

end Slot

/-- Lay out the files, picking up where an earlier attempt left off. -/
def layOut [DecidableEq Hash] (S : StoreKeys Master Key) (B : Bao Hash Wire) (T : Target Master)
    (m : Manifest Hash) (form : PairForm Hash) (prepare : ℕ → PrepareEnv) (restore : ℕ → RestoreEnv)
    (fs : FileSystem) (saved : Option (List Bytes)) :
    FileSystem × Result (LocalShare Master Hash) :=
  match LocalShare.forDownload B T.os prepare m T.dest T.key fs with
  | (fs, .error e) => (fs, .error e)
  | (fs, .ok share) =>
      match saved with
      | none => (fs, .ok share)
      | some saved =>
          match share.resume form S B restore fs saved with
          | (share, .ok ()) => (fs, .ok share)
          | (_, .error e) => (fs, .error e)

inductive SessionStep [DecidableEq Hash] (S : StoreKeys Master Key) (B : Bao Hash Wire)
    (T : Target Master) (m : Manifest Hash) (L : Slot StorageKey NodeKey NameKey Code Hash) :
    Sessions Master Hash NodeKey NameKey → SessionEvent StorageKey Code Wire →
      Sessions Master Hash NodeKey NameKey → Prop
  | store {s event dir} (h : DirStep L.sealing L.formats s.dir event dir) :
      SessionStep S B T m L s (.store event) { s with dir }
  | start {s sealer prepare load restore fs r} (hidle : s.share = none)
      (hopened : s.dir.session = some sealer)
      (h : layOut S B T m L.form prepare restore s.fs
        (Store.loadProgress L.sealing L.formats sealer load s.dir.db L.id L.destDir) = (fs, r)) :
      SessionStep S B T m L s (.start prepare load restore) { s with fs, share := r.toOption }
  | arrive {s share env piece encoded disk} (hshare : s.share = some share)
      (hpiece : piece < share.totalPieces)
      (h : (LocalShare.storePiece S B env ⟨s.fs, share⟩ piece encoded).1 = disk) :
      SessionStep S B T m L s (.arrive env piece encoded)
        { s with fs := disk.fs, share := some disk.share }
  | save {s share sealer env} (hshare : s.share = some share)
      (hopened : s.dir.session = some sealer)
      (hfits : L.formats.outboards.Fits (share.progress L.form)) :
      SessionStep S B T m L s (.save env) { s with
        dir := ⟨Store.saveProgress L.sealing L.formats sealer env s.dir.db L.id L.destDir
          (share.progress L.form), some sealer⟩ }
  | stop {s} : SessionStep S B T m L s .stop { s with share := none }

/-- Nothing was ever saved, and no session runs. -/
def Sessions.New (s : Sessions Master Hash NodeKey NameKey) : Prop :=
  s.dir = .fresh ∧ s.share = none

variable {S : StoreKeys Master Key} {B : Bao Hash Wire} {T : Target Master} {m : Manifest Hash}
  {L : Slot StorageKey NodeKey NameKey Code Hash} {toLowercase : String → String}
  {fs fs' : FileSystem} {s s' : Sessions Master Hash NodeKey NameKey}

/-! ## Starting -/

/-- An attempt to preallocate a file keeps the pieces that are there, also when it fails. -/
lemma preallocate_keeps_always {env : PrepareEnv} {data : FileData Master} {size i : ℕ}
    {file file' : Option Bytes} {r : IoResult Unit} {d : Bytes} (hi : i * blockSize < size)
    (h : preallocate env data size file = (file', r))
    (hpiece : data.pieceAt S size i file = some d) : data.pieceAt S size i file' = some d := by
  cases r with
  | ok u => exact preallocate_keeps hi h hpiece
  | error e =>
    obtain ⟨bytes, rfl⟩ : ∃ bytes, file = some bytes := by
      cases file with
      | none => cases hpiece
      | some bytes => exact ⟨bytes, rfl⟩
    suffices file' = some bytes by rwa [this]
    cases data with
    | plain path =>
      simp only [preallocate, Option.getD_some] at h
      split_ifs at h
      · exact (Prod.mk.inj h).1.symm
      · exact (Prod.mk.inj h).1.symm
      · cases (Prod.mk.inj h).2
    | encrypted path key declared =>
      have hlen : headerSize ≤ bytes.length := by
        rw [FileData.pieceAt] at hpiece
        cases hopen : (FileData.encrypted path key declared).openWith S false false
            (some bytes) with
        | error e =>
          rw [hopen] at hpiece
          cases hpiece
        | ok handle => exact (openWith_encrypted hopen).2
      simp only [preallocate, Option.any_some, hlen, decide_true, if_true] at h
      split_ifs at h
      · exact (Prod.mk.inj h).1.symm
      · cases (Prod.mk.inj h).2

variable [DecidableEq Hash]

/-- Every piece of the manifest that is there stays there. -/
def KeepsStored (S : StoreKeys Master Key) (T : Target Master) (m : Manifest Hash)
    (fs fs' : FileSystem) : Prop :=
  ∀ (f : ℕ) (entry : FileEntry Hash) (i : ℕ) (d : Bytes), m.files[f]? = some entry →
    i < entry.pieces → T.stored S fs f entry i = some d → T.stored S fs' f entry i = some d

lemma prepareFile_keeps {env : PrepareEnv} {f : ℕ} {entry : FileEntry Hash}
    {r : Result (LocalFile Master Hash × Bool)} (hvalid : m.validate toLowercase = .ok ())
    (hf : m.files[f]? = some entry)
    (h : LocalShare.prepareFile B T.os T.dest T.key env fs f entry = (fs', r)) :
    KeepsStored S T m fs fs' := by
  intro f' entry' i d hf' hi hd
  have hdata : LocalShare.fileData T.os T.dest T.key f entry = T.data f entry := rfl
  rw [LocalShare.prepareFile] at h
  simp only [hdata] at h
  split at h
  · obtain ⟨rfl, -⟩ := Prod.mk.inj h
    exact hd
  · obtain ⟨⟨file, r'⟩, hpre⟩ : ∃ made,
        preallocate env (T.data f entry) entry.size (fs (T.data f entry).path) = made := ⟨_, rfl⟩
    rw [hpre] at h
    obtain ⟨rfl, -⟩ := Prod.mk.inj h
    by_cases hff : f' = f
    · subst hff
      obtain rfl : entry = entry' := Option.some.inj (hf.symm.trans hf')
      rw [Target.stored, Function.update_self]
      exact preallocate_keeps_always (lt_blockCount.1 hi) hpre hd
    · rw [stored_congr (Function.update_of_ne
        (fun hpath => hff (Target.path_injective hvalid hf' hf hpath)) _ _), hd]

lemma prepareFiles_keeps {env : ℕ → PrepareEnv} (hvalid : m.validate toLowercase = .ok ())
    (entries : List (FileEntry Hash)) : ∀ (fs : FileSystem) (index : ℕ)
    (r : Result (List (LocalFile Master Hash × Bool))),
    (∀ (k : ℕ) (entry : FileEntry Hash), entries[k]? = some entry →
      m.files[index + k]? = some entry) →
    LocalShare.prepareFiles B T.os T.dest T.key env fs index entries = (fs', r) →
    KeepsStored S T m fs fs' := by
  induction entries with
  | nil =>
    intro fs index r _ h
    obtain ⟨rfl, -⟩ := Prod.mk.inj h
    exact fun _ _ _ _ _ _ hd => hd
  | cons entry entries ih =>
    intro fs index r hentries h
    rw [LocalShare.prepareFiles] at h
    obtain ⟨⟨fs₁, one⟩, hone⟩ : ∃ made,
        LocalShare.prepareFile B T.os T.dest T.key (env index) fs index entry = made := ⟨_, rfl⟩
    have hkeeps : KeepsStored S T m fs fs₁ := prepareFile_keeps hvalid (hentries 0 entry rfl) hone
    rw [hone] at h
    cases one with
    | error e =>
      obtain ⟨rfl, -⟩ := Prod.mk.inj h
      exact hkeeps
    | ok file =>
      obtain ⟨⟨fs₂, rest⟩, hmany⟩ : ∃ made,
          LocalShare.prepareFiles B T.os T.dest T.key env fs₁ (index + 1) entries = made := ⟨_, rfl⟩
      simp only [hmany] at h
      obtain ⟨rfl, -⟩ := Prod.mk.inj h
      have hrest := ih fs₁ (index + 1) rest (fun k entry' hk => by
        rw [Nat.add_assoc, Nat.add_comm 1]
        exact hentries (k + 1) entry' hk) hmany
      exact fun f entry' i d hf hi hd => hrest f entry' i d hf hi (hkeeps f entry' i d hf hi hd)

/-- Restoring progress changes no file. -/
lemma layOut_fs (form : PairForm Hash) (prepare : ℕ → PrepareEnv) (restore : ℕ → RestoreEnv)
    (fs : FileSystem) (saved : Option (List Bytes)) :
    (layOut S B T m form prepare restore fs saved).1 =
      (LocalShare.forDownload B T.os prepare m T.dest T.key fs).1 := by
  rw [layOut]
  rcases LocalShare.forDownload B T.os prepare m T.dest T.key fs with ⟨fs', e | share⟩
  · rfl
  · rcases saved with _ | saved
    · rfl
    · simp only
      rcases share.resume form S B restore fs' saved with ⟨share', e | u⟩
      · rfl
      · rfl

lemma layOut_keeps {prepare : ℕ → PrepareEnv} {restore : ℕ → RestoreEnv}
    {saved : Option (List Bytes)} {r : Result (LocalShare Master Hash)}
    (hvalid : m.validate toLowercase = .ok ())
    (h : layOut S B T m L.form prepare restore fs saved = (fs', r)) :
    KeepsStored S T m fs fs' := by
  have hfs := layOut_fs (S := S) (B := B) (T := T) (m := m) L.form prepare restore fs saved
  rw [h] at hfs
  obtain rfl : fs' = _ := hfs
  rw [LocalShare.forDownload]
  obtain ⟨⟨fs₂, files⟩, hfiles⟩ : ∃ files,
      LocalShare.prepareFiles B T.os T.dest T.key prepare fs 0 m.files = files := ⟨_, rfl⟩
  have hkeeps : KeepsStored S T m fs fs₂ := prepareFiles_keeps hvalid m.files fs 0 files
    (fun k entry hk => by rwa [Nat.zero_add]) hfiles
  rw [hfiles]
  rcases files with e | files
  · exact hkeeps
  · exact hkeeps

lemma layOut_ok {prepare : ℕ → PrepareEnv} {restore : ℕ → RestoreEnv} {saved : Option (List Bytes)}
    {share : LocalShare Master Hash}
    (h : layOut S B T m L.form prepare restore fs saved = (fs', .ok share)) :
    ∃ share₀, LocalShare.forDownload B T.os prepare m T.dest T.key fs = (fs', .ok share₀) ∧
      ((saved = none ∧ share = share₀) ∨ ∃ outboards, saved = some outboards ∧
        share₀.resume L.form S B restore fs' outboards = (share, .ok ())) := by
  rw [layOut] at h
  split at h
  · cases (Prod.mk.inj h).2
  · rename_i fs₁ share₀ hstart
    split at h
    · obtain ⟨rfl, hshare⟩ := Prod.mk.inj h
      obtain rfl := Except.ok.inj hshare
      exact ⟨_, hstart, .inl ⟨rfl, rfl⟩⟩
    · rename_i outboards
      split at h
      · rename_i share₁ hresume
        obtain ⟨rfl, hshare⟩ := Prod.mk.inj h
        obtain rfl := Except.ok.inj hshare
        exact ⟨_, hstart, .inr ⟨outboards, rfl, hresume⟩⟩
      · cases (Prod.mk.inj h).2

/-! ## What a session has it can prove -/

/-- The share that runs is one of this download, and its outboards prove what it has. -/
def Sessions.Proved (S : StoreKeys Master Key) (B : Bao Hash Wire) (T : Target Master)
    (m : Manifest Hash) (s : Sessions Master Hash NodeKey NameKey) : Prop :=
  ∀ share, s.share = some share → IsDownload T m share ∧ CanServe S B T m ⟨s.fs, share⟩

/-- What the data dir has been used for. -/
def Sessions.Used (L : Slot StorageKey NodeKey NameKey Code Hash)
    (s : Sessions Master Hash NodeKey NameKey) : Prop :=
  ∃ events : List (DirEvent StorageKey Code), Run (DirStep L.sealing L.formats) .fresh events s.dir

lemma layOut_proved {prepare : ℕ → PrepareEnv} {restore : ℕ → RestoreEnv}
    {saved : Option (List Bytes)} {share : LocalShare Master Hash}
    (hvalid : m.validate toLowercase = .ok ())
    (h : layOut S B T m L.form prepare restore fs saved = (fs', .ok share)) :
    IsDownload T m share ∧ CanServe S B T m ⟨fs', share⟩ := by
  obtain ⟨share₀, hstart, hsaved⟩ := layOut_ok h
  have hstarts := forDownload_ok (S := S) hvalid hstart
  rcases hsaved with ⟨-, rfl⟩ | ⟨outboards, -, hresume⟩
  · exact ⟨hstarts.isDownload, hstarts.canServe⟩
  · have hspec := restoreProgress_spec S B fs' restore hstarts.isDownload
      (outboards.map L.form.read)
    rw [LocalShare.resume] at hresume
    rw [hresume] at hspec
    exact ⟨hspec.isDownload,
      hspec.canServe (fun f entry _ hf => hstarts.whole f entry hf) hstarts.canServe⟩

omit [DecidableEq Hash] in
/-- A piece that arrives. -/
lemma arrive_spec (disk : Disk Master Hash) (env : StoreEnv) {piece : ℕ} (encoded : Wire)
    (hvalid : m.validate toLowercase = .ok ()) (hd : IsDownload T m disk.share)
    (hserve : CanServe S B T m disk) (hpiece : piece < disk.share.totalPieces) :
    IsDownload T m (LocalShare.storePiece S B env disk piece encoded).1.share ∧
      CanServe S B T m (LocalShare.storePiece S B env disk piece encoded).1 ∧
      Advances S T m disk (LocalShare.storePiece S B env disk piece encoded).1 := by
  rw [LocalShare.totalPieces, hd.layout_eq] at hpiece
  obtain ⟨f, i, entry, hf, hi, rfl⟩ := Layout.exists_piece hpiece
  have hspec := storePiece_spec S B encoded env hd hf hi
  exact ⟨hspec.isDownload hd hf, hspec.canServe hvalid hd hf hi hserve, hspec.advances hvalid hf⟩

lemma proved_step {event : SessionEvent StorageKey Code Wire}
    (hvalid : m.validate toLowercase = .ok ()) (h : s.Proved S B T m)
    (hstep : SessionStep S B T m L s event s') : s'.Proved S B T m := by
  intro share' hshare'
  cases hstep with
  | store | save => exact h share' hshare'
  | stop => cases hshare'
  | @start sealer prepare load restore fs r hidle hopened hlay =>
    obtain ⟨rfl⟩ : r = .ok share' := by
      cases r with
      | error e => cases hshare'
      | ok share => rw [Option.some.inj hshare']
    exact layOut_proved hvalid hlay
  | @arrive share env piece encoded disk hshare hpiece hstore =>
    obtain ⟨hd, hserve⟩ := h share hshare
    obtain ⟨hd', hserve', -⟩ := arrive_spec ⟨s.fs, share⟩ env encoded hvalid hd hserve hpiece
    subst hstore
    obtain rfl := Option.some.inj hshare'
    exact ⟨hd', hserve'⟩

omit [DecidableEq Hash] in
lemma used_saveProgress {sealer : Option (Sealer NodeKey NameKey)} {env : TxEnv}
    {outboards : List Bytes} (h : s.Used L) (hopened : s.dir.session = some sealer) :
    ∃ events : List (DirEvent StorageKey Code), Run (DirStep L.sealing L.formats) .fresh events
      ⟨Store.saveProgress L.sealing L.formats sealer env s.dir.db L.id L.destDir outboards,
        some sealer⟩ := by
  obtain ⟨events, hrun⟩ := h
  exact ⟨_, hrun.snoc (.call (.saveProgress L.id L.destDir outboards) (fun _ => env) hopened)⟩

lemma used_step {event : SessionEvent StorageKey Code Wire} (h : s.Used L)
    (hstep : SessionStep S B T m L s event s') : s'.Used L := by
  cases hstep with
  | store hdir =>
    obtain ⟨events, hrun⟩ := h
    exact ⟨_, hrun.snoc hdir⟩
  | start | arrive | stop => exact h
  | save hshare hopened => exact used_saveProgress h hopened

/-! ## What was saved is found again -/

omit [DecidableEq Hash] in
/-- A put that fails changes no record. -/
lemma Saved.put_fails {D : Sealing StorageKey NodeKey NameKey} {dir : DataDir NodeKey NameKey}
    {sealer : Option (Sealer NodeKey NameKey)} {table : Table} {name : String} {value : Bytes}
    {env : TxEnv} (htable : table ≠ .meta) (h : Saved D dir table name value)
    (hopened : dir.session = some sealer) (hfails : env.fails = true) (value' : Bytes) :
    Saved D ⟨(Store.put D sealer env dir.db table name value').1, some sealer⟩ table name
      value := by
  obtain ⟨sealer', V, hshows, hvalue, hwith, hsession⟩ := h
  rw [hopened] at hsession
  obtain rfl : sealer = sealer' := Option.some.inj (hsession.resolve_left (by simp))
  have hmarker := (Accesses.put D sealer dir.db env table name value'
    (isName_of_ne htable)).keepsUniform.marker
  have hput := hshows.put env (isName_of_ne htable : IsName table name) value'
  rw [hfails, if_pos rfl] at hput
  refine ⟨sealer, V, hput, hvalue, ?_, .inr rfl⟩
  have hformat := hmarker formatName isMarker_format
  have hfingerprint := hmarker fingerprintName isMarker_fingerprint
  rcases hwith with ⟨hf, hm, hs⟩ | ⟨key, hf, hm, hs⟩
  · exact .inl ⟨hfingerprint.trans hf, hformat.trans hm, hs⟩
  · exact .inr ⟨key, hfingerprint.trans hf, hformat.trans hm, hs⟩

/-- What was had on a disk is saved with its proofs, its bytes are still there, and a session that
runs has it. -/
structure Secured (S : StoreKeys Master Key) (B : Bao Hash Wire) (T : Target Master)
    (m : Manifest Hash) (L : Slot StorageKey NodeKey NameKey Code Hash) (disk : Disk Master Hash)
    (s : Sessions Master Hash NodeKey NameKey) : Prop where
  saved : ∃ outboards, Saved L.sealing s.dir .progress L.name (L.record outboards) ∧
    L.formats.outboards.Fits (outboards.map L.form.write) ∧
    ∀ (f : ℕ) (entry : FileEntry Hash) (i : ℕ), m.files[f]? = some entry → i < entry.pieces →
      disk.share.has (Layout.firstOf m f + i) = true → ∃ data, outboards[f]? = some data ∧
        data.length = outboardSize entry.size ∧
        Stores S B T s.fs (savedOutboard entry data).load f entry i
  bytes : ∀ (f : ℕ) (entry : FileEntry Hash) (i : ℕ), m.files[f]? = some entry →
    i < entry.pieces → disk.share.has (Layout.firstOf m f + i) = true → ∃ d,
      T.stored S disk.fs f entry i = some d ∧ T.stored S s.fs f entry i = some d
  had : ∀ share, s.share = some share → ∀ p, disk.share.has p = true → share.has p = true

omit [DecidableEq Hash] in
/-- The outboards, as they are saved, prove what a share has. -/
lemma snapshot_proves {disk : Disk Master Hash} {f i : ℕ} {entry : FileEntry Hash}
    (hd : IsDownload T m disk.share) (hserve : CanServe S B T m disk)
    (hf : m.files[f]? = some entry) (hi : i < entry.pieces)
    (hhas : disk.share.has (Layout.firstOf m f + i) = true) :
    ∃ data, disk.share.outboardSnapshots[f]? = some data ∧ data.length = outboardSize entry.size ∧
      Stores S B T disk.fs (savedOutboard entry data).load f entry i := by
  obtain ⟨outboard, hfile, hroot, hsize, hlength⟩ := hd.file_eq f entry hf
  refine ⟨outboard.data, ?_, hlength, ?_⟩
  · rw [LocalShare.outboardSnapshots, List.getElem?_map, hfile]
    rfl
  · have hsame : savedOutboard entry outboard.data = outboard := by
      rw [savedOutboard, ← hroot, ← hsize]
    rw [hsame]
    exact hserve f entry outboard i hf hfile hi hhas

namespace Secured

variable {disk : Disk Master Hash}

omit [DecidableEq Hash] in
/-- The files change, and nothing that was secured. -/
lemma keep (h : Secured S B T m L disk s)
    (hkeeps : ∀ (f : ℕ) (entry : FileEntry Hash) (i : ℕ) (d : Bytes), m.files[f]? = some entry →
      i < entry.pieces → disk.share.has (Layout.firstOf m f + i) = true →
      T.stored S s.fs f entry i = some d → T.stored S fs' f entry i = some d)
    {share : Option (LocalShare Master Hash)}
    (hhad : ∀ share', share = some share' → ∀ p, disk.share.has p = true → share'.has p = true) :
    Secured S B T m L disk { s with fs := fs', share } := by
  obtain ⟨outboards, hsaved, hfits, hproves⟩ := h.saved
  refine ⟨⟨outboards, hsaved, hfits, fun f entry i hf hi hhas => ?_⟩,
    fun f entry i hf hi hhas => ?_, hhad⟩
  · obtain ⟨data, hdata, hlength, d, hstored, hproof⟩ := hproves f entry i hf hi hhas
    exact ⟨data, hdata, hlength, d, hkeeps f entry i d hf hi hhas hstored, hproof⟩
  · obtain ⟨d, hold, hstored⟩ := h.bytes f entry i hf hi hhas
    exact ⟨d, hold, hkeeps f entry i d hf hi hhas hstored⟩

/-- A session that starts has what was secured, if the progress can be loaded. -/
lemma has_of_layOut {sealer : Option (Sealer NodeKey NameKey)} {prepare : ℕ → PrepareEnv}
    {load : TxEnv} {restore : ℕ → RestoreEnv} {share : LocalShare Master Hash}
    (hvalid : m.validate toLowercase = .ok ()) (h : Secured S B T m L disk s)
    (hopened : s.dir.session = some sealer) (hload : load.fails = false)
    (hlay : layOut S B T m L.form prepare restore s.fs (Store.loadProgress L.sealing L.formats
      sealer load s.dir.db L.id L.destDir) = (fs', .ok share))
    (hd : IsDownload T m disk.share) {p : ℕ} (hhas : disk.share.has p = true) :
    share.has p = true := by
  obtain ⟨outboards, hsaved, hfits, hproves⟩ := h.saved
  have hloaded : Store.loadProgress L.sealing L.formats sealer load s.dir.db L.id L.destDir =
      some (outboards.map L.form.write) := by
    have hdecode := L.formats.outboards.decode_encode _ [] hfits
    rw [List.append_nil] at hdecode
    have hget := hsaved.get (by decide) hopened hload
    rw [Slot.name] at hget
    rw [Store.loadProgress, hget]
    simp only [Slot.record, hdecode, Option.map_some]
  rw [hloaded] at hlay
  have hkeeps := layOut_keeps hvalid hlay
  obtain ⟨share₀, hstart, hnone | ⟨_, hsome, hresume⟩⟩ := layOut_ok hlay
  · cases hnone.1
  obtain rfl := Option.some.inj hsome
  have hstarts := forDownload_ok (S := S) hvalid hstart
  have hread : (outboards.map L.form.write).map L.form.read = outboards := by
    simp only [List.map_map, Function.comp_def, L.form.read_write, List.map_id']
  rw [LocalShare.resume, hread] at hresume
  have hspec := restoreProgress_spec S B fs' restore hstarts.isDownload outboards
  rw [hresume] at hspec
  obtain ⟨f, i, entry, hf, hi, rfl⟩ := Layout.exists_piece (lt_totalPieces_of_has hd hhas)
  obtain ⟨data, hdata, hlength, d, hstored, hproof⟩ := hproves f entry i hf hi hhas
  have htaken : (outboards.take share₀.files.length)[f]? = some data := by
    rw [List.getElem?_take_of_lt, hdata]
    rw [hstarts.isDownload.files_length]
    exact (List.getElem?_eq_some_iff.1 hf).1
  have hdone := hspec.complete rfl f data entry i htaken (by rwa [Nat.zero_add]) hlength hi
    (by rw [Nat.zero_add]; exact ⟨d, hkeeps f entry i d hf hi hstored, hproof⟩)
  rwa [Nat.zero_add] at hdone

omit [DecidableEq Hash] in
/-- What a session has when it saves its progress is secured. -/
lemma of_save {sealer : Option (Sealer NodeKey NameKey)} {env : TxEnv}
    {share : LocalShare Master Hash} (hused : s.Used L) (hproved : s.Proved S B T m)
    (hshare : s.share = some share) (hopened : s.dir.session = some sealer)
    (hcalm : env.fails = false) (hfits : L.formats.outboards.Fits (share.progress L.form))
    (hhad : ∀ p, disk.share.has p = true → share.has p = true)
    (hbytes : ∀ (f : ℕ) (entry : FileEntry Hash) (i : ℕ), m.files[f]? = some entry →
      i < entry.pieces → disk.share.has (Layout.firstOf m f + i) = true → ∃ d,
        T.stored S disk.fs f entry i = some d ∧ T.stored S s.fs f entry i = some d) :
    Secured S B T m L disk { s with
      dir := ⟨Store.saveProgress L.sealing L.formats sealer env s.dir.db L.id L.destDir
        (share.progress L.form), some sealer⟩ } := by
  obtain ⟨events, hrun⟩ := hused
  obtain ⟨hd, hserve⟩ := hproved share hshare
  refine ⟨⟨share.outboardSnapshots, ?_, hfits, fun f entry i hf hi hhas =>
    snapshot_proves hd hserve hf hi (hhad _ hhas)⟩, hbytes, fun share' hshare' p hp => ?_⟩
  · exact saved_put (by decide) hrun hopened hcalm
  · obtain rfl := Option.some.inj (hshare.symm.trans hshare')
    exact hhad p hp

end Secured

/-- Neither loading the progress fails, nor does anything else touch it. -/
def SessionEvent.Fair (L : Slot StorageKey NodeKey NameKey Code Hash) :
    SessionEvent StorageKey Code Wire → Prop
  | .store event => ∀ op env, event = .call op env → ¬ op.Touches L.formats .progress L.name
  | .start _ load _ => load.fails = false
  | .arrive _ _ _ | .save _ | .stop => True

lemma secured_step {disk : Disk Master Hash} {event : SessionEvent StorageKey Code Wire}
    (hvalid : m.validate toLowercase = .ok ()) (hd : IsDownload T m disk.share)
    (hfair : event.Fair L) (hused : s.Used L) (hproved : s.Proved S B T m)
    (h : Secured S B T m L disk s) (hstep : SessionStep S B T m L s event s') :
    Secured S B T m L disk s' := by
  cases hstep with
  | store hdir =>
    obtain ⟨outboards, hsaved, hrest⟩ := h.saved
    exact ⟨⟨outboards, hsaved.step (by decide) hfair hdir, hrest⟩, h.bytes, h.had⟩
  | @start sealer prepare load restore fs r hidle hopened hlay =>
    have hkeeps := layOut_keeps hvalid hlay
    refine h.keep (fun f entry i d hf hi _ => hkeeps f entry i d hf hi) fun share hshare p hp => ?_
    obtain ⟨rfl⟩ : r = .ok share := by
      cases r with
      | error e => cases hshare
      | ok share => rw [Option.some.inj hshare]
    exact h.has_of_layOut hvalid hopened hfair hlay hd hp
  | @arrive share env piece encoded disk' hshare hpiece hstore =>
    obtain ⟨hd', hserve'⟩ := hproved share hshare
    obtain ⟨-, -, hadvances⟩ := arrive_spec ⟨s.fs, share⟩ env encoded hvalid hd' hserve' hpiece
    subst hstore
    refine h.keep (fun f entry i d hf hi hhas => ?_) fun share' hshare' p hp => ?_
    · exact hadvances.keeps f entry i d hf hi (h.had share hshare _ hhas)
    · obtain rfl := Option.some.inj hshare'
      exact hadvances.has_mono p (h.had share hshare p hp)
  | @save share sealer env hshare hopened hfits =>
    cases hfails : env.fails with
    | true =>
      obtain ⟨outboards, hsaved, hrest⟩ := h.saved
      exact ⟨⟨outboards, hsaved.put_fails (by decide) hopened hfails _, hrest⟩, h.bytes, h.had⟩
    | false =>
      exact .of_save hused hproved hshare hopened hfails hfits (h.had share hshare) h.bytes
  | stop =>
    exact ⟨h.saved, h.bytes, fun share hshare => by cases hshare⟩

lemma sessions_run {events : List (SessionEvent StorageKey Code Wire)}
    (hvalid : m.validate toLowercase = .ok ()) (hnew : s.New)
    (hrun : Run (SessionStep S B T m L) s events s') : s'.Used L ∧ s'.Proved S B T m := by
  have hused : s.Used L := ⟨[], by rw [hnew.1]; exact .nil _⟩
  have hproved : s.Proved S B T m := fun share hshare => by
    rw [hnew.2] at hshare
    cases hshare
  exact hrun.invariant (P := fun s => s.Used L ∧ s.Proved S B T m) (fun s event s' h hstep =>
    ⟨used_step h.1 hstep, proved_step hvalid h.2 hstep⟩) ⟨hused, hproved⟩

/-- What was saved is never lost.  Once the progress of a download was saved, and as long as it can
be loaded and nothing else removes it, each piece that was had then keeps its bytes; every session
that is started after any number of crashes and failed starts has it, passes it on, and never
writes it again. -/
theorem restarts_lose_nothing (S : StoreKeys Master Key) (B : Bao Hash Wire)
    (L : Slot StorageKey NodeKey NameKey Code Hash) (hvalid : m.validate toLowercase = .ok ())
    {s₀ s₁ s₂ : Sessions Master Hash NodeKey NameKey}
    {events events' : List (SessionEvent StorageKey Code Wire)} (hnew : s₀.New)
    (hrun : Run (SessionStep S B T m L) s₀ events s) {share : LocalShare Master Hash}
    (hshare : s.share = some share) {env : TxEnv} (hcalm : env.fails = false)
    (hsave : SessionStep S B T m L s (.save env) s₁) (hfair : ∀ event ∈ events', event.Fair L)
    (hrest : Run (SessionStep S B T m L) s₁ events' s₂) {f i : ℕ} {entry : FileEntry Hash}
    (hf : m.files[f]? = some entry) (hi : i < entry.pieces)
    (hhas : share.has (Layout.firstOf m f + i) = true) :
    (∃ d, T.stored S s.fs f entry i = some d ∧ T.stored S s₂.fs f entry i = some d) ∧
      ∀ share₂, s₂.share = some share₂ → share₂.has (Layout.firstOf m f + i) = true ∧
        (∃ encoded, LocalShare.encodePiece S B false s₂.fs share₂ (Layout.firstOf m f + i) =
          .ok encoded) ∧
        ∀ env encoded, LocalShare.storePiece S B env ⟨s₂.fs, share₂⟩ (Layout.firstOf m f + i)
          encoded = (⟨s₂.fs, share₂⟩, .ok false) := by
  obtain ⟨hused, hproved⟩ := sessions_run hvalid hnew hrun
  obtain ⟨hd, hserve⟩ := hproved share hshare
  have hused₁ := used_step hused hsave
  have hproved₁ := proved_step hvalid hproved hsave
  have hsecured : Secured S B T m L ⟨s.fs, share⟩ s₁ := by
    cases hsave with
    | @save share' sealer env hshare' hopened hfits =>
      obtain rfl := Option.some.inj (hshare.symm.trans hshare')
      refine .of_save hused hproved hshare hopened hcalm hfits (fun _ hp => hp)
        fun f entry i hf hi hhas => ?_
      obtain ⟨outboard, hfile, -⟩ := hd.file_eq f entry hf
      obtain ⟨d, hstored, -⟩ := hserve f entry outboard i hf hfile hi hhas
      exact ⟨d, hstored, hstored⟩
  -- every later step keeps the invariant, and what is secured
  obtain ⟨hproved₂, hsecured₂⟩ : s₂.Proved S B T m ∧ Secured S B T m L ⟨s.fs, share⟩ s₂ := by
    clear hsave
    induction hrest with
    | nil => exact ⟨hproved₁, hsecured⟩
    | cons hstep _ ih =>
      exact ih (fun event hevent => hfair event (List.mem_cons_of_mem _ hevent))
        (used_step hused₁ hstep) (proved_step hvalid hproved₁ hstep)
        (secured_step hvalid hd (hfair _ List.mem_cons_self) hused₁ hproved₁ hsecured hstep)
  refine ⟨hsecured₂.bytes f entry i hf hi hhas, fun share₂ hshare₂ => ?_⟩
  obtain ⟨hd₂, hserve₂⟩ := hproved₂ share₂ hshare₂
  have hhas₂ := hsecured₂.had share₂ hshare₂ _ hhas
  have hdisk : IsDownload T m (Disk.mk s₂.fs share₂).share := hd₂
  exact ⟨hhas₂, encodePiece_succeeds hdisk hserve₂ hf hi hhas₂, fun env encoded => if_pos hhas₂⟩

/-! ## A share of one file -/

namespace OneFile

def slot : Slot Bytes Bytes Bytes ShareId Digest :=
  ⟨referenceSealing, referenceFormats, Digest.pairForm, shareId, "d"⟩

/-- Nothing is there yet. -/
def untouched : Sessions Bytes Digest Bytes Bytes := ⟨fun _ => none, .fresh, none⟩

lemma new_untouched : untouched.New := ⟨rfl, rfl⟩

/-- The data dir is open, and the piece of the file has arrived. -/
def downloading : Sessions Bytes Digest Bytes Bytes := ⟨arrived.fs, dataDir, some arrived.share⟩

lemma dataDir_opened : dataDir.session = some dataSealer := rfl

lemma run_downloading : Run (SessionStep keys referenceBao target manifest slot) untouched
    [.store (.open (some SetUp.key) SetUp.env), .start prepareEnv (SetUp.env 0)
      fun _ => ⟨false, false⟩, .arrive storeEnv 0 ([], content)] downloading :=
  .cons (.store (.open (some SetUp.key) SetUp.env)) <|
    .cons (.start rfl dataDir_opened rfl) <| .single (.arrive rfl (by decide) rfl)

/-- The progress was saved. -/
def kept : Sessions Bytes Digest Bytes Bytes :=
  ⟨arrived.fs, ⟨saved, some dataSealer⟩, some arrived.share⟩

def killed : Sessions Bytes Digest Bytes Bytes := ⟨arrived.fs, ⟨saved, some dataSealer⟩, none⟩

def resumed : Sessions Bytes Digest Bytes Bytes :=
  ⟨arrived.fs, ⟨saved, some dataSealer⟩, some restarted⟩

lemma step_kept :
    SessionStep keys referenceBao target manifest slot downloading (.save (SetUp.env 0)) kept :=
  .save rfl dataDir_opened fits_progress

lemma layOut_restarted : layOut keys referenceBao target manifest Digest.pairForm prepareEnv
    (fun _ => ⟨false, false⟩) arrived.fs (some (arrived.share.progress Digest.pairForm)) =
      (arrived.fs, .ok restarted) := rfl

lemma run_resumed : Run (SessionStep keys referenceBao target manifest slot) kept
    [.stop, .start prepareEnv (SetUp.env 0) fun _ => ⟨false, false⟩] resumed := by
  have hcalm : (SetUp.env 0).fails = false := rfl
  have hopened : killed.dir.session = some dataSealer := rfl
  have hloaded : Store.loadProgress referenceSealing referenceFormats dataSealer (SetUp.env 0)
      killed.dir.db shareId "d" = some (arrived.share.progress Digest.pairForm) :=
    loadProgress_saved run_dataDir dataDir_opened hcalm fits_progress (.nil killed.dir) (by simp)
      hopened hcalm
  have hlay : layOut keys referenceBao target manifest slot.form prepareEnv
      (fun _ => ⟨false, false⟩) killed.fs (Store.loadProgress slot.sealing slot.formats dataSealer
        (SetUp.env 0) killed.dir.db slot.id slot.destDir) = (arrived.fs, .ok restarted) := by
    rw [slot, hloaded]
    exact layOut_restarted
  have hidle : killed.share = none := rfl
  have hstop : SessionStep keys referenceBao target manifest slot kept .stop killed := .stop
  exact .cons hstop (.single (.start hidle hopened hlay))

end OneFile

open OneFile in
/-- The process is killed once the progress was saved, and started again. -/
theorem restarts_lose_nothing_one_file :
    restarted.has 0 = true ∧ ∃ encoded,
      LocalShare.encodePiece keys referenceBao false arrived.fs restarted 0 = .ok encoded := by
  have hrunning : downloading.share = some arrived.share := rfl
  have hcalm : (SetUp.env 0).fails = false := rfl
  have hfair : ∀ event ∈ ([.stop, .start prepareEnv (SetUp.env 0) fun _ => ⟨false, false⟩] :
      List (SessionEvent Bytes ShareId Digest.Encoding)), event.Fair slot := by
    simp [SessionEvent.Fair, SetUp.env]
  have hentry : manifest.files[0]? = some OneFile.entry := rfl
  have hhas : arrived.share.has (Layout.firstOf manifest 0 + 0) = true := by decide
  have hlost := (restarts_lose_nothing keys referenceBao slot validate_manifest new_untouched
    run_downloading hrunning hcalm step_kept hfair run_resumed hentry (by decide) hhas).2
  obtain ⟨hkept, hserved, -⟩ := hlost restarted rfl
  exact ⟨hkept, hserved⟩

end Chorrent
