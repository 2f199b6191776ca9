/-
# Saved shares

How a share is saved and loaded again (`remember_seed`, `load_seed` of `store.rs`).  A plain
share whose files look unchanged is taken as it was saved; if they look changed, its manifest
is made anew from what is on disk now.  A share in the encrypted store is checked against its
hashes instead.  The file system is what the operating system answers about each path.
-/
import Chorrent.Client.Tables
import Chorrent.Local.Resume
import Chorrent.Manifest.FromDisk

namespace Chorrent

open Lib

/-- The bytes of a file; their number is a 64-bit number. -/
abbrev FileBytes := { content : Bytes // content.length < 2 ^ 64 }

/-- What the operating system answers. -/
structure SeedDisk where
  /-- What is found at a path and below it. -/
  tree : Path → Tree
  /-- The bytes of a file, read from start to end. -/
  read : Path → IoResult FileBytes
  len : Path → IoResult ℕ
  /-- The modified time, in nanoseconds since 1970 unless it is earlier. -/
  mtime : Path → Option ℕ
  len_of_read : ∀ path content, read path = .ok content → len path = .ok content.1.length

namespace SeedDisk

variable (disk : SeedDisk)

/-- `modified`: size and modified time. -/
def modified (path : Path) : Option (ℕ × ℕ) :=
  match disk.len path with
  | .ok size => (disk.mtime path).map fun mtime => (size, mtime)
  | .error _ => none

/-- The files that can be read. -/
def fs : FileSystem := fun path => (disk.read path).toOption.map Subtype.val

/-- The path of what is found at these names below a root. -/
def below (os : Os) (root : Path) (names : DiskNames) : Path :=
  names.foldl (fun path name => path.join os ((ofUtf8 name).getD "")) root

end SeedDisk

/-- A share that is complete, with what goes with it. -/
structure Seed (Master Hash : Type) where
  id : Hash
  manifestBytes : Bytes
  secret : Option (List.Vector UInt8 32)
  share : LocalShare Master Hash
  allowed : Option (Finset EndpointId)

section

variable {Master Key Hash Wire : Type} (S : StoreKeys Master Key) (B : Bao Hash Wire)
  (form : PairForm Hash) (toLowercase : String → String) (idOf : Bytes → Hash) (hash : Codec Hash)
  (os : Os) (disk : SeedDisk)

/-! ## Hashing -/

/-- `hash_file`: the outboard of an ordinary file. -/
def hashFile (path : Path) : Result (FileOutboard Hash) :=
  (IoResult.orError (fun e => .chunker (.openFailed path e)) (disk.read path)).map fun content =>
    ⟨B.create content.1, by rw [B.create_size]; exact content.2⟩

/-- `hash_data`: the outboard of a file wherever it is kept. -/
def hashData (data : FileData Master) (size : ℕ) : Result (Outboard Hash) :=
  match data with
  | .plain path => (hashFile B disk path).map Subtype.val
  | .encrypted path _ _ => do
      let handle ← IoResult.orError (fun e => .chunker (.openFailed path e))
        (data.openWith S false true (disk.fs path))
      let content ← IoResult.orError (fun e => .chunker (.hashFailed path e))
        (handle.readExactAt S.cipher ((disk.fs path).getD []) 0 size)
      return B.create content

/-- The loop of `verify`. -/
def verifyFiles [DecidableEq Hash] :
    List (LocalFile Master Hash) → List (FileEntry Hash) → Result Unit
  | file :: files, entry :: entries => do
      let outboard ← hashData S B disk file.data entry.size
      if outboard.root ≠ entry.rootHash then throw (.fail (.hashMismatch file.data.path))
      verifyFiles files entries
  | _, _ => .ok ()

/-- Check every file against its hash. -/
def LocalShare.verify [DecidableEq Hash] (share : LocalShare Master Hash) : Result Unit :=
  verifyFiles S B disk share.files share.manifest.files

/-! ## Shares in place -/

/-- `from_parts`, of a complete share. -/
def Seed.fromParts (manifest : Manifest Hash) (manifestBytes : Bytes)
    (files : List (LocalFile Master Hash)) (secret : Option (List.Vector UInt8 32)) (root : Path) :
    Seed Master Hash :=
  let layout := Layout.new manifest
  { id := idOf manifestBytes, manifestBytes, secret, allowed := none
    share := { manifest, layout, files, root, held := List.replicate layout.totalPieces true } }

/-- `from_disk` without a store: the files are hashed and served where they are. -/
def Seed.fromDisk (root : Path) (rootName : Option Bytes) (label : Option String)
    (secret : Option (List.Vector UInt8 32)) : Result (Seed Master Hash) :=
  let place := SeedDisk.below os root
  let made := Manifest.fromDisk toLowercase rootName label (disk.tree root)
    (fun names => disk.len (place names))
    (fun _ names _ u => (u, (hashFile B disk (place names)).map fun outboard =>
      (FileData.plain (place names), outboard))) ()
  made.2.map fun (manifest, hashed) =>
    Seed.fromParts idOf manifest (manifest.encode hash)
      (hashed.map fun (data, outboard) => ⟨data, outboard.1⟩) secret root

/-! ## Saving -/

/-- What `remember_seed` saves of a share; `text` is how paths are written. -/
def Seed.record (text : Path → String) (seed : Seed Master Hash) : SeedRecord where
  root := text seed.share.root
  secret := seed.secret
  manifest := seed.manifestBytes
  files := seed.share.files.map fun file =>
    let (size, mtime) := (disk.modified file.data.path).getD (0, 0)
    (text file.data.path, size, mtime)
  outboards := seed.share.progress form

/-- Which files are in the encrypted store, as `remember_seed` saves it. -/
def Seed.kinds (seed : Seed Master Hash) : List Bool :=
  seed.share.files.map fun file => file.data.isEncrypted

/-- `remember_seed`, transaction by transaction. -/
def rememberSeed (id : ShareId) (record : SeedRecord) (kinds : List Bool) : List Tx :=
  [.putKinds id kinds, .putSeed id record]

/-! ## Loading -/

/-- Whether the files of a record look as they did when it was saved. -/
def SeedRecord.unchanged (record : SeedRecord) : Bool :=
  record.files.all fun (path, size, mtime) =>
    disk.modified (Path.parse os path) = some (size, mtime)

/-- `detect`: a file is encrypted if it carries the store's header. -/
def detect (path : Path) (key : Option Master) (size : ℕ) : IoResult (FileData Master) :=
  if (disk.fs path).any fun file => file.take magic.length = magic then
    match key with
    | some key => .ok (.encrypted path key size)
    | none => .error (.fail .permissionDenied)
  else .ok (.plain path)

/-- One file of a saved share; older records don't say of which kind it is. -/
def loadFile (key : Option Master) (kind : Option Bool) (path : Path) (size : ℕ) :
    Result (FileData Master) :=
  match kind with
  | some false => .ok (.plain path)
  | some true =>
      match key with
      | some key => .ok (.encrypted path key size)
      | none => .error (.fail (.storage .noStorageKey))
  | none => IoResult.orError (.io path) (detect disk path key size)

/-- The loop of `load_seed` over the files from number `i` on. -/
def loadFiles (key : Option Master) (kinds : Option (List Bool)) :
    ℕ → List (String × ℕ × ℕ) → List (FileEntry Hash) → Result (List (FileData Master))
  | i, (path, _, _) :: files, entry :: entries => do
      let data ← loadFile disk key (kinds.bind (·[i]?)) (Path.parse os path) entry.size
      return data :: (← loadFiles key kinds (i + 1) files entries)
  | _, _, _ => .ok []

/-- The files of a share that is taken as it was saved. -/
def savedFiles : List (FileData Master) → List Bytes → List (FileEntry Hash) →
    List (LocalFile Master Hash)
  | data :: files, saved :: outboards, entry :: entries =>
      ⟨data, { emptyOutboard B entry.rootHash entry.size with data := form.read saved }⟩ ::
        savedFiles files outboards entries
  | _, _, _ => []

/-- The share as it was saved. -/
def asSaved (record : SeedRecord) (manifest : Manifest Hash) (files : List (FileData Master))
    (allowed : Option (Finset EndpointId)) : Seed Master Hash :=
  { Seed.fromParts idOf manifest record.manifest
      (savedFiles B form files record.outboards manifest.files) record.secret
      (Path.parse os record.root) with allowed }

variable [DecidableEq Hash]

/-- `load_seed`, once it is known what the files are. -/
def loadWith (record : SeedRecord) (manifest : Manifest Hash) (files : List (FileData Master))
    (allowed : Option (Finset EndpointId)) (id : Hash) : Result (Seed Master Hash) :=
  let unchanged := record.unchanged os disk
  let encrypted := files.any FileData.isEncrypted
  if !unchanged && !encrypted then
    -- hashed again under the share's own name, which may be a label
    match Seed.fromDisk B toLowercase idOf hash os disk (Path.parse os record.root) none
      (some manifest.name) record.secret with
    | .error e => .error e
    | .ok seed =>
        if seed.id = id then .ok { seed with allowed }
        else .error (.fail (.badManifest .changed))
  else if record.outboards.length ≠ files.length then .error (.fail (.storage .incomplete))
  else
    let seed := asSaved B form idOf os record manifest files allowed
    if unchanged then .ok seed else (seed.share.verify S B disk).map fun _ => seed

/-- `load_seed`, given what the tables have of the share. -/
def loadSeed (key : Option Master) (seeds : Option SeedRecord) (saved : Result (Option (List Bool)))
    (allowed : Option (Finset EndpointId)) (id : Hash) : Result (Seed Master Hash) :=
  match seeds with
  | none => .error (.fail .notAvailable)
  | some record => do
      let manifest ← (Manifest.decodeVerified toLowercase idOf hash record.manifest id).mapError
        fun reason => .fail (.badManifest reason)
      let kinds := (← saved).filter fun kinds => kinds.length = record.files.length
      let files ← loadFiles os disk key kinds 0 record.files manifest.files
      loadWith S B form toLowercase idOf hash os disk record manifest files allowed id

end

section

variable {StorageKey SealKey NameKey Code Master Key Hash Wire : Type} [DecidableEq Hash]
  (Z : Sealing StorageKey SealKey NameKey) (F : Formats Code)
  (sealer : Option (Sealer SealKey NameKey)) (S : StoreKeys Master Key) (B : Bao Hash Wire)
  (form : PairForm Hash) (toLowercase : String → String) (idOf : Bytes → Hash) (hash : Codec Hash)
  (os : Os) (disk : SeedDisk)

/-- `load_seed`, from the database.  A share is saved under the text of its id; `expected` is
the id as the hash of a manifest. -/
def Store.loadSeed (env : ℕ → TxEnv) (db : Database SealKey NameKey) (key : Option Master)
    (id : ShareId) (expected : Hash) : Result (Seed Master Hash) :=
  let load := fun record => Chorrent.loadSeed S B form toLowercase idOf hash os disk key record
    ((get Z sealer (env 1) db .kinds id.text).map fun bytes =>
      bytes.bind fun bytes => (F.kinds.decode bytes).map Prod.fst)
    (loadAllowed Z F sealer (env 2) db id) expected
  match get Z sealer (env 0) db .seeds id.text with
  | .error e => .error e
  | .ok none => load none
  | .ok (some bytes) =>
      match F.seed.decode bytes with
      | none => .error (.fail (.storage .undecodable))
      | some (record, _) => load (some record)

/-- From a database that keeps these tables, a share is loaded as the tables have it. -/
lemma Tables.Kept.loadSeed {t : Tables} {db : Database SealKey NameKey} (h : t.Kept Z F sealer db)
    {env : ℕ → TxEnv} (hcalm : ∀ n, (env n).fails = false) (key : Option Master) (id : ShareId)
    (expected : Hash) (hseed : ∀ record, t.seeds.lookup id = some record → F.seed.Fits record)
    (hkinds : ∀ kinds, t.kinds.lookup id = some kinds → F.kinds.Fits kinds) :
    Store.loadSeed Z F sealer S B form toLowercase idOf hash os disk env db key id expected =
      Chorrent.loadSeed S B form toLowercase idOf hash os disk key (t.seeds.lookup id)
        (.ok (t.kinds.lookup id)) (Store.loadAllowed Z F sealer (env 2) db id) expected := by
  obtain ⟨V, hshows, hencodes⟩ := h
  have hget : ∀ n table, table ≠ .meta →
      Store.get Z sealer (env n) db table id.text = .ok (V table id.text) := by
    intro n table htable
    rw [hshows.get (env n) (isName_of_ne htable), hcalm]
    rfl
  have hread : ((t.kinds.lookup id).map F.kinds.encode).bind
      (fun bytes => (F.kinds.decode bytes).map Prod.fst) = t.kinds.lookup id := by
    cases hlookup : t.kinds.lookup id with
    | none => rfl
    | some kinds =>
      have hdecode := F.kinds.decode_encode kinds [] (hkinds kinds hlookup)
      rw [List.append_nil] at hdecode
      rw [Option.map_some, Option.bind_some, hdecode]
      rfl
  rw [Store.loadSeed, hget 0 .seeds (by simp), hget 1 .kinds (by simp), hencodes.seeds,
    hencodes.kinds]
  simp only [Except.map, hread]
  cases hlookup : t.seeds.lookup id with
  | none => rfl
  | some record =>
    have hdecode := F.seed.decode_encode record [] (hseed record hlookup)
    rw [List.append_nil] at hdecode
    simp only [Option.map_some, hdecode]

end

/-! ## What is loaded -/

section

variable {Master Key Hash Wire : Type} {S : StoreKeys Master Key} {B : Bao Hash Wire}
  {form : PairForm Hash} {toLowercase : String → String} {idOf : Bytes → Hash} {hash : Codec Hash}
  {os : Os} {disk : SeedDisk} {key : Option Master}

lemma loadFile_eq_ok {kind : Bool} {path : Path} {size : ℕ} {data : FileData Master}
    (h : loadFile disk key (some kind) path size = .ok data) :
    data.path = path ∧ data.isEncrypted = kind := by
  cases kind with
  | false =>
    cases h
    exact ⟨rfl, rfl⟩
  | true =>
    cases key with
    | none => cases h
    | some key =>
      cases h
      exact ⟨rfl, rfl⟩

/-- Each file is loaded as the kind says that is saved for it. -/
lemma loadFiles_eq_ok {kinds : List Bool} (files : List (String × ℕ × ℕ)) :
    ∀ (i : ℕ) (entries : List (FileEntry Hash)) (loaded : List (FileData Master)),
      i + files.length ≤ kinds.length → files.length = entries.length →
      loadFiles os disk key (some kinds) i files entries = .ok loaded →
      loaded.map FileData.path = files.map (fun file => Path.parse os file.1) ∧
        loaded.map FileData.isEncrypted = (kinds.drop i).take files.length := by
  induction files with
  | nil =>
    intro i entries loaded _ _ h
    cases h
    exact ⟨rfl, by simp⟩
  | cons file files ih =>
    intro i entries loaded hle hlength h
    obtain ⟨path, size, mtime⟩ := file
    rw [List.length_cons] at hle hlength
    obtain ⟨entry, entries, rfl⟩ := List.exists_cons_of_length_eq_add_one hlength.symm
    obtain ⟨kind, hkind⟩ : ∃ kind, kinds[i]? = some kind :=
      ⟨_, List.getElem?_eq_getElem (by omega)⟩
    rw [loadFiles, Option.bind_some, hkind] at h
    obtain ⟨data, hdata, h⟩ := except_bind_eq_ok.1 h
    obtain ⟨rest, hrest, h⟩ := except_bind_eq_ok.1 h
    cases h
    obtain ⟨hpaths, hkinds⟩ := ih (i + 1) entries rest (by omega)
      (by simpa using hlength) hrest
    obtain ⟨hpath, hkind'⟩ := loadFile_eq_ok hdata
    refine ⟨by rw [List.map_cons, hpaths, hpath, List.map_cons], ?_⟩
    obtain ⟨hlt, hget⟩ := List.getElem?_eq_some_iff.1 hkind
    rw [List.map_cons, hkinds, hkind', List.length_cons, List.drop_eq_getElem_cons hlt,
      List.take_succ_cons, hget]

/-- With a storage key, or where no file needs one, the files are loaded. -/
lemma loadFiles_succeeds {kinds : List Bool} (hkey : key.isSome ∨ ∀ kind ∈ kinds, kind = false)
    (files : List (String × ℕ × ℕ)) : ∀ (i : ℕ) (entries : List (FileEntry Hash)),
      i + files.length ≤ kinds.length →
      ∃ loaded, loadFiles os disk key (some kinds) i files entries = .ok loaded := by
  induction files with
  | nil => exact fun _ _ _ => ⟨[], rfl⟩
  | cons file files ih =>
    intro i entries hle
    obtain ⟨path, size, mtime⟩ := file
    cases entries with
    | nil => exact ⟨[], rfl⟩
    | cons entry entries =>
      rw [List.length_cons] at hle
      obtain ⟨rest, hrest⟩ := ih (i + 1) entries (by omega)
      obtain ⟨kind, hkind⟩ : ∃ kind, kinds[i]? = some kind :=
        ⟨_, List.getElem?_eq_getElem (by omega)⟩
      obtain ⟨data, hdata⟩ : ∃ data,
          loadFile disk key (some kind) (Path.parse os path) entry.size = .ok data := by
        cases kind with
        | false => exact ⟨_, rfl⟩
        | true =>
          have hsome := hkey.resolve_right fun hall =>
            absurd (hall true (List.mem_of_getElem? hkind)) (by decide)
          obtain ⟨key, rfl⟩ := Option.isSome_iff_exists.1 hsome
          exact ⟨_, rfl⟩
      refine ⟨data :: rest, ?_⟩
      rw [loadFiles, Option.bind_some, hkind]
      simp only [hdata, hrest]
      rfl

lemma map_data_savedFiles (files : List (FileData Master)) :
    ∀ (outboards : List Bytes) (entries : List (FileEntry Hash)),
      outboards.length = files.length → files.length ≤ entries.length →
      (savedFiles B form files outboards entries).map LocalFile.data = files := by
  induction files with
  | nil => exact fun _ _ _ _ => by rw [savedFiles]; rfl; simp
  | cons data files ih =>
    intro outboards entries hlength hle
    obtain ⟨saved, outboards, rfl⟩ := List.exists_cons_of_length_eq_add_one hlength
    obtain ⟨entry, entries, rfl⟩ := List.exists_cons_of_length_pos (l := entries)
      (Nat.lt_of_lt_of_le (Nat.succ_pos _) hle)
    rw [savedFiles, List.map_cons,
      ih outboards entries (by simpa using hlength) (by simpa using hle)]

variable [DecidableEq Hash] {record : SeedRecord} {kinds : Option (List Bool)}
  {allowed : Option (Finset EndpointId)} {id : Hash} {seed : Seed Master Hash}

/-- How a share comes to be loaded: made anew from plain files that changed, or taken as it was
saved. -/
inductive Loads (S : StoreKeys Master Key) (B : Bao Hash Wire) (form : PairForm Hash)
    (toLowercase : String → String) (idOf : Bytes → Hash) (hash : Codec Hash) (os : Os)
    (disk : SeedDisk) (record : SeedRecord) (allowed : Option (Finset EndpointId)) (id : Hash)
    (manifest : Manifest Hash) (files : List (FileData Master)) : Seed Master Hash → Prop
  | rehashed {seed : Seed Master Hash} (hchanged : record.unchanged os disk = false)
      (hplain : ∀ data ∈ files, data.isEncrypted = false)
      (hmade : Seed.fromDisk B toLowercase idOf hash os disk (Path.parse os record.root) none
        (some manifest.name) record.secret = .ok seed)
      (hid : seed.id = id) : Loads S B form toLowercase idOf hash os disk record allowed id
        manifest files { seed with allowed }
  | saved (hunchanged : record.unchanged os disk = true ∨ ∃ data ∈ files, data.isEncrypted = true)
      (hlength : record.outboards.length = files.length)
      (hverify : record.unchanged os disk = false →
        (asSaved B form idOf os record manifest files allowed).share.verify S B disk = .ok ()) :
      Loads S B form toLowercase idOf hash os disk record allowed id manifest files
        (asSaved B form idOf os record manifest files allowed)

lemma loadWith_eq_ok {manifest : Manifest Hash} {files : List (FileData Master)} :
    loadWith S B form toLowercase idOf hash os disk record manifest files allowed id = .ok seed ↔
      Loads S B form toLowercase idOf hash os disk record allowed id manifest files seed := by
  have hplain : (files.any FileData.isEncrypted = false) ↔
      ∀ data ∈ files, data.isEncrypted = false := by simp
  constructor
  · intro h
    rw [loadWith] at h
    split at h
    -- a changed share of plain files is hashed again, any other is taken as it was saved
    case isTrue hrehash =>
      rw [Bool.and_eq_true, Bool.not_eq_true', Bool.not_eq_true'] at hrehash
      split at h
      · cases h
      · split_ifs at h with hid
        cases h
        exact .rehashed hrehash.1 (hplain.1 hrehash.2) ‹_› hid
    case isFalse hsaved =>
      have hsaved : record.unchanged os disk = true ∨ ∃ data ∈ files, data.isEncrypted = true := by
        rwa [Bool.and_eq_true, Bool.not_eq_true', Bool.not_eq_true', not_and_or, Bool.not_eq_false,
          Bool.not_eq_false, List.any_eq_true] at hsaved
      split_ifs at h with hlength hunchanged
      · cases h
        exact .saved hsaved (not_not.1 hlength) fun hchanged => by
          rw [hunchanged] at hchanged
          cases hchanged
      · dsimp only at h
        cases hverify : (asSaved B form idOf os record manifest files allowed).share.verify S B
          disk with
        | error e =>
          rw [hverify] at h
          cases h
        | ok _ =>
          rw [hverify] at h
          cases h
          exact .saved hsaved (not_not.1 hlength) fun _ => hverify
  · intro h
    cases h with
    | rehashed hchanged hnone hmade hid =>
      rw [loadWith, if_pos (by simp [hchanged, hplain.2 hnone]), hmade]
      exact if_pos hid
    | saved hsaved hlength hverify =>
      have hnot : ¬ (!record.unchanged os disk && !files.any FileData.isEncrypted) = true := by
        rwa [Bool.and_eq_true, Bool.not_eq_true', Bool.not_eq_true', not_and_or, Bool.not_eq_false,
          Bool.not_eq_false, List.any_eq_true]
      rw [loadWith, if_neg hnot, if_neg (not_not.2 hlength)]
      cases hunchanged : record.unchanged os disk with
      | true => rfl
      | false =>
        rw [if_neg Bool.false_ne_true, hverify hunchanged]
        rfl

lemma loadSeed_eq_ok :
    loadSeed S B form toLowercase idOf hash os disk key (some record) (.ok kinds) allowed id =
        .ok seed ↔
      ∃ manifest files,
        Manifest.decodeVerified toLowercase idOf hash record.manifest id = .ok manifest ∧
        loadFiles os disk key (kinds.filter fun kinds => kinds.length = record.files.length) 0
          record.files manifest.files = .ok files ∧
        Loads S B form toLowercase idOf hash os disk record allowed id manifest files seed := by
  rw [loadSeed, except_bind_eq_ok]
  constructor
  · rintro ⟨manifest, hdecode, h⟩
    obtain ⟨_, hkinds, h⟩ := except_bind_eq_ok.1 h
    cases hkinds
    obtain ⟨files, hfiles, h⟩ := except_bind_eq_ok.1 h
    refine ⟨manifest, files, ?_, hfiles, loadWith_eq_ok.1 h⟩
    cases hverified : Manifest.decodeVerified toLowercase idOf hash record.manifest id with
    | error reason =>
      rw [hverified] at hdecode
      cases hdecode
    | ok manifest' =>
      rw [hverified] at hdecode
      cases hdecode
      rfl
  · rintro ⟨manifest, files, hdecode, hfiles, hloads⟩
    refine ⟨manifest, by rw [hdecode]; rfl, ?_⟩
    rw [except_bind_eq_ok]
    exact ⟨kinds, rfl, except_bind_eq_ok.2 ⟨files, hfiles, loadWith_eq_ok.2 hloads⟩⟩

end

end Chorrent
