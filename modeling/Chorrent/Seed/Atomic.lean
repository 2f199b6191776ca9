/-
# Stopping while a share is saved

`remember_seed` saves which files of a share are in the encrypted store, and then the record of
the share, in two transactions.  If the process stops between them, a record that was saved
before is loaded with the kinds of the new one: files in place are taken for files of the store
or the other way round, unless both shares have the same kinds.
-/
import Chorrent.Seed.Basic

namespace Chorrent

open Lib

section

variable {Master Key Hash Wire : Type}

/-! ## Being loaded as what one is -/

/-- A share of a manifest with this id, whose paths can be written as text. -/
structure Seed.Shares [DecidableEq Hash] (toLowercase : String → String) (idOf : Bytes → Hash)
    (hash : Codec Hash) (os : Os) (text : Path → String) (seed : Seed Master Hash) (id : Hash) :
    Prop where
  decodes : Manifest.decodeVerified toLowercase idOf hash seed.manifestBytes id =
    .ok seed.share.manifest
  files_length : seed.share.files.length = seed.share.manifest.files.length
  text_eq : ∀ file ∈ seed.share.files, Path.parse os (text file.data.path) = file.data.path

/-- Each file of the share is of the kind that is given for it. -/
def Seed.Treats (seed : Seed Master Hash) (kinds : Option (List Bool)) : Prop :=
  ∀ (i : ℕ) (file : LocalFile Master Hash) (kind : Bool), seed.share.files[i]? = some file →
    kinds.bind (·[i]?) = some kind →
    file.data.isEncrypted = kind

/-- What is read from a file that is in the encrypted store is what its pieces decrypt to. -/
def Seed.Deciphers (S : StoreKeys Master Key) (fs : FileSystem) (seed : Seed Master Hash)
    (kinds : Option (List Bool)) : Prop :=
  ∀ i offset len bytes, kinds.bind (·[i]?) = some true →
    seed.share.readRange S fs i offset len = .ok bytes →
      ∃ path key size outboard handle n,
        seed.share.files[i]? = some ⟨.encrypted path key size, outboard⟩ ∧
        openEncrypted S key size false true ((fs path).getD []) = .ok handle ∧
        handle.readExactAt S.cipher ((fs path).getD []) offset n = .ok bytes

/-- Where each file is treated as what it is, reading deciphers. -/
lemma Seed.Treats.deciphers {S : StoreKeys Master Key} {fs : FileSystem} {seed : Seed Master Hash}
    {kinds : Option (List Bool)} (h : seed.Treats kinds) : seed.Deciphers S fs kinds := by
  intro i offset len bytes hkind hread
  rw [LocalShare.readRange] at hread
  obtain ⟨file, hcheck, hread⟩ := except_bind_eq_ok.1 hread
  obtain ⟨entry, -, hread⟩ := except_bind_eq_ok.1 hread
  obtain ⟨handle, hopen, hread⟩ := except_bind_eq_ok.1 hread
  have hfile : seed.share.files[i]? = some file := by
    rw [LocalShare.checkFile] at hcheck
    cases hget : seed.share.files[i]? with
    | none =>
      rw [hget] at hcheck
      cases hcheck
    | some file' =>
      rw [hget] at hcheck
      obtain ⟨_, -, hcheck⟩ := except_bind_eq_ok.1 hcheck
      dsimp only at hcheck
      split_ifs at hcheck
      cases hcheck
      rfl
  rw [IoResult.orError_eq_ok] at hopen hread
  cases hdata : file.data with
  | plain path =>
    -- a file that is marked as encrypted is not kept as a plain one
    have := h i file true hfile hkind
    rw [hdata] at this
    cases this
  | encrypted path key size =>
    rw [hdata] at hopen hread
    cases hbytes : fs path with
    | none =>
      rw [FileData.path, hbytes] at hopen
      cases hopen
    | some content =>
      rw [FileData.path, hbytes] at hopen hread
      obtain ⟨opened, hopened, rfl⟩ : ∃ opened, openEncrypted S key size false true content =
          .ok opened ∧ Handle.encrypted opened = handle := by
        rw [FileData.openWith] at hopen
        cases hopened : openEncrypted S key size false true content with
        | error e =>
          rw [hopened] at hopen
          cases hopen
        | ok opened =>
          rw [hopened] at hopen
          cases hopen
          exact ⟨opened, rfl, rfl⟩
      refine ⟨path, key, size, file.outboard, opened,
        min len (entry.size - offset), ?_, by rwa [hbytes], ?_⟩
      · rw [hfile, ← hdata]
      · rw [hbytes]
        exact hread

/-! ## Loading a share that was saved -/

variable [DecidableEq Hash] {S : StoreKeys Master Key} {B : Bao Hash Wire} {form : PairForm Hash}
  {toLowercase : String → String} {idOf : Bytes → Hash} {hash : Codec Hash} {os : Os}
  {text : Path → String} {disk disk₀ : SeedDisk} {key : Option Master}
  {seed loaded : Seed Master Hash}
  {allowed : Option (Finset EndpointId)} {id : Hash}

omit [DecidableEq Hash] in
/-- What is shared in place is not in the encrypted store. -/
lemma Seed.fromDisk_plain {root : Path} {rootName : Option Bytes} {label : Option String}
    {secret : Option (List.Vector UInt8 32)}
    (h : Seed.fromDisk B toLowercase idOf hash os disk root rootName label secret = .ok seed) :
    ∀ file ∈ seed.share.files, file.data.isEncrypted = false := by
  obtain ⟨⟨manifest, hashed⟩, hmade, rfl⟩ := except_map_eq_ok.1 h
  obtain ⟨-, found, files, -, -, hfiles, -, rfl⟩ := Manifest.fromDisk_iff.1 (Prod.ext rfl hmade)
  intro file hfile
  obtain ⟨⟨data, outboard⟩, hmem, rfl⟩ := List.mem_map.1 hfile
  obtain ⟨⟨entry, data', outboard'⟩, hmem, heq⟩ := List.mem_map.1 hmem
  cases heq
  obtain ⟨names, -, -, _, _, _, _, -, hingest⟩ :=
    Manifest.exists_ingested found _ _ _ _ hfiles _ hmem
  obtain ⟨_, -, heq⟩ := except_map_eq_ok.1 (congrArg Prod.snd hingest)
  cases heq
  rfl

omit [DecidableEq Hash] in
lemma Seed.length_kinds (seed : Seed Master Hash) : seed.kinds.length = seed.share.files.length :=
  List.length_map _

omit [DecidableEq Hash] in
lemma Seed.length_files_record (seed : Seed Master Hash) :
    (seed.record form disk text).files.length = seed.share.files.length := List.length_map _

/-- A share that is loaded from its own record and kinds is treated as what it is. -/
lemma Seed.Shares.treats (hseed : seed.Shares toLowercase idOf hash os text id)
    (h : loadSeed S B form toLowercase idOf hash os disk key (some (seed.record form disk₀ text))
      (.ok (some seed.kinds)) allowed id = .ok loaded) : loaded.Treats (some seed.kinds) := by
  obtain ⟨manifest, files, hdecode, hfiles, hloads⟩ := loadSeed_eq_ok.1 h
  obtain rfl := Except.ok.inj (hseed.decodes.symm.trans hdecode)
  have hlength : (seed.record form disk₀ text).files.length = seed.share.files.length :=
    seed.length_files_record
  rw [Option.filter_some, if_pos (by simp [hlength, seed.length_kinds])] at hfiles
  obtain ⟨-, hkinds⟩ := loadFiles_eq_ok _ 0 _ _ (by rw [Nat.zero_add, hlength, seed.length_kinds])
    (by rw [hlength, hseed.files_length]) hfiles
  rw [List.drop_zero, hlength, ← seed.length_kinds, List.take_length] at hkinds
  intro i file kind hfile hkind
  rw [Option.bind_some, ← hkinds, List.getElem?_map, Option.map_eq_some_iff] at hkind
  obtain ⟨data, hdata, rfl⟩ := hkind
  cases hloads with
  | rehashed _ hplain hmade _ =>
    rw [Seed.fromDisk_plain hmade file (List.mem_of_getElem? hfile),
      hplain data (List.mem_of_getElem? hdata)]
  | saved _ houtboards _ =>
    have hle : files.length ≤ seed.share.manifest.files.length := by
      have := congrArg List.length hkinds
      rw [List.length_map, seed.length_kinds, hseed.files_length] at this
      exact this.le
    have hfiles : (savedFiles B form files (seed.record form disk₀ text).outboards
        seed.share.manifest.files).map LocalFile.data = files :=
      map_data_savedFiles files _ _ houtboards hle
    have hget : (savedFiles B form files (seed.record form disk₀ text).outboards
        seed.share.manifest.files)[i]?.map LocalFile.data = some data := by
      rw [← List.getElem?_map, hfiles, hdata]
    obtain ⟨file', hfile', rfl⟩ := Option.map_eq_some_iff.1 hget
    obtain rfl : file = file' := Option.some.inj (hfile.symm.trans hfile')
    rfl

/-! ## Stopping between the transactions -/

variable (S B form toLowercase idOf hash os)

/-- The process stops at any point of `remember_seed`: what is loaded then is what was or what
will be loaded, it is treated as what it is, and reading it deciphers. -/
def CrashAtomic (t : Tables) (id : ShareId) (expected : Hash) (record : SeedRecord)
    (kinds : List Bool) : Prop :=
  ∀ (n : ℕ) (disk : SeedDisk) (key : Option Master) (allowed : Option (Finset EndpointId)),
    let load := fun t : Tables => loadSeed S B form toLowercase idOf hash os disk key
      (t.seeds.lookup id) (.ok (t.kinds.lookup id)) allowed expected
    let stopped := ((rememberSeed id record kinds).take n).foldl Tables.commit t
    let done := (rememberSeed id record kinds).foldl Tables.commit t
    (load stopped = load t ∨ load stopped = load done) ∧
      ∀ seed, load stopped = .ok seed →
        let saved := if n < 2 then t.kinds.lookup id else some kinds
        seed.Treats saved ∧ seed.Deciphers S disk.fs saved

/-- The tables have the share, as it was saved when the disk was as given. -/
structure Tables.Has (form : PairForm Hash) (text : Path → String) (t : Tables) (id : ShareId)
    (seed : Seed Master Hash) (disk : SeedDisk) : Prop where
  seeds : t.seeds.lookup id = some (seed.record form disk text)
  kinds : t.kinds.lookup id = some seed.kinds

variable {S B form toLowercase idOf hash os} {t : Tables} {share : ShareId}

omit [DecidableEq Hash] in
/-- A share that was just saved looks unchanged, if the files are there. -/
lemma Seed.unchanged_record (seed : Seed Master Hash)
    (htext : ∀ file ∈ seed.share.files, Path.parse os (text file.data.path) = file.data.path)
    (hthere : ∀ file ∈ seed.share.files, disk.modified file.data.path ≠ none) :
    (seed.record form disk text).unchanged os disk = true := by
  rw [SeedRecord.unchanged, List.all_eq_true]
  intro entry hentry
  obtain ⟨file, hfile, rfl⟩ := List.mem_map.1 hentry
  obtain ⟨stamp, hstamp⟩ := Option.ne_none_iff_exists'.1 (hthere file hfile)
  dsimp only
  rw [htext file hfile, hstamp]
  simp

/-- A disk on which the files of a record look as they did when it was saved. -/
def SeedDisk.stamped (disk : SeedDisk) : SeedDisk where
  tree := disk.tree
  read _ := .error (.fail .other)
  len path := .ok ((disk.modified path).getD (0, 0)).1
  mtime path := some ((disk.modified path).getD (0, 0)).2
  len_of_read _ _ h := by cases h

omit [DecidableEq Hash] in
lemma Seed.unchanged_stamped (seed : Seed Master Hash)
    (htext : ∀ file ∈ seed.share.files, Path.parse os (text file.data.path) = file.data.path) :
    (seed.record form disk text).unchanged os disk.stamped = true := by
  rw [SeedRecord.unchanged, List.all_eq_true]
  intro entry hentry
  obtain ⟨file, hfile, rfl⟩ := List.mem_map.1 hentry
  dsimp only
  rw [htext file hfile]
  simp [SeedDisk.modified, SeedDisk.stamped]

variable (key) in
/-- A share that is saved is loaded with any kinds, if its files look unchanged. -/
lemma Seed.Shares.loads (hseed : seed.Shares toLowercase idOf hash os text id)
    (allowed : Option (Finset EndpointId)) {kinds : List Bool}
    (hkey : key.isSome ∨ ∀ kind ∈ kinds, kind = false)
    (hlength : kinds.length = seed.share.files.length)
    (hunchanged : (seed.record form disk₀ text).unchanged os disk = true) :
    ∃ files, loadFiles os disk key (some kinds) 0 (seed.record form disk₀ text).files
        seed.share.manifest.files = .ok files ∧
      loadSeed S B form toLowercase idOf hash os disk key
        (some (seed.record form disk₀ text)) (.ok (some kinds)) allowed id =
          .ok (asSaved B form idOf os (seed.record form disk₀ text) seed.share.manifest
            files allowed) ∧
      (savedFiles B form files (seed.record form disk₀ text).outboards
        seed.share.manifest.files).map (fun file => file.data.isEncrypted) = kinds := by
  have hrecord : (seed.record form disk₀ text).files.length = seed.share.files.length :=
    seed.length_files_record
  obtain ⟨files, hfiles⟩ : ∃ files, loadFiles os disk key (some kinds) 0
      (seed.record form disk₀ text).files seed.share.manifest.files = .ok files :=
    loadFiles_succeeds hkey _ 0 _ (by rw [Nat.zero_add, hrecord, hlength])
  obtain ⟨hpaths, hkinds⟩ := loadFiles_eq_ok _ 0 _ _ (by rw [Nat.zero_add, hrecord, hlength])
    (by rw [hrecord, hseed.files_length]) hfiles
  rw [List.drop_zero, hrecord, ← hlength, List.take_length] at hkinds
  have hcount : files.length = seed.share.files.length := by
    rw [← List.length_map FileData.isEncrypted, hkinds, hlength]
  have houtboards : (seed.record form disk₀ text).outboards.length = files.length := by
    rw [hcount]
    simp [Seed.record, LocalShare.progress, LocalShare.outboardSnapshots]
  refine ⟨files, hfiles, loadSeed_eq_ok.2 ⟨seed.share.manifest, files, hseed.decodes, ?_,
    .saved (.inl hunchanged) houtboards fun hchanged => ?_⟩, ?_⟩
  · rw [Option.filter_some, if_pos (by simp [hrecord, hlength])]
    exact hfiles
  · rw [hunchanged] at hchanged
    cases hchanged
  · have hdata : (savedFiles B form files (seed.record form disk₀ text).outboards
        seed.share.manifest.files).map LocalFile.data = files :=
      map_data_savedFiles files _ _ houtboards (by rw [hcount, hseed.files_length])
    have hmap := congrArg (List.map FileData.isEncrypted) hdata
    rw [List.map_map, hkinds] at hmap
    exact hmap

/-- If a share with other kinds was saved, it is loaded with the new ones after a crash. -/
lemma Seed.Shares.mistreated (hseed : seed.Shares toLowercase idOf hash os text id)
    (master : Master) (hhas : t.Has form text share seed disk) {record : SeedRecord}
    {kinds : List Bool} (hlength : kinds.length = seed.kinds.length)
    (hatomic : CrashAtomic S B form toLowercase idOf hash os t share id record kinds) :
    kinds = seed.kinds := by
  obtain ⟨files, -, hload, hkinds⟩ := hseed.loads (S := S) (B := B) (some master) none
    (.inl Option.isSome_some) (hlength.trans seed.length_kinds)
    (seed.unchanged_stamped hseed.text_eq)
  have hstopped := (hatomic 1 disk.stamped (some master) none).2 _ (by
    show loadSeed S B form toLowercase idOf hash os disk.stamped (some master)
      (t.seeds.lookup share) (.ok ((t.kinds.insert share kinds).lookup share)) none id = .ok _
    rw [AList.lookup_insert, hhas.seeds]
    exact hload)
  dsimp only at hstopped
  rw [if_pos (by decide), hhas.kinds] at hstopped
  refine List.ext_getElem? fun i => ?_
  cases hi : kinds[i]? with
  | none =>
    rw [List.getElem?_eq_none_iff, hlength] at hi
    exact (List.getElem?_eq_none_iff.2 hi).symm
  | some kind =>
    obtain ⟨kind', hkind'⟩ : ∃ kind', seed.kinds[i]? = some kind' :=
      ⟨_, List.getElem?_eq_getElem (hlength ▸ (List.getElem?_eq_some_iff.1 hi).1)⟩
    rw [← hkinds, List.getElem?_map, Option.map_eq_some_iff] at hi
    obtain ⟨file, hfile, rfl⟩ := hi
    rw [hstopped.1 i file kind' hfile hkind', hkind']

/-- Remembering a share is crash-atomic exactly if no record of the share is there yet, or the
kinds that are saved with it are those of the new one. -/
theorem remember_atomic_iff {new : Seed Master Hash} {disk₁ : SeedDisk} {expected : Hash}
    (master : Master)
    (hid : ∀ bytes bytes', idOf bytes = expected → idOf bytes' = expected → bytes = bytes')
    (hold : t.seeds.lookup share = none ∨ ∃ (old : Seed Master Hash) (disk₀ : SeedDisk),
      old.Shares toLowercase idOf hash os text expected ∧ t.Has form text share old disk₀)
    (hnew : new.Shares toLowercase idOf hash os text expected) :
    CrashAtomic S B form toLowercase idOf hash os t share expected (new.record form disk₁ text)
        new.kinds ↔
      t.seeds.lookup share = none ∨ t.kinds.lookup share = some new.kinds := by
  constructor
  · intro hatomic
    rcases hold with hnone | ⟨old, disk₀, hshares, hhas⟩
    · exact .inl hnone
    · -- both are shares of the same manifest
      have hmanifest : old.share.manifest = new.share.manifest := by
        have hbytes := hid _ _ (Manifest.decodeVerified_eq_ok.1 hshares.decodes).1
          (Manifest.decodeVerified_eq_ok.1 hnew.decodes).1
        have hdecodes := hshares.decodes
        rw [hbytes, hnew.decodes] at hdecodes
        exact (Except.ok.inj hdecodes).symm
      have hlength : new.kinds.length = old.kinds.length := by
        rw [new.length_kinds, old.length_kinds, hnew.files_length, hshares.files_length, hmanifest]
      rw [hhas.kinds, hshares.mistreated master hhas hlength hatomic]
      exact .inr rfl
  · intro hwhen n disk key allowed
    have hbefore : ∀ seed, loadSeed S B form toLowercase idOf hash os disk key
        (t.seeds.lookup share) (.ok (t.kinds.lookup share)) allowed expected = .ok seed →
        seed.Treats (t.kinds.lookup share) := by
      intro seed hload
      rcases hold with hnone | ⟨old, disk₀, hshares, hhas⟩
      · rw [hnone] at hload
        cases hload
      · rw [hhas.seeds, hhas.kinds] at hload
        rw [hhas.kinds]
        exact hshares.treats hload
    -- with two transactions there are three places to stop
    match n with
    | 0 => exact ⟨.inl rfl, fun seed hload => ⟨hbefore seed hload, (hbefore seed hload).deciphers⟩⟩
    | 1 =>
      have hsame : loadSeed S B form toLowercase idOf hash os disk key (t.seeds.lookup share)
          (.ok ((t.kinds.insert share new.kinds).lookup share)) allowed expected =
          loadSeed S B form toLowercase idOf hash os disk key (t.seeds.lookup share)
            (.ok (t.kinds.lookup share)) allowed expected := by
        rcases hwhen with hnone | hkinds
        · rw [hnone]
          rfl
        · rw [AList.lookup_insert, hkinds]
      refine ⟨.inl hsame, fun seed hload => ?_⟩
      have htreats := hbefore seed (hsame.symm.trans hload)
      exact ⟨htreats, htreats.deciphers⟩
    | n + 2 =>
      have hall : (rememberSeed share (new.record form disk₁ text) new.kinds).take (n + 2) =
          rememberSeed share (new.record form disk₁ text) new.kinds :=
        List.take_of_length_le (by simp [rememberSeed])
      dsimp only
      rw [hall]
      refine ⟨.inr rfl, fun seed hload => ?_⟩
      have hload : loadSeed S B form toLowercase idOf hash os disk key
          ((t.seeds.insert share (new.record form disk₁ text)).lookup share)
          (.ok ((t.kinds.insert share new.kinds).lookup share)) allowed expected = .ok seed := hload
      rw [AList.lookup_insert, AList.lookup_insert] at hload
      have htreats := hnew.treats hload
      exact ⟨htreats, htreats.deciphers⟩

end

/-! ## A file that is in the store and then shared in place -/

namespace Digest

lemma put_append (d : Digest) (rest : Bytes) : d.put rest = d.put [] ++ rest := by
  have hpack : ∀ name value rest : Bytes,
      packName name (value ++ rest) = packName name value ++ rest := by
    intro name value rest
    induction name with
    | nil => rfl
    | cons b name ih => rw [packName, packName, ih, List.cons_append, List.cons_append]
  induction d generalizing rest with
  | zero => rfl
  | leaf i isRoot data =>
    rw [put, put, ← List.nil_append rest, hpack, List.nil_append, hpack]
    rfl
  | parent isRoot left right ihl ihr =>
    rw [put, put, ihl, ihr, ihl (right.put [])]
    simp only [List.cons_append, List.append_assoc]

/-- How digests are serialized. -/
def codec : Codec Digest where
  encode d := d.put []
  decode bytes := take bytes.length bytes
  Fits _ := True
  decode_encode d rest _ := by rw [← put_append, take_put _ _ _ le_rfl]

end Digest

namespace OneFile

def manifestBytes : Bytes := manifest.encode Digest.codec

def idOf (bytes : Bytes) : Digest := .leaf 0 true bytes

lemma decodeVerified_manifestBytes :
    Manifest.decodeVerified id idOf Digest.codec manifestBytes (idOf manifestBytes) =
      .ok manifest := by
  have hfits : (Manifest.codec Digest.codec).Fits manifest := by
    have hname : Codec.string.Fits "a" := show "a".toByteArray.size < 2 ^ 64 by decide
    refine ⟨hname, by decide, fun file hfile => ?_⟩
    rw [List.mem_singleton.1 hfile]
    refine ⟨⟨by decide, fun c hc => ?_⟩, entry.size_lt, trivial⟩
    rw [List.mem_singleton.1 hc]
    exact hname
  have hdecode := (Manifest.codec Digest.codec).decode_encode manifest [] hfits
  rw [List.append_nil] at hdecode
  exact Manifest.decodeVerified_eq_ok.2 ⟨rfl, validate_manifest, _, _, rfl, hdecode⟩

/-- Where the file is. -/
def filePath : Path := ⟨none, true, ["d", "a"]⟩

/-- Where its copy in the encrypted store is. -/
def copyPath : Path := ⟨none, true, ["b", "0.enc"]⟩

def text (path : Path) : String :=
  if path = copyPath then "/b/0.enc" else if path = filePath then "/d/a" else "/b"

/-- The copy: header, and one slot of which only the start is used. -/
def copy : Bytes :=
  magic ++ Bytes.setLen (List.replicate 16 7 ++ (storeEnv.write 0 0).nonce.bytes ++
    keys.cipher.encrypt (List.replicate 16 7 ++ [9]) (storeEnv.write 0 0).nonce.bytes (pieceAad 0)
      content) (saltSize + slotSize)

lemma length_copy : copy.length = headerSize + slotSize := by
  rw [copy, List.length_append, Bytes.length_setLen]
  rfl

/-- The disk with the file and its copy. -/
def bothDisk : SeedDisk where
  tree path := if path = copyPath ∨ path = filePath then .file else .dir []
  read path :=
    if path = copyPath then .ok ⟨copy, by rw [length_copy]; decide⟩
    else if path = filePath then .ok ⟨content, content_fits⟩
    else .error (.fail .notFound)
  len path :=
    if path = copyPath then .ok copy.length
    else if path = filePath then .ok content.length
    else .error (.fail .notFound)
  mtime _ := some 1
  len_of_read path bytes h := by
    split_ifs at h ⊢ <;> cases h <;> rfl

/-- The share, with its file in the encrypted store. -/
def copied : Seed Bytes Digest :=
  Seed.fromParts idOf manifest manifestBytes
    [⟨.encrypted copyPath [9] 5, Digest.createOutboard content⟩] none ⟨none, true, ["b"]⟩

/-- The share, with its file in place. -/
def inPlace : Seed Bytes Digest :=
  Seed.fromParts idOf manifest manifestBytes
    [⟨.plain filePath, Digest.createOutboard content⟩] none filePath

lemma shares_copied : copied.Shares id idOf Digest.codec .unix text (idOf manifestBytes) :=
  ⟨decodeVerified_manifestBytes, rfl, by
    intro file hfile
    rw [List.mem_singleton.1 hfile]
    decide⟩

lemma shares_inPlace : inPlace.Shares id idOf Digest.codec .unix text (idOf manifestBytes) :=
  ⟨decodeVerified_manifestBytes, rfl, by
    intro file hfile
    rw [List.mem_singleton.1 hfile]
    decide⟩

/-- The copy was saved. -/
def savedTables : Tables :=
  (rememberSeed shareId (copied.record Digest.pairForm bothDisk text) copied.kinds).foldl
    Tables.commit .empty

lemma has_savedTables : savedTables.Has Digest.pairForm text shareId copied bothDisk :=
  ⟨AList.lookup_insert _, AList.lookup_insert _⟩

end OneFile

open OneFile in
/-- Nothing was saved before, or the copy that is remembered once more. -/
theorem remember_atomic_iff_first :
    CrashAtomic keys referenceBao Digest.pairForm id idOf Digest.codec .unix .empty shareId
        (idOf manifestBytes) (inPlace.record Digest.pairForm bothDisk text) inPlace.kinds ∧
      CrashAtomic keys referenceBao Digest.pairForm id idOf Digest.codec .unix savedTables shareId
        (idOf manifestBytes) (copied.record Digest.pairForm bothDisk text) copied.kinds := by
  have hid : ∀ bytes bytes', idOf bytes = idOf manifestBytes → idOf bytes' = idOf manifestBytes →
      bytes = bytes' := fun bytes bytes' h h' => by injection h.trans h'.symm
  exact ⟨(remember_atomic_iff [9] hid (.inl rfl) shares_inPlace).2 (.inl rfl),
    (remember_atomic_iff [9] hid (.inr ⟨copied, bothDisk, shares_copied, has_savedTables⟩)
      shares_copied).2 (.inr has_savedTables.kinds)⟩

open OneFile in
/-- A share is in the encrypted store, is shared in place, and the process stops between the
transactions: the copy is then loaded as a plain file, and what is read of it is not the
content. -/
theorem remember_not_atomic :
    ¬ CrashAtomic keys referenceBao Digest.pairForm id idOf Digest.codec .unix savedTables shareId
        (idOf manifestBytes) (inPlace.record Digest.pairForm bothDisk text) inPlace.kinds ∧
      ∃ loaded, loadSeed keys referenceBao Digest.pairForm id idOf Digest.codec .unix bothDisk
          (some [9]) (savedTables.seeds.lookup shareId)
          (.ok ((savedTables.commit (.putKinds shareId inPlace.kinds)).kinds.lookup shareId)) none
          (idOf manifestBytes) = .ok loaded ∧
        loaded.share.readRange keys bothDisk.fs 0 0 5 = .ok (magic.take 5) := by
  constructor
  · intro hatomic
    have hlength : inPlace.kinds.length = copied.kinds.length := rfl
    have hsame := shares_copied.mistreated [9] has_savedTables hlength hatomic
    cases hsame
  · have hunchanged : (copied.record Digest.pairForm bothDisk text).unchanged .unix bothDisk =
        true := by
      refine copied.unchanged_record shares_copied.text_eq fun file hfile => ?_
      rw [List.mem_singleton.1 hfile]
      simp [SeedDisk.modified, bothDisk, FileData.path]
    have hlength : inPlace.kinds.length = copied.share.files.length := rfl
    obtain ⟨files, hfiles, hload, -⟩ := shares_copied.loads (S := keys) (B := referenceBao)
      (some ([9] : Bytes)) none (.inl Option.isSome_some) hlength hunchanged
    have hplain : loadFiles .unix bothDisk (some ([9] : Bytes)) (some inPlace.kinds) 0
        (copied.record Digest.pairForm bothDisk text).files copied.share.manifest.files =
          .ok [FileData.plain (Path.parse .unix (text copyPath))] := rfl
    have hpath : Path.parse .unix (text copyPath) = copyPath := by decide
    obtain rfl := Except.ok.inj (hplain.symm.trans hfiles)
    rw [hpath] at hload
    refine ⟨asSaved referenceBao Digest.pairForm idOf .unix
      (copied.record Digest.pairForm bothDisk text) manifest [FileData.plain copyPath] none, ?_, ?_⟩
    · rw [has_savedTables.seeds, Tables.commit, AList.lookup_insert]
      exact hload
    · have hholds : LocalShare.HoldsFile (asSaved referenceBao Digest.pairForm idOf .unix
          (copied.record Digest.pairForm bothDisk text) manifest
            ([.plain copyPath] : List (FileData Bytes)) none).share 0 (.plain copyPath) 5 :=
        ⟨rfl, ⟨_, rfl⟩, ⟨entry, rfl, rfl⟩, by decide⟩
      have hcopy : bothDisk.fs copyPath = some copy := rfl
      have hread : readExactAt copy 0 (min 5 (5 - 0)) = .ok (magic.take 5) := by
        rw [readExactAt, if_pos (Or.inr (by rw [length_copy]; decide)), Bytes.slice, List.drop_zero,
          copy, List.take_append_of_le_length (by decide)]
        rfl
      have hopen : (FileData.plain copyPath : FileData Bytes).openWith keys false true
          (bothDisk.fs copyPath) = .ok .plain := by rw [hcopy]; rfl
      rw [hholds.readRange_of_opens hopen, FileData.path, hcopy, Option.getD_some,
        Handle.readExactAt, hread]
      rfl

end Chorrent
