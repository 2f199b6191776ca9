/-
# Seeding that fails

`seed_with` and `seed_reader`, step by step: the share is made, which may store a copy of it,
then the allowlist is saved, the share is registered and `remember_seed` saves it.  Nothing but
the registration is undone when a later step fails.
-/
import Chorrent.Client.Forget
import Chorrent.Seed.Stream

namespace Chorrent

open Lib

/-! ## The client -/

/-- The files there are, and the folders. -/
structure Blobs where
  files : FileSystem
  folders : Path → Bool

/-- What storing a file of a new share meets.  When the file cannot be made, its folder may have
been made all the same. -/
structure MakeEnv extends ImportEnv where
  folderMade : Bool

/-- The folder for the file is made. -/
def MakeEnv.makesFolder (env : MakeEnv) : Bool := !env.createFails || env.folderMade

/-- `create_dir_all` for a file. -/
def Blobs.withFolders (b : Blobs) (path : Path) : Blobs :=
  { b with folders := fun q => b.folders q || decide (q ∈ path.parents) }

/-- What a client with a data dir has besides: where shares are stored, and the tables. -/
structure DataStore (Master : Type) where
  cfg : StoreConfig Master
  tables : Tables

structure SeedClient (Master Hash : Type) where
  store : Option (DataStore Master)
  registry : AList fun _ : ShareId => Seed Master Hash
  blobs : Blobs

/-- What is shared, as it was given. -/
inductive SeedSource where
  /-- A path, with its last component, and what making it absolute gives. -/
  | path (path : Path) (fileName : Option Bytes) (absolute : IoResult Path)
  | stream (name : String) (size : ℕ) (source : Source)

structure SeedOptions where
  name : Option String
  /-- The share code to join: its id and secret. -/
  join : Option (ShareId × Option (List.Vector UInt8 32))
  isPrivate : Bool
  allowPeers : Option (List EndpointId)
  inPlace : Bool

/-- What a call meets: the answers of the operating system, what is drawn at random, and which
transactions fail. -/
structure SeedEnv where
  disk : SeedDisk
  openSource : Path → IoResult Source
  make : ℕ → MakeEnv
  random : List.Vector UInt8 8
  newSecret : List.Vector UInt8 32
  fails : ℕ → Bool

/-- A call of `seed_with` or `seed_reader`. -/
structure SeedCall where
  source : SeedSource
  options : SeedOptions
  env : SeedEnv

section

variable {Master Key Hash Wire : Type} (S : StoreKeys Master Key) (B : Bao Hash Wire)
  (form : PairForm Hash) (toLowercase : String → String) (idOf : Bytes → Hash)
  (shareId : Hash → ShareId) (hash : Codec Hash) (os : Os) (reads : Reads) (text : Path → String)

/-! ## Making the share -/

/-- `secret_for` -/
def SeedOptions.secret (options : SeedOptions) (newSecret : List.Vector UInt8 32) :
    Option (List.Vector UInt8 32) :=
  match options.join with
  | some join => join.2
  | none => if options.isPrivate then some newSecret else none

/-- A file is copied into the share's new folder, which is made for the first. -/
def ingestStored (env : SeedEnv) (root dir : Path) (key : Master) (index : ℕ) (names : DiskNames)
    (size : ℕ) (b : Blobs) : Blobs × Result (FileData Master × FileOutboard Hash) :=
  let ingested := ingestCopy S B os reads env.openSource (fun i => (env.make i).toImportEnv) root
    dir key index names size b.files
  let path := dir.join os (toString index ++ ".enc")
  let opens := (env.openSource (SeedDisk.below os root names)).isOk
  let b := if opens && (env.make index).makesFolder then b.withFolders path else b
  ({ b with files := ingested.1 }, ingested.2)

/-- `LocalShare::from_disk`, for a client with these files. -/
def makeFromDisk (call : SeedCall) (copyTo : Option (Path × Master)) (root : Path)
    (fileName : Option Bytes) (b : Blobs) : Blobs × Result (Seed Master Hash) :=
  let secret := call.options.secret call.env.newSecret
  match copyTo with
  | none =>
      (b, Seed.fromDisk B toLowercase idOf hash os call.env.disk root fileName call.options.name
        secret)
  | some (dir, key) =>
      let made := Manifest.fromDisk toLowercase fileName call.options.name (call.env.disk.tree root)
        (fun names => call.env.disk.len (SeedDisk.below os root names))
        (ingestStored S B os reads call.env root dir key) b
      (made.1, made.2.map fun (manifest, hashed) =>
        Seed.fromParts idOf manifest (manifest.encode hash)
          (hashed.map fun (data, outboard) => ⟨data, outboard.1⟩) secret dir)

/-- The stream that a call of `seed_reader` stores. -/
def SeedCall.stream (call : SeedCall) (cfg : StoreConfig Master) (name : String) (size : ℕ)
    (source : Source) (fs : FileSystem) : StreamCall Master :=
  { cfg, name, label := call.options.name, size, source
    secret := call.options.secret call.env.newSecret, random := call.env.random
    env := (call.env.make 0).toImportEnv, fs }

/-- `LocalShare::from_reader` -/
def makeFromReader (call : SeedCall) (cfg : StoreConfig Master) (name : String) (size : ℕ)
    (source : Source) (b : Blobs) : Blobs × Result (Seed Master Hash) :=
  let stream := call.stream cfg name size source b.files
  let made := stream.fromReader S B idOf hash os reads
  let b := if (call.env.make 0).makesFolder then b.withFolders (stream.data os).path else b
  ({ b with files := made.1 }, made.2)

/-- Where `seed_with` copies the files to, if it does. -/
def SeedCall.copyTo (call : SeedCall) (store : Option (DataStore Master)) :
    Option (Path × Master) :=
  match (store.map DataStore.cfg).filter fun _ => !call.options.inPlace with
  | none => none
  | some cfg => cfg.key.map fun key => (cfg.newShareDir os call.env.random, key)

/-- The share, before anything is saved of it. -/
def makeShare (call : SeedCall) (c : SeedClient Master Hash) : Blobs × Result (Seed Master Hash) :=
  match call.source with
  | .path path fileName absolute =>
      match absolute.orError (.io path) with
      | .error e => (c.blobs, .error e)
      | .ok root =>
          makeFromDisk S B toLowercase idOf hash os reads call (call.copyTo os c.store) root
            fileName c.blobs
  | .stream name size source =>
      match c.store with
      | none => (c.blobs, .error (.fail (.storage .noDataDir)))
      | some store => makeFromReader S B idOf hash os reads call store.cfg name size source c.blobs

/-! ## Saving and registering it -/

namespace SeedClient

variable (c : SeedClient Master Hash)

/-- A transaction of the store, if there is one: number `n` of this call. -/
def commit (env : SeedEnv) (n : ℕ) (tx : Tx) : SeedClient Master Hash × Result Unit :=
  match c.store with
  | none => (c, .ok ())
  | some store =>
      if env.fails n then (c, .error (.fail (.storage .database)))
      else ({ c with store := some { store with tables := store.tables.commit tx } }, .ok ())

/-- A registration is dropped. -/
def unlist (id : ShareId) : SeedClient Master Hash := { c with registry := c.registry.erase id }

/-- `start_seed`, up to the handle. -/
def startSeed (env : SeedEnv) (seed : Seed Master Hash) : SeedClient Master Hash × Result Unit :=
  let id := shareId seed.id
  if id ∈ c.registry then (c, .error (.fail .alreadySharing))
  else
    let c := { c with registry := c.registry.insert id seed }
    match c.commit env 1 (.putKinds id seed.kinds) with
    | (c, .error e) => (c.unlist id, .error e)
    | (c, .ok ()) =>
        match c.commit env 2 (.putSeed id (seed.record form env.disk text)) with
        | (c, .error e) => (c.unlist id, .error e)
        | (c, .ok ()) => (c, .ok ())

/-- `finish_seed` -/
def finishSeed (call : SeedCall) (seed : Seed Master Hash) : SeedClient Master Hash × Result Unit :=
  if call.options.join.any fun join => join.1 ≠ shareId seed.id then
    (c, .error (.fail .invalidShareCode))
  else
    match c.commit call.env 0 (.putAllowed (shareId seed.id) call.options.allowPeers) with
    | (c, .error e) => (c, .error e)
    | (c, .ok ()) =>
        c.startSeed form shareId text call.env
          { seed with allowed := call.options.allowPeers.map List.toFinset }

/-- `seed_with` and `seed_reader` -/
def seed (call : SeedCall) : SeedClient Master Hash × Result Unit :=
  let made := makeShare S B toLowercase idOf hash os reads call c
  let c := { c with blobs := made.1 }
  match made.2 with
  | .error e => (c, .error e)
  | .ok seed => c.finishSeed form shareId text call seed

end SeedClient

end

/-! ## What is left of a call -/

/-- The same files and folders are in the folder. -/
def Blobs.SameIn (os : Os) (folder : Path) (b b' : Blobs) : Prop :=
  ∀ p depth, Path.Leads os folder p depth → b'.files p = b.files p ∧ b'.folders p = b.folders p

/-- The same shares are served, the tables have the same records, and `blobs` holds the same. -/
structure SeedClient.Same {Master Hash : Type} (os : Os) (c c' : SeedClient Master Hash) :
    Prop where
  registry : ∀ id, c'.registry.lookup id = c.registry.lookup id
  tables : ∀ store, c.store = some store → ∃ store', c'.store = some store' ∧
    ∀ id, Tables.Agree id store.tables store'.tables
  blobs : ∀ store, c.store = some store → Blobs.SameIn os store.cfg.blobs c.blobs c'.blobs

/-- What `from_disk` lists before it reads the first file: the share's name, and the files. -/
def Manifest.listed (toLowercase : String → String) (rootName : Option Bytes)
    (label : Option String) (tree : Tree) : Result (String × List (List String × DiskNames)) := do
  let name ← shareName rootName label
  let found ← collect [] [name] tree
  checkUnique toLowercase found []
  return (name, found)

section

variable {Master Key Hash Wire : Type} (S : StoreKeys Master Key) (B : Bao Hash Wire)
  (form : PairForm Hash) (toLowercase : String → String) (idOf : Bytes → Hash)
  (shareId : Hash → ShareId) (hash : Codec Hash) (os : Os) (reads : Reads) (text : Path → String)

/-- The copy of the first file found, if the call gets so far as to make the folder for it. -/
def SeedCall.firstCopied (call : SeedCall) (root dir : Path) :
    List (List String × DiskNames) → Option Path
  | [] => none
  | (_, names) :: _ =>
      let path := SeedDisk.below os root names
      if (call.env.disk.len path).isOk && (call.env.openSource path).isOk &&
          (call.env.make 0).makesFolder then
        some (dir.join os (toString 0 ++ ".enc"))
      else none

/-- The file that is stored first, if the call gets so far as to make the folder for it. -/
def SeedCall.firstStored (call : SeedCall) (c : SeedClient Master Hash) : Option Path :=
  match call.source with
  | .path _ fileName absolute =>
      match absolute, call.copyTo os c.store with
      | .ok root, some (dir, _) =>
          match Manifest.listed toLowercase fileName call.options.name
              (call.env.disk.tree root) with
          | .ok (_, found) => call.firstCopied os root dir found
          | .error _ => none
      | _, _ => none
  | .stream name size source =>
      match c.store with
      | none => none
      | some store =>
          if (call.env.make 0).makesFolder then
            some ((call.stream store.cfg name size source c.blobs.files).data os).path
          else none

namespace SeedClient

variable (c : SeedClient Master Hash) (call : SeedCall)

/-- The folder for a new share is new. -/
def Fresh : Prop := ∀ store, c.store = some store →
  c.blobs.folders (store.cfg.newShareDir os call.env.random) = false

/-- If the call fails, it has changed nothing. -/
def ChangesNothing : Prop :=
  ∀ e, (c.seed S B form toLowercase idOf shareId hash os reads text call).2 = .error e →
    Same os c (c.seed S B form toLowercase idOf shareId hash os reads text call).1

/-- Where the stream goes, a file in `blobs` is made or overwritten. -/
def Overwrites (store : DataStore Master) (path : Path) : Prop :=
  ∃ name size source depth, call.source = .stream name size source ∧
    Path.Leads os store.cfg.blobs path depth ∧
    (importFile S B reads (call.env.make 0).toImportEnv source size
      ((call.stream store.cfg name size source c.blobs.files).data os) (c.blobs.files path)).file ≠
        c.blobs.files path

/-- The call gets so far as to store a file, and something in `blobs` is new then: a folder on the
way to the file, or what the file has in it. -/
def Stores : Prop :=
  ∃ store path, c.store = some store ∧ call.firstStored toLowercase os c = some path ∧
    ((∃ q ∈ path.parents, ∃ depth, Path.Leads os store.cfg.blobs q depth ∧
        c.blobs.folders q = false) ∨
      c.Overwrites S B os reads call store path)

/-- Nothing stands in the way of the share: it is the one to join, it is not being served, and
every transaction commits. -/
def Succeeds (seed : Seed Master Hash) : Prop :=
  (call.options.join.all fun join => join.1 = shareId seed.id) = true ∧
    shareId seed.id ∉ c.registry ∧ (c.store.isSome → ∀ n < 3, call.env.fails n = false)

/-- What is saved before the call fails was saved already: the allowlist, if it is saved, and
the kinds of the files, if only their record is not. -/
def SavesNothingNew (seed : Seed Master Hash) : Prop :=
  ∀ store, c.store = some store →
    (call.options.join.all fun join => join.1 = shareId seed.id) = true →
    call.env.fails 0 = false →
    store.tables.access.lookup (shareId seed.id) = call.options.allowPeers ∧
      (shareId seed.id ∉ c.registry → call.env.fails 1 = false →
        store.tables.kinds.lookup (shareId seed.id) = some seed.kinds)

/-- No share comes of the source, and nothing was stored; or nothing stands in the way of the
share; or nothing was stored, and nothing new is saved of the share. -/
def LeavesNothing : Prop :=
  match (makeShare S B toLowercase idOf hash os reads call c).2 with
  | .error _ => ¬ c.Stores S B toLowercase os reads call
  | .ok seed => c.Succeeds shareId call seed ∨
      ¬ c.Stores S B toLowercase os reads call ∧ c.SavesNothingNew shareId call seed

end SeedClient

end

/-! ## What is stored of a share -/

namespace Manifest

variable {Hash Data σ : Type} {metadata : DiskNames → IoResult ℕ}
  {ingest : ℕ → DiskNames → ℕ → σ → σ × Result (Data × FileOutboard Hash)}

lemma ingestFiles_of_fails {index size : ℕ} {components : List String} {names : DiskNames}
    {found : List (List String × DiskNames)} {s s' : σ} {e : Stop Error}
    (hmetadata : metadata names = .ok size) (hingest : ingest index names size s = (s', .error e)) :
    ingestFiles metadata ingest index ((components, names) :: found) s = (s', .error e) := by
  rw [ingestFiles, hmetadata]
  dsimp only [IoResult.orError]
  rw [hingest]

/-- What is kept of a file that was read is left to the files after it. -/
lemma ingestFiles_of_read {index size : ℕ} {components : List String} {names : DiskNames}
    {found : List (List String × DiskNames)} {s s' : σ} {hashed : Data × FileOutboard Hash}
    (hmetadata : metadata names = .ok size)
    (hingest : ingest index names size s = (s', .ok hashed)) :
    (ingestFiles metadata ingest index ((components, names) :: found) s).1 =
      (ingestFiles metadata ingest (index + 1) found s').1 := by
  rw [ingestFiles, hmetadata]
  dsimp only [IoResult.orError]
  rw [hingest]
  dsimp only
  split <;> rename_i hrest <;> rw [hrest]

/-- What each file that is read keeps holds in the end. -/
lemma ingestFiles_keeps {P : σ → Prop}
    (hingest : ∀ index names size s, P s → P (ingest index names size s).1)
    (found : List (List String × DiskNames)) :
    ∀ index s, P s → P (ingestFiles metadata ingest index found s).1 := by
  induction found with
  | nil => exact fun index s h => h
  | cons head found ih =>
    intro index s h
    obtain ⟨components, names⟩ := head
    cases hmetadata : metadata names with
    | error e =>
      rw [ingestFiles, hmetadata]
      cases e <;> exact h
    | ok size =>
      have hkept := hingest index names size s h
      cases hread : ingest index names size s with
      | mk s' result =>
        rw [hread] at hkept
        cases result with
        | error e =>
          rw [ingestFiles_of_fails hmetadata hread]
          exact hkept
        | ok hashed =>
          rw [ingestFiles_of_read hmetadata hread]
          exact ih _ _ hkept

lemma fromDisk_of_listed {toLowercase : String → String} {rootName : Option Bytes}
    {label : Option String} {tree : Tree} {name : String} {found : List (List String × DiskNames)}
    {s : σ} (h : listed toLowercase rootName label tree = .ok (name, found)) :
    (fromDisk toLowercase rootName label tree metadata ingest s).1 =
      (ingestFiles metadata ingest 0 found s).1 := by
  rw [listed] at h
  rw [fromDisk, h]
  dsimp only
  split <;> rename_i hfiles <;> rw [hfiles]

lemma fromDisk_of_not_listed {toLowercase : String → String} {rootName : Option Bytes}
    {label : Option String} {tree : Tree} {s : σ}
    (h : (listed toLowercase rootName label tree).toOption = none) :
    (fromDisk toLowercase rootName label tree metadata ingest s).1 = s := by
  cases hlisted : listed toLowercase rootName label tree with
  | ok _ =>
    rw [hlisted] at h
    cases h
  | error e =>
    rw [listed] at hlisted
    rw [fromDisk, hlisted]

end Manifest

section

variable {Master Key Hash Wire : Type} {S : StoreKeys Master Key} {B : Bao Hash Wire}
  {toLowercase : String → String} {idOf : Bytes → Hash} {hash : Codec Hash} {os : Os}
  {reads : Reads}

/-- A file is not made without its folder. -/
lemma MakeEnv.createFails_of_not_makesFolder {env : MakeEnv} (h : env.makesFolder = false) :
    env.createFails = true := by
  rw [makesFolder, Bool.or_eq_false_iff] at h
  simpa using h.1

/-- A file whose folder is not made is not stored. -/
lemma ingestStored_of_not_made {env : SeedEnv} {root dir : Path} {key : Master} {index : ℕ}
    {names : DiskNames} {size : ℕ} {b : Blobs}
    (h : ((env.openSource (SeedDisk.below os root names)).isOk &&
      (env.make index).makesFolder) = false) :
    ∃ e, ingestStored S B os reads env root dir key index names size b = (b, .error e) := by
  have hcopy : (ingestCopy S B os reads env.openSource (fun i => (env.make i).toImportEnv) root dir
      key index names size b.files).1 = b.files ∧ ∃ e, (ingestCopy S B os reads env.openSource
      (fun i => (env.make i).toImportEnv) root dir key index names size b.files).2 = .error e := by
    rw [ingestCopy]
    cases hopen : env.openSource (SeedDisk.below os root names) with
    | error e => cases e <;> exact ⟨rfl, _, rfl⟩
    | ok source =>
      have hfails : (env.make index).createFails = true := by
        rw [hopen] at h
        exact MakeEnv.createFails_of_not_makesFolder h
      have himport : ∀ data : FileData Master,
          (importFile S B reads (env.make index).toImportEnv source size data
            (b.files data.path)).file = b.files data.path ∧
          ∃ e, (importFile S B reads (env.make index).toImportEnv source size data
            (b.files data.path)).result = .error e := fun _ => importFile_of_createFails hfails
      obtain ⟨hfile, e, he⟩ :=
        himport (.encrypted (dir.join os (toString index ++ ".enc")) key size)
      dsimp only [IoResult.orError]
      rw [hfile, Function.update_eq_self, he]
      exact ⟨rfl, e, rfl⟩
  obtain ⟨hfiles, e, he⟩ := hcopy
  rw [ingestStored, if_neg (by rw [h]; exact Bool.false_ne_true), hfiles, he]
  exact ⟨e, rfl⟩

lemma folders_ingestStored {env : SeedEnv} {root dir : Path} {key : Master} {index : ℕ}
    {names : DiskNames} {size : ℕ} {b : Blobs} (q : Path) :
    (ingestStored S B os reads env root dir key index names size b).1.folders q =
      (b.folders q || ((env.openSource (SeedDisk.below os root names)).isOk &&
        (env.make index).makesFolder &&
        decide (q ∈ (dir.join os (toString index ++ ".enc")).parents))) := by
  rw [ingestStored]
  dsimp only
  split_ifs with h
  · simp [Blobs.withFolders, h]
  · rw [Bool.not_eq_true] at h
    simp [h]

lemma firstCopied_eq_some {call : SeedCall} {root dir path : Path}
    {found : List (List String × DiskNames)} (h : call.firstCopied os root dir found = some path) :
    path = dir.join os (toString 0 ++ ".enc") := by
  cases found with
  | nil => cases h
  | cons file found =>
    rw [SeedCall.firstCopied] at h
    split_ifs at h
    exact (Option.some.inj h).symm

/-- Nothing is copied when the folder for the first file is not made. -/
lemma ingestFiles_of_not_copied {call : SeedCall} {root dir : Path} {key : Master}
    {found : List (List String × DiskNames)} {b : Blobs}
    (h : call.firstCopied os root dir found = none) :
    (Manifest.ingestFiles (fun names => call.env.disk.len (SeedDisk.below os root names))
      (ingestStored S B os reads call.env root dir key) 0 found b).1 = b := by
  cases found with
  | nil => rfl
  | cons file found =>
    obtain ⟨components, names⟩ := file
    rw [SeedCall.firstCopied] at h
    cases hlen : call.env.disk.len (SeedDisk.below os root names) with
    | error e =>
      rw [Manifest.ingestFiles, hlen]
      cases e <;> rfl
    | ok size =>
      have hmakes : ((call.env.openSource (SeedDisk.below os root names)).isOk &&
          (call.env.make 0).makesFolder) = false := by
        simpa [hlen, Except.isOk, Except.toBool] using h
      obtain ⟨e, he⟩ : ∃ e, ingestStored S B os reads call.env root dir key 0 names size b =
          (b, .error e) := ingestStored_of_not_made hmakes
      rw [Manifest.ingestFiles_of_fails hlen he]

/-- Nothing is stored when the call does not get as far as to make a folder. -/
lemma makeShare_of_not_stored {c : SeedClient Master Hash} {call : SeedCall}
    (h : call.firstStored toLowercase os c = none) :
    (makeShare S B toLowercase idOf hash os reads call c).1 = c.blobs := by
  rw [SeedCall.firstStored] at h
  rw [makeShare]
  cases hsource : call.source with
  | path path fileName absolute =>
    rw [hsource] at h
    cases absolute with
    | error e => cases e <;> rfl
    | ok root =>
      dsimp only [IoResult.orError] at h ⊢
      cases hcopy : call.copyTo os c.store with
      | none => rfl
      | some copy =>
        obtain ⟨dir, key⟩ := copy
        change (Manifest.fromDisk _ _ _ _ _ _ _).1 = c.blobs
        rw [hcopy] at h
        cases hlisted : Manifest.listed toLowercase fileName call.options.name
            (call.env.disk.tree root) with
        | error e => exact Manifest.fromDisk_of_not_listed (by rw [hlisted]; rfl)
        | ok listed =>
          obtain ⟨name, found⟩ := listed
          dsimp only at h
          rw [hlisted] at h
          rw [Manifest.fromDisk_of_listed hlisted]
          exact ingestFiles_of_not_copied h
  | stream name size source =>
    rw [hsource] at h
    cases hstore : c.store with
    | none => rfl
    | some store =>
      rw [hstore] at h
      dsimp only at h ⊢
      split_ifs at h with hmakes
      have hfails : (call.env.make 0).createFails = true :=
        MakeEnv.createFails_of_not_makesFolder (Bool.not_eq_true _ ▸ hmakes)
      have hmade : ∀ fs, ((call.stream store.cfg name size source fs).fromReader S B idOf hash os
          reads).1 = fs := by
        intro fs
        rw [StreamCall.fromReader_fst, (importFile_of_createFails (by exact hfails)).1]
        exact Function.update_eq_self _ _
      rw [makeFromReader, if_neg hmakes, hmade]

/-- A folder that is there stays there. -/
lemma folders_ingestFiles {call : SeedCall} {root dir q : Path} {key : Master}
    {found : List (List String × DiskNames)} {index : ℕ} {b : Blobs} (h : b.folders q = true) :
    (Manifest.ingestFiles (fun names => call.env.disk.len (SeedDisk.below os root names))
      (ingestStored S B os reads call.env root dir key) index found b).1.folders q = true := by
  refine Manifest.ingestFiles_keeps (P := fun b => b.folders q = true)
    (fun index names size b h => ?_) found index b h
  rw [folders_ingestStored, h, Bool.true_or]

/-- The folder for the share is there when its first file is copied. -/
lemma folders_of_copied {call : SeedCall} {root dir path q : Path} {key : Master}
    {found : List (List String × DiskNames)} {b : Blobs}
    (h : call.firstCopied os root dir found = some path) (hq : q ∈ path.parents) :
    (Manifest.ingestFiles (fun names => call.env.disk.len (SeedDisk.below os root names))
      (ingestStored S B os reads call.env root dir key) 0 found b).1.folders q = true := by
  cases found with
  | nil => cases h
  | cons file found =>
    obtain ⟨components, names⟩ := file
    rw [SeedCall.firstCopied] at h
    split_ifs at h with hmakes
    obtain rfl := Option.some.inj h
    rw [Bool.and_eq_true, Bool.and_eq_true] at hmakes
    obtain ⟨⟨hlen, hopen⟩, hfolder⟩ := hmakes
    cases hsize : call.env.disk.len (SeedDisk.below os root names) with
    | error e =>
      rw [hsize] at hlen
      cases hlen
    | ok size =>
      have hmade : (ingestStored S B os reads call.env root dir key 0 names size b).1.folders q =
          true := by
        rw [folders_ingestStored, hopen, hfolder, decide_eq_true hq]
        simp
      cases hstored : ingestStored S B os reads call.env root dir key 0 names size b with
      | mk b' result =>
        rw [hstored] at hmade
        cases result with
        | error e =>
          rw [Manifest.ingestFiles_of_fails hsize hstored]
          exact hmade
        | ok stored =>
          rw [Manifest.ingestFiles_of_read hsize hstored]
          exact folders_ingestFiles hmade

lemma copyTo_eq_some {call : SeedCall} {data : Option (DataStore Master)} {dir : Path}
    {key : Master} (h : call.copyTo os data = some (dir, key)) :
    ∃ store, data = some store ∧ dir = store.cfg.newShareDir os call.env.random := by
  cases data with
  | none => cases h
  | some store =>
    rw [SeedCall.copyTo, Option.map_some, Option.filter_some] at h
    split_ifs at h
    obtain ⟨key', -, heq⟩ := Option.map_eq_some_iff.1 h
    exact ⟨store, rfl, (congrArg Prod.fst heq).symm⟩

variable (S B idOf hash reads) in
/-- When files are copied, the folder for the share is made. -/
lemma folders_makeShare {c : SeedClient Master Hash} {call : SeedCall} {path root₀ : Path}
    {fileName : Option Bytes} {absolute : IoResult Path}
    (hsource : call.source = .path root₀ fileName absolute)
    (h : call.firstStored toLowercase os c = some path) :
    ∃ store, c.store = some store ∧ store.cfg.newShareDir os call.env.random ∈ path.parents ∧
      (makeShare S B toLowercase idOf hash os reads call c).1.folders
        (store.cfg.newShareDir os call.env.random) = true := by
  rw [SeedCall.firstStored, hsource] at h
  rw [makeShare, hsource]
  cases absolute with
  | error e => cases h
  | ok root =>
    cases hcopy : call.copyTo os c.store with
    | none =>
      rw [hcopy] at h
      cases h
    | some copy =>
      obtain ⟨dir, key⟩ := copy
      obtain ⟨store, hstore, rfl⟩ := copyTo_eq_some hcopy
      rw [hcopy] at h
      dsimp only [IoResult.orError] at h ⊢
      cases hlisted : Manifest.listed toLowercase fileName call.options.name
          (call.env.disk.tree root) with
      | error e =>
        rw [hlisted] at h
        cases h
      | ok listed =>
        obtain ⟨name, found⟩ := listed
        rw [hlisted] at h
        have hdir : store.cfg.newShareDir os call.env.random ∈ path.parents := by
          rw [firstCopied_eq_some h]
          exact Path.mem_parents_join os (Target.ordinary_index 0)
            (Path.base_join_ordinary os _ (ordinary_import _))
        refine ⟨store, hstore, hdir, ?_⟩
        change Blobs.folders (Manifest.fromDisk _ _ _ _ _ _ _).1 _ = true
        rw [Manifest.fromDisk_of_listed hlisted]
        exact folders_of_copied h hdir

/-- What is left of a stream, once the folder for it is made. -/
lemma makeShare_stream {c : SeedClient Master Hash} {call : SeedCall} {store : DataStore Master}
    {path : Path} {name : String} {size : ℕ} {source : Source} (hstore : c.store = some store)
    (hsource : call.source = .stream name size source)
    (h : call.firstStored toLowercase os c = some path) :
    (makeShare S B toLowercase idOf hash os reads call c).1 =
      { files := Function.update c.blobs.files path
          (importFile S B reads (call.env.make 0).toImportEnv source size
            ((call.stream store.cfg name size source c.blobs.files).data os)
            (c.blobs.files path)).file
        folders := fun q => c.blobs.folders q || decide (q ∈ path.parents) } := by
  rw [SeedCall.firstStored, hsource, hstore] at h
  dsimp only at h
  split_ifs at h with hmakes
  obtain rfl := Option.some.inj h
  rw [makeShare, hsource, hstore]
  dsimp only
  rw [makeFromReader, if_pos hmakes, StreamCall.fromReader_fst]
  rfl

end

/-- Storing a file leaves a folder as it was unless it makes a folder or changes a file in it. -/
lemma Blobs.sameIn_store_iff {os : Os} {folder path : Path} {b : Blobs} {content : Option Bytes} :
    SameIn os folder b { files := Function.update b.files path content
                         folders := fun q => b.folders q || decide (q ∈ path.parents) } ↔
      ¬((∃ q ∈ path.parents, ∃ depth, Path.Leads os folder q depth ∧ b.folders q = false) ∨
        (∃ depth, Path.Leads os folder path depth) ∧ content ≠ b.files path) := by
  constructor
  · rintro h (⟨q, hq, depth, hleads, hfolder⟩ | ⟨⟨depth, hleads⟩, hchanged⟩)
    · have hsame := (h q depth hleads).2
      dsimp only at hsame
      rw [hfolder, decide_eq_true hq] at hsame
      cases hsame
    · have hsame := (h path depth hleads).1
      dsimp only at hsame
      rw [Function.update_self] at hsame
      exact hchanged hsame
  · intro h p depth hleads
    dsimp only
    refine ⟨?_, ?_⟩
    · by_cases hp : p = path
      · subst hp
        by_contra hchanged
        rw [Function.update_self] at hchanged
        exact h (Or.inr ⟨⟨depth, hleads⟩, hchanged⟩)
      · rw [Function.update_of_ne hp]
    · cases hfolder : b.folders p with
      | true => rw [Bool.true_or]
      | false =>
        rw [Bool.false_or]
        exact decide_eq_false fun hp => h (Or.inl ⟨p, hp, depth, hleads, hfolder⟩)

/-! ## Tables after a transaction -/

namespace Tables

variable {t : Tables} {id : ShareId}

lemma agree_putAllowed_iff {peers : Option (List EndpointId)} :
    (∀ id', Agree id' t (t.commit (.putAllowed id peers))) ↔ t.access.lookup id = peers := by
  constructor
  · intro h
    rw [← (h id).access, lookup_putAllowed]
  · intro h id'
    by_cases hid : id = id'
    · subst hid
      have haccess := (lookup_putAllowed t id peers).trans h.symm
      cases peers <;> exact ⟨rfl, rfl, haccess, fun _ => rfl, fun _ => rfl⟩
    · exact agree_commit hid

lemma agree_putKinds_iff {peers : Option (List EndpointId)} {kinds : List Bool} :
    (∀ id', Agree id' t ((t.commit (.putAllowed id peers)).commit (.putKinds id kinds))) ↔
      t.access.lookup id = peers ∧ t.kinds.lookup id = some kinds := by
  have hkinds : ∀ t : Tables, (t.commit (.putAllowed id peers)).kinds = t.kinds := by
    cases peers <;> exact fun _ => rfl
  constructor
  · intro h
    refine ⟨?_, ?_⟩
    · rw [← (h id).access]
      exact lookup_putAllowed t id peers
    · rw [← (h id).kinds]
      exact AList.lookup_insert _
  · rintro ⟨haccess, hsaved⟩ id'
    have hallowed := agree_putAllowed_iff.2 haccess id'
    refine { hallowed with kinds := ?_ }
    by_cases hid : id' = id
    · subst hid
      exact (AList.lookup_insert _).trans hsaved.symm
    · exact (AList.lookup_insert_ne hid).trans (by rw [hkinds])

end Tables

lemma lookup_erase_insert {β : Type} {registry : AList fun _ : ShareId => β} {id : ShareId}
    (h : id ∉ registry) (b : β) (id' : ShareId) :
    ((registry.insert id b).erase id).lookup id' = registry.lookup id' := by
  by_cases hid : id' = id
  · subst hid
    rw [AList.lookup_erase, AList.lookup_eq_none.2 h]
  · rw [AList.lookup_erase_ne hid, AList.lookup_insert_ne hid]

/-! ## How a call ends -/

section

variable {Master Key Hash Wire : Type} {S : StoreKeys Master Key} {B : Bao Hash Wire}
  {form : PairForm Hash} {toLowercase : String → String} {idOf : Bytes → Hash}
  {shareId : Hash → ShareId} {hash : Codec Hash} {os : Os} {reads : Reads} {text : Path → String}

namespace SeedClient

variable {c : SeedClient Master Hash} {call : SeedCall} {seed : Seed Master Hash}

lemma commit_none (h : c.store = none) (env : SeedEnv) (n : ℕ) (tx : Tx) :
    c.commit env n tx = (c, .ok ()) := by
  rw [commit, h]

lemma commit_fails {store : DataStore Master} (h : c.store = some store) {env : SeedEnv} {n : ℕ}
    (hfails : env.fails n = true) (tx : Tx) :
    c.commit env n tx = (c, .error (.fail (.storage .database))) := by
  rw [commit, h]
  simp [hfails]

lemma commit_ok {store : DataStore Master} (h : c.store = some store) {env : SeedEnv} {n : ℕ}
    (hfails : env.fails n = false) (tx : Tx) : c.commit env n tx =
      ({ c with store := some { store with tables := store.tables.commit tx } }, .ok ()) := by
  rw [commit, h]
  simp [hfails]

/-- A share that does not fit the code to join is refused at once. -/
lemma finishSeed_of_not_joins
    (h : (call.options.join.all fun join => join.1 = shareId seed.id) = false) :
    c.finishSeed form shareId text call seed = (c, .error (.fail .invalidShareCode)) := by
  have hany : (call.options.join.any fun join => join.1 ≠ shareId seed.id) = true := by
    cases hjoin : call.options.join <;> simp_all
  rw [finishSeed, if_pos hany]

lemma finishSeed_of_joins
    (h : (call.options.join.all fun join => join.1 = shareId seed.id) = true) :
    c.finishSeed form shareId text call seed =
      match c.commit call.env 0 (.putAllowed (shareId seed.id) call.options.allowPeers) with
      | (c, .error e) => (c, .error e)
      | (c, .ok ()) => c.startSeed form shareId text call.env
          { seed with allowed := call.options.allowPeers.map List.toFinset } := by
  have hany : ¬(call.options.join.any fun join => join.1 ≠ shareId seed.id) = true := by
    cases hjoin : call.options.join <;> simp_all
  rw [finishSeed, if_neg hany]

lemma startSeed_of_mem {env : SeedEnv} (h : shareId seed.id ∈ c.registry) :
    c.startSeed form shareId text env seed = (c, .error (.fail .alreadySharing)) := by
  rw [startSeed, if_pos h]

lemma startSeed_none {env : SeedEnv} (h : shareId seed.id ∉ c.registry) (hstore : c.store = none) :
    (c.startSeed form shareId text env seed).2 = .ok () := by
  rw [startSeed, if_neg h]
  simp [commit, hstore]

/-- A share whose kinds are not saved is no longer listed. -/
lemma startSeed_of_fails_kinds {env : SeedEnv} {store : DataStore Master}
    (h : shareId seed.id ∉ c.registry) (hstore : c.store = some store)
    (hkinds : env.fails 1 = true) :
    c.startSeed form shareId text env seed =
      ({ c with registry := (c.registry.insert (shareId seed.id) seed).erase (shareId seed.id) },
        .error (.fail (.storage .database))) := by
  rw [startSeed, if_neg h]
  dsimp only
  rw [commit_fails (by exact hstore) hkinds]
  rfl

/-- A share whose record is not saved is no longer listed, but its kinds are saved. -/
lemma startSeed_of_fails_record {env : SeedEnv} {store : DataStore Master}
    (h : shareId seed.id ∉ c.registry) (hstore : c.store = some store)
    (hkinds : env.fails 1 = false) (hrecord : env.fails 2 = true) :
    c.startSeed form shareId text env seed =
      ({ c with
          registry := (c.registry.insert (shareId seed.id) seed).erase (shareId seed.id)
          store := some { store with
            tables := store.tables.commit (.putKinds (shareId seed.id) seed.kinds) } },
        .error (.fail (.storage .database))) := by
  rw [startSeed, if_neg h]
  dsimp only
  rw [commit_ok (by exact hstore) hkinds]
  dsimp only
  rw [commit_fails (by rfl) hrecord]
  rfl

lemma startSeed_of_saved {env : SeedEnv} (h : shareId seed.id ∉ c.registry)
    (hkinds : env.fails 1 = false) (hrecord : env.fails 2 = false) :
    (c.startSeed form shareId text env seed).2 = .ok () := by
  cases hstore : c.store with
  | none => exact startSeed_none h hstore
  | some store =>
    rw [startSeed, if_neg h]
    dsimp only
    rw [commit_ok (by exact hstore) hkinds]
    dsimp only
    rw [commit_ok (by rfl) hrecord]

lemma finishSeed_of_fails {store : DataStore Master} (hstore : c.store = some store)
    (hjoins : (call.options.join.all fun join => join.1 = shareId seed.id) = true)
    (hfails : call.env.fails 0 = true) :
    c.finishSeed form shareId text call seed = (c, .error (.fail (.storage .database))) := by
  rw [finishSeed_of_joins hjoins, commit_fails hstore hfails]

/-- The allowlist is saved before the share is registered. -/
lemma finishSeed_of_allowed {store : DataStore Master} (hstore : c.store = some store)
    (hjoins : (call.options.join.all fun join => join.1 = shareId seed.id) = true)
    (hfails : call.env.fails 0 = false) :
    c.finishSeed form shareId text call seed =
      startSeed form shareId text { c with store := some { store with
        tables := store.tables.commit (.putAllowed (shareId seed.id) call.options.allowPeers) } }
        call.env { seed with allowed := call.options.allowPeers.map List.toFinset } := by
  rw [finishSeed_of_joins hjoins, commit_ok hstore hfails]

/-! ## What a failed call leaves -/

/-- A client that serves the same shares is the same if its tables agree and `blobs` holds the
same. -/
lemma same_iff {c' : SeedClient Master Hash} {store : DataStore Master} {tables : Tables}
    (hstore : c.store = some store) (hstore' : c'.store = some { store with tables := tables })
    (hregistry : ∀ id, c'.registry.lookup id = c.registry.lookup id) :
    c.Same os c' ↔ Blobs.SameIn os store.cfg.blobs c.blobs c'.blobs ∧
      ∀ id, Tables.Agree id store.tables tables := by
  constructor
  · intro h
    obtain ⟨store', hstore'', hagree⟩ := h.tables store hstore
    obtain rfl := Option.some.inj (hstore'.symm.trans hstore'')
    exact ⟨h.blobs store hstore, hagree⟩
  · rintro ⟨hblobs, hagree⟩
    refine ⟨hregistry, fun store' h' => ?_, fun store' h' => ?_⟩
    · obtain rfl := Option.some.inj (hstore.symm.trans h')
      exact ⟨_, hstore', hagree⟩
    · obtain rfl := Option.some.inj (hstore.symm.trans h')
      exact hblobs

/-- Without a store there is only the registry. -/
lemma same_of_store_none {c' : SeedClient Master Hash} (hstore : c.store = none)
    (hregistry : ∀ id, c'.registry.lookup id = c.registry.lookup id) : c.Same os c' := by
  refine ⟨hregistry, fun store h => ?_, fun store h => ?_⟩
  · cases hstore.symm.trans h
  · cases hstore.symm.trans h

lemma savesNothingNew_iff {store : DataStore Master} (hstore : c.store = some store) :
    c.SavesNothingNew shareId call seed ↔
      ((call.options.join.all fun join => join.1 = shareId seed.id) = true →
        call.env.fails 0 = false →
        store.tables.access.lookup (shareId seed.id) = call.options.allowPeers ∧
          (shareId seed.id ∉ c.registry → call.env.fails 1 = false →
            store.tables.kinds.lookup (shareId seed.id) = some seed.kinds)) := by
  constructor
  · exact fun h => h store hstore
  · intro h store' h'
    obtain rfl := Option.some.inj (hstore.symm.trans h')
    exact h

lemma forall_fails_iff {env : SeedEnv} : (∀ n < 3, env.fails n = false) ↔
    env.fails 0 = false ∧ env.fails 1 = false ∧ env.fails 2 = false := by
  constructor
  · exact fun h => ⟨h 0 (by decide), h 1 (by decide), h 2 (by decide)⟩
  · rintro ⟨hallowed, hkinds, hrecord⟩ n hn
    interval_cases n <;> assumption

/-- `finish_seed` returns just when nothing stands in the way of the share. -/
lemma finishSeed_eq_ok_iff : (c.finishSeed form shareId text call seed).2 = .ok () ↔
    c.Succeeds shareId call seed := by
  rw [Succeeds, forall_fails_iff]
  cases hjoins : call.options.join.all fun join => join.1 = shareId seed.id with
  | false => simp [finishSeed_of_not_joins hjoins]
  | true =>
    cases hstore : c.store with
    | none =>
      rw [finishSeed_of_joins hjoins, commit_none hstore]
      dsimp only
      by_cases hmem : shareId seed.id ∈ c.registry
      · rw [startSeed_of_mem (by exact hmem)]
        simp [hmem]
      · rw [startSeed_none (by exact hmem) hstore]
        simp [hmem]
    | some store =>
      cases hallowed : call.env.fails 0 with
      | true =>
        simp [finishSeed_of_fails hstore hjoins hallowed]
      | false =>
        rw [finishSeed_of_allowed hstore hjoins hallowed]
        by_cases hmem : shareId seed.id ∈ c.registry
        · rw [startSeed_of_mem (by exact hmem)]
          simp [hmem]
        · cases hkinds : call.env.fails 1 with
          | true =>
            rw [startSeed_of_fails_kinds (by exact hmem) (by rfl) hkinds]
            simp
          | false =>
            cases hrecord : call.env.fails 2 with
            | true =>
              rw [startSeed_of_fails_record (by exact hmem) (by rfl) hkinds hrecord]
              simp
            | false =>
              rw [startSeed_of_saved (by exact hmem) hkinds hrecord]
              simp [hmem]

/-- Without a store, `finish_seed` changes nothing when it fails. -/
lemma finishSeed_of_store_none (hstore : c.store = none) (h : ¬ c.Succeeds shareId call seed) :
    (c.finishSeed form shareId text call seed).1 = c := by
  cases hjoins : call.options.join.all fun join => join.1 = shareId seed.id with
  | false => rw [finishSeed_of_not_joins hjoins]
  | true =>
    rw [finishSeed_of_joins hjoins, commit_none hstore]
    by_cases hmem : shareId seed.id ∈ c.registry
    · exact congrArg Prod.fst (startSeed_of_mem (by exact hmem))
    · refine absurd ⟨hjoins, hmem, fun hsome => ?_⟩ h
      rw [hstore] at hsome
      cases hsome

/-- When `finish_seed` fails, all is as it was if `blobs` is and nothing new was saved. -/
lemma same_finishSeed_iff {store : DataStore Master} {made : Blobs} (hstore : c.store = some store)
    (h : ¬ c.Succeeds shareId call seed) :
    c.Same os (finishSeed form shareId text { c with blobs := made } call seed).1 ↔
      Blobs.SameIn os store.cfg.blobs c.blobs made ∧ c.SavesNothingNew shareId call seed := by
  set made' : SeedClient Master Hash := { c with blobs := made }
  have hstore' : made'.store = some store := hstore
  rw [savesNothingNew_iff hstore]
  cases hjoins : call.options.join.all fun join => join.1 = shareId seed.id with
  | false =>
    rw [finishSeed_of_not_joins hjoins, same_iff hstore hstore' fun _ => rfl]
    simp [Tables.Agree.refl, made']
  | true =>
    cases hallowed : call.env.fails 0 with
    | true =>
      rw [finishSeed_of_fails hstore' hjoins hallowed, same_iff hstore hstore' fun _ => rfl]
      simp [Tables.Agree.refl, made']
    | false =>
      rw [finishSeed_of_allowed hstore' hjoins hallowed]
      by_cases hmem : shareId seed.id ∈ c.registry
      · -- the share is being served already
        rw [startSeed_of_mem (by exact hmem)]
        refine Iff.trans (same_iff hstore rfl fun _ => rfl) ?_
        rw [Tables.agree_putAllowed_iff]
        simp [hmem, made']
      · cases hkinds : call.env.fails 1 with
        | true =>
          rw [startSeed_of_fails_kinds (by exact hmem) (by rfl) hkinds]
          refine Iff.trans (same_iff hstore rfl (lookup_erase_insert hmem _)) ?_
          rw [Tables.agree_putAllowed_iff]
          simp [made']
        | false =>
          cases hrecord : call.env.fails 2 with
          | true =>
            rw [startSeed_of_fails_record (by exact hmem) (by rfl) hkinds hrecord]
            refine Iff.trans (same_iff hstore rfl (lookup_erase_insert hmem _)) ?_
            rw [Tables.agree_putKinds_iff]
            simp [hmem, made', Seed.kinds]
          | false =>
            exact absurd ⟨hjoins, hmem, fun _ => forall_fails_iff.2 ⟨hallowed, hkinds, hrecord⟩⟩ h

variable (S B toLowercase idOf hash reads) in
/-- Making the share leaves `blobs` as it was just when nothing is stored. -/
lemma sameIn_makeShare_iff (hfresh : c.Fresh os call) :
    (∀ store, c.store = some store → Blobs.SameIn os store.cfg.blobs c.blobs
        (makeShare S B toLowercase idOf hash os reads call c).1) ↔
      ¬ c.Stores S B toLowercase os reads call := by
  cases hfirst : call.firstStored toLowercase os c with
  | none =>
    have hno : ¬ c.Stores S B toLowercase os reads call := by
      rintro ⟨store, path, -, h, -⟩
      cases hfirst.symm.trans h
    refine iff_of_true (fun store _ p depth _ => ?_) hno
    rw [makeShare_of_not_stored hfirst]
    exact ⟨rfl, rfl⟩
  | some path =>
    -- a path is copied below a new folder, a stream goes into a file that may have been there
    cases hsource : call.source with
    | path root₀ fileName absolute =>
      obtain ⟨store, hstore, hdir, hmade⟩ := folders_makeShare S B idOf hash reads hsource hfirst
      have hleads : ∃ depth, Path.Leads os store.cfg.blobs
          (store.cfg.newShareDir os call.env.random) depth :=
        (Path.below_join_ordinary os store.cfg.blobs (ordinary_import _)).imp' (· + 1) fun _ h => h
      have hnew := hfresh store hstore
      refine iff_of_false (fun h => ?_) fun h => h ⟨store, path, hstore, hfirst,
        Or.inl ⟨_, hdir, hleads.imp fun _ h => ⟨h, hnew⟩⟩⟩
      obtain ⟨depth, hdepth⟩ := hleads
      have hsame := (h store hstore _ depth hdepth).2
      rw [hmade, hnew] at hsame
      cases hsame
    | stream name size source =>
      cases hstore : c.store with
      | none =>
        rw [SeedCall.firstStored, hsource, hstore] at hfirst
        cases hfirst
      | some store =>
        rw [makeShare_stream hstore hsource hfirst]
        constructor
        · rintro h ⟨store', path', hstore', hfirst', hnew⟩
          obtain rfl := Option.some.inj (hstore.symm.trans hstore')
          obtain rfl := Option.some.inj (hfirst.symm.trans hfirst')
          refine Blobs.sameIn_store_iff.1 (h store rfl) (hnew.imp_right ?_)
          rintro ⟨name', size', source', depth, hsource', hleads, hchanged⟩
          obtain ⟨rfl, rfl, rfl⟩ := SeedSource.stream.inj (hsource.symm.trans hsource')
          exact ⟨⟨depth, hleads⟩, hchanged⟩
        · intro h store' hstore'
          obtain rfl := Option.some.inj hstore'
          refine Blobs.sameIn_store_iff.2 fun hnew => h ⟨store, path, hstore, hfirst,
            hnew.imp_right ?_⟩
          rintro ⟨⟨depth, hleads⟩, hchanged⟩
          exact ⟨name, size, source, depth, hsource, hleads, hchanged⟩

/-- Without a copy, `seed_with` stores nothing: in place, or without an encrypted store. -/
theorem not_stores_of_copyTo_none {root : Path} {fileName : Option Bytes} {absolute : IoResult Path}
    (hsource : call.source = .path root fileName absolute)
    (hcopy : call.copyTo os c.store = none) : ¬ c.Stores S B toLowercase os reads call := by
  rintro ⟨store, path, -, h, -⟩
  rw [SeedCall.firstStored, hsource] at h
  dsimp only at h
  rw [hcopy] at h
  cases absolute <;> cases h

/-- A call that fails changes nothing just when nothing was stored and nothing new saved before
it failed. -/
theorem failed_changes_nothing_iff (c : SeedClient Master Hash) (call : SeedCall)
    (hfresh : c.Fresh os call) :
    c.ChangesNothing S B form toLowercase idOf shareId hash os reads text call ↔
      c.LeavesNothing S B toLowercase idOf shareId hash os reads call := by
  have hstored := sameIn_makeShare_iff S B toLowercase idOf hash reads hfresh
  rw [ChangesNothing, LeavesNothing, seed]
  cases hmade : (makeShare S B toLowercase idOf hash os reads call c).2 with
  | error e =>
    dsimp only
    rw [← hstored]
    constructor
    · exact fun h store hstore => (h e rfl).blobs store hstore
    · exact fun h _ _ => ⟨fun _ => rfl, fun store hstore => ⟨store, hstore, fun id =>
        Tables.Agree.refl id _⟩, h⟩
  | ok seed =>
    dsimp only
    -- the share was made, and only the tables can still refuse it
    by_cases hsucceeds : c.Succeeds shareId call seed
    · refine iff_of_true (fun e he => ?_) (Or.inl hsucceeds)
      cases (finishSeed_eq_ok_iff.2 (by exact hsucceeds)).symm.trans he
    · rw [or_iff_right hsucceeds, ← hstored]
      rcases Option.eq_none_or_eq_some c.store with hstore | ⟨store, hstore⟩
      · refine iff_of_true (fun e he => ?_) ⟨fun store h => ?_, fun store h => ?_⟩
        · rw [finishSeed_of_store_none (by exact hstore) (by exact hsucceeds)]
          exact same_of_store_none hstore fun _ => rfl
        · cases hstore.symm.trans h
        · cases hstore.symm.trans h
      · have hblobs : (∀ store', c.store = some store' → Blobs.SameIn os store'.cfg.blobs c.blobs
            (makeShare S B toLowercase idOf hash os reads call c).1) ↔
            Blobs.SameIn os store.cfg.blobs c.blobs
              (makeShare S B toLowercase idOf hash os reads call c).1 := by
          simp [hstore]
        have hsame : c.Same os (finishSeed form shareId text
            { c with blobs := (makeShare S B toLowercase idOf hash os reads call c).1 } call
            seed).1 ↔
            Blobs.SameIn os store.cfg.blobs c.blobs
              (makeShare S B toLowercase idOf hash os reads call c).1 ∧
            c.SavesNothingNew shareId call seed := same_finishSeed_iff hstore hsucceeds
        rw [hblobs, ← hsame]
        constructor
        · intro h
          cases hresult : (finishSeed form shareId text
              { c with blobs := (makeShare S B toLowercase idOf hash os reads call c).1 } call
              seed).2 with
          | ok _ => exact absurd (finishSeed_eq_ok_iff.1 hresult) hsucceeds
          | error e => exact h e hresult
        · exact fun h _ _ => h

end SeedClient

end

/-! ## Seeding again what is being served -/

namespace SeedAgain

open ThreeBytes

def shareId : ShareId := .replicate 32 5

def friend : EndpointId := .replicate 32 1

/-- A file is shared in place for this list. -/
def call (allowPeers : Option (List EndpointId)) : SeedCall where
  source := .path file none (.ok file)
  options := { name := some "x", join := none, isPrivate := false, allowPeers, inPlace := true }
  env := { disk, openSource := fun _ => .ok source, make := fun _ => { env with folderMade := true }
           random := .replicate 8 7, newSecret := .replicate 32 9, fails := fun _ => false }

/-- The file is being served, for a friend only. -/
def client : SeedClient Bytes Digest where
  store := some ⟨⟨blobs, none⟩, Tables.empty.commit (.putAllowed shareId (some [friend]))⟩
  registry := (∅ : AList _).insert shareId served
  blobs := ⟨fun _ => none, fun _ => false⟩

def text (_ : Path) : String := "x"

lemma fresh (allowPeers : Option (List EndpointId)) : client.Fresh .unix (call allowPeers) :=
  fun _ _ => rfl

lemma mem_registry : shareId ∈ client.registry := (AList.mem_insert _).2 (Or.inl rfl)

lemma makeShare_call (allowPeers : Option (List EndpointId)) :
    makeShare keys referenceBao id OneFile.idOf Digest.codec .unix reads (call allowPeers) client =
      (client.blobs, .ok served) := by
  change (client.blobs, Seed.fromDisk referenceBao _ OneFile.idOf Digest.codec .unix disk file none
    (some "x") none) = _
  rw [← fromDisk_served]

end SeedAgain

open ThreeBytes SeedAgain in
/-- Seeding a file again, now for anyone, fails as it is being served already; but that only the
friend may have it is forgotten. -/
theorem failed_seed_forgets_list : client.Fresh .unix (call none) ∧
    (client.seed keys referenceBao Digest.pairForm id OneFile.idOf (fun _ => shareId) Digest.codec
      .unix reads SeedAgain.text (call none)).2 = .error (.fail .alreadySharing) ∧
    ¬ client.ChangesNothing keys referenceBao Digest.pairForm id OneFile.idOf (fun _ => shareId)
      Digest.codec .unix reads SeedAgain.text (call none) := by
  have hmade := makeShare_call none
  have hstarts : (client.seed keys referenceBao Digest.pairForm id OneFile.idOf (fun _ => shareId)
      Digest.codec .unix reads SeedAgain.text (call none)).2 = .error (.fail .alreadySharing) := by
    rw [SeedClient.seed, hmade]
    dsimp only
    rw [SeedClient.finishSeed_of_allowed (by rfl) (by rfl) (by rfl),
      SeedClient.startSeed_of_mem (by exact mem_registry)]
  refine ⟨fresh none, hstarts, fun h => ?_⟩
  have hsame := h _ hstarts
  rw [SeedClient.seed, hmade] at hsame
  dsimp only at hsame
  have hfails : ¬ client.Succeeds (fun _ => shareId) (call none) served :=
    fun h => h.2.1 mem_registry
  have hsaved := ((SeedClient.same_finishSeed_iff (by rfl) hfails).1 hsame).2 _ rfl rfl rfl
  cases hsaved.1

open ThreeBytes SeedAgain in
/-- For the same list, nothing is changed. -/
theorem failed_changes_nothing_iff_same_list :
    client.ChangesNothing keys referenceBao Digest.pairForm id OneFile.idOf (fun _ => shareId)
      Digest.codec .unix reads SeedAgain.text (call (some [friend])) := by
  refine (SeedClient.failed_changes_nothing_iff client (call (some [friend])) (fresh _)).2 ?_
  rw [SeedClient.LeavesNothing, makeShare_call]
  refine Or.inr ⟨?_, ?_⟩
  · rintro ⟨store, path, -, h, -⟩
    cases h
  · rintro store hstore - -
    obtain rfl := Option.some.inj hstore
    exact ⟨AList.lookup_insert _, fun hno => absurd mem_registry hno⟩

end Chorrent
