/-
# Ways of seeding

The same files and folders can be shared where they are, copied into the encrypted store, or, for
one file, as a stream.  Whichever way is taken, and in whatever order the operating system
enumerates folders and splits reads, the manifest lists the files that are there by their names
and contents, so that the share has the same id.
-/
import Chorrent.Chunker.Import
import Chorrent.Manifest.Listing
import Chorrent.Seed.Atomic

namespace Chorrent

open Lib

section

variable {Master Key Hash Wire : Type} (S : StoreKeys Master Key) (B : Bao Hash Wire)
  (toLowercase : String → String) (idOf : Bytes → Hash) (hash : Codec Hash) (os : Os)
  (reads : Reads)

/-- The outboard of a file; sizes are 64-bit numbers. -/
def sized (outboard : Outboard Hash) : Result (FileOutboard Hash) :=
  if h : outboard.size < 2 ^ 64 then .ok ⟨outboard, h⟩ else .error .panic

/-- What `from_disk` does with a file when there is an encrypted store: it is copied into the
share's new folder. -/
def ingestCopy (openSource : Path → IoResult Source) (env : ℕ → ImportEnv) (root dir : Path)
    (key : Master) (index : ℕ) (names : DiskNames) (size : ℕ) (fs : FileSystem) :
    FileSystem × Result (FileData Master × FileOutboard Hash) :=
  let data := FileData.encrypted (dir.join os (toString index ++ ".enc")) key size
  match IoResult.orError (.seedIo names) (openSource (SeedDisk.below os root names)) with
  | .error e => (fs, .error e)
  | .ok source =>
      let imported := importFile S B reads (env index) source size data (fs data.path)
      (Function.update fs data.path imported.file, do
        let outboard ← sized (← imported.result)
        return (data, outboard))

/-- `from_disk` with an encrypted store, whose folder for the new share is `dir`. -/
def Seed.fromDiskInto (disk : SeedDisk) (openSource : Path → IoResult Source)
    (env : ℕ → ImportEnv) (root dir : Path) (key : Master) (rootName : Option Bytes)
    (label : Option String) (secret : Option (List.Vector UInt8 32)) (fs : FileSystem) :
    FileSystem × Result (Seed Master Hash) :=
  let made := Manifest.fromDisk toLowercase rootName label (disk.tree root)
    (fun names => disk.len (SeedDisk.below os root names))
    (ingestCopy S B os reads openSource env root dir key) fs
  (made.1, made.2.map fun (manifest, hashed) =>
    Seed.fromParts idOf manifest (manifest.encode hash)
      (hashed.map fun (data, outboard) => ⟨data, outboard.1⟩) secret dir)

/-- `from_reader`: one file given as a stream of `size` bytes. -/
def Seed.fromReader (env : ImportEnv) (name : String) (size : ℕ) (source : Source)
    (secret : Option (List.Vector UInt8 32)) (dir : Path) (key : Option Master) (fs : FileSystem) :
    FileSystem × Result (Seed Master Hash) :=
  let data := match key with
    | some key => FileData.encrypted (dir.join os "0.enc") key size
    | none => FileData.plain (dir.join os name)
  let imported := importFile S B reads env source size data (fs data.path)
  (Function.update fs data.path imported.file, do
    let outboard ← sized (← imported.result)
    let manifest ← Manifest.single name outboard
    return Seed.fromParts idOf manifest (manifest.encode hash) [⟨data, outboard.1⟩] secret
      (if data.isEncrypted then dir else data.path))

/-- A share of these files and folders under this name, seeded in one of the ways there are.  The
files do not change meanwhile: what can be read of them is their content. -/
inductive Shared (t : Tree) (content : DiskNames → FileBytes) (name : String) :
    Seed Master Hash → Prop
  | inPlace {os : Os} {disk : SeedDisk} {root : Path} {rootName : Option Bytes}
      {label : Option String} {secret : Option (List.Vector UInt8 32)} {seed : Seed Master Hash}
      (htree : disk.tree root = t)
      (hread : ∀ names bytes, t.At names .file →
        disk.read (SeedDisk.below os root names) = .ok bytes → bytes = content names)
      (hname : Manifest.shareName rootName label = .ok name)
      (h : Seed.fromDisk B toLowercase idOf hash os disk root rootName label secret = .ok seed) :
      Shared t content name seed
  | copied {os : Os} {reads : Reads} {disk : SeedDisk} {openSource : Path → IoResult Source}
      {env : ℕ → ImportEnv} {root dir : Path} {key : Master} {rootName : Option Bytes}
      {label : Option String} {secret : Option (List.Vector UInt8 32)} {fs fs' : FileSystem}
      {seed : Seed Master Hash} (htree : disk.tree root = t)
      (hlen : ∀ names size, t.At names .file →
        disk.len (SeedDisk.below os root names) = .ok size → size = (content names).1.length)
      (hread : ∀ names source, t.At names .file →
        openSource (SeedDisk.below os root names) = .ok source →
          source.available = (content names).1)
      (hname : Manifest.shareName rootName label = .ok name)
      (h : Seed.fromDiskInto S B toLowercase idOf hash os reads disk openSource env root dir key
        rootName label secret fs = (fs', .ok seed)) :
      Shared t content name seed
  | streamed {os : Os} {reads : Reads} {env : ImportEnv} {source : Source}
      {secret : Option (List.Vector UInt8 32)} {dir : Path} {key : Option Master}
      {fs fs' : FileSystem} {seed : Seed Master Hash} (htree : t = .file)
      (hread : source.available.take (content []).1.length = (content []).1)
      (h : Seed.fromReader S B idOf hash os reads env name (content []).1.length source secret dir
        key fs = (fs', .ok seed)) :
      Shared t content name seed

end

/-! ## What a manifest says of files and folders -/

/-- The manifest lists each regular file once, by its names, its size and its root hash. -/
structure Manifest.Describes {Hash Wire : Type} (B : Bao Hash Wire) (m : Manifest Hash) (t : Tree)
    (content : DiskNames → FileBytes) (name : String) : Prop where
  name_eq : m.name = name
  lists : t.Lists name (m.files.map FileEntry.path)
  entries : ∀ file ∈ m.files, ∀ names, t.At names .file → file.path = name :: names.map diskText →
    file.size = (content names).1.length ∧ file.rootHash = (B.create (content names).1).root

namespace Tree

/-- The same files and folders, enumerated in another order. -/
inductive Reorders : Tree → Tree → Prop
  | refl (t : Tree) : Reorders t t
  | perm {entries entries' : List (Bytes × Tree)} (h : entries.Perm entries') :
      Reorders (.dir entries) (.dir entries')
  | inside {before after : List (Bytes × Tree)} {name : Bytes} {t t' : Tree} (h : Reorders t t') :
      Reorders (.dir (before ++ (name, t) :: after)) (.dir (before ++ (name, t') :: after))
  | trans {t t' t'' : Tree} (h : Reorders t t') (h' : Reorders t' t'') : Reorders t t''

/-- The same regular files are there. -/
def SameFiles (t t' : Tree) : Prop := ∀ names, t.At names .file ↔ t'.At names .file

lemma Reorders.sameFiles {t t' : Tree} (h : t.Reorders t') : t.SameFiles t' := by
  induction h with
  | refl t => exact fun _ => Iff.rfl
  | perm hperm =>
    intro names
    cases names with
    | nil => exact iff_of_false (by rintro ⟨⟩) (by rintro ⟨⟩)
    | cons name names =>
      rw [at_dir_cons, at_dir_cons]
      exact exists_congr fun t => and_congr_left fun _ => hperm.mem_iff
  | @inside before after name t t' _ ih =>
    intro names
    cases names with
    | nil => exact iff_of_false (by rintro ⟨⟩) (by rintro ⟨⟩)
    | cons name' names =>
      rw [at_dir_cons, at_dir_cons]
      simp only [List.mem_append, List.mem_cons, Prod.mk.injEq]
      constructor
      · rintro ⟨s, hs | ⟨rfl, rfl⟩ | hs, hat⟩
        · exact ⟨s, .inl hs, hat⟩
        · exact ⟨t', .inr (.inl ⟨rfl, rfl⟩), (ih names).1 hat⟩
        · exact ⟨s, .inr (.inr hs), hat⟩
      · rintro ⟨s, hs | ⟨rfl, rfl⟩ | hs, hat⟩
        · exact ⟨s, .inl hs, hat⟩
        · exact ⟨t, .inr (.inl ⟨rfl, rfl⟩), (ih names).2 hat⟩
        · exact ⟨s, .inr (.inr hs), hat⟩
  | trans _ _ ih ih' => exact fun names => (ih names).trans (ih' names)

end Tree

lemma Tree.Portable.diskText_injective {t s s' : Tree} (h : t.Portable) {names names' : DiskNames}
    (hat : t.At names s) (hat' : t.At names' s') (heq : names.map diskText = names'.map diskText) :
    names = names' := by
  rw [← h.map_utf8 hat, ← h.map_utf8 hat', heq]

/-- Sorted lists of the same files are the same. -/
lemma Tree.Lists.unique {t t' : Tree} {name : String} {paths paths' : List (List String)}
    (h : t.Lists name paths) (h' : t'.Lists name paths') (hsame : t.SameFiles t') :
    paths = paths' := by
  have : Std.Irrefl fun a b : List String => pathKey a < pathKey b :=
    ⟨fun a => lt_irrefl (pathKey a)⟩
  refine h.sorted.eq_of_mem_iff h'.sorted fun path => ?_
  rw [h.mem_iff, h'.mem_iff]
  exact exists_congr fun names => and_congr_left fun _ => hsame names

lemma Tree.Lists.nodup {t : Tree} {name : String} {paths : List (List String)}
    (h : t.Lists name paths) : paths.Nodup :=
  h.sorted.imp fun {a b} hlt => by
    rintro rfl
    exact lt_irrefl _ hlt

namespace Manifest

variable {Hash Data σ Wire : Type} {B : Bao Hash Wire} {toLowercase : String → String} {t t' : Tree}
  {content : DiskNames → FileBytes} {name : String}

/-- Manifests that describe the same files are the same. -/
theorem Describes.unique {m m' : Manifest Hash} (h : m.Describes B t content name)
    (h' : m'.Describes B t' content name) (hsame : t.SameFiles t') : m = m' := by
  have hpaths := h.lists.unique h'.lists hsame
  have hlength : m.files.length = m'.files.length := by
    simpa using congrArg List.length hpaths
  have hfiles : m.files = m'.files := by
    refine List.ext_getElem hlength fun i hi hi' => ?_
    have hpath : (m.files[i]).path = (m'.files[i]).path := by
      have := List.getElem_of_eq hpaths (by simpa using hi)
      simpa using this
    obtain ⟨names, hat, hnames⟩ :=
      (h.lists.mem_iff _).1 (List.mem_map_of_mem (List.getElem_mem hi))
    obtain ⟨hsize, hroot⟩ := h.entries _ (List.getElem_mem hi) names hat hnames
    obtain ⟨hsize', hroot'⟩ :=
      h'.entries _ (List.getElem_mem hi') names ((hsame names).1 hat) (hpath ▸ hnames)
    generalize m.files[i] = file at *
    generalize m'.files[i] = file' at *
    obtain ⟨path, size, hlt, rootHash⟩ := file
    obtain ⟨path', size', hlt', rootHash'⟩ := file'
    simp only at hpath hsize hsize' hroot hroot'
    subst hpath hsize hroot hsize' hroot'
    rfl
  obtain ⟨name', files⟩ := m
  obtain ⟨name'', files'⟩ := m'
  obtain rfl : name' = name := h.name_eq
  obtain rfl : name'' = name' := h'.name_eq
  obtain rfl : files = files' := hfiles
  rfl

/-- A manifest that is made of what is on disk describes it, when each file is hashed as it is. -/
lemma describes_of_fromDisk {rootName : Option Bytes} {label : Option String}
    {metadata : DiskNames → IoResult ℕ}
    {ingest : ℕ → DiskNames → ℕ → σ → σ × Result (Data × FileOutboard Hash)} {s s' : σ}
    {m : Manifest Hash} {hashed : List (Data × FileOutboard Hash)} (hdistinct : t.Distinct)
    (hname : shareName rootName label = .ok name)
    (hingest : ∀ i names size s s' data outboard, t.At names .file → metadata names = .ok size →
      ingest i names size s = (s', .ok (data, outboard)) →
      outboard.1 = B.create (content names).1)
    (h : fromDisk toLowercase rootName label t metadata ingest s = (s', .ok (m, hashed))) :
    m.Describes B t content name := by
  obtain ⟨hname', found, files, hfound, -, hfiles, hm, -⟩ := fromDisk_iff.1 h
  obtain rfl : name = m.name := Except.ok.inj (hname.symm.trans hname')
  have hcollected := (collect_spec t [] [m.name]).1 found hfound
  have hpaths : m.files.map FileEntry.path = found.map Prod.fst := by
    rw [hm, List.map_map]
    exact (ingestFiles_eq_ok found 0 s s' files hfiles).1
  refine ⟨rfl, hpaths ▸ (collect_paths_iff hdistinct).1 ⟨found, hfound, rfl⟩, ?_⟩
  intro entry hentry names hat hpath
  rw [hm] at hentry
  obtain ⟨⟨entry', data, outboard⟩, hfile, rfl⟩ := List.mem_map.1 hentry
  obtain ⟨names', hmem, heq, i, size, s₁, s₂, hmetadata, hdone⟩ :=
    exists_ingested found 0 s s' files hfiles _ hfile
  -- the names that were hashed are the ones of the path
  obtain ⟨names'', hat'', hfound'⟩ := (hcollected.mem_iff _).1 hmem
  obtain ⟨hpath', rfl⟩ := Prod.mk.inj hfound'
  obtain rfl : names' = names := by
    refine hcollected.portable.diskText_injective hat'' hat ?_
    exact (List.cons.inj (hpath'.symm.trans hpath)).2
  have hroot := hingest i names' size s₁ s₂ data outboard hat hmetadata hdone
  have hsize : entry'.size = outboard.1.size := congrArg FileEntry.size heq
  have hhash : entry'.rootHash = outboard.1.root := congrArg FileEntry.rootHash heq
  exact ⟨by rw [hsize, hroot, B.create_size], by rw [hhash, hroot]⟩

end Manifest

/-! ## All ways of seeding -/

section

variable {Master Key Hash Wire : Type} {S : StoreKeys Master Key} {B : Bao Hash Wire}
  {toLowercase : String → String} {idOf : Bytes → Hash} {hash : Codec Hash} {t t' : Tree}
  {content : DiskNames → FileBytes} {name : String} {seed seed' : Seed Master Hash}

lemma sized_eq_ok {outboard : Outboard Hash} {full : FileOutboard Hash}
    (h : sized outboard = .ok full) : full.1 = outboard := by
  rw [sized] at h
  split_ifs at h
  cases h
  rfl

/-- What was imported is hashed as what came from the source. -/
lemma importFile_root {reads : Reads} {env : ImportEnv} {source : Source} {size : ℕ}
    {data : FileData Master} {existing : Option Bytes} {outboard : Outboard Hash}
    (hsize : size < 2 ^ 64)
    (h : (importFile S B reads env source size data existing).result = .ok outboard)
    (hsized : data.Sized size) : outboard = B.create (source.available.take size) := by
  rcases importFile_cases (S := S) (B := B) reads env source hsize hsized existing with
    ⟨e, he, -⟩ | ⟨outboard', content', hok, rfl, hstores⟩
  · cases he.symm.trans h
  · cases hok.symm.trans h
    exact hstores.hashed

lemma ingestCopy_root {os : Os} {reads : Reads} {openSource : Path → IoResult Source}
    {env : ℕ → ImportEnv} {root dir : Path} {key : Master} {i : ℕ} {names : DiskNames}
    {fs fs' : FileSystem} {data : FileData Master} {outboard : FileOutboard Hash}
    (hread : ∀ source, openSource (SeedDisk.below os root names) = .ok source →
      source.available = (content names).1)
    (h : ingestCopy S B os reads openSource env root dir key i names (content names).1.length fs =
      (fs', .ok (data, outboard))) : outboard.1 = B.create (content names).1 := by
  rw [ingestCopy] at h
  cases hopen : IoResult.orError (.seedIo names) (openSource (SeedDisk.below os root names)) with
  | error e =>
    rw [hopen] at h
    cases h
  | ok source =>
    rw [hopen] at h
    obtain ⟨outboard', himport, h⟩ := except_bind_eq_ok.1 (congrArg Prod.snd h)
    obtain ⟨full, hfull, h⟩ := except_bind_eq_ok.1 h
    cases h
    rw [sized_eq_ok hfull, importFile_root (content names).2 himport rfl,
      hread source (IoResult.orError_eq_ok.1 hopen), List.take_length]

/-- A stream is described as a file of its own. -/
lemma describes_of_single {m : Manifest Hash} {outboard : FileOutboard Hash}
    (houtboard : outboard.1 = B.create (content []).1) (h : Manifest.single name outboard = .ok m) :
    m.Describes B .file content name := by
  rw [Manifest.single] at h
  split at h
  · cases h
  cases h
  have hlisted : collect [] [name] .file = .ok [([name], [])] := by rw [collect]
  refine ⟨rfl, (collect_paths_iff ?_).1 ⟨_, hlisted, rfl⟩, ?_⟩
  · intro names entries hat
    cases hat
  · intro file hfile names hat _
    obtain rfl := List.mem_singleton.1 hfile
    cases hat
    simp only [houtboard, B.create_size, and_self]

/-- The manifest of a share describes what was shared, and its id is made of it. -/
theorem Shared.describes (h : Shared S B toLowercase idOf hash t content name seed)
    (hdistinct : t.Distinct) :
    seed.share.manifest.Describes B t content name ∧
      seed.id = idOf (seed.share.manifest.encode hash) := by
  cases h with
  | @inPlace os disk root rootName label secret _ htree hread hname h =>
    subst htree
    obtain ⟨⟨m, hashed⟩, hmade, rfl⟩ := except_map_eq_ok.1 h
    refine ⟨Manifest.describes_of_fromDisk hdistinct hname ?_ (Prod.ext rfl hmade), rfl⟩
    intro i names size s s' data outboard hat _ hingest
    obtain ⟨outboard', hhash, hdata⟩ := except_map_eq_ok.1 (congrArg Prod.snd hingest)
    obtain ⟨bytes, hbytes, rfl⟩ := except_map_eq_ok.1 hhash
    cases hdata
    rw [hread names bytes hat (IoResult.orError_eq_ok.1 hbytes)]
  | @copied os reads disk openSource env root dir key rootName label secret fs fs' _
      htree hlen hread
      hname h =>
    subst htree
    obtain ⟨⟨m, hashed⟩, hmade, rfl⟩ := except_map_eq_ok.1 (congrArg Prod.snd h)
    refine ⟨Manifest.describes_of_fromDisk hdistinct hname ?_ (Prod.ext rfl hmade), rfl⟩
    intro i names size s s' data outboard hat hmetadata hingest
    obtain rfl := hlen names size hat hmetadata
    exact ingestCopy_root (fun source => hread names source hat) hingest
  | @streamed os reads env source secret dir key fs fs' _ htree hread h =>
    subst htree
    obtain ⟨outboard, himport, h⟩ := except_bind_eq_ok.1 (congrArg Prod.snd h)
    obtain ⟨full, hfull, h⟩ := except_bind_eq_ok.1 h
    obtain ⟨m, hsingle, h⟩ := except_bind_eq_ok.1 h
    cases h
    refine ⟨describes_of_single ?_ hsingle, rfl⟩
    rw [sized_eq_ok hfull, importFile_root (content []).2 himport ?_, hread]
    cases key with
    | none => trivial
    | some key => rfl

/-- The id of a share depends only on names and contents: in whatever order folders are
enumerated and in whichever way the files are seeded, the manifest is the same, and so is the
id. -/
theorem share_id_of_names_and_contents
    (h : Shared S B toLowercase idOf hash t content name seed)
    (h' : Shared S B toLowercase idOf hash t' content name seed') (hdistinct : t.Distinct)
    (hdistinct' : t'.Distinct) (hsame : t.SameFiles t') :
    seed.share.manifest = seed'.share.manifest ∧ seed.id = seed'.id ∧
      seed.share.manifest.Describes B t content name ∧
      (seed.share.manifest.files.map FileEntry.path).Nodup := by
  obtain ⟨hdescribes, hid⟩ := h.describes hdistinct
  obtain ⟨hdescribes', hid'⟩ := h'.describes hdistinct'
  have hmanifest := hdescribes.unique hdescribes' hsame
  exact ⟨hmanifest, by rw [hid, hid', hmanifest], hdescribes, hdescribes.lists.nodup⟩

end

/-! ## A file of three bytes, in place and as a stream -/

namespace ThreeBytes

def bytes : FileBytes := ⟨[1, 2, 3], by decide⟩

/-- A disk with nothing but the file. -/
def disk : SeedDisk where
  tree _ := .file
  read _ := .ok bytes
  len _ := .ok 3
  mtime _ := none
  len_of_read path content h := by
    cases h
    rfl

def file : Path := ⟨none, true, ["x"]⟩

def blobs : Path := ⟨none, true, ["blobs"]⟩

def outboard : FileOutboard Digest := ⟨referenceBao.create bytes.1, by decide⟩

def manifest : Manifest Digest := ⟨"x", [⟨["x"], 3, by decide, outboard.1.root⟩]⟩

/-- The share in place. -/
def served : Seed Bytes Digest :=
  Seed.fromParts OneFile.idOf manifest (manifest.encode Digest.codec)
    [⟨.plain file, outboard.1⟩] none
    file

/-- The share in the client's store. -/
def stored : Seed Bytes Digest :=
  Seed.fromParts OneFile.idOf manifest (manifest.encode Digest.codec)
    [⟨.plain (blobs.join .unix "x"), outboard.1⟩] none (blobs.join .unix "x")

lemma fromDisk_served : Seed.fromDisk referenceBao id OneFile.idOf Digest.codec .unix disk file none
    (some "x") none = .ok served := by
  have hlisted : collect [] ["x"] .file = .ok [(["x"], [])] := by rw [collect]
  have hmade : Manifest.fromDisk id none (some "x") .file
      (fun names => disk.len (SeedDisk.below .unix file names))
      (fun _ names _ u => (u, (hashFile referenceBao disk (SeedDisk.below .unix file names)).map
        fun outboard => ((FileData.plain (SeedDisk.below .unix file names) : FileData Bytes),
          outboard))) () = ((), .ok (manifest, [(.plain file, outboard)])) :=
    Manifest.fromDisk_iff.2 ⟨rfl, [(["x"], [])],
      [(⟨["x"], 3, by decide, outboard.1.root⟩, .plain file, outboard)], hlisted,
      rfl, rfl, rfl, rfl⟩
  have htree : disk.tree file = .file := rfl
  simp only [Seed.fromDisk, htree, hmade]
  rfl

lemma fromReader_stored : ∃ fs, Seed.fromReader keys referenceBao OneFile.idOf Digest.codec .unix
    reads env "x" 3 source none blobs none (fun _ => none) = (fs, .ok stored) :=
  ⟨_, rfl⟩

end ThreeBytes

open ThreeBytes in
theorem share_id_of_names_and_contents_three_bytes :
    served.share.root ≠ stored.share.root ∧ served.id = stored.id := by
  obtain ⟨fs, hstored⟩ := fromReader_stored
  have hserved : Shared keys referenceBao id OneFile.idOf Digest.codec .file (fun _ => bytes) "x"
      served := by
    refine .inPlace rfl (fun names content _ h => ?_) rfl fromDisk_served
    cases h
    rfl
  have hdistinct : Tree.file.Distinct := by
    rintro names entries ⟨⟩
  refine ⟨by decide, ?_⟩
  exact (share_id_of_names_and_contents hserved (.streamed rfl rfl hstored) hdistinct hdistinct
    (Tree.Reorders.refl _).sameFiles).2.1

end Chorrent
