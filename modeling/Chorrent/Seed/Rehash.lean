/-
# Hashing a saved share again

A plain share whose files look changed is made anew from what is on disk, and is loaded if that
gives the same id.  So it is not enough that the listed files are intact: what is there must give
the bytes of the manifest again, with these files and no others, in the order in which files are
listed, and encoded as this program encodes.
-/
import Chorrent.Manifest.Listing
import Chorrent.Manifest.Seedable
import Chorrent.Seed.Atomic

namespace Chorrent

open Lib

/-! ## Where the files of a share in place are -/

namespace Path

lemma base_append_ordinary (folder : Path) {names : List String} (hne : names ≠ [])
    (h : ∀ n ∈ names, Ordinary n) :
    ({ folder with segments := folder.base ++ names } : Path).base = folder.base ++ names := by
  have hnames : names.filter (· ≠ "") = names :=
    List.filter_eq_self.2 fun n hn => by simpa using (h n hn).1
  rw [base]
  split_ifs with hverbatim hlast
  · have hverbatim : folder.isVerbatim = true := hverbatim
    dsimp only
    rw [List.filter_append, hnames, base, if_pos hverbatim, List.filter_filter]
    simp
  · dsimp only at hlast
    rw [List.getLast?_append_of_ne_nil _ hne] at hlast
    exact absurd rfl (h "" (List.mem_of_getLast? hlast)).1
  · rfl

/-- Ordinary names joined one by one stand after one another. -/
lemma foldl_join_ordinary (os : Os) (folder : Path) {names : List String}
    (h : ∀ n ∈ names, Ordinary n) : ∀ {before : List String}, before ≠ [] →
    (∀ n ∈ before, Ordinary n) →
    names.foldl (join os) { folder with segments := folder.base ++ before } =
      { folder with segments := folder.base ++ (before ++ names) } := by
  induction names with
  | nil => intro before _ _; rw [List.foldl_nil, List.append_nil]
  | cons n names ih =>
    intro before hne hbefore
    have hn := h n List.mem_cons_self
    have hjoin : join os { folder with segments := folder.base ++ before } n =
        { folder with segments := folder.base ++ (before ++ [n]) } := by
      rw [join, parse_ordinary os hn, push_ordinary os _ (by simpa using hn),
        base_append_ordinary folder hne hbefore, List.append_assoc]
    rw [List.foldl_cons, hjoin, ih (fun n hn => h n (List.mem_cons_of_mem _ hn)) (by simp)
      (by simpa [or_imp, forall_and, hn] using hbefore), List.append_assoc, List.singleton_append]

end Path

section

variable {Master Key Hash Wire : Type}

/-- Where a file of a share in place is: under the share's root, by its names after the first. -/
def FileEntry.place (os : Os) (root : Path) (entry : FileEntry Hash) : Path :=
  entry.path.tail.foldl (Path.join os) root

/-- A download puts the files in place under the root of the share. -/
lemma FileEntry.place_downloadRoot {toLowercase : String → String} {m : Manifest Hash}
    (hvalid : m.validate toLowercase = .ok ()) (os : Os) (dest : Path) {entry : FileEntry Hash}
    (hentry : entry ∈ m.files) :
    entry.place os (m.downloadRoot os dest) = entry.downloadPath os dest := by
  obtain ⟨hhead, hnames⟩ := Manifest.nameProblem_of_validateFiles hvalid entry hentry
  have hordinary : ∀ n ∈ entry.path, Path.Ordinary n :=
    fun n hn => ordinary_of_nameProblem (hnames n hn)
  obtain ⟨rest, hpath⟩ := List.head?_eq_some_iff.1 hhead
  rw [hpath] at hordinary
  have hname := hordinary m.name List.mem_cons_self
  rw [downloadPath, relativePath, hpath, Path.collect_ordinary os (by simp) hordinary,
    Path.push_ordinary os dest hordinary, place, hpath, List.tail_cons, Manifest.downloadRoot,
    Path.join, Path.parse_ordinary os hname, Path.push_ordinary os dest (by simpa using hname),
    Path.foldl_join_ordinary os dest (fun n hn => hordinary n (List.mem_cons_of_mem _ hn)) (by simp)
      (by simpa using hname)]
  rfl

/-! ## Plain shares -/

section

variable [DecidableEq Hash] (B : Bao Hash Wire) (toLowercase : String → String)
  (idOf : Bytes → Hash)
  (hash : Codec Hash) (os : Os)

/-- A plain share: seeded from disk, or downloaded. -/
inductive Seed.Plain : Seed Master Hash → Prop
  | seeded {disk : SeedDisk} {root : Path} {rootName : Option Bytes} {label : Option String}
      {secret : Option (List.Vector UInt8 32)} {seed : Seed Master Hash}
      (h : Seed.fromDisk B toLowercase idOf hash os disk root rootName label secret = .ok seed) :
      Seed.Plain seed
  | downloaded {seed : Seed Master Hash} {m : Manifest Hash} {dest : Path}
      (hdecode : Manifest.decodeVerified toLowercase idOf hash seed.manifestBytes seed.id = .ok m)
      (hd : IsDownload ⟨os, dest, none⟩ m seed.share)
      (hroot : seed.share.root = m.downloadRoot os dest) : Seed.Plain seed

/-- Every file is in its place under the root. -/
structure Seed.Placed (seed : Seed Master Hash) : Prop where
  decodes : Manifest.decodeVerified toLowercase idOf hash seed.manifestBytes seed.id =
    .ok seed.share.manifest
  data_eq : seed.share.files.map LocalFile.data =
    seed.share.manifest.files.map fun entry => .plain (entry.place os seed.share.root)

/-- Every listed file has its listed content at its place. -/
def Seed.Intact (disk : SeedDisk) (seed : Seed Master Hash) : Prop :=
  ∀ entry ∈ seed.share.manifest.files, ∃ content,
    disk.read (entry.place os seed.share.root) = .ok content ∧
      content.1.length = entry.size ∧ B.rootHash content.1 = entry.rootHash

/-- What is on disk gives the bytes of the manifest again: the files at and below the root are
the listed ones, and listed in that order, and the manifest is encoded as this program encodes. -/
structure Seed.Reproduced (disk : SeedDisk) (seed : Seed Master Hash) : Prop where
  lists : (disk.tree seed.share.root).Lists seed.share.manifest.name
    (seed.share.manifest.files.map FileEntry.path)
  canonical : seed.manifestBytes = seed.share.manifest.encode hash

end

variable [DecidableEq Hash] {S : StoreKeys Master Key} {B : Bao Hash Wire} {form : PairForm Hash}
  {toLowercase : String → String} {idOf : Bytes → Hash} {hash : Codec Hash} {os : Os}
  {text : Path → String} {disk disk₀ : SeedDisk} {key : Option Master}
  {seed loaded : Seed Master Hash}
  {allowed : Option (Finset EndpointId)}

omit [DecidableEq Hash] in
lemma FileEntry.place_eq_below {root : Path} {entry : FileEntry Hash} {name : String}
    {names : DiskNames} (h : entry.path = name :: names.map diskText) :
    entry.place os root = SeedDisk.below os root names := by
  rw [place, h, List.tail_cons, List.foldl_map]
  rfl

omit [DecidableEq Hash] in
/-- How a share in place comes about. -/
lemma Seed.fromDisk_eq_ok {root : Path} {rootName : Option Bytes} {label : Option String}
    {secret : Option (List.Vector UInt8 32)}
    (h : Seed.fromDisk B toLowercase idOf hash os disk root rootName label secret = .ok seed) :
    seed.id = idOf seed.manifestBytes ∧
      seed.manifestBytes = seed.share.manifest.encode hash ∧ seed.share.root = root ∧
      seed.share.manifest.validate toLowercase = .ok () ∧
      Manifest.shareName rootName label = .ok seed.share.manifest.name ∧
      (∃ found, collect [] [seed.share.manifest.name] (disk.tree root) = .ok found ∧
        found.map Prod.fst = seed.share.manifest.files.map FileEntry.path) ∧
      seed.share.files.map LocalFile.data =
        seed.share.manifest.files.map fun entry => .plain (entry.place os root) := by
  obtain ⟨⟨manifest, hashed⟩, hmade, rfl⟩ := except_map_eq_ok.1 h
  obtain ⟨hname, found, files, hfound, hunique, hfiles, hm, rfl⟩ :=
    Manifest.fromDisk_iff.1 (Prod.ext rfl hmade)
  obtain ⟨hpaths, -⟩ := Manifest.ingestFiles_eq_ok _ _ _ _ _ hfiles
  have hmap : manifest.files.map FileEntry.path = found.map Prod.fst := by
    rw [hm, List.map_map]
    exact hpaths
  refine ⟨rfl, rfl, rfl, Manifest.validate_fromDisk (Prod.ext rfl hmade), hname, ⟨found, hfound,
    hmap.symm⟩, ?_⟩
  show ((files.map Prod.snd).map _).map LocalFile.data = manifest.files.map _
  rw [hm, List.map_map, List.map_map, List.map_map]
  refine List.map_congr_left fun file hfile => ?_
  obtain ⟨names, hmem, -, _, _, _, _, -, hingest⟩ :=
    Manifest.exists_ingested found _ _ _ _ hfiles file hfile
  obtain ⟨names', -, heq⟩ := (((collect_spec _ _ _).1 found hfound).mem_iff _).1 hmem
  obtain ⟨hpath, rfl⟩ := Prod.mk.inj heq
  obtain ⟨outboard, -, hdata⟩ := except_map_eq_ok.1 (congrArg Prod.snd hingest)
  obtain ⟨entry, data, outboard'⟩ := file
  cases hdata
  exact congrArg FileData.plain (FileEntry.place_eq_below hpath).symm

/-- A plain share has its files in place. -/
lemma Seed.Plain.placed (h : seed.Plain B toLowercase idOf hash os) (hhash : ∀ h, hash.Fits h)
    (hlt : seed.manifestBytes.length < 2 ^ 64) : seed.Placed toLowercase idOf hash os := by
  cases h with
  | seeded h =>
    obtain ⟨hid, hbytes, rfl, hvalid, -, -, hdata⟩ := Seed.fromDisk_eq_ok h
    refine ⟨?_, hdata⟩
    rw [hbytes] at hlt
    have hdecode := (Manifest.codec hash).decode_encode seed.share.manifest []
      (Manifest.fits_of_length hhash hlt)
    rw [List.append_nil] at hdecode
    rw [hid, hbytes]
    exact Manifest.decodeVerified_eq_ok.2 ⟨rfl, hvalid, _, _, rfl, hdecode⟩
  | @downloaded _ m dest hdecode hd hroot =>
    obtain ⟨-, hvalid, -⟩ := Manifest.decodeVerified_eq_ok.1 hdecode
    refine ⟨hd.manifest_eq.symm ▸ hdecode, ?_⟩
    rw [hd.manifest_eq, hroot]
    refine List.ext_getElem? fun i => ?_
    rw [List.getElem?_map, List.getElem?_map]
    cases hf : m.files[i]? with
    | none =>
      rw [List.getElem?_eq_none_iff, ← hd.files_length] at hf
      rw [List.getElem?_eq_none_iff.2 hf]
      rfl
    | some entry =>
      obtain ⟨outboard, hfile, -⟩ := hd.file_eq i entry hf
      rw [hfile, Option.map_some, Option.map_some,
        FileEntry.place_downloadRoot hvalid os _ (List.mem_of_getElem? hf)]
      rfl

lemma Seed.Placed.files_length (h : seed.Placed toLowercase idOf hash os) :
    seed.share.files.length = seed.share.manifest.files.length := by
  have := congrArg List.length h.data_eq
  rwa [List.length_map, List.length_map] at this

lemma Seed.Placed.kinds_eq (h : seed.Placed toLowercase idOf hash os) :
    ∀ kind ∈ seed.kinds, kind = false := by
  intro kind hkind
  have hkinds : seed.kinds = (seed.share.files.map LocalFile.data).map FileData.isEncrypted := by
    rw [List.map_map]
    rfl
  rw [hkinds, h.data_eq, List.map_map] at hkind
  obtain ⟨entry, -, rfl⟩ := List.mem_map.1 hkind
  rfl

variable (Master) in
omit [DecidableEq Hash] in
/-- Intact files give the entries of the manifest again. -/
lemma ingestFiles_intact {root : Path} {name : String} (found : List (List String × DiskNames)) :
    ∀ (index : ℕ) (entries : List (FileEntry Hash)),
      found.map Prod.fst = entries.map FileEntry.path →
      (∀ file ∈ found, file.1 = name :: file.2.map diskText) →
      (∀ entry ∈ entries, ∃ content, disk.read (entry.place os root) = .ok content ∧
        content.1.length = entry.size ∧ B.rootHash content.1 = entry.rootHash) →
      ∃ files, Manifest.ingestFiles (fun names => disk.len (SeedDisk.below os root names))
          (fun _ names _ u =>
            (u, (hashFile B disk (SeedDisk.below os root names)).map fun outboard =>
            ((FileData.plain (SeedDisk.below os root names) : FileData Master), outboard)))
          index found () = ((), .ok files) ∧ files.map Prod.fst = entries := by
  induction found with
  | nil =>
    intro index entries hpaths _ _
    exact ⟨[], rfl, (List.map_eq_nil_iff.1 hpaths.symm).symm⟩
  | cons file found ih =>
    intro index entries hpaths hnames hintact
    obtain ⟨components, names⟩ := file
    obtain ⟨entry, entries, rfl, hpath, hrest⟩ := List.map_eq_cons_iff.1 hpaths.symm
    obtain ⟨content, hread, hsize, hroot⟩ := hintact entry List.mem_cons_self
    have hname := hnames _ List.mem_cons_self
    dsimp only at hpath hname
    rw [FileEntry.place_eq_below (hpath.trans hname)] at hread
    obtain ⟨files, hfiles, hentries⟩ := ih (index + 1) entries hrest.symm
      (fun file hfile => hnames file (List.mem_cons_of_mem _ hfile))
      (fun entry hentry => hintact entry (List.mem_cons_of_mem _ hentry))
    have hcreated : (⟨components, (B.create content.1).size, by rw [B.create_size]; exact content.2,
        (B.create content.1).root⟩ : FileEntry Hash) = entry := by
      obtain ⟨path, size, hlt, rootHash⟩ := entry
      dsimp only at hpath hsize hroot
      subst hpath hsize hroot
      simp only [B.create_size, B.create_root, Bao.rootHash]
    refine ⟨(entry, .plain (SeedDisk.below os root names), ⟨B.create content.1, by
      rw [B.create_size]; exact content.2⟩) :: files, ?_, by rw [List.map_cons, hentries]⟩
    have hingest : (hashFile B disk (SeedDisk.below os root names)).map (fun outboard =>
        ((FileData.plain (SeedDisk.below os root names) : FileData Master), outboard)) =
          .ok (.plain (SeedDisk.below os root names), ⟨B.create content.1, by
            rw [B.create_size]; exact content.2⟩) := by
      rw [hashFile, hread]
      rfl
    rw [Manifest.ingestFiles, disk.len_of_read _ _ hread]
    simp only [IoResult.orError, hingest, hfiles, hcreated]

/-! ## When an intact share is loaded -/

/-- The files of a plain share are loaded as plain files. -/
lemma Seed.Placed.loaded_plain (h : seed.Placed toLowercase idOf hash os)
    {files : List (FileData Master)}
    (hfiles : loadFiles os disk key (some seed.kinds) 0 (seed.record form disk₀ text).files
      seed.share.manifest.files = .ok files) : ∀ data ∈ files, data.isEncrypted = false := by
  have hlength : (seed.record form disk₀ text).files.length = seed.share.files.length :=
    seed.length_files_record
  obtain ⟨-, hkinds⟩ := loadFiles_eq_ok _ 0 _ _ (by rw [Nat.zero_add, hlength, seed.length_kinds])
    (by rw [hlength, h.files_length]) hfiles
  rw [List.drop_zero, hlength, ← seed.length_kinds, List.take_length] at hkinds
  intro data hdata
  exact h.kinds_eq _ (hkinds ▸ List.mem_map_of_mem hdata)

/-- An intact share that is listed as its manifest lists it, is made again. -/
lemma Seed.Reproduced.made (h : seed.Reproduced hash disk)
    (hplaced : seed.Placed toLowercase idOf hash os)
    (hdistinct : (disk.tree seed.share.root).Distinct) (hintact : seed.Intact B os disk)
    (hname : nameProblem seed.share.manifest.name = none) :
    ∃ made : Seed Master Hash, Seed.fromDisk B toLowercase idOf hash os disk seed.share.root none
      (some seed.share.manifest.name) seed.secret = .ok made ∧ made.id = seed.id := by
  obtain ⟨hid, hvalid, -⟩ := Manifest.decodeVerified_eq_ok.1 hplaced.decodes
  obtain ⟨found, hfound, hpaths⟩ := (collect_paths_iff hdistinct).2 h.lists
  have hunique := Manifest.checkUnique_of_validateFiles found _ [] hpaths.symm hvalid
  have hnames : ∀ file ∈ found, file.1 = seed.share.manifest.name :: file.2.map diskText := by
    intro file hfile
    obtain ⟨names, -, rfl⟩ := (((collect_spec _ _ _).1 found hfound).mem_iff file).1 hfile
    rfl
  obtain ⟨files, hfiles, hentries⟩ := ingestFiles_intact Master found 0 _ hpaths hnames
    hintact
  have hshare : Manifest.shareName none (some seed.share.manifest.name) =
      .ok seed.share.manifest.name := by
    rw [Manifest.shareName, hname]
  have hmade := Manifest.fromDisk_iff.2 ⟨hshare, found, files, hfound, hunique, hfiles,
    hentries.symm, rfl⟩
  refine ⟨_, except_map_eq_ok.2 ⟨_, congrArg Prod.snd hmade, rfl⟩, ?_⟩
  show idOf (seed.share.manifest.encode hash) = seed.id
  rw [← h.canonical, hid]

/-- A plain share is loaded only if its files look unchanged, or what is on disk gives its manifest
again. -/
lemma Seed.Placed.reproduced (hplaced : seed.Placed toLowercase idOf hash os)
    (hid : ∀ bytes bytes', idOf bytes = seed.id → idOf bytes' = seed.id → bytes = bytes')
    (hhash : ∀ h, hash.Fits h) (hlt : seed.manifestBytes.length < 2 ^ 64)
    (hroot : Path.parse os (text seed.share.root) = seed.share.root)
    (hdistinct : (disk.tree seed.share.root).Distinct)
    (hload : loadSeed S B form toLowercase idOf hash os disk key
      (some (seed.record form disk₀ text)) (.ok (some seed.kinds)) allowed seed.id = .ok loaded) :
    (seed.record form disk₀ text).unchanged os disk = true ∨ seed.Reproduced hash disk := by
  obtain ⟨hidOf, -, -⟩ := Manifest.decodeVerified_eq_ok.1 hplaced.decodes
  obtain ⟨manifest, files, hdecode, hfiles, hloads⟩ := loadSeed_eq_ok.1 hload
  obtain rfl := Except.ok.inj (hplaced.decodes.symm.trans hdecode)
  rw [Option.filter_some, if_pos (by simp [seed.length_files_record, seed.length_kinds])] at hfiles
  cases hloads with
  | saved hsaved _ _ =>
    refine .inl (hsaved.resolve_right ?_)
    rintro ⟨data, hdata, hencrypted⟩
    rw [hplaced.loaded_plain hfiles data hdata] at hencrypted
    cases hencrypted
  | @rehashed made hchanged _ hmade hsame =>
    -- what was made has this id, so it has the same manifest
    obtain ⟨hmadeId, hmadeBytes, -, -, -, ⟨found, hfound, hpaths⟩, -⟩ := Seed.fromDisk_eq_ok hmade
    have hbytes : seed.manifestBytes = made.manifestBytes :=
      hid _ _ hidOf (hmadeId.symm.trans hsame)
    have hmanifest : seed.share.manifest = made.share.manifest := by
      have hdecodes := ((Seed.Plain.seeded hmade).placed hhash (hbytes ▸ hlt)).decodes
      rw [hsame, ← hbytes] at hdecodes
      exact Except.ok.inj (hplaced.decodes.symm.trans hdecodes)
    have hrecordRoot : Path.parse os (seed.record form disk₀ text).root = seed.share.root := hroot
    rw [hrecordRoot, ← hmanifest] at hfound
    rw [← hmanifest] at hpaths hmadeBytes
    exact .inr ⟨(collect_paths_iff hdistinct).1 ⟨found, hfound, hpaths⟩, hbytes.trans hmadeBytes⟩

/-- An intact plain share is loaded exactly if its files look unchanged, or what is on disk gives
its manifest again. -/
theorem rehash_accepts_iff (form : PairForm Hash) (key : Option Master)
    (allowed : Option (Finset EndpointId)) (disk₀ : SeedDisk)
    (hid : ∀ bytes bytes', idOf bytes = seed.id → idOf bytes' = seed.id → bytes = bytes')
    (hhash : ∀ h, hash.Fits h) (hplain : seed.Plain B toLowercase idOf hash os)
    (hlt : seed.manifestBytes.length < 2 ^ 64)
    (hroot : Path.parse os (text seed.share.root) = seed.share.root)
    (htext : ∀ file ∈ seed.share.files, Path.parse os (text file.data.path) = file.data.path)
    (hdistinct : (disk.tree seed.share.root).Distinct) (hintact : seed.Intact B os disk) :
    (∃ loaded, loadSeed S B form toLowercase idOf hash os disk key
        (some (seed.record form disk₀ text)) (.ok (some seed.kinds)) allowed seed.id = .ok loaded ∧
          loaded.id = seed.id) ↔
      (seed.record form disk₀ text).unchanged os disk = true ∨ seed.Reproduced hash disk := by
  have hplaced := hplain.placed hhash hlt
  constructor
  · rintro ⟨loaded, hload, -⟩
    exact hplaced.reproduced hid hhash hlt hroot hdistinct hload
  · intro hwhen
    obtain ⟨hidOf, hvalid, -⟩ := Manifest.decodeVerified_eq_ok.1 hplaced.decodes
    by_cases hunchanged : (seed.record form disk₀ text).unchanged os disk = true
    · have hshares : seed.Shares toLowercase idOf hash os text seed.id :=
        ⟨hplaced.decodes, hplaced.files_length, htext⟩
      obtain ⟨files, -, hload, -⟩ := hshares.loads (S := S) (B := B) key allowed
        (.inr hplaced.kinds_eq) seed.length_kinds hunchanged
      exact ⟨_, hload, hidOf⟩
    · have hreproduced := hwhen.resolve_left hunchanged
      have hchanged := Bool.not_eq_true _ ▸ hunchanged
      -- a share without files always looks unchanged
      have hsome : seed.share.manifest.files ≠ [] := by
        intro hnil
        have hlength := hplaced.files_length
        rw [hnil, List.length_nil, List.length_eq_zero_iff] at hlength
        rw [SeedRecord.unchanged, Seed.record, hlength] at hunchanged
        exact hunchanged rfl
      obtain ⟨entry, hentry⟩ := List.exists_mem_of_ne_nil _ hsome
      obtain ⟨hhead, hnames⟩ := Manifest.nameProblem_of_validateFiles hvalid entry hentry
      have hname := hnames _ (List.mem_of_mem_head? hhead)
      obtain ⟨made, hmade, hsame⟩ := hreproduced.made hplaced hdistinct hintact hname
      obtain ⟨files, hfiles⟩ : ∃ files, loadFiles os disk key (some seed.kinds) 0
          (seed.record form disk₀ text).files seed.share.manifest.files = .ok files :=
        loadFiles_succeeds (.inr hplaced.kinds_eq) _ 0 _
          (by rw [Nat.zero_add, seed.length_files_record, seed.length_kinds])
      refine ⟨{ made with allowed }, loadSeed_eq_ok.2 ⟨seed.share.manifest, files,
        hplaced.decodes, ?_, .rehashed hchanged (hplaced.loaded_plain hfiles) ?_ hsame⟩, hsame⟩
      · rw [Option.filter_some, if_pos (by simp [seed.length_files_record, seed.length_kinds])]
        exact hfiles
      · show Seed.fromDisk _ _ _ _ _ _ (Path.parse os (text seed.share.root)) _ _ _ = _
        rw [hroot]
        exact hmade

end

/-! ## Intact files that look changed -/

namespace OneFile

/-- A folder with the file. -/
def folder : Manifest Digest := ⟨"d", [{ entry with path := ["d", "a"] }]⟩

/-- A share of the file, downloaded from a seeder who adds these bytes to a manifest. -/
def fetched (m : Manifest Digest) (dest : Path) (rest : Bytes) : Seed Bytes Digest :=
  Seed.fromParts idOf m (m.encode Digest.codec ++ rest)
    [⟨.plain filePath, Digest.createOutboard content⟩] none (m.downloadRoot .unix dest)

/-- The disk after a second file appeared in the folder and the first was touched. -/
def touchedDisk : SeedDisk where
  tree path := if path = filePath then .file else .dir [([97], .file), ([98], .file)]
  read path := if path = filePath then .ok ⟨content, content_fits⟩ else .ok ⟨[], by decide⟩
  len path := if path = filePath then .ok content.length else .ok 0
  mtime _ := some 2
  len_of_read path bytes h := by
    split_ifs at h ⊢ <;> cases h <;> rfl

def placeText (path : Path) : String := if path = filePath then "/d/a" else "/d"

lemma distinct_touchedDisk (path : Path) : (touchedDisk.tree path).Distinct := by
  intro names entries hat
  rw [touchedDisk] at hat
  dsimp only at hat
  split_ifs at hat
  · cases hat
  · cases hat with
    | here => decide
    | inside hmem hat =>
      have hfile := List.mem_cons.1 hmem
      simp at hfile
      rcases hfile with ⟨rfl, rfl⟩ | ⟨rfl, rfl⟩ <;> cases hat

section

variable {m : Manifest Digest} {dest : Path} {file : FileEntry Digest}

variable (dest file) in
/-- A manifest of one file, which is where it was downloaded to. -/
lemma plain_fetched (hvalid : m.validate id = .ok ())
    (hlt : (m.encode Digest.codec).length < 2 ^ 64)
    (hfiles : m.files = [file]) (hplace : file.downloadPath .unix dest = filePath)
    (hroot : file.rootHash = referenceBao.rootHash content) (hsize : file.size = content.length)
    (rest : Bytes) : (fetched m dest rest).Plain referenceBao id idOf Digest.codec .unix := by
  have hdecode := (Manifest.codec Digest.codec).decode_encode m rest
    (Manifest.fits_of_length (fun _ => trivial) hlt)
  have hdownload : IsDownload ⟨.unix, dest, none⟩ m (fetched m dest rest).share := by
    refine ⟨rfl, rfl, List.length_replicate, by rw [hfiles]; rfl, fun f entry' hf => ?_⟩
    rw [hfiles] at hf
    cases f with
    | zero =>
      cases hf
      exact ⟨Digest.createOutboard content, congrArg some (by rw [← hplace]; rfl), hroot.symm,
        hsize.symm, by rw [hsize]; rfl⟩
    | succ f => cases hf
  exact .downloaded (Manifest.decodeVerified_eq_ok.2 ⟨rfl, hvalid, _, rest, rfl, hdecode⟩) hdownload
    rfl

/-- The file is still there. -/
lemma intact_fetched (hvalid : m.validate id = .ok ()) (hfiles : m.files = [file])
    (hplace : file.downloadPath .unix dest = filePath)
    (hroot : file.rootHash = referenceBao.rootHash content) (hsize : file.size = content.length)
    (rest : Bytes) : (fetched m dest rest).Intact referenceBao .unix touchedDisk := by
  intro entry' hentry
  have hentry : entry' ∈ m.files := hentry
  have hplaced : entry'.place .unix (fetched m dest rest).share.root =
      entry'.downloadPath .unix dest :=
    FileEntry.place_downloadRoot hvalid .unix dest hentry
  rw [hfiles, List.mem_singleton] at hentry
  subst hentry
  rw [hplaced, hplace]
  exact ⟨⟨content, content_fits⟩, rfl, hsize.symm, hroot.symm⟩

lemma text_fetched (rest : Bytes) : ∀ file ∈ (fetched m dest rest).share.files,
    Path.parse .unix (placeText file.data.path) = file.data.path := by
  intro file hfile
  rw [List.mem_singleton.1 hfile]
  decide

end

/-- The folder with the file. -/
def parent : Path := ⟨none, true, ["d"]⟩

def top : Path := ⟨none, true, []⟩

lemma idOf_injective : Function.Injective idOf := fun bytes bytes' h => by
  injection h

/-- Only the file is at its place. -/
lemma lists_file : (touchedDisk.tree filePath).Lists "a" [["a"]] := by
  refine (collect_paths_iff (distinct_touchedDisk _)).1 ⟨[(["a"], [])], ?_, rfl⟩
  rw [touchedDisk]
  dsimp only
  rw [if_pos rfl, collect]

end OneFile

open OneFile in
/-- The file was touched and is hashed again. -/
theorem rehash_accepts_iff_touched :
    ∃ loaded, loadSeed keys referenceBao Digest.pairForm id idOf Digest.codec .unix touchedDisk
      (none : Option Bytes)
      (some ((fetched manifest parent []).record Digest.pairForm bothDisk placeText))
      (.ok (some (fetched manifest parent []).kinds)) none
      (fetched manifest parent []).id = .ok loaded ∧
        loaded.id = (fetched manifest parent []).id :=
  (rehash_accepts_iff Digest.pairForm none none bothDisk
    (fun _ _ h h' => idOf_injective (h.trans h'.symm)) (fun _ => trivial)
    (plain_fetched parent entry validate_manifest (by decide) rfl (by decide) rfl rfl [])
    (by decide) (by decide)
    (text_fetched []) (distinct_touchedDisk _)
    (intact_fetched validate_manifest rfl (by decide) rfl rfl [])).2
    (.inr ⟨lists_file, List.append_nil _⟩)

open OneFile in
/-- A file that was touched is refused if the manifest it was downloaded with ends in another
byte, and a folder with a touched file is refused if another file appeared in it, although the
listed files are intact. -/
theorem rehash_refuses_intact :
    ((fetched manifest parent [0]).Plain referenceBao id idOf Digest.codec .unix ∧
      (fetched manifest parent [0]).Intact referenceBao .unix touchedDisk ∧
      ¬ ∃ loaded, loadSeed keys referenceBao Digest.pairForm id idOf Digest.codec .unix touchedDisk
        (none : Option Bytes)
      (some ((fetched manifest parent [0]).record Digest.pairForm bothDisk placeText))
        (.ok (some (fetched manifest parent [0]).kinds)) none (fetched manifest parent [0]).id =
          .ok loaded) ∧
    (fetched folder top []).Plain referenceBao id idOf Digest.codec .unix ∧
      (fetched folder top []).Intact referenceBao .unix touchedDisk ∧
      ¬ ∃ loaded, loadSeed keys referenceBao Digest.pairForm id idOf Digest.codec .unix touchedDisk
        (none : Option Bytes)
      (some ((fetched folder top []).record Digest.pairForm bothDisk placeText))
        (.ok (some (fetched folder top []).kinds)) none (fetched folder top []).id =
          .ok loaded := by
  have hfile (rest : Bytes) := plain_fetched parent entry validate_manifest (by decide) rfl
    (by decide) rfl rfl rest
  have hfolder :=
    plain_fetched (m := folder) top { entry with path := ["d", "a"] } rfl (by decide) rfl
    (by decide) rfl rfl []
  refine ⟨⟨hfile [0], intact_fetched validate_manifest rfl (by decide) rfl rfl [0], ?_⟩, hfolder,
    intact_fetched rfl rfl (by decide) rfl rfl [], ?_⟩
  · rintro ⟨loaded, hload⟩
    rcases ((hfile [0]).placed (fun _ => trivial) (by decide)).reproduced
      (fun _ _ h h' => idOf_injective (h.trans h'.symm)) (fun _ => trivial) (by decide) (by decide)
      (distinct_touchedDisk _) hload with hunchanged | hreproduced
    · exact absurd hunchanged (by decide)
    · -- the byte is not part of the encoding
      have := congrArg List.length hreproduced.canonical
      exact absurd this (by decide)
  · rintro ⟨loaded, hload⟩
    rcases (hfolder.placed (fun _ => trivial) (by decide)).reproduced
      (fun _ _ h h' => idOf_injective (h.trans h'.symm)) (fun _ => trivial) (by decide) (by decide)
      (distinct_touchedDisk _) hload with hunchanged | hreproduced
    · exact absurd hunchanged (by decide)
    · have hmem := (hreproduced.lists.mem_iff ["d", "b"]).2
        ⟨[[98]], .inside (List.mem_cons_of_mem _ List.mem_cons_self) (.here _), by decide⟩
      exact absurd hmem (by decide)

end Chorrent
