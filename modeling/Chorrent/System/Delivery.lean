/-
# From the seeder's files to a downloader's

The manifest that a downloader accepts for a share code is the one that was made of the seeder's
files, and what the nodes of a network hold is what a manifest names.  Put together: a file that
a node has in full is, byte by byte, the file that was shared.
-/
import Chorrent.Local.Export
import Chorrent.Manifest.Fetch
import Chorrent.Manifest.Seedable
import Chorrent.Seed.Ways
import Chorrent.System.Network

namespace Chorrent

open Lib Bytes

/-! ## Files that are stored in full -/

section

variable {Master Key Hash : Type} {S : StoreKeys Master Key} {data : FileData Master}
  {file : Option Bytes} {content : Bytes}

/-- Every piece of the content is stored. -/
def FileData.StoresAll (S : StoreKeys Master Key) (data : FileData Master) (file : Option Bytes)
    (content : Bytes) : Prop :=
  ∀ i < blockCount content.length,
    data.pieceAt S content.length i file = some (block content i)

/-- The file is there, and every way of reading it gives the content. -/
structure FileData.Gives (S : StoreKeys Master Key) (data : FileData Master)
    (file : Option Bytes) (content : Bytes) (bytes : Bytes) (handle : Handle Key) : Prop where
  file_eq : file = some bytes
  opens : data.openWith S false true file = .ok handle
  reads : ∀ pos n, n = 0 ∨ pos + n ≤ content.length →
    handle.readExactAt S.cipher bytes pos n = .ok (content.slice pos n)
  copies : ∀ cap, 0 < cap →
    handle.copy S.cipher bytes cap content.length 0 content.length = (content, none)

/-- An ordinary file that stores all pieces starts with the content. -/
lemma slice_eq_of_storesAll {path : Path} {bytes : Bytes}
    (h : FileData.StoresAll S (.plain path) (some bytes) content) (hpos : 0 < content.length) :
    content.length ≤ bytes.length ∧ bytes.slice 0 content.length = content := by
  have hpiece : ∀ i, i * blockSize < content.length →
      i * blockSize + pieceLen content.length i ≤ bytes.length ∧
        bytes.slice (i * blockSize) (pieceLen content.length i) = block content i := fun i hi =>
    pieceAt_plain_eq_some.1 (h i (lt_blockCount.2 hi))
  have hle : content.length ≤ bytes.length := by
    -- the last piece ends with the content
    have hlast : (content.length - 1) / blockSize * blockSize < content.length := by
      have := Nat.div_mul_le_self (content.length - 1) blockSize
      omega
    have hin := (hpiece _ hlast).1
    have hdiv := div_mul_blockSize_add_mod (content.length - 1)
    have hmod := mod_blockSize_lt (content.length - 1)
    rw [pieceLen] at hin
    omega
  have hlen : (bytes.slice 0 content.length).length = content.length := by
    rw [length_slice]
    omega
  refine ⟨hle, eq_of_blocks (show 0 < blockSize by decide) hlen fun i hi => ?_⟩
  rw [hlen] at hi
  have hclip : (bytes.slice 0 content.length).slice (i * blockSize) blockSize =
      (bytes.slice 0 content.length).slice (i * blockSize) (pieceLen content.length i) :=
    slice_clip (by rw [hlen, pieceLen]; omega)
  have hsub := pieceLen_le_sub content.length i
  rw [hclip, slice_slice _ _ _ _ _ (by omega), Nat.zero_add, (hpiece i hi).2, block]

/-- A file that stores all pieces of a content that is not empty gives the content. -/
lemma FileData.StoresAll.gives (h : data.StoresAll S file content) (hpos : 0 < content.length)
    (hsized : data.Sized content.length) :
    ∃ (bytes : Bytes) (handle : Handle Key), data.Gives S file content bytes handle := by
  obtain ⟨bytes, handle, rfl, hopen⟩ := openWith_of_pieceAt (h 0 (lt_blockCount.2 (by omega)))
  obtain ⟨strict, hstrict, -⟩ := FileData.openWith_alike hopen false true
  rcases data with path | ⟨path, key, size⟩
  · obtain rfl : Handle.plain = strict := Except.ok.inj hstrict
    obtain ⟨hle, heq⟩ := slice_eq_of_storesAll h hpos
    refine ⟨bytes, .plain, rfl, rfl, fun pos n hin => ?_, fun cap hcap => ?_⟩
    · rcases hin with rfl | hin
      · rw [slice_zero, Handle.readExactAt, readExactAt, if_pos (Or.inl rfl), slice_zero]
      · have hslice : content.slice pos n = bytes.slice pos n := by
          conv_lhs => rw [← heq, slice_slice _ _ _ _ _ hin, Nat.zero_add]
        rw [Handle.readExactAt, readExactAt, if_pos (Or.inr (hin.trans hle)), hslice]
    · rw [copy_plain S.cipher bytes hcap _ _ _ le_rfl, heq]
  · obtain rfl : size = content.length := hsized
    obtain ⟨rfl, -⟩ := openWith_encrypted hstrict
    have hblocks : ReadsBlocks S.cipher
        ⟨S.fileKey key (headerSalt bytes), content.length, true, false⟩ bytes content
        fun _ => True := by
      refine ⟨rfl, fun i hi _ => ?_, fun i hi hnot => absurd trivial hnot⟩
      have hpiece := h i (lt_blockCount.2 hi)
      rw [FileData.pieceAt_eq hstrict, Handle.pieceAt_encrypted_eq_some] at hpiece
      rw [Encrypted.readBlock, hpiece]
      rfl
    refine ⟨bytes, _, rfl, hstrict, fun pos n hin => ?_, fun cap hcap => ?_⟩
    · exact (hblocks.readExactAt_eq pos n).1 hin fun _ _ => trivial
    · have hcopy := (hblocks.copy_eq hcap content.length content.length 0 le_rfl).1
        fun _ _ => trivial
      rwa [slice_self] at hcopy

namespace LocalShare

variable {share : LocalShare Master Hash} {index : ℕ} {fs fs' : FileSystem} {dest : Path}
  {env : ExportEnv} {bytes : Bytes} {handle : Handle Key}

/-- What `read_range` gives of such a file. -/
lemma readRange_of_gives (hheld : share.HoldsFile index data content.length)
    (h : data.Gives S (fs data.path) content bytes handle) (offset len : ℕ) :
    share.readRange S fs index offset len =
      .ok (content.slice offset (min len (content.length - offset))) := by
  rw [hheld.readRange_of_opens h.opens, h.file_eq, Option.getD_some, h.reads _ _ (by omega)]
  rfl

/-- A copy that worked was read to its end. -/
lemma ExportEnv.copyTo_eq_ok {size : ℕ} {copied : Bytes × Option (Stop IoError)}
    (h : env.copyTo fs dest size copied = (fs', .ok ())) :
    copied.2 = none ∧ fs' = Function.update fs dest (some copied.1) := by
  obtain ⟨copied, e⟩ := copied
  rw [ExportEnv.copyTo] at h
  by_cases hfault : env.fault.any (· < copied.length) = true
  · rw [if_pos hfault] at h
    exact absurd (congrArg Prod.snd h) (by rintro ⟨⟩)
  rw [if_neg hfault] at h
  rcases e with _ | e
  · by_cases hshort : copied.length ≠ size
    · simp only [if_pos hshort] at h
      exact absurd (congrArg Prod.snd h) (by rintro ⟨⟩)
    · simp only [if_neg hshort] at h
      exact ⟨rfl, (Prod.mk.inj h).1.symm⟩
  · rcases e <;> exact absurd (congrArg Prod.snd h) (by rintro ⟨⟩)

/-- What `export_file` leaves if it works. -/
lemma exportFile_of_gives (hheld : share.HoldsFile index data content.length)
    (h : data.Gives S (fs data.path) content bytes handle)
    (hexport : share.exportFile S env fs index dest = (fs', .ok ())) :
    fs' = Function.update fs dest (some content) := by
  obtain ⟨outboard, hcheck⟩ := hheld.checkFile_eq
  obtain ⟨entry, hentry, hsize⟩ := hheld.entry_eq
  by_cases hrefuses : env.Refuses fs dest
  · obtain ⟨e, he⟩ := exportFile_of_refuses (S := S) hheld hrefuses
    rw [he] at hexport
    exact absurd (congrArg Prod.snd hexport) (by rintro ⟨⟩)
  obtain ⟨hfolder, hexists, hcreate⟩ :
      ¬env.folderFails = true ∧ ¬(fs dest).isSome = true ∧ ¬env.createFails = true := by
    simpa only [ExportEnv.Refuses, not_or] using hrefuses
  have hne : data.path ≠ dest := fun heq => hexists (by rw [← heq, h.file_eq]; rfl)
  simp only [exportFile, hcheck, hentry, hsize, if_neg hfolder, if_neg hexists,
    if_neg hcreate] at hexport
  by_cases hopens : env.openFails = true
  · rw [if_pos hopens] at hexport
    exact absurd (congrArg Prod.snd hexport) (by rintro ⟨⟩)
  rw [if_neg hopens, Function.update_of_ne hne] at hexport
  simp only [h.opens] at hexport
  simp only [h.file_eq, Option.getD_some, h.copies _ env.buffer_pos] at hexport
  obtain ⟨hnone, hfs⟩ := ExportEnv.copyTo_eq_ok hexport
  rcases env.cut_cases content.length (content, none) with hcut | hcut
  · rw [hfs, hcut, Function.update_idem]
  · -- a copy that an error ended is not reported as done
    rw [hcut] at hnone
    cases hnone

end LocalShare

end

/-! ## What was shared is what is read -/

section

variable {Master Key Hash Wire : Type} [DecidableEq Hash] {S : StoreKeys Master Key}
  {B : Bao Hash Wire} {toLowercase : String → String} {idOf : Bytes → Hash} {hash : Codec Hash}
  {t : Tree} {content : DiskNames → FileBytes} {name : String} {seed : Seed Master Hash}
  {code : ShareCode Hash} {response : Response} {m : Manifest Hash} {bytes : Bytes}

/-- No two byte strings have this id. -/
def Unforged (idOf : Bytes → Hash) (id : Hash) : Prop :=
  ∀ bytes bytes', idOf bytes = id → idOf bytes' = id → bytes = bytes'

/-- The manifest that is accepted for a share code is the one that was made of the files. -/
lemma Shared.manifest_eq (h : Shared S B toLowercase idOf hash t content name seed)
    (hdistinct : t.Distinct) (hhash : ∀ h, hash.Fits h) (hid : Unforged idOf seed.id)
    (hcode : code.id = seed.id)
    (hfetch : fetchManifest toLowercase idOf hash code response = .ok (m, bytes)) :
    m = seed.share.manifest ∧ m.validate toLowercase = .ok () := by
  obtain ⟨-, hlen, hdecode, -, -⟩ := fetchManifest_eq_ok.1 hfetch
  obtain ⟨hsame, hvalid, rest, tail, hbytes, hdec⟩ := Manifest.decodeVerified_eq_ok.1 hdecode
  obtain ⟨-, hseed⟩ := h.describes hdistinct
  have heq : bytes = seed.share.manifest.encode hash :=
    hid _ _ (hsame.trans hcode) hseed.symm
  have hlt : (seed.share.manifest.encode hash).length < 2 ^ 64 :=
    heq ▸ hlen.trans_lt (by decide)
  have hround := (Manifest.codec hash).decode_encode seed.share.manifest []
    (Manifest.fits_of_length hhash hlt)
  rw [List.append_nil] at hround
  have hrest : rest = (Manifest.codec hash).encode seed.share.manifest :=
    (List.cons.inj (hbytes.symm.trans heq)).2
  rw [hrest, hround] at hdec
  exact ⟨(Prod.mk.inj (Option.some.inj hdec)).1.symm, hvalid⟩

omit [DecidableEq Hash] in
/-- A file that a download has in full stores what its root hash is of. -/
lemma Genuine.storesAll {T : Target Master} {disk : Disk Master Hash}
    (hg : Genuine S B T m disk) (hd : IsDownload T m disk.share) {f : ℕ} {entry : FileEntry Hash}
    (hf : m.files[f]? = some entry) {content : Bytes} (hsize : entry.size = content.length)
    (hroot : B.rootHash content = entry.rootHash)
    (hhas : ∀ i < entry.pieces, disk.share.has (Layout.firstOf m f + i) = true) :
    (T.data f entry).StoresAll S (disk.fs (T.data f entry).path) content ∧
      disk.share.HoldsFile f (T.data f entry) content.length := by
  refine ⟨fun i hi => ?_, ⟨by rw [hd.layout_eq, hd.manifest_eq], ?_, ?_, fun i hi => ?_⟩⟩
  · have hlt : i < entry.pieces := by rwa [FileEntry.pieces, hsize]
    obtain ⟨load, d, hstored, hproves⟩ := hg f entry i hf hlt (hhas i hlt)
    rw [Target.stored, hsize, hproves.eq_block hroot] at hstored
    exact hstored
  · obtain ⟨outboard, hfile, -⟩ := hd.file_eq f entry hf
    exact ⟨outboard, hfile⟩
  · exact ⟨entry, by rw [hd.manifest_eq, hf], hsize⟩
  · rw [hd.manifest_eq]
    exact hhas i (by rwa [FileEntry.pieces, hsize])

namespace Network

variable {N : Type} [DecidableEq N] {C : N → Site Master Key}
  {s s₀ : Network N Master Hash Wire} {actions : List (NetworkAction N Hash Wire)}

/-- A share goes from the files it was made of to the files of every node.  The manifest that a
node accepts for its code lists each file that was shared and nothing else; and whatever is sent
and whenever nodes stop and start, each file that a node has in full and that is not empty reads
and exports as the file that was shared. -/
theorem network_delivers (hshared : Shared S B toLowercase idOf hash t content name seed)
    (hdistinct : t.Distinct) (hhash : ∀ h, hash.Fits h) (hid : Unforged idOf seed.id)
    (hcode : code.id = seed.id)
    (hfetch : fetchManifest toLowercase idOf hash code response = .ok (m, bytes))
    (hidle : s₀.Idle) (hrun : Run (Step C B m) s₀ actions s) :
    (∀ names, t.At names .file →
      ∃ file ∈ m.files, file.path = name :: names.map diskText) ∧
    ∀ (f : ℕ) (entry : FileEntry Hash), m.files[f]? = some entry →
      ∃ names, t.At names .file ∧ entry.path = name :: names.map diskText ∧
        entry.size = (content names).1.length ∧
        ∀ n share, (s.nodes n).share = some share → 0 < entry.size →
          (∀ i < entry.pieces, share.has (Layout.firstOf m f + i) = true) →
          (∀ offset len, share.readRange (C n).keys (s.nodes n).fs f offset len =
            .ok ((content names).1.slice offset (min len (entry.size - offset)))) ∧
          ∀ env dest fs', share.exportFile (C n).keys env (s.nodes n).fs f dest = (fs', .ok ()) →
            fs' = Function.update (s.nodes n).fs dest (some (content names).1) := by
  obtain ⟨hmanifest, hvalid⟩ := hshared.manifest_eq hdistinct hhash hid hcode hfetch
  obtain ⟨hdescribes, -⟩ := hshared.describes hdistinct
  rw [← hmanifest] at hdescribes
  have hsafe : s.Safe C B m :=
    hrun.invariant (fun _ _ _ h hstep => h.step hvalid hstep) hidle.safe
  refine ⟨fun names hat => ?_, fun f entry hf => ?_⟩
  · have hlisted := (hdescribes.lists.mem_iff _).2 ⟨names, hat, rfl⟩
    exact List.mem_map.1 hlisted
  · have hmem := List.mem_of_getElem? hf
    obtain ⟨names, hat, hpath⟩ := (hdescribes.lists.mem_iff _).1 (List.mem_map_of_mem hmem)
    obtain ⟨hsize, hroot⟩ := hdescribes.entries entry hmem names hat hpath
    refine ⟨names, hat, hpath, hsize, fun n share hshare hpos hhas => ?_⟩
    have hhashed : B.rootHash (content names).1 = entry.rootHash := by
      rw [hroot, B.create_root, Bao.rootHash]
    obtain ⟨hd, hserve⟩ := hsafe.node n share hshare
    replace hd : IsDownload (C n).target m (Disk.mk (s.nodes n).fs share).share := hd
    obtain ⟨hstores, hheld⟩ := (hserve.genuine hd).storesAll hd hf hsize hhashed hhas
    rw [hsize] at hpos ⊢
    obtain ⟨stored, handle, hgives⟩ :=
      hstores.gives hpos (hsize ▸ (C n).target.sized f entry)
    exact ⟨LocalShare.readRange_of_gives hheld hgives,
      fun env dest fs' => LocalShare.exportFile_of_gives hheld hgives⟩

end Network

end

/-! ## Three bytes -/

namespace ThreeBytes

lemma three_lt : 3 < 2 ^ 64 := by decide

def code : ShareCode Digest := ⟨served.id, "x", 3, three_lt⟩

/-- A node that has the file already. -/
def idle : Network Unit Bytes Digest Digest.Encoding where
  nodes _ := ⟨fun _ => some bytes.1, none⟩
  requests := []
  responses := []

/-- What the node serves once it is started. -/
def found : LocalShare Bytes Digest where
  manifest := manifest
  layout := Layout.new manifest
  files := [⟨OneFile.target.data 0 ⟨["x"], 3, three_lt, outboard.1.root⟩, outboard.1⟩]
  root := manifest.downloadRoot OneFile.target.os OneFile.target.dest
  held := [true]

lemma run_found : Run (Network.Step (fun _ => OneFile.site) referenceBao manifest) idle
    [.start () OneFile.prepareEnv none] (idle.setNode () ⟨fun _ => some bytes.1, some found⟩) :=
  .single (.start rfl rfl)

lemma shared_served : Shared keys referenceBao id OneFile.idOf Digest.codec .file
    (fun _ => bytes) "x" served := by
  refine .inPlace rfl (fun names content _ h => ?_) rfl fromDisk_served
  cases h
  rfl

lemma fetchManifest_served : fetchManifest id OneFile.idOf Digest.codec code
    (.manifest (manifest.encode Digest.codec)) = .ok (manifest, manifest.encode Digest.codec) :=
  fetchManifest_encode OneFile.idOf rfl (Manifest.fits_of_length (fun _ => trivial) (by decide))
    (by decide) rfl rfl rfl

end ThreeBytes

open ThreeBytes in
/-- The file of three bytes, shared by one client and read by another. -/
theorem network_delivers_three_bytes :
    found.readRange OneFile.site.keys (fun _ => some bytes.1) 0 1 5 = .ok [2, 3] := by
  have hdistinct : Tree.file.Distinct := by
    rintro names entries ⟨⟩
  have hunforged : Unforged OneFile.idOf served.id := fun bytes bytes' h h' => by
    injection h.trans h'.symm
  obtain ⟨-, hfiles⟩ := Network.network_delivers shared_served hdistinct (fun _ => trivial)
    hunforged rfl fetchManifest_served ⟨fun _ => rfl, rfl, rfl⟩ run_found
  obtain ⟨names, -, -, -, hreads⟩ := hfiles 0 _ rfl
  have hhas : ∀ i < 1, found.has (Layout.firstOf manifest 0 + i) = true := by decide
  exact (hreads () found rfl (by decide) hhas).1 1 5

end Chorrent
