/-
# A finished download

Once every piece is there, the files are complete: each has the length and the root hash that the
manifest gives, whatever happened in between.  The final check of whole files finds nothing to
complain about, apart from empty files, which have no pieces to be checked on arrival.
-/
import Chorrent.Local.Sessions
import Chorrent.Seed.Basic
import Chorrent.System.Delivery

namespace Chorrent

open Lib Bytes

variable {Master Key Hash Wire StorageKey NodeKey NameKey Code : Type} {S : StoreKeys Master Key}
  {B : Bao Hash Wire} {T : Target Master} {m : Manifest Hash} {fs fs' : FileSystem}
  {toLowercase : String → String} {f i : ℕ} {entry : FileEntry Hash}

/-! ## Lengths -/

/-- The ordinary files of a download have their lengths. -/
def Exact (T : Target Master) (m : Manifest Hash) (fs : FileSystem) : Prop :=
  ∀ (f : ℕ) (entry : FileEntry Hash) (path : Path), m.files[f]? = some entry →
    T.data f entry = .plain path → ∃ bytes, fs path = some bytes ∧ bytes.length = entry.size

/-- Writing the leaves of a piece changes no length. -/
lemma length_storeItems_plain (C : Aead Key tagSize) {size : ℕ} (hi : i * blockSize < size)
    (items : List (BaoContentItem Hash)) : ∀ (env : ℕ → ℕ → WriteEnv) (file : Bytes),
    file.length = size →
    (∀ offset x, .leaf offset x ∈ items → offset = i * blockSize ∧ x.length = pieceLen size i) →
    (storeItems C .plain env file items).1.length = size := by
  induction items with
  | nil => exact fun env file hlength _ => hlength
  | cons item items ih =>
    intro env file hlength hleaves
    have hrest : ∀ offset x, .leaf offset x ∈ items →
        offset = i * blockSize ∧ x.length = pieceLen size i := fun offset x hx =>
      hleaves offset x (List.mem_cons_of_mem _ hx)
    cases item with
    | parent node pair => exact ih env file hlength hrest
    | leaf offset x =>
      obtain ⟨rfl, hx⟩ := hleaves offset x List.mem_cons_self
      have hin : i * blockSize + pieceLen size i ≤ size := by
        have := pieceLen_le_sub size i
        omega
      have hwritten : ∀ bs : Bytes, bs.length ≤ pieceLen size i →
          (file.overwrite (i * blockSize) bs).length = size := fun bs hbs => by
        rw [length_overwrite_of_le (by omega), hlength]
      rw [storeItems, Handle.writeAllAt]
      cases (env 0 0).fault with
      | none => exact ih _ _ (hwritten x hx.le) hrest
      | some k => exact hwritten _ ((List.length_take_le' k x).trans hx.le)

lemma fst_decodeRange (C : Aead Key tagSize) (handle : Handle Key) (env : ℕ → ℕ → WriteEnv)
    (file : Bytes) (root : Hash) (size start stop : ℕ) (encoded : Wire) :
    (decodeRange B C handle env file root size start stop encoded).1 =
      (storeItems C handle env file (B.decode root size start stop encoded).1).1 := by
  rw [decodeRange]
  rcases B.decode root size start stop encoded with ⟨items, done⟩
  simp only
  rcases storeItems C handle env file items with ⟨file', e | nodes⟩
  · rfl
  · rfl

/-- A piece that arrives changes no length. -/
lemma storePiece_exact {disk : Disk Master Hash} (env : StoreEnv) {piece : ℕ} (encoded : Wire)
    (hvalid : m.validate toLowercase = .ok ()) (hd : IsDownload T m disk.share)
    (hexact : Exact T m disk.fs) (hpiece : piece < disk.share.totalPieces) :
    Exact T m (LocalShare.storePiece S B env disk piece encoded).1.fs := by
  rw [LocalShare.totalPieces, hd.layout_eq] at hpiece
  obtain ⟨f, i, entry, hf, hi, rfl⟩ := Layout.exists_piece hpiece
  rcases (storePiece_spec S B encoded env hd hf hi).file with
    hsame | ⟨handle, bytes, hbytes, hopen, hnew⟩
  · rwa [hsame]
  · rw [hnew]
    intro f' entry' path hf' hpath
    by_cases hff : f' = f
    · subst hff
      obtain rfl : entry = entry' := Option.some.inj (hf.symm.trans hf')
      rw [hpath] at hbytes hopen ⊢
      obtain rfl : Handle.plain = handle := Except.ok.inj hopen
      obtain ⟨bytes', hbytes', hlength⟩ := hexact f' entry path hf hpath
      obtain rfl : bytes = bytes' := Option.some.inj (hbytes.symm.trans hbytes')
      refine ⟨_, Function.update_self _ _ _, ?_⟩
      rw [fst_decodeRange]
      refine length_storeItems_plain S.cipher (lt_blockCount.1 hi) _ env.write bytes hlength
        fun offset x hx => ?_
      obtain ⟨hoffset, load, hproves⟩ := B.decode_leaf _ _ _ _ _ _ hx hi
      exact ⟨hoffset, hproves.2⟩
    · rw [Function.update_of_ne]
      · exact hexact f' entry' path hf' hpath
      · intro heq
        have hpaths : (T.data f' entry').path = (T.data f entry).path := by
          rw [hpath]
          exact heq
        exact hff (Target.path_injective hvalid hf' hf hpaths)

section

variable [DecidableEq Hash]

/-- A file that was prepared has its length. -/
lemma prepareFile_exact {env : PrepareEnv} {path : Path} {file : LocalFile Master Hash × Bool}
    (hpath : T.data f entry = .plain path)
    (h : LocalShare.prepareFile B T.os T.dest T.key env fs f entry = (fs', .ok file)) :
    ∃ bytes, fs' path = some bytes ∧ bytes.length = entry.size := by
  have hdata : LocalShare.fileData T.os T.dest T.key f entry = .plain path := hpath
  rw [LocalShare.prepareFile] at h
  simp only [hdata] at h
  split at h
  · rename_i full hfull
    obtain ⟨rfl, -⟩ := Prod.mk.inj h
    obtain ⟨hsome, -⟩ := Option.filter_eq_some_iff.1 hfull
    split_ifs at hsome with hexists
    simp only [FileData.isEncrypted, FileData.path, Bool.not_false, Bool.true_and,
      Bool.and_eq_true, Option.any_eq_true_iff_get, decide_eq_true_eq] at hexists
    obtain ⟨⟨hthere, hsize⟩, -⟩ := hexists
    exact ⟨_, (Option.some_get hthere).symm, hsize⟩
  · simp only [FileData.path, preallocate] at h
    split_ifs at h with hcreate hresize
    · cases (Prod.mk.inj h).2
    · cases (Prod.mk.inj h).2
    obtain ⟨rfl, -⟩ := Prod.mk.inj h
    exact ⟨_, Function.update_self _ _ _, length_setLen _ _⟩

lemma prepareFiles_exact (S : StoreKeys Master Key) {env : ℕ → PrepareEnv}
    (hvalid : m.validate toLowercase = .ok ()) (entries : List (FileEntry Hash)) :
    ∀ (fs fs' : FileSystem) (index : ℕ) (files : List (LocalFile Master Hash × Bool)),
    (∀ (k : ℕ) (entry : FileEntry Hash), entries[k]? = some entry →
      m.files[index + k]? = some entry) →
    LocalShare.prepareFiles B T.os T.dest T.key env fs index entries = (fs', .ok files) →
    ∀ (k : ℕ) (entry : FileEntry Hash) (path : Path), entries[k]? = some entry →
      T.data (index + k) entry = .plain path →
      ∃ bytes, fs' path = some bytes ∧ bytes.length = entry.size := by
  induction entries with
  | nil => exact fun fs fs' index files _ _ k entry path hk => by cases hk
  | cons entry entries ih =>
    intro fs fs' index files hentries h k entry' path hk hpath
    rw [LocalShare.prepareFiles] at h
    obtain ⟨⟨fs₁, one⟩, hone⟩ : ∃ made,
        LocalShare.prepareFile B T.os T.dest T.key (env index) fs index entry = made := ⟨_, rfl⟩
    rw [hone] at h
    rcases one with e | file
    · cases (Prod.mk.inj h).2
    obtain ⟨⟨fs₂, rest⟩, hmany⟩ : ∃ made,
        LocalShare.prepareFiles B T.os T.dest T.key env fs₁ (index + 1) entries = made := ⟨_, rfl⟩
    simp only [hmany] at h
    obtain ⟨rfl, hfiles⟩ := Prod.mk.inj h
    rcases rest with e | rest
    · cases hfiles
    have hshift : ∀ (k : ℕ) (entry : FileEntry Hash), entries[k]? = some entry →
        m.files[index + 1 + k]? = some entry := fun k entry' hk => by
      rw [Nat.add_assoc, Nat.add_comm 1]
      exact hentries (k + 1) entry' hk
    rcases k with _ | k
    · -- later files have other paths
      obtain rfl : entry = entry' := Option.some.inj hk
      rw [Nat.add_zero] at hpath
      obtain ⟨bytes, hbytes, hlength⟩ := prepareFile_exact hpath hone
      have hframe := (prepareFiles_ok (S := S) hvalid entries fs₁ fs₂ (index + 1) rest hshift
        hmany).frame path fun k entry' hk heq => by
          have hpaths : (T.data index entry).path = (T.data (index + 1 + k) entry').path := by
            rw [hpath]
            exact heq
          have := Target.path_injective hvalid (hentries 0 entry rfl) (hshift k entry' hk) hpaths
          omega
      exact ⟨bytes, hframe.trans hbytes, hlength⟩
    · have hadd : index + (k + 1) = index + 1 + k := by omega
      rw [hadd] at hpath
      exact ih fs₁ fs₂ (index + 1) rest hshift hmany k entry' path hk hpath

lemma forDownload_exact (S : StoreKeys Master Key) {env : ℕ → PrepareEnv}
    {share : LocalShare Master Hash} (hvalid : m.validate toLowercase = .ok ())
    (h : LocalShare.forDownload B T.os env m T.dest T.key fs = (fs', .ok share)) :
    Exact T m fs' := by
  rw [LocalShare.forDownload] at h
  obtain ⟨⟨fs₁, r⟩, hprep⟩ : ∃ prepared,
      LocalShare.prepareFiles B T.os T.dest T.key env fs 0 m.files = prepared := ⟨_, rfl⟩
  rw [hprep] at h
  rcases r with e | files
  · cases (Prod.mk.inj h).2
  · obtain ⟨rfl, -⟩ := Prod.mk.inj h
    intro f entry path hf hpath
    refine prepareFiles_exact S hvalid m.files fs fs₁ 0 files
      (fun k entry hk => by rwa [Nat.zero_add]) hprep f entry path hf ?_
    rwa [Nat.zero_add]

/-! ## What the files of a session are -/

variable {L : Slot StorageKey NodeKey NameKey Code Hash}
  {s s' : Sessions Master Hash NodeKey NameKey}

/-- The share that runs is one of this download, its outboards prove what it has, and its files have
their lengths. -/
def Sessions.InPlace (S : StoreKeys Master Key) (B : Bao Hash Wire) (T : Target Master)
    (m : Manifest Hash) (s : Sessions Master Hash NodeKey NameKey) : Prop :=
  s.Proved S B T m ∧ ∀ share, s.share = some share → Exact T m s.fs

lemma inPlace_step {event : SessionEvent StorageKey Code Wire}
    (hvalid : m.validate toLowercase = .ok ()) (h : s.InPlace S B T m)
    (hstep : SessionStep S B T m L s event s') : s'.InPlace S B T m := by
  refine ⟨proved_step hvalid h.1 hstep, fun share' hshare' => ?_⟩
  cases hstep with
  | store | save => exact h.2 share' hshare'
  | stop => cases hshare'
  | @start sealer prepare load restore fs r hidle hopened hlay =>
    obtain ⟨rfl⟩ : r = .ok share' := by
      cases r with
      | error e => cases hshare'
      | ok share => rw [Option.some.inj hshare']
    obtain ⟨share₀, hstart, -⟩ := layOut_ok hlay
    exact forDownload_exact S hvalid hstart
  | @arrive share env piece encoded disk hshare hpiece hstore =>
    subst hstore
    have hd : IsDownload T m (Disk.mk s.fs share).share := (h.1 share hshare).1
    exact storePiece_exact env encoded hvalid hd (h.2 share hshare) hpiece

lemma inPlace_run {events : List (SessionEvent StorageKey Code Wire)}
    (hvalid : m.validate toLowercase = .ok ()) (hnew : s.New)
    (hrun : Run (SessionStep S B T m L) s events s') : s'.InPlace S B T m := by
  refine hrun.invariant (fun _ _ _ h hstep => inPlace_step hvalid h hstep) ⟨?_, ?_⟩
  · exact (sessions_run (L := L) hvalid hnew (.nil s)).2
  · intro share hshare
    rw [hnew.2] at hshare
    cases hshare

end

/-! ## Complete files -/

/-- Bytes of these lengths are the blocks of some content. -/
lemma exists_content {size : ℕ} (d : ℕ → Bytes)
    (hlength : ∀ i < blockCount size, (d i).length = pieceLen size i) :
    ∃ content : Bytes, content.length = size ∧ ∀ i < blockCount size, block content i = d i := by
  have hbuilt : ∀ k ≤ blockCount size, ∃ content : Bytes,
      content.length = min (k * blockSize) size ∧ ∀ i < k, block content i = d i := by
    intro k hk
    induction k with
    | zero => exact ⟨[], by simp, fun i hi => absurd hi (Nat.not_lt_zero i)⟩
    | succ k ih =>
      obtain ⟨content, hcontent, hblocks⟩ := ih (by omega)
      have hlt := lt_blockCount.1 (Nat.lt_of_succ_le hk)
      rw [min_eq_left hlt.le] at hcontent
      have hlast := hlength k hk
      refine ⟨content ++ d k, ?_, fun i hi => ?_⟩
      · rw [List.length_append, hcontent, hlast, pieceLen, Nat.succ_mul]
        omega
      · rw [block, Bytes.slice]
        rcases Nat.lt_succ_iff_lt_or_eq.1 hi with hik | rfl
        · have hend : i * blockSize + blockSize ≤ k * blockSize := by
            rw [← Nat.succ_mul]
            exact Nat.mul_le_mul_right _ hik
          rw [List.drop_append_of_le_length (by omega), List.take_append_of_le_length
            (by rw [List.length_drop]; omega), ← hblocks i hik]
          rfl
        · have hle := pieceLen_le_blockSize size i
          rw [List.drop_left' hcontent, List.take_of_length_le (by omega)]
  obtain ⟨content, hcontent, hblocks⟩ := hbuilt _ le_rfl
  refine ⟨content, ?_, hblocks⟩
  have hall : size ≤ blockCount size * blockSize := by
    by_contra hlt
    exact absurd (lt_blockCount.2 (not_le.1 hlt)) (lt_irrefl _)
  rw [hcontent, min_eq_right hall]

/-- What the pieces of a file are the pieces of. -/
structure Complete (S : StoreKeys Master Key) (B : Bao Hash Wire) (T : Target Master)
    (fs : FileSystem) (f : ℕ) (entry : FileEntry Hash) (content : Bytes) : Prop where
  length_eq : content.length = entry.size
  stores : (T.data f entry).StoresAll S (fs (T.data f entry).path) content
  /-- An empty file has no piece that says what its hash is. -/
  rootHash_eq : 0 < entry.size → B.rootHash content = entry.rootHash

/-- A file all of whose pieces were proved is the content of its hash. -/
lemma exists_complete {disk : Disk Master Hash} (hd : IsDownload T m disk.share)
    (hserve : CanServe S B T m disk) (hf : m.files[f]? = some entry)
    (hall : ∀ i < entry.pieces, disk.share.has (Layout.firstOf m f + i) = true) :
    ∃ content, Complete S B T disk.fs f entry content := by
  obtain ⟨outboard, hfile, -⟩ := hd.file_eq f entry hf
  have hstores : ∀ i < blockCount entry.size, ∃ d, T.stored S disk.fs f entry i = some d ∧
      ProvesBlock B.hasher outboard.load entry.rootHash entry.size i d := fun i hi =>
    hserve f entry outboard i hf hfile hi (hall i hi)
  choose! d hstored hproves using hstores
  obtain ⟨content, hlength, hblocks⟩ := exists_content d fun i hi => (hproves i hi).2
  refine ⟨content, hlength, fun i hi => ?_, fun hpos => ?_⟩
  · rw [hlength] at hi ⊢
    rw [hblocks i hi]
    exact hstored i hi
  · rw [Bao.rootHash, hlength]
    refine (Merkle.hash_eq_of_proves (Merkle.Tree.nodup_leaves_balanced _) fun i hi => ?_).symm
    have hlt : i < blockCount entry.size := by
      rcases Merkle.Tree.mem_leaves_balanced.1 hi with hlt | rfl
      · exact hlt
      · exact lt_blockCount.2 (by omega)
    exact ⟨outboard.load, by rw [hblocks i hlt]; exact (hproves i hlt).1⟩

/-- Hashing such a file gives the hash of its content. -/
lemma hashData_complete {disk : SeedDisk} {content : Bytes} (hexact : Exact T m fs)
    (hf : m.files[f]? = some entry) (h : Complete S B T fs f entry content)
    (hdisk : disk.fs (T.data f entry).path = fs (T.data f entry).path)
    (hopens : entry.size = 0 → ∃ handle,
      (T.data f entry).openWith S false true (fs (T.data f entry).path) = .ok handle) :
    ∃ outboard, hashData S B disk (T.data f entry) entry.size = .ok outboard ∧
      outboard.root = B.rootHash content := by
  obtain ⟨hlength, hstores, -⟩ := h
  have hsized := T.sized f entry
  cases hdata : T.data f entry with
  | plain path =>
    obtain ⟨bytes, hbytes, hsame⟩ := hexact f entry path hf hdata
    rw [hdata] at hstores hdisk
    have hcontent : bytes = content := by
      rcases Nat.eq_zero_or_pos entry.size with hzero | hpos
      · rw [List.length_eq_zero_iff.1 (hsame.trans hzero),
          List.length_eq_zero_iff.1 (hlength.trans hzero)]
      · have hstores' : FileData.StoresAll S (.plain path) (some bytes) content := by
          rw [← hbytes]
          exact hstores
        have hslice := (slice_eq_of_storesAll hstores' (by omega)).2
        rwa [hlength, ← hsame, slice_self] at hslice
    subst hcontent
    obtain ⟨read, hread, hval⟩ : ∃ read, disk.read path = .ok read ∧ read.1 = bytes := by
      have hfs : (disk.read path).toOption.map Subtype.val = some bytes := hdisk.trans hbytes
      obtain ⟨read, hsome, hval⟩ := Option.map_eq_some_iff.1 hfs
      cases hr : disk.read path with
      | error e =>
        rw [hr] at hsome
        cases hsome
      | ok read' =>
        rw [hr] at hsome
        exact ⟨read', rfl, by rw [Option.some.inj hsome]; exact hval⟩
    subst hval
    refine ⟨B.create read.1, ?_, ?_⟩
    · rw [hashData, hashFile, hread]
      rfl
    · rw [B.create_root]
      rfl
  | encrypted path key size =>
    rw [hdata] at hstores hdisk hopens hsized
    obtain rfl : size = entry.size := hsized
    obtain ⟨bytes, handle, hbytes, hopen, hread⟩ : ∃ bytes handle, fs path = some bytes ∧
        (FileData.encrypted path key entry.size).openWith S false true (fs path) = .ok handle ∧
        handle.readExactAt S.cipher bytes 0 entry.size = .ok content := by
      rcases Nat.eq_zero_or_pos entry.size with hzero | hpos
      · obtain ⟨handle, hopen⟩ := hopens hzero
        obtain ⟨bytes, hbytes⟩ : ∃ bytes, fs path = some bytes := by
          cases hfs : fs path with
          | none =>
            rw [FileData.path, hfs] at hopen
            cases hopen
          | some bytes => exact ⟨bytes, rfl⟩
        refine ⟨bytes, handle, hbytes, hopen, ?_⟩
        rw [List.length_eq_zero_iff.1 (hlength.trans hzero), hzero]
        rcases handle with _ | handle
        · rfl
        · rfl
      · obtain ⟨bytes, handle, hgives⟩ := hstores.gives (by omega) hlength.symm
        have hread := hgives.reads 0 content.length (.inr (by omega))
        rw [slice_self, hlength] at hread
        exact ⟨bytes, handle, hgives.file_eq, hgives.opens, hread⟩
    have hfs : disk.fs path = fs path := hdisk
    refine ⟨B.create content, ?_, ?_⟩
    · rw [hashData, hfs, hopen, hbytes]
      exact except_bind_eq_ok.2 ⟨handle, rfl, except_bind_eq_ok.2 ⟨content, by
        rw [Option.getD_some, hread]
        rfl, rfl⟩⟩
    · rw [B.create_root]
      rfl

lemma verifyFiles_cons [DecidableEq Hash] {disk : SeedDisk} {file : LocalFile Master Hash}
    {files : List (LocalFile Master Hash)} {entries : List (FileEntry Hash)} :
    verifyFiles S B disk (file :: files) (entry :: entries) = .ok () ↔
      ∃ outboard, hashData S B disk file.data entry.size = .ok outboard ∧
        outboard.root = entry.rootHash ∧ verifyFiles S B disk files entries = .ok () := by
  rw [verifyFiles, except_bind_eq_ok]
  refine exists_congr fun outboard => and_congr_right fun _ => ?_
  by_cases hroot : outboard.root = entry.rootHash
  · rw [if_neg (not_not.2 hroot)]
    exact (and_iff_right hroot).symm
  · rw [if_pos hroot]
    exact iff_of_false (fun h => by cases h) fun h => hroot h.1

lemma verifyFiles_iff [DecidableEq Hash] {disk : SeedDisk} (files : List (LocalFile Master Hash)) :
    ∀ entries : List (FileEntry Hash), files.length = entries.length →
    (verifyFiles S B disk files entries = .ok () ↔
      ∀ (f : ℕ) (file : LocalFile Master Hash) (entry : FileEntry Hash), files[f]? = some file →
        entries[f]? = some entry → ∃ outboard, hashData S B disk file.data entry.size =
          .ok outboard ∧ outboard.root = entry.rootHash) := by
  induction files with
  | nil =>
    intro entries hlength
    obtain rfl := List.length_eq_zero_iff.1 hlength.symm
    exact iff_of_true rfl fun f file entry hfile => by cases hfile
  | cons file files ih =>
    intro entries hlength
    rcases entries with _ | ⟨entry, entries⟩
    · cases hlength
    rw [verifyFiles_cons, ih entries (Nat.succ.inj hlength)]
    constructor
    · rintro ⟨outboard, hdata, hroot, hrest⟩ f file' entry' hfile hentry
      rcases f with _ | f
      · obtain rfl : file = file' := Option.some.inj hfile
        obtain rfl : entry = entry' := Option.some.inj hentry
        exact ⟨outboard, hdata, hroot⟩
      · exact hrest f file' entry' hfile hentry
    · intro h
      obtain ⟨outboard, hdata, hroot⟩ := h 0 file entry rfl rfl
      exact ⟨outboard, hdata, hroot, fun f file' entry' hfile hentry =>
        h (f + 1) file' entry' hfile hentry⟩

/-- What the check finds of an empty file: it can be opened, and the hash given for it is that of
the empty content. -/
def EmptyFits (S : StoreKeys Master Key) (B : Bao Hash Wire) (T : Target Master) (fs : FileSystem)
    (f : ℕ) (entry : FileEntry Hash) : Prop :=
  entry.size = 0 → B.rootHash [] = entry.rootHash ∧ ∃ handle,
    (T.data f entry).openWith S false true (fs (T.data f entry).path) = .ok handle

/-- A complete file passes the check, unless it is empty and does not fit. -/
lemma hashData_iff {disk : SeedDisk} {content : Bytes} (hexact : Exact T m fs)
    (hf : m.files[f]? = some entry) (h : Complete S B T fs f entry content)
    (hdisk : disk.fs (T.data f entry).path = fs (T.data f entry).path) :
    (∃ outboard, hashData S B disk (T.data f entry) entry.size = .ok outboard ∧
      outboard.root = entry.rootHash) ↔ EmptyFits S B T fs f entry := by
  have hempty : entry.size = 0 → content = [] := fun hzero =>
    List.length_eq_zero_iff.1 (h.length_eq.trans hzero)
  constructor
  · rintro ⟨outboard, hdata, hroot⟩ hzero
    have hopens : ∃ handle,
        (T.data f entry).openWith S false true (fs (T.data f entry).path) = .ok handle := by
      cases htarget : T.data f entry with
      | plain path =>
        obtain ⟨bytes, hbytes, -⟩ := hexact f entry path hf htarget
        exact ⟨.plain, by rw [FileData.path, hbytes]; rfl⟩
      | encrypted path key size =>
        rw [htarget] at hdata hdisk
        obtain ⟨handle, hopen, -⟩ := except_bind_eq_ok.1 hdata
        refine ⟨handle, ?_⟩
        rw [← hdisk]
        exact IoResult.orError_eq_ok.1 hopen
    obtain ⟨outboard', hdata', hroot'⟩ := hashData_complete hexact hf h hdisk fun _ => hopens
    obtain rfl := Except.ok.inj (hdata.symm.trans hdata')
    rw [hempty hzero] at hroot'
    exact ⟨hroot'.symm.trans hroot, hopens⟩
  · intro hfits
    obtain ⟨outboard, hdata, hroot⟩ :=
      hashData_complete hexact hf h hdisk fun hzero => (hfits hzero).2
    refine ⟨outboard, hdata, hroot.trans ?_⟩
    rcases Nat.eq_zero_or_pos entry.size with hzero | hpos
    · rw [hempty hzero]
      exact (hfits hzero).1
    · exact h.rootHash_eq hpos

/-- Where every file is complete, the check of whole files leaves only the empty ones to fit. -/
lemma IsDownload.verify_iff [DecidableEq Hash] {share : LocalShare Master Hash}
    (hd : IsDownload T m share) (hexact : Exact T m fs)
    (hcomplete : ∀ (f : ℕ) (entry : FileEntry Hash), m.files[f]? = some entry →
      ∃ content, Complete S B T fs f entry content)
    {disk : SeedDisk} (hdisk : ∀ (f : ℕ) (entry : FileEntry Hash), m.files[f]? = some entry →
      disk.fs (T.data f entry).path = fs (T.data f entry).path) :
    share.verify S B disk = .ok () ↔
      ∀ (f : ℕ) (entry : FileEntry Hash), m.files[f]? = some entry →
        EmptyFits S B T fs f entry := by
  have hchecked : ∀ (f : ℕ) (entry : FileEntry Hash), m.files[f]? = some entry →
      ((∃ outboard, hashData S B disk (T.data f entry) entry.size = .ok outboard ∧
        outboard.root = entry.rootHash) ↔ EmptyFits S B T fs f entry) := fun f entry hf => by
    obtain ⟨content, hcontent⟩ := hcomplete f entry hf
    exact hashData_iff hexact hf hcontent (hdisk f entry hf)
  rw [LocalShare.verify, hd.manifest_eq, verifyFiles_iff share.files m.files hd.files_length]
  constructor
  · intro h f entry hf
    obtain ⟨outboard, hfile, -⟩ := hd.file_eq f entry hf
    exact (hchecked f entry hf).1 (h f _ entry hfile hf)
  · intro h f file entry hfile hf
    obtain ⟨outboard, hfile', -⟩ := hd.file_eq f entry hf
    obtain rfl := Option.some.inj (hfile'.symm.trans hfile)
    exact (hchecked f entry hf).2 (h f entry hf)

/-- A finished download is what was asked for.  Whatever arrived, one piece at a time, and however
often the download was killed and started again: once every piece is there, each ordinary file has
the length that the manifest gives, the pieces of each file are those of a content of that length
and, unless it is empty, of the root hash that the manifest gives, and the final check of whole
files passes if and only if it has nothing to say against the empty ones. -/
theorem finished_verifies [DecidableEq Hash] (S : StoreKeys Master Key) (B : Bao Hash Wire)
    (L : Slot StorageKey NodeKey NameKey Code Hash) (hvalid : m.validate toLowercase = .ok ())
    {s₀ s : Sessions Master Hash NodeKey NameKey}
    {events : List (SessionEvent StorageKey Code Wire)} (hnew : s₀.New)
    (hrun : Run (SessionStep S B T m L) s₀ events s) {share : LocalShare Master Hash}
    (hshare : s.share = some share) (hall : ∀ p < share.totalPieces, share.has p = true)
    {disk : SeedDisk} (hdisk : ∀ f entry, m.files[f]? = some entry →
      disk.fs (T.data f entry).path = s.fs (T.data f entry).path) :
    Exact T m s.fs ∧
      (∀ f entry, m.files[f]? = some entry → ∃ content, Complete S B T s.fs f entry content) ∧
      (share.verify S B disk = .ok () ↔
        ∀ f entry, m.files[f]? = some entry → EmptyFits S B T s.fs f entry) := by
  obtain ⟨hproved, hexact⟩ := inPlace_run hvalid hnew hrun
  have hexact := hexact share hshare
  have hd : IsDownload T m (Disk.mk s.fs share).share := (hproved share hshare).1
  have hserve := (hproved share hshare).2
  have hcomplete : ∀ f entry, m.files[f]? = some entry →
      ∃ content, Complete S B T s.fs f entry content := fun f entry hf =>
    exists_complete hd hserve hf fun i hi => hall _ (by
      rw [LocalShare.totalPieces, (hproved share hshare).1.layout_eq]
      exact Layout.firstOf_add_lt hf hi)
  exact ⟨hexact, hcomplete, hd.verify_iff hexact hcomplete hdisk⟩

/-! ## A share of one file -/

namespace OneFile

/-- A disk on which every file is the one that arrived. -/
def arrivedDisk : SeedDisk where
  tree _ := .file
  read _ := .ok ⟨content, content_fits⟩
  len _ := .ok 5
  mtime _ := none
  len_of_read path content h := by
    cases h
    rfl

lemma fs_arrivedDisk : arrivedDisk.fs (target.data 0 OneFile.entry).path =
    downloading.fs (target.data 0 OneFile.entry).path := by decide

lemma getElem?_manifest {f : ℕ} {file : FileEntry Digest} (hf : manifest.files[f]? = some file) :
    f = 0 ∧ file = OneFile.entry := by
  rcases f with _ | f
  · exact ⟨rfl, (Option.some.inj hf).symm⟩
  · cases hf

end OneFile

open OneFile in
/-- The file of five bytes has arrived, is complete and passes the check. -/
theorem finished_verifies_one_file :
    (∃ bytes, downloading.fs (target.data 0 OneFile.entry).path = some bytes ∧ bytes.length = 5) ∧
      (∃ content, Complete keys referenceBao target downloading.fs 0 OneFile.entry content) ∧
      arrived.share.verify keys referenceBao arrivedDisk = .ok () := by
  have hrunning : downloading.share = some arrived.share := rfl
  have hall : ∀ p < arrived.share.totalPieces, arrived.share.has p = true := by decide
  have hsame : ∀ f file, manifest.files[f]? = some file →
      arrivedDisk.fs (target.data f file).path = downloading.fs (target.data f file).path :=
    fun f file hf => by
      obtain ⟨rfl, rfl⟩ := getElem?_manifest hf
      exact fs_arrivedDisk
  have hfilled : ∀ f file, manifest.files[f]? = some file →
      EmptyFits keys referenceBao target downloading.fs f file := fun f file hf hzero => by
    obtain ⟨-, rfl⟩ := getElem?_manifest hf
    exact absurd hzero (by decide)
  obtain ⟨hexact, hcomplete, hverify⟩ := finished_verifies keys referenceBao slot
    validate_manifest new_untouched run_downloading hrunning hall hsame
  exact ⟨hexact 0 OneFile.entry _ rfl rfl, hcomplete 0 OneFile.entry rfl, hverify.2 hfilled⟩

end Chorrent
