/-
# Preparing a download

`for_download` sets up the files of a manifest one by one and marks the pieces of those it
found complete.  What it returns is a share of which every file has all pieces marked and
proved by its outboard, or none.
-/
import Chorrent.Local.Target

namespace Chorrent

open Lib

namespace LocalShare

variable {Master Hash : Type} {share share' : LocalShare Master Hash} {m : Manifest Hash}

/-! ## Marking pieces -/

/-- The same share with more pieces marked: those of a set. -/
structure Marks (share share' : LocalShare Master Hash) (pieces : Set ℕ) : Prop where
  manifest_eq : share'.manifest = share.manifest
  layout_eq : share'.layout = share.layout
  files_eq : share'.files = share.files
  held_length : share'.held.length = share.held.length
  has_iff : ∀ p, share'.has p = true ↔ p ∈ pieces ∨ share.has p = true

lemma Marks.refl (share : LocalShare Master Hash) : Marks share share ∅ :=
  ⟨rfl, rfl, rfl, rfl, by simp⟩

lemma Marks.trans {share₁ share₂ : LocalShare Master Hash} {A B : Set ℕ} (h : Marks share share₁ A)
    (h' : Marks share₁ share₂ B) : Marks share share₂ (A ∪ B) := by
  refine ⟨h'.manifest_eq.trans h.manifest_eq, h'.layout_eq.trans h.layout_eq,
    h'.files_eq.trans h.files_eq, h'.held_length.trans h.held_length, fun p => ?_⟩
  rw [h'.has_iff, h.has_iff, Set.mem_union]
  tauto

lemma Marks.congr {A B : Set ℕ} (h : Marks share share' A) (hAB : ∀ p, p ∈ A ↔ p ∈ B) :
    Marks share share' B :=
  ⟨h.manifest_eq, h.layout_eq, h.files_eq, h.held_length, fun p => by rw [h.has_iff, hAB]⟩

lemma markHave_spec {p : ℕ} (hp : p < share.held.length) :
    ∃ share', share.markHave p = some share' ∧ Marks share share' {p} := by
  refine ⟨_, if_pos hp, rfl, rfl, rfl, by simp, fun q => ?_⟩
  by_cases hqp : q = p
  · subst hqp
    simp [has, hp]
  · simp [has, List.getElem?_set_ne (Ne.symm hqp), hqp]

lemma markAll_spec (pieces : List ℕ) : ∀ share : LocalShare Master Hash,
    (∀ p ∈ pieces, p < share.held.length) →
    ∃ share', pieces.foldlM markHave share = some share' ∧ Marks share share' {p | p ∈ pieces} := by
  induction pieces with
  | nil => exact fun share _ => ⟨share, rfl, by simpa using Marks.refl share⟩
  | cons p pieces ih =>
    intro share hlt
    obtain ⟨share₁, hmark, hmarks⟩ := markHave_spec (hlt p List.mem_cons_self)
    obtain ⟨share₂, hrest, hmarks'⟩ := ih share₁ fun q hq => by
      rw [hmarks.held_length]
      exact hlt q (List.mem_cons_of_mem _ hq)
    refine ⟨share₂, ?_, (hmarks.trans hmarks').congr fun q => by simp⟩
    rw [List.foldlM_cons, hmark]
    exact hrest

/-- The numbers of the pieces of file `f`. -/
def pieceSet (m : Manifest Hash) (f : ℕ) : Set ℕ :=
  {p | ∃ entry i, m.files[f]? = some entry ∧ i < entry.pieces ∧ p = Layout.firstOf m f + i}

lemma mem_range'_firstOf {f p : ℕ} {entry : FileEntry Hash} (hf : m.files[f]? = some entry) :
    p ∈ List.range' (Layout.firstOf m f) entry.pieces ↔ p ∈ pieceSet m f := by
  rw [List.mem_range'_1]
  constructor
  · rintro ⟨hle, hlt⟩
    exact ⟨entry, p - Layout.firstOf m f, hf, by omega, by omega⟩
  · rintro ⟨entry', i, hf', hi, rfl⟩
    obtain rfl : entry = entry' := Option.some.inj (hf.symm.trans hf')
    omega

lemma markFile_spec {f : ℕ} {entry : FileEntry Hash} (hlayout : share.layout = Layout.new m)
    (hheld : share.held.length = (Layout.new m).totalPieces) (hf : m.files[f]? = some entry) :
    ∃ share', share.markFile f = some share' ∧ Marks share share' (pieceSet m f) := by
  obtain ⟨share', hmark, hmarks⟩ :=
    markAll_spec (List.range' (Layout.firstOf m f) entry.pieces) share fun p hp => by
      obtain ⟨entry', i, hf', hi, rfl⟩ := (mem_range'_firstOf hf).1 hp
      rw [hheld]
      exact Layout.firstOf_add_lt hf' hi
  refine ⟨share', ?_, hmarks.congr fun p => mem_range'_firstOf hf⟩
  rw [markFile, hlayout, Layout.piecesOf_eq hf, Option.bind_eq_bind, Option.bind_some]
  exact hmark

lemma markFiles_spec (files : List ℕ) : ∀ share : LocalShare Master Hash,
    share.layout = Layout.new m → share.held.length = (Layout.new m).totalPieces →
    (∀ f ∈ files, f < m.files.length) →
    ∃ share', files.foldlM markFile share = some share' ∧
      Marks share share' {p | ∃ f ∈ files, p ∈ pieceSet m f} := by
  induction files with
  | nil => exact fun share _ _ _ => ⟨share, rfl, by simpa using Marks.refl share⟩
  | cons f files ih =>
    intro share hlayout hheld hlt
    obtain ⟨share₁, hmark, hmarks⟩ := markFile_spec hlayout hheld
      (List.getElem?_eq_getElem (hlt f List.mem_cons_self))
    obtain ⟨share₂, hrest, hmarks'⟩ := ih share₁ (hmarks.layout_eq.trans hlayout)
      (hmarks.held_length.trans hheld) fun g hg => hlt g (List.mem_cons_of_mem _ hg)
    refine ⟨share₂, ?_, (hmarks.trans hmarks').congr fun q => by simp⟩
    rw [List.foldlM_cons, hmark]
    exact hrest

end LocalShare

variable {Master Key Hash Wire : Type}

/-! ## The share of a download -/

/-- A share that downloads the manifest to the target: each file is where it belongs, with an
outboard of its root and size. -/
structure IsDownload (T : Target Master) (m : Manifest Hash) (share : LocalShare Master Hash) :
    Prop where
  manifest_eq : share.manifest = m
  layout_eq : share.layout = Layout.new m
  held_length : share.held.length = (Layout.new m).totalPieces
  files_length : share.files.length = m.files.length
  file_eq : ∀ (f : ℕ) (entry : FileEntry Hash), m.files[f]? = some entry → ∃ outboard,
    share.files[f]? = some ⟨T.data f entry, outboard⟩ ∧ outboard.root = entry.rootHash ∧
      outboard.size = entry.size ∧ outboard.data.length = outboardSize entry.size

/-- Piece `i` of file `f` is stored, and some known hash pairs prove it. -/
def Stores (S : StoreKeys Master Key) (B : Bao Hash Wire) (T : Target Master) (fs : FileSystem)
    (load : ℕ → Option (Hash × Hash)) (f : ℕ) (entry : FileEntry Hash) (i : ℕ) : Prop :=
  ∃ d, T.stored S fs f entry i = some d ∧
    ProvesBlock B.hasher load entry.rootHash entry.size i d

/-- Every piece that is marked is stored, and proved by the outboard of its file. -/
def CanServe (S : StoreKeys Master Key) (B : Bao Hash Wire) (T : Target Master)
    (m : Manifest Hash) (disk : Disk Master Hash) : Prop :=
  ∀ (f : ℕ) (entry : FileEntry Hash) (outboard : Outboard Hash) (i : ℕ), m.files[f]? = some entry →
    disk.share.files[f]? = some ⟨T.data f entry, outboard⟩ → i < entry.pieces →
    disk.share.has (Layout.firstOf m f + i) = true → Stores S B T disk.fs outboard.load f entry i

/-- Every file has all of its pieces marked, or none. -/
def Whole (m : Manifest Hash) (share : LocalShare Master Hash) : Prop :=
  ∀ (f : ℕ) (entry : FileEntry Hash), m.files[f]? = some entry →
    (∀ i < entry.pieces, share.has (Layout.firstOf m f + i) = true) ∨
      ∀ i < entry.pieces, share.has (Layout.firstOf m f + i) = false

variable {S : StoreKeys Master Key} {B : Bao Hash Wire} {T : Target Master} {m : Manifest Hash}
  {fs fs' : FileSystem}

/-- The bytes of a piece depend on the file only. -/
lemma stored_congr {f i : ℕ} {entry : FileEntry Hash}
    (h : fs' (T.data f entry).path = fs (T.data f entry).path) :
    T.stored S fs' f entry i = T.stored S fs f entry i := by
  rw [Target.stored, h]
  rfl

/-! ## One file -/

/-- What preparing a file comes to. -/
structure PreparedFile (S : StoreKeys Master Key) (B : Bao Hash Wire) (T : Target Master)
    (fs : FileSystem) (f : ℕ) (entry : FileEntry Hash) (file : LocalFile Master Hash × Bool) :
    Prop where
  data_eq : file.1.data = T.data f entry
  root_eq : file.1.outboard.root = entry.rootHash
  size_eq : file.1.outboard.size = entry.size
  length_eq : file.1.outboard.data.length = outboardSize entry.size
  complete : file.2 = true → ∀ i < entry.pieces, Stores S B T fs file.1.outboard.load f entry i

/-- Preparing a file keeps the pieces that are there. -/
lemma preallocate_keeps {env : PrepareEnv} {data : FileData Master} {size i : ℕ}
    {file file' : Option Bytes} {d : Bytes} (hi : i * blockSize < size)
    (h : preallocate env data size file = (file', .ok ()))
    (hpiece : data.pieceAt S size i file = some d) : data.pieceAt S size i file' = some d := by
  cases file with
  | none => cases hpiece
  | some file =>
    cases data with
    | plain path =>
      simp only [preallocate, Option.getD_some] at h
      split_ifs at h
      · cases (Prod.mk.inj h).2
      · cases (Prod.mk.inj h).2
      obtain ⟨rfl, -⟩ := Prod.mk.inj h
      obtain ⟨hin, hslice⟩ := pieceAt_plain_eq_some.1 hpiece
      have hend : i * blockSize + pieceLen size i ≤ size := by
        rw [pieceLen]
        omega
      refine pieceAt_plain_eq_some.2 ⟨by rw [Bytes.length_setLen]; exact hend, ?_⟩
      rw [Bytes.slice_setLen hin hend, hslice]
    | encrypted path key declared =>
      have hlen : headerSize ≤ file.length := by
        rw [FileData.pieceAt] at hpiece
        cases hopen : (FileData.encrypted path key declared).openWith S false false
            (some file) with
        | error e =>
          rw [hopen] at hpiece
          cases hpiece
        | ok handle => exact (openWith_encrypted hopen).2
      simp only [preallocate, Option.any_some, hlen, decide_true, if_true] at h
      split_ifs at h
      · cases (Prod.mk.inj h).2
      obtain ⟨rfl, -⟩ := Prod.mk.inj h
      exact hpiece

/-- A file found complete holds the blocks of the content that was hashed. -/
lemma stores_create {path : Path} {f i : ℕ} {entry : FileEntry Hash} {content : Bytes}
    (hdata : T.data f entry = .plain path) (hfs : fs path = some content)
    (hsize : content.length = entry.size) (hroot : (B.create content).root = entry.rootHash)
    (hi : i < entry.pieces) : Stores S B T fs (B.create content).load f entry i := by
  have hpos := lt_blockCount.1 hi
  have hlen : i * blockSize + pieceLen entry.size i ≤ content.length := by
    have := pieceLen_le_sub entry.size i
    omega
  refine ⟨block content i, ?_, ?_⟩
  · rw [Target.stored, hdata, FileData.path, hfs]
    exact pieceAt_plain_eq_some.2 ⟨hlen, (slice_blockSize hsize i).symm⟩
  · rw [← hroot, ← hsize]
    exact B.create_proves content i (by rwa [hsize])

variable [DecidableEq Hash]

lemma prepareFile_ok {env : PrepareEnv} {f : ℕ} {entry : FileEntry Hash}
    {file : LocalFile Master Hash × Bool}
    (h : LocalShare.prepareFile B T.os T.dest T.key env fs f entry = (fs', .ok file)) :
    PreparedFile S B T fs' f entry file ∧ (∀ p, p ≠ (T.data f entry).path → fs' p = fs p) ∧
      ∀ i d, i < entry.pieces → T.stored S fs f entry i = some d →
        T.stored S fs' f entry i = some d := by
  have hdata : LocalShare.fileData T.os T.dest T.key f entry = T.data f entry := rfl
  rw [LocalShare.prepareFile] at h
  simp only [hdata] at h
  split at h
  · rename_i full hfull
    obtain ⟨rfl, hfile⟩ := Prod.mk.inj h
    obtain rfl := Except.ok.inj hfile
    obtain ⟨hsome, hroot⟩ := Option.filter_eq_some_iff.1 hfull
    split_ifs at hsome with hexists
    obtain rfl := Option.some.inj hsome
    simp only [Bool.and_eq_true, Bool.not_eq_true', Option.any_eq_true_iff_get,
      decide_eq_true_eq] at hexists hroot
    obtain ⟨⟨hplain, hthere, hsize⟩, -⟩ := hexists
    -- the file is a plain one and has its length
    obtain ⟨path, hpath⟩ : ∃ path, T.data f entry = .plain path := by
      cases hd : T.data f entry with
      | plain path => exact ⟨path, rfl⟩
      | encrypted path key size =>
        rw [hd] at hplain
        cases hplain
    obtain ⟨content, hcontent⟩ := Option.isSome_iff_exists.1 hthere
    have hget : (fs (T.data f entry).path).getD [] = content := by rw [hcontent]; rfl
    simp only [hcontent, Option.get_some] at hsize
    rw [hget] at hroot ⊢
    rw [hpath] at hcontent
    refine ⟨⟨rfl, hroot, ?_, ?_, fun _ i hi => ?_⟩, fun _ _ => rfl, fun _ _ _ => id⟩
    · exact (B.create_size content).trans hsize
    · exact (B.create_length content).trans (by rw [hsize])
    · exact stores_create hpath hcontent hsize hroot hi
  · cases hpre : preallocate env (T.data f entry) entry.size (fs (T.data f entry).path) with
    | mk file' r =>
      rw [hpre] at h
      obtain ⟨rfl, hfile⟩ := Prod.mk.inj h
      cases r with
      | error e => cases e <;> cases hfile
      | ok u =>
        obtain rfl := Except.ok.inj hfile
        refine ⟨⟨rfl, rfl, rfl, ?_, fun hfalse => by cases hfalse⟩,
          fun p hp => Function.update_of_ne hp _ _, fun i d hi hstored => ?_⟩
        · exact List.length_replicate
        rw [Target.stored, Function.update_self]
        exact preallocate_keeps (lt_blockCount.1 hi) hpre hstored

/-! ## All files -/

omit [DecidableEq Hash] in
lemma PreparedFile.congr {f : ℕ} {entry : FileEntry Hash} {file : LocalFile Master Hash × Bool}
    (h : PreparedFile S B T fs f entry file)
    (hfs : fs' (T.data f entry).path = fs (T.data f entry).path) :
    PreparedFile S B T fs' f entry file :=
  { h with
    complete := fun hfull i hi => by
      obtain ⟨d, hd, hproves⟩ := h.complete hfull i hi
      exact ⟨d, by rw [stored_congr hfs, hd], hproves⟩ }

/-- What preparing the files from `index` on comes to. -/
structure PreparedFiles (S : StoreKeys Master Key) (B : Bao Hash Wire) (T : Target Master)
    (fs fs' : FileSystem) (index : ℕ) (entries : List (FileEntry Hash))
    (files : List (LocalFile Master Hash × Bool)) : Prop where
  length_eq : files.length = entries.length
  prepared : ∀ (k : ℕ) (entry : FileEntry Hash), entries[k]? = some entry →
    ∃ file, files[k]? = some file ∧ PreparedFile S B T fs' (index + k) entry file
  frame : ∀ p, (∀ (k : ℕ) (entry : FileEntry Hash), entries[k]? = some entry →
    p ≠ (T.data (index + k) entry).path) → fs' p = fs p
  keeps : ∀ (k : ℕ) (entry : FileEntry Hash) (i : ℕ) (d : Bytes), entries[k]? = some entry →
    i < entry.pieces → T.stored S fs (index + k) entry i = some d →
    T.stored S fs' (index + k) entry i = some d

variable {toLowercase : String → String}

/-- The files after one whose path differs from theirs. -/
lemma PreparedFiles.cons {fs₁ : FileSystem} {index : ℕ} {entry : FileEntry Hash}
    {entries : List (FileEntry Hash)} {file : LocalFile Master Hash × Bool}
    {files : List (LocalFile Master Hash × Bool)} {env : PrepareEnv}
    (hone : LocalShare.prepareFile B T.os T.dest T.key env fs index entry = (fs₁, .ok file))
    (hrest : PreparedFiles S B T fs₁ fs' (index + 1) entries files)
    (hpath : ∀ (k : ℕ) (entry' : FileEntry Hash), entries[k]? = some entry' →
      (T.data index entry).path ≠ (T.data (index + 1 + k) entry').path) :
    PreparedFiles S B T fs fs' index (entry :: entries) (file :: files) := by
  obtain ⟨hfile, hframe, hkeeps⟩ := prepareFile_ok (S := S) hone
  have hother : fs' (T.data index entry).path = fs₁ (T.data index entry).path :=
    hrest.frame _ hpath
  have hadd : ∀ k, index + (k + 1) = index + 1 + k := fun k => by omega
  refine ⟨by simp [hrest.length_eq], fun k entry' hk => ?_, fun p hp => ?_,
    fun k entry' i d hk hi hd => ?_⟩
  · rcases k with _ | k
    · obtain rfl : entry = entry' := Option.some.inj hk
      exact ⟨file, rfl, hfile.congr hother⟩
    · rw [hadd]
      exact hrest.prepared k entry' hk
  · rw [hrest.frame p fun k entry' hk => by
      rw [← hadd]
      exact hp (k + 1) entry' hk]
    exact hframe p (hp 0 entry rfl)
  · rcases k with _ | k
    · obtain rfl : entry = entry' := Option.some.inj hk
      rw [Nat.add_zero] at hd ⊢
      rw [stored_congr hother]
      exact hkeeps i d hi hd
    · rw [hadd] at hd ⊢
      refine hrest.keeps k entry' i d hk hi ?_
      rwa [stored_congr (hframe _ (hpath k entry' hk).symm)]

lemma prepareFiles_ok {env : ℕ → PrepareEnv} (hvalid : m.validate toLowercase = .ok ())
    (entries : List (FileEntry Hash)) : ∀ (fs fs' : FileSystem) (index : ℕ)
    (files : List (LocalFile Master Hash × Bool)),
    (∀ (k : ℕ) (entry : FileEntry Hash), entries[k]? = some entry →
      m.files[index + k]? = some entry) →
    LocalShare.prepareFiles B T.os T.dest T.key env fs index entries = (fs', .ok files) →
    PreparedFiles S B T fs fs' index entries files := by
  induction entries with
  | nil =>
    intro fs fs' index files _ h
    obtain ⟨rfl, hfiles⟩ := Prod.mk.inj h
    obtain rfl := Except.ok.inj hfiles
    exact ⟨rfl, by simp, fun _ _ => rfl, by simp⟩
  | cons entry entries ih =>
    intro fs fs' index files hentries h
    rw [LocalShare.prepareFiles] at h
    obtain ⟨⟨fs₁, r⟩, hone⟩ : ∃ one,
        LocalShare.prepareFile B T.os T.dest T.key (env index) fs index entry = one := ⟨_, rfl⟩
    rw [hone] at h
    cases r with
    | error e => cases (Prod.mk.inj h).2
    | ok file =>
      simp only at h
      obtain ⟨⟨fs₂, r⟩, hmany⟩ : ∃ many,
          LocalShare.prepareFiles B T.os T.dest T.key env fs₁ (index + 1) entries = many := ⟨_, rfl⟩
      rw [hmany] at h
      obtain ⟨rfl, hfiles⟩ := Prod.mk.inj h
      cases r with
      | error e => cases hfiles
      | ok rest =>
        obtain rfl := Except.ok.inj hfiles
        have hshift : ∀ (k : ℕ) (entry : FileEntry Hash), entries[k]? = some entry →
            m.files[index + 1 + k]? = some entry := fun k entry' hk => by
          rw [Nat.add_assoc, Nat.add_comm 1]
          exact hentries (k + 1) entry' hk
        refine (ih fs₁ fs₂ (index + 1) rest hshift hmany).cons hone fun k entry' hk hpath => ?_
        have := Target.path_injective hvalid (hentries 0 entry rfl) (hshift k entry' hk) hpath
        omega

/-- What preparing a download comes to. -/
structure StartsDownload (S : StoreKeys Master Key) (B : Bao Hash Wire) (T : Target Master)
    (m : Manifest Hash) (fs : FileSystem) (disk : Disk Master Hash) : Prop where
  isDownload : IsDownload T m disk.share
  whole : Whole m disk.share
  canServe : CanServe S B T m disk
  /-- The pieces that are there are kept. -/
  keeps : ∀ (f : ℕ) (entry : FileEntry Hash) (i : ℕ) (d : Bytes), m.files[f]? = some entry →
    i < entry.pieces → T.stored S fs f entry i = some d →
    T.stored S disk.fs f entry i = some d

omit [DecidableEq Hash] in
/-- A share in which the files found complete are marked. -/
lemma startsDownload_of_marks {files : List (LocalFile Master Hash × Bool)}
    {share share' : LocalShare Master Hash} {pieces : Set ℕ}
    (hfiles : PreparedFiles S B T fs fs' 0 m.files files) (hmanifest : share.manifest = m)
    (hlayout : share.layout = Layout.new m) (hshare : share.files = files.map Prod.fst)
    (hheld : share.held = List.replicate (Layout.new m).totalPieces false)
    (hmarks : share.Marks share' pieces)
    (hpieces : ∀ (f : ℕ) (entry : FileEntry Hash) (file : LocalFile Master Hash × Bool) (i : ℕ),
      m.files[f]? = some entry → files[f]? = some file → i < entry.pieces →
      (Layout.firstOf m f + i ∈ pieces ↔ file.2 = true)) :
    StartsDownload S B T m fs ⟨fs', share'⟩ := by
  have hfile : ∀ (f : ℕ) (entry : FileEntry Hash), m.files[f]? = some entry → ∃ file,
      files[f]? = some file ∧ PreparedFile S B T fs' f entry file ∧
        share'.files[f]? = some file.1 ∧
        ∀ i < entry.pieces, share'.has (Layout.firstOf m f + i) = file.2 := by
    intro f entry hf
    obtain ⟨file, hget, hprepared⟩ := hfiles.prepared f entry hf
    rw [Nat.zero_add] at hprepared
    refine ⟨file, hget, hprepared, ?_, fun i hi => ?_⟩
    · rw [hmarks.files_eq, hshare, List.getElem?_map, hget]
      rfl
    · have hnot : share.has (Layout.firstOf m f + i) = false := by
        rw [LocalShare.has, hheld, List.getElem?_replicate]
        split <;> rfl
      rw [Bool.eq_iff_iff, hmarks.has_iff, hpieces f entry file i hf hget hi, hnot]
      simp
  refine ⟨⟨hmarks.manifest_eq.trans hmanifest, hmarks.layout_eq.trans hlayout, ?_, ?_,
    fun f entry hf => ?_⟩, fun f entry hf => ?_, fun f entry outboard i hf hout hi hhas => ?_,
    fun f entry i d hf hi hd => ?_⟩
  · rw [hmarks.held_length, hheld, List.length_replicate]
  · rw [hmarks.files_eq, hshare, List.length_map, hfiles.length_eq]
  · obtain ⟨⟨⟨data, outboard⟩, full⟩, -, hprepared, hget, -⟩ := hfile f entry hf
    obtain rfl : data = T.data f entry := hprepared.data_eq
    exact ⟨outboard, hget, hprepared.root_eq, hprepared.size_eq, hprepared.length_eq⟩
  · obtain ⟨⟨file, full⟩, -, -, -, hall⟩ := hfile f entry hf
    cases full with
    | true => exact Or.inl hall
    | false => exact Or.inr hall
  · obtain ⟨file, -, hprepared, hget, hall⟩ := hfile f entry hf
    have hserves := hprepared.complete ((hall i hi).symm.trans hhas) i hi
    rwa [Option.some.inj (hget.symm.trans hout)] at hserves
  · have := hfiles.keeps f entry i d hf hi
    rw [Nat.zero_add] at this
    exact this hd

lemma forDownload_ok {env : ℕ → PrepareEnv} {share : LocalShare Master Hash}
    (hvalid : m.validate toLowercase = .ok ())
    (h : LocalShare.forDownload B T.os env m T.dest T.key fs = (fs', .ok share)) :
    StartsDownload S B T m fs ⟨fs', share⟩ := by
  rw [LocalShare.forDownload] at h
  obtain ⟨⟨fs₁, r⟩, hprep⟩ : ∃ prepared,
      LocalShare.prepareFiles B T.os T.dest T.key env fs 0 m.files = prepared := ⟨_, rfl⟩
  rw [hprep] at h
  cases r with
  | error e => cases (Prod.mk.inj h).2
  | ok files =>
    obtain ⟨rfl, hshare⟩ := Prod.mk.inj h
    have hfiles := prepareFiles_ok (S := S) hvalid m.files fs fs₁ 0 files
      (fun k entry hk => by rwa [Nat.zero_add]) hprep
    set share₀ : LocalShare Master Hash :=
      { manifest := m, layout := Layout.new m, files := files.map Prod.fst,
        root := if T.key.isSome then T.dest else m.downloadRoot T.os T.dest,
        held := List.replicate (Layout.new m).totalPieces false }
    set complete := (List.range files.length).filter fun i => files[i]?.any Prod.snd
    obtain ⟨share', hmarked, hmarks⟩ := LocalShare.markFiles_spec (m := m) complete share₀ rfl
      List.length_replicate fun f hf => by
        rw [← hfiles.length_eq]
        exact List.mem_range.1 (List.mem_of_mem_filter hf)
    rw [hmarked] at hshare
    obtain rfl := Except.ok.inj hshare
    refine startsDownload_of_marks hfiles rfl rfl rfl rfl hmarks fun f entry file i hf hget hi => ?_
    constructor
    · rintro ⟨f', hf', entry', i', hentry', hi', heq⟩
      obtain ⟨rfl, -⟩ := Layout.firstOf_add_inj hf hi hentry' hi' heq
      have := (List.mem_filter.1 hf').2
      rwa [hget] at this
    · intro hfull
      refine ⟨f, List.mem_filter.2 ⟨List.mem_range.2 ?_, by rwa [hget]⟩, entry, i, hf, hi, rfl⟩
      exact (List.getElem?_eq_some_iff.1 hget).1

end Chorrent
