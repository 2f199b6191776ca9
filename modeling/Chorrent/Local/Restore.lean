/-
# Finding pieces again after a restart

`restore_progress` takes the outboards that were saved, whatever they contain, and marks the
pieces whose bytes on disk they prove: no others, and all of these.
-/
import Chorrent.Lib.Except
import Chorrent.Local.Store

namespace Chorrent

open Lib

variable {Master Key Hash Wire : Type} {S : StoreKeys Master Key} {B : Bao Hash Wire}
  {T : Target Master} {m : Manifest Hash} {fs : FileSystem} {share share' : LocalShare Master Hash}
  {f i : ℕ} {entry : FileEntry Hash} {data : List (Hash × Hash)}

/-- The outboard of a file with saved data. -/
def savedOutboard (entry : FileEntry Hash) (data : List (Hash × Hash)) : Outboard Hash :=
  ⟨entry.rootHash, entry.size, data⟩

/-- The decision of `restore_progress` about piece `i` of a file. -/
def restored (ranges : List (ℕ × ℕ)) (written : Option (List Bool)) (size i : ℕ) : Bool :=
  (ranges.any fun r => r.1 ≤ i * blockSize && pieceEnd size i ≤ min r.2 size) &&
    written.all fun w => w[i]?.getD false

/-! ## One file -/

/-- What `written_pieces` says of a file that opens. -/
lemma writtenPieces_eq_ok {handle : Handle Key} {file : Bytes} {written : Option (List Bool)}
    {size : ℕ} {d : FileData Master} (hopen : d.openWith S false false (some file) = .ok handle)
    (hsized : d.Sized size) (h : LocalShare.writtenPieces S d (some file) = .ok written)
    (hi : i < blockCount size) :
    (written.all fun w => w[i]?.getD false) = true ↔
      ∀ h, handle = .encrypted h → h.blockWritten S.cipher file i = .ok true := by
  rw [LocalShare.writtenPieces, hopen] at h
  cases handle with
  | plain =>
    obtain rfl := Except.ok.inj h
    simp
  | encrypted e =>
    obtain ⟨opened, hopened, h⟩ := except_bind_eq_ok.1 h
    obtain rfl := Except.ok.inj hopened
    obtain ⟨flags, hflags, hsome⟩ := except_bind_eq_ok.1 h
    obtain rfl := Except.ok.inj hsome
    have hsize : e.size = size := by
      cases d with
      | plain path => cases hopen
      | encrypted path key declared =>
        obtain rfl : declared = size := hsized
        obtain ⟨heq, -⟩ := openWith_encrypted hopen
        obtain rfl := Handle.encrypted.inj heq
        rfl
    obtain ⟨flag, hget, hflag⟩ := mapM_eq_ok hflags (k := i) (x := i) (by
      rw [List.getElem?_range (by rwa [hsize])])
    constructor
    · intro hall h heq
      obtain rfl := Handle.encrypted.inj heq
      simp only [Option.all_some, hget, Option.getD_some] at hall
      rw [← hall]
      exact hflag
    · intro hall
      have := hall e rfl
      rw [show (some file).getD [] = file from rfl] at hflag
      rw [hflag] at this
      simp only [Option.all_some, hget, Option.getD_some]
      exact Except.ok.inj this

/-- A piece is found again if the saved outboard proves its bytes. -/
lemma restored_iff {ranges : List (ℕ × ℕ)} {written : Option (List Bool)}
    (hi : i < entry.pieces)
    (hranges : validByteRanges B S (T.data f entry) (savedOutboard entry data)
      (fs (T.data f entry).path) = .ok ranges)
    (hwritten : LocalShare.writtenPieces S (T.data f entry) (fs (T.data f entry).path) =
      .ok written) :
    restored ranges written entry.size i = true ↔
      Stores S B T fs (savedOutboard entry data).load f entry i := by
  obtain ⟨handle, hopen, hvalid⟩ := except_bind_eq_ok.1 hranges
  obtain ⟨file, hfile⟩ : ∃ file, fs (T.data f entry).path = some file := by
    cases hfs : fs (T.data f entry).path with
    | none =>
      rw [hfs] at hopen
      cases hopen
    | some file => exact ⟨file, rfl⟩
  rw [hfile] at hopen hvalid hwritten
  have hpos := lt_blockCount.1 hi
  have hsized := T.sized f entry
  have hflags := writtenPieces_eq_ok hopen hsized hwritten hi
  rw [restored, Bool.and_eq_true, hflags]
  constructor
  · rintro ⟨hany, hslots⟩
    obtain ⟨r, hr, hin⟩ := List.any_eq_true.1 hany
    simp only [Bool.and_eq_true, decide_eq_true_eq] at hin
    obtain ⟨d, hread, hproves⟩ :=
      B.valid_sound (savedOutboard entry data) _ ranges r i hi hvalid hr hin.1 hin.2
    refine ⟨d, ?_, hproves⟩
    rw [Target.stored, hfile]
    exact pieceAt_of_readExactAt hopen hsized entry.size_lt hpos hslots hread
  · rintro ⟨d, hstored, hproves⟩
    rw [Target.stored, hfile] at hstored
    have hread := readExactAt_of_pieceAt hopen hsized hpos hproves.2 hstored
    obtain ⟨r, hr, hstart, hend⟩ :=
      B.valid_complete (savedOutboard entry data) _ ranges i d hi hvalid hread hproves
    refine ⟨List.any_eq_true.2 ⟨r, hr, ?_⟩, fun h hh => ?_⟩
    · simp only [Bool.and_eq_true, decide_eq_true_eq]
      exact ⟨hstart, le_min hend (min_le_right _ _)⟩
    · rw [FileData.pieceAt_eq hopen, hh, Handle.pieceAt_encrypted_eq_some] at hstored
      rw [Encrypted.blockWritten, hstored]
      rfl

lemma checkBytes_eq_ok {env : RestoreEnv} {file : LocalFile Master Hash} {bytes : Option Bytes}
    {ranges : List (ℕ × ℕ)} {written : Option (List Bool)}
    (h : LocalShare.checkBytes S B env file bytes = .ok (ranges, written)) :
    validByteRanges B S file.data file.outboard bytes = .ok ranges ∧
      LocalShare.writtenPieces S file.data bytes = .ok written := by
  cases hfail : env.rangesFail with
  | true =>
    simp only [LocalShare.checkBytes, hfail, if_true] at h
    cases h
  | false =>
    simp only [LocalShare.checkBytes, hfail, Bool.false_eq_true, if_false] at h
    obtain ⟨ranges', hranges, h⟩ := except_bind_eq_ok.1 h
    cases hfail' : env.writtenFail with
    | true =>
      simp only [hfail', if_true] at h
      cases h
    | false =>
      simp only [hfail', Bool.false_eq_true, if_false] at h
      obtain ⟨written', hwritten, h⟩ := except_bind_eq_ok.1 h
      obtain ⟨rfl, rfl⟩ := Prod.mk.inj (Except.ok.inj h)
      exact ⟨hranges, hwritten⟩

/-- The loop over the pieces of a file marks those found again. -/
lemma restorePieces_spec (ranges : List (ℕ × ℕ)) (written : Option (List Bool))
    (hf : m.files[f]? = some entry) (blocks : List ℕ) : ∀ share : LocalShare Master Hash,
    share.layout = Layout.new m → share.held.length = (Layout.new m).totalPieces →
    (∀ i ∈ blocks, i < entry.pieces) →
    ∃ share', LocalShare.restorePieces ranges written entry.size (Layout.firstOf m f) share
        (blocks.map (Layout.firstOf m f + ·)) = some share' ∧
      share.Marks share' {p | ∃ i ∈ blocks, p = Layout.firstOf m f + i ∧
        restored ranges written entry.size i = true} := by
  induction blocks with
  | nil =>
    exact fun share _ _ _ => ⟨share, rfl, (LocalShare.Marks.refl share).congr fun p => by simp⟩
  | cons i blocks ih =>
    intro share hlayout hheld hlt
    have hi := hlt i List.mem_cons_self
    have hlocate := Layout.locate_eq hf hi
    rw [← hlayout] at hlocate
    have hrest : ∀ i ∈ blocks, i < entry.pieces := fun i hmem => hlt i (List.mem_cons_of_mem _ hmem)
    have hmark : share.held.length > Layout.firstOf m f + i := by
      rw [hheld]
      exact Layout.firstOf_add_lt hf hi
    have hcut : min (min (i * blockSize + blockSize) entry.size) entry.size =
        pieceEnd entry.size i := by
      rw [pieceEnd, min_assoc, min_self]
    rw [List.map_cons, LocalShare.restorePieces, hlocate]
    simp only [Option.bind_eq_bind, Option.bind_some, hcut, Nat.add_sub_cancel_left]
    cases hdecide : restored ranges written entry.size i with
    | true =>
      obtain ⟨share₁, hmarked, hmarks⟩ := LocalShare.markHave_spec hmark
      obtain ⟨share₂, hloop, hmarks'⟩ := ih share₁ (hmarks.layout_eq.trans hlayout)
        (hmarks.held_length.trans hheld) hrest
      refine ⟨share₂, ?_, (hmarks.trans hmarks').congr fun p => ?_⟩
      · rw [restored] at hdecide
        rw [if_pos hdecide, hmarked]
        exact hloop
      · simp [hdecide]
    | false =>
      obtain ⟨share₂, hloop, hmarks⟩ := ih share hlayout hheld hrest
      refine ⟨share₂, ?_, hmarks.congr fun p => ?_⟩
      · rw [restored] at hdecide
        rw [if_neg (by rw [hdecide]; exact Bool.false_ne_true)]
        exact hloop
      · simp [hdecide]

/-- What looking at one file after a restart does. -/
structure RestoresFile (S : StoreKeys Master Key) (B : Bao Hash Wire) (T : Target Master)
    (m : Manifest Hash) (fs : FileSystem) (f : ℕ) (entry : FileEntry Hash)
    (data : List (Hash × Hash)) (share share' : LocalShare Master Hash) (r : Result Unit) :
    Prop where
  manifest_eq : share'.manifest = share.manifest
  layout_eq : share'.layout = share.layout
  held_length : share'.held.length = share.held.length
  has_mono : ∀ p, share.has p = true → share'.has p = true
  files_eq : (share'.files = share.files ∧ share'.held = share.held) ∨
    (share'.files = share.files.set f ⟨T.data f entry, savedOutboard entry data⟩ ∧
      data.length = outboardSize entry.size ∧
      ∃ i < entry.pieces, share.has (Layout.firstOf m f + i) = false)
  /-- A piece that is new is one of this file, and the saved outboard proves it. -/
  new : ∀ p, share'.has p = true → share.has p = false → ∃ i < entry.pieces,
    p = Layout.firstOf m f + i ∧ Stores S B T fs (savedOutboard entry data).load f entry i
  /-- Every piece that the saved outboard proves is found. -/
  complete : r = .ok () → data.length = outboardSize entry.size → ∀ i < entry.pieces,
    Stores S B T fs (savedOutboard entry data).load f entry i →
    share'.has (Layout.firstOf m f + i) = true

lemma RestoresFile.unchanged {r : Result Unit}
    (h : r = .ok () → data.length = outboardSize entry.size → ∀ i < entry.pieces,
      share.has (Layout.firstOf m f + i) = true) :
    RestoresFile S B T m fs f entry data share share r where
  manifest_eq := rfl
  layout_eq := rfl
  held_length := rfl
  has_mono _ := id
  files_eq := Or.inl ⟨rfl, rfl⟩
  new p hp hnot := by
    rw [hp] at hnot
    cases hnot
  complete hr hlen i hi _ := h hr hlen i hi

variable (S B fs data) in
lemma restoreFile_spec (env : RestoreEnv) (hd : IsDownload T m share)
    (hf : m.files[f]? = some entry) :
    RestoresFile S B T m fs f entry data share
      (LocalShare.restoreFile S B env fs share f data).1
      (LocalShare.restoreFile S B env fs share f data).2 := by
  obtain ⟨outboard, hfile, hroot, hsize, hlength⟩ := hd.file_eq f entry hf
  have hentry : share.manifest.files[f]? = some entry := by rw [hd.manifest_eq, hf]
  have hpieces := Layout.piecesOf_eq hf
  rw [← hd.layout_eq] at hpieces
  obtain ⟨⟨share', r⟩, hres⟩ :
      ∃ result, LocalShare.restoreFile S B env fs share f data = result := ⟨_, rfl⟩
  rw [hres]
  rw [LocalShare.restoreFile, hfile, hpieces, hentry] at hres
  simp only at hres
  have hrange : List.range' (Layout.firstOf m f) entry.pieces =
      (List.range entry.pieces).map (Layout.firstOf m f + ·) := List.range'_eq_map_range
  split_ifs at hres with hall hlen
  · -- every piece is there already
    obtain ⟨rfl, rfl⟩ := Prod.mk.inj hres
    refine .unchanged fun _ _ i hi => List.all_eq_true.1 hall _ ?_
    rw [hrange]
    exact List.mem_map.2 ⟨i, List.mem_range.2 hi, rfl⟩
  · -- the saved outboard has the wrong length
    obtain ⟨rfl, rfl⟩ := Prod.mk.inj hres
    exact .unchanged fun _ hlen' => absurd (hlen'.trans hlength.symm) hlen
  · have hlen' : data.length = outboardSize entry.size := (not_not.1 hlen).trans hlength
    have hmissing : ∃ i < entry.pieces, share.has (Layout.firstOf m f + i) = false := by
      rw [List.all_eq_true, hrange] at hall
      push Not at hall
      obtain ⟨p, hp, hnot⟩ := hall
      obtain ⟨i, hi, rfl⟩ := List.mem_map.1 hp
      exact ⟨i, List.mem_range.1 hi, by simpa using hnot⟩
    have hset : ({ outboard with data } : Outboard Hash) = savedOutboard entry data := by
      rw [savedOutboard, ← hroot, ← hsize]
    rw [hset] at hres
    cases hcheck : LocalShare.checkBytes S B env ⟨T.data f entry, savedOutboard entry data⟩
        (fs (T.data f entry).path) with
    | error e =>
      rw [hcheck] at hres
      obtain ⟨rfl, rfl⟩ := Prod.mk.inj hres
      exact ⟨rfl, rfl, rfl, fun _ => id, Or.inr ⟨rfl, hlen', hmissing⟩,
        fun p hp hnot => absurd (hnot.symm.trans hp) (by simp),
        fun h => absurd h orError_error_ne_ok⟩
    | ok checked =>
      obtain ⟨ranges, written⟩ := checked
      obtain ⟨hranges, hwritten⟩ := checkBytes_eq_ok hcheck
      obtain ⟨share₁, hloop, hmarks⟩ := restorePieces_spec ranges written
        hf (List.range entry.pieces)
        (share.setFile f ⟨T.data f entry, savedOutboard entry data⟩) hd.layout_eq hd.held_length
        fun i hi => List.mem_range.1 hi
      rw [← hrange, LocalShare.setFile] at hloop
      simp only [hcheck, hloop] at hres
      obtain ⟨rfl, rfl⟩ := Prod.mk.inj hres
      refine ⟨hmarks.manifest_eq, hmarks.layout_eq, hmarks.held_length,
        fun p hp => (hmarks.has_iff p).2 (Or.inr hp), Or.inr ⟨hmarks.files_eq, hlen', hmissing⟩,
        fun p hp hnot => ?_, fun _ _ i hi hstores => ?_⟩
      · obtain ⟨i, hi, rfl, hrest⟩ := ((hmarks.has_iff p).1 hp).resolve_right fun h => by
          have hsame : share.has p = true := h
          rw [hnot] at hsame
          cases hsame
        have hlt := List.mem_range.1 hi
        exact ⟨i, hlt, rfl, (restored_iff hlt hranges hwritten).1 hrest⟩
      · exact (hmarks.has_iff _).2 (Or.inl ⟨i, List.mem_range.2 hi, rfl,
          (restored_iff hi hranges hwritten).2 hstores⟩)

namespace RestoresFile

variable {r : Result Unit}

lemma isDownload (h : RestoresFile S B T m fs f entry data share share' r)
    (hd : IsDownload T m share) (hf : m.files[f]? = some entry) : IsDownload T m share' := by
  refine ⟨h.manifest_eq.trans hd.manifest_eq, h.layout_eq.trans hd.layout_eq,
    h.held_length.trans hd.held_length, ?_, fun f' entry' hf' => ?_⟩
  · rcases h.files_eq with ⟨hfiles, -⟩ | ⟨hfiles, -⟩
    · rw [hfiles, hd.files_length]
    · rw [hfiles, List.length_set, hd.files_length]
  · obtain ⟨outboard, hfile, hroot, hsize, hlength⟩ := hd.file_eq f' entry' hf'
    rcases h.files_eq with ⟨hfiles, -⟩ | ⟨hfiles, hlen, -⟩
    · exact ⟨outboard, by rw [hfiles, hfile], hroot, hsize, hlength⟩
    · by_cases hff : f = f'
      · subst hff
        obtain rfl : entry = entry' := Option.some.inj (hf.symm.trans hf')
        refine ⟨savedOutboard entry data, ?_, rfl, rfl, hlen⟩
        rw [hfiles, List.getElem?_set_self (List.getElem?_eq_some_iff.1 hfile).1]
      · exact ⟨outboard, by rw [hfiles, List.getElem?_set_ne hff, hfile], hroot, hsize, hlength⟩

lemma genuine (h : RestoresFile S B T m fs f entry data share share' r)
    (hf : m.files[f]? = some entry) (hg : Genuine S B T m ⟨fs, share⟩) :
    Genuine S B T m ⟨fs, share'⟩ := by
  intro f' entry' j hf' hj hhas
  cases hold : share.has (Layout.firstOf m f' + j) with
  | true => exact hg f' entry' j hf' hj hold
  | false =>
    obtain ⟨i, hi, heq, hstores⟩ := h.new _ hhas hold
    obtain ⟨rfl, rfl⟩ := Layout.firstOf_add_inj hf' hj hf hi heq
    obtain rfl : entry = entry' := Option.some.inj (hf.symm.trans hf')
    exact ⟨_, hstores⟩

/-- The pieces of other files are as before. -/
lemma has_other (h : RestoresFile S B T m fs f entry data share share' r)
    (hf : m.files[f]? = some entry) {f' j : ℕ} {entry' : FileEntry Hash}
    (hf' : m.files[f']? = some entry') (hj : j < entry'.pieces) (hne : f' ≠ f) :
    share'.has (Layout.firstOf m f' + j) = share.has (Layout.firstOf m f' + j) := by
  rw [Bool.eq_iff_iff]
  refine ⟨fun hhas => ?_, h.has_mono _⟩
  by_contra hnot
  obtain ⟨i, hi, heq, -⟩ := h.new _ hhas (by simpa using hnot)
  exact hne (Layout.firstOf_add_inj hf' hj hf hi heq).1

/-- A file none of whose pieces was marked gets an outboard that proves those that are. -/
lemma canServe (h : RestoresFile S B T m fs f entry data share share' r)
    (hf : m.files[f]? = some entry)
    (hwhole : (∀ i < entry.pieces, share.has (Layout.firstOf m f + i) = true) ∨
      ∀ i < entry.pieces, share.has (Layout.firstOf m f + i) = false)
    (hserve : CanServe S B T m ⟨fs, share⟩) : CanServe S B T m ⟨fs, share'⟩ := by
  intro f' entry' outboard' j hf' hfile' hj hhas
  simp only at hfile' hhas
  rcases h.files_eq with ⟨hfiles, hheld⟩ | ⟨hfiles, -, i, hi, hmissing⟩
  · rw [hfiles] at hfile'
    rw [LocalShare.has, hheld] at hhas
    exact hserve f' entry' outboard' j hf' hfile' hj hhas
  · rw [hfiles] at hfile'
    by_cases hff : f' = f
    · subst hff
      obtain rfl : entry = entry' := Option.some.inj (hf.symm.trans hf')
      have hnone := hwhole.resolve_left fun hall => by
        rw [hall i hi] at hmissing
        cases hmissing
      obtain ⟨k, hk, heq, hstores⟩ := h.new _ hhas (hnone j hj)
      obtain rfl : j = k := by omega
      rw [List.getElem?_set_self'] at hfile'
      obtain ⟨file, -, hsaved⟩ := Option.map_eq_some_iff.1 hfile'
      obtain ⟨-, rfl⟩ := LocalFile.mk.inj hsaved
      exact hstores
    · rw [List.getElem?_set_ne (Ne.symm hff)] at hfile'
      rw [h.has_other hf hf' hj hff] at hhas
      exact hserve f' entry' outboard' j hf' hfile' hj hhas

end RestoresFile

/-! ## All files -/

/-- What `restore_progress` does for the files from `index` on. -/
structure Restores (S : StoreKeys Master Key) (B : Bao Hash Wire) (T : Target Master)
    (m : Manifest Hash) (fs : FileSystem) (index : ℕ) (outboards : List (List (Hash × Hash)))
    (share share' : LocalShare Master Hash) (r : Result Unit) : Prop where
  isDownload : IsDownload T m share'
  has_mono : ∀ p, share.has p = true → share'.has p = true
  genuine : Genuine S B T m ⟨fs, share⟩ → Genuine S B T m ⟨fs, share'⟩
  canServe : (∀ (f : ℕ) (entry : FileEntry Hash), index ≤ f → m.files[f]? = some entry →
      (∀ i < entry.pieces, share.has (Layout.firstOf m f + i) = true) ∨
        ∀ i < entry.pieces, share.has (Layout.firstOf m f + i) = false) →
    CanServe S B T m ⟨fs, share⟩ → CanServe S B T m ⟨fs, share'⟩
  complete : r = .ok () → ∀ (k : ℕ) (data : List (Hash × Hash)) (entry : FileEntry Hash) (i : ℕ),
    outboards[k]? = some data → m.files[index + k]? = some entry →
    data.length = outboardSize entry.size → i < entry.pieces →
    Stores S B T fs (savedOutboard entry data).load (index + k) entry i →
    share'.has (Layout.firstOf m (index + k) + i) = true

lemma restoreFiles_spec {env : ℕ → RestoreEnv} (outboards : List (List (Hash × Hash))) :
    ∀ (index : ℕ) (share : LocalShare Master Hash), IsDownload T m share →
    index + outboards.length ≤ m.files.length →
    Restores S B T m fs index outboards share
      (LocalShare.restoreFiles S B env fs share index outboards).1
      (LocalShare.restoreFiles S B env fs share index outboards).2 := by
  induction outboards with
  | nil =>
    exact fun index share hd _ => ⟨hd, fun _ => id, id, fun _ => id, fun _ k data => by simp⟩
  | cons data outboards ih =>
    intro index share hd hlt
    rw [List.length_cons] at hlt
    have hf : m.files[index]? = some m.files[index] := List.getElem?_eq_getElem (by omega)
    generalize m.files[index] = entry at hf
    have hone := restoreFile_spec S B fs data (env index) hd hf
    rw [LocalShare.restoreFiles]
    obtain ⟨⟨share₁, r⟩, hres⟩ :
        ∃ one, LocalShare.restoreFile S B (env index) fs share index data = one := ⟨_, rfl⟩
    rw [hres] at hone
    rw [hres]
    have hd₁ := hone.isDownload hd hf
    cases r with
    | error e =>
      exact ⟨hd₁, hone.has_mono, hone.genuine hf,
        fun hwhole => hone.canServe hf (hwhole index entry le_rfl hf), fun h => by cases h⟩
    | ok u =>
      have hrest := ih (index + 1) share₁ hd₁ (by omega)
      refine ⟨hrest.isDownload, fun p hp => hrest.has_mono p (hone.has_mono p hp),
        fun hg => hrest.genuine (hone.genuine hf hg), fun hwhole hserve => ?_,
        fun hr k data' entry' i hk hf' hlen hi hstores => ?_⟩
      · refine hrest.canServe (fun f' entry' hle hf' => ?_)
          (hone.canServe hf (hwhole index entry le_rfl hf) hserve)
        have hsame : ∀ i < entry'.pieces, share₁.has (Layout.firstOf m f' + i) =
            share.has (Layout.firstOf m f' + i) := fun i hi =>
          hone.has_other hf hf' hi (by omega)
        refine (hwhole f' entry' (by omega) hf').imp (fun hall i hi => ?_) fun hnone i hi => ?_
        · rw [hsame i hi, hall i hi]
        · rw [hsame i hi, hnone i hi]
      · rcases k with _ | k
        · obtain rfl : data = data' := Option.some.inj hk
          obtain rfl : entry = entry' := Option.some.inj (hf.symm.trans hf')
          exact hrest.has_mono _ (hone.complete rfl hlen i hi hstores)
        · have hadd : index + (k + 1) = index + 1 + k := by omega
          rw [hadd] at hf' hstores ⊢
          exact hrest.complete hr k data' entry' i hk hf' hlen hi hstores

variable (S B fs) in
lemma restoreProgress_spec (env : ℕ → RestoreEnv) (hd : IsDownload T m share)
    (outboards : List (List (Hash × Hash))) :
    Restores S B T m fs 0 (outboards.take share.files.length) share
      (LocalShare.restoreProgress S B env fs share outboards).1
      (LocalShare.restoreProgress S B env fs share outboards).2 := by
  refine restoreFiles_spec _ 0 share hd ?_
  rw [Nat.zero_add, List.length_take, hd.files_length]
  exact min_le_left _ _

end Chorrent
