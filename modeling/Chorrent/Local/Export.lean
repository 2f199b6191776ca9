/-
# Exporting a file

What `export_file` leaves at the destination when it fails.  The file is created there before
the stored one is opened, and is taken away again only if the copy came out too short; so
whatever fails in between leaves it behind.
-/
import Chorrent.Local.Tamper
import Chorrent.Storage.Pieces

namespace Chorrent

open Lib Bytes

variable {Master Key Hash : Type} {S : StoreKeys Master Key}

/-! ## What can be read of a stored file -/

/-- A strict handle on any bytes reads the pieces whose slots open, and refuses the others. -/
lemma exists_readsBlocks (C : Aead Key tagSize) {h : Encrypted Key} (hstrict : h.strict = true)
    (hfits : headerSize + blockCount h.size * slotSize < 2 ^ 64) (file : Bytes) :
    ∃ content, ReadsBlocks C h file content
      fun i => ∃ plain, h.openSlot C file i = .ok (some plain) := by
  have hsize := size_lt_of_fits hfits
  -- byte `k` is taken from the piece it is in
  let piece (i : ℕ) : Bytes :=
    (h.readBlock C file i).toOption.getD []
  refine ⟨(List.range h.size).map fun k => (piece (k / blockSize)).getD (k % blockSize) 0,
    ?_, ?_, ?_⟩
  · simp
  · rintro i hi ⟨plain, hopen⟩
    have hread : h.readBlock C file i = .ok plain := by
      rw [Encrypted.readBlock, hopen, ok_bind]
      rfl
    have hlen := length_of_openSlot hsize hi hopen
    rw [hread]
    congr 1
    refine List.ext_getElem? fun k => ?_
    rw [getElem?_slice]
    have hblocks := hlen.trans_le (pieceLen_le_blockSize h.size i)
    have hsub := hlen.trans_le (pieceLen_le_sub h.size i)
    by_cases hk : k < plain.length
    · have hdiv : (i * blockSize + k) / blockSize = i := by
        rw [Nat.mul_comm, Nat.mul_add_div (by decide), Nat.div_eq_of_lt (by omega), Nat.add_zero]
      have hmod : (i * blockSize + k) % blockSize = k := by
        rw [Nat.mul_comm, Nat.mul_add_mod, Nat.mod_eq_of_lt (by omega)]
      have hpiece : piece i = plain := by
        simp only [piece, hread]
        rfl
      rw [if_pos (by omega), List.getElem?_map, List.getElem?_range (by omega), Option.map_some,
        hdiv, hmod, hpiece, List.getD_eq_getElem?_getD, List.getElem?_eq_getElem hk,
        Option.getD_some]
    · rw [List.getElem?_eq_none (not_lt.1 hk)]
      split_ifs with hblock
      · rw [List.getElem?_eq_none]
        simp only [List.length_map, List.length_range]
        -- the piece ends with the file, or with the block
        have hend : ¬ (k + 1 ≤ h.size - i * blockSize ∧ k + 1 ≤ blockSize) := fun hle =>
          hk (hlen ▸ le_pieceLen.2 hle)
        omega
      · rfl
  · intro i hi hnot
    have hopen := openSlot_eq_slot C file hsize hi (slotPos_lt_of_fits hfits hi)
    generalize hslot : (if slotPos i + (nonceSize + pieceLen h.size i + tagSize) ≤ file.length ∧
        ((slotBytes file h.size i).take nonceSize).all (· == 0) = false then
      C.decrypt h.key ((slotBytes file h.size i).take nonceSize) (pieceAad i)
        ((slotBytes file h.size i).drop nonceSize) else none) = slot at hopen
    cases slot with
    | some plain => exact absurd ⟨plain, hopen⟩ hnot
    | none =>
      rw [Encrypted.readBlock, hopen, ok_bind]
      simp only [hstrict, if_true]
      rfl

/-- Copying an ordinary file gives its bytes up to the limit. -/
lemma copy_plain (C : Aead Key tagSize) (file : Bytes) {cap : ℕ} (hcap : 0 < cap) :
    ∀ fuel n pos, n ≤ fuel →
      (Handle.plain : Handle Key).copy C file cap fuel pos n = (file.slice pos n, none) := by
  intro fuel
  induction fuel with
  | zero =>
    intro n pos hn
    obtain rfl : n = 0 := by omega
    rw [Handle.copy, slice_zero]
  | succ fuel ih =>
    intro n pos hn
    rcases n with _ | n
    · rw [Handle.copy, slice_zero]
    obtain ⟨k, hk⟩ : ∃ k, k = min (min cap (n + 1)) (file.length - pos) := ⟨_, rfl⟩
    have hread : (Handle.plain : Handle Key).readAt C file pos (min cap (n + 1)) =
        .ok (file.slice pos k) := by
      rw [Handle.readAt, slice_clip (show min _ _ = min k _ by omega)]
    have hlen : (file.slice pos k).length = k := by
      rw [length_slice]
      omega
    rw [Handle.copy, hread]
    simp only [hlen]
    by_cases hzero : k = 0
    · -- the end of the file
      have hempty : file.slice pos (n + 1) = [] := by
        refine List.eq_nil_of_length_eq_zero ?_
        rw [length_slice]
        omega
      rw [hzero, slice_zero, if_pos rfl, hempty]
    · have hne : file.slice pos k ≠ [] := List.ne_nil_of_length_pos (by omega)
      rw [if_neg hne, ih _ _ (by omega), slice_append_slice, Nat.add_sub_cancel' (by omega)]

/-- The bytes from the start of a file touch all pieces that start among them. -/
lemma allTouched_zero_iff {readable : ℕ → Prop} {n : ℕ} :
    AllTouched readable 0 n ↔ ∀ i, i * blockSize < n → readable i := by
  have hpos : 0 < blockSize := by decide
  constructor
  · intro h i hi
    refine h i ⟨?_, by omega, by omega⟩
    rw [Nat.add_mul, Nat.one_mul]
    omega
  · exact fun h i hi => h i (by have := hi.2.1; omega)

/-! ## What an export needs -/

/-- So many bytes of the stored file can be read: all there are of an ordinary file, all or none
of a file of the encrypted store, which is refused unless every piece opens. -/
def FileData.Readable (S : StoreKeys Master Key) (size : ℕ) :
    FileData Master → Bytes → ℕ → Prop
  | .plain _, file, n => n = min size file.length
  | .encrypted _ key declared, file, n => n = size ∧
      ∃ h, openEncrypted S key declared false true file = .ok h ∧
        ∀ i, i * blockSize < size → ∃ plain, h.openSlot S.cipher file i = .ok (some plain)

namespace FileData.Readable

variable {size n n' : ℕ} {data : FileData Master} {file : Bytes}

lemma le (h : data.Readable S size file n) : n ≤ size := by
  cases data with
  | plain path => exact h.le.trans (min_le_left _ _)
  | encrypted path key declared => exact h.1.le

lemma unique (h : data.Readable S size file n) (h' : data.Readable S size file n') : n = n' := by
  cases data with
  | plain path => exact h.trans h'.symm
  | encrypted path key declared => exact h.1.trans h'.1.symm

end FileData.Readable

namespace LocalShare

/-- A fault that is not reached changes nothing. -/
lemma ExportEnv.cut_of_not_reached {env : ExportEnv} {size : ℕ} {content : Bytes}
    (h : ∀ k ∈ env.readFault, k < size → content.length < k) :
    env.cut size (content, none) = (content, none) := by
  unfold ExportEnv.cut
  cases hfault : env.readFault with
  | none => rfl
  | some k => exact if_neg fun hcut => absurd (h k hfault hcut.2) (not_lt.2 hcut.1)

lemma ExportEnv.cut_of_reached {env : ExportEnv} {size k : ℕ} {content : Bytes}
    (hk : env.readFault = some k) (hsize : k < size) (hlen : k ≤ content.length) :
    (env.cut size (content, none)).2 = some (.fail .other) := by
  unfold ExportEnv.cut
  simp only [hk, hlen, hsize, and_self, if_true]

/-- Nothing is created at the destination. -/
def ExportEnv.Refuses (env : ExportEnv) (fs : FileSystem) (dest : Path) : Prop :=
  env.folderFails = true ∨ (fs dest).isSome = true ∨ env.createFails = true

/-- Once the file is created, the stored one is there and can be opened and read to its end, and
neither reading nor writing fails until then; and a file that came out short can be removed. -/
def ExportEnv.Undisturbed (S : StoreKeys Master Key) (env : ExportEnv) (fs : FileSystem)
    (dest : Path) (data : FileData Master) (size : ℕ) : Prop :=
  env.openFails = false ∧
    ∃ file n, Function.update fs dest (some []) data.path = some file ∧
      data.Readable S size file n ∧ (∀ k ∈ env.readFault, k < size → n < k) ∧
      (∀ k ∈ env.fault, n ≤ k) ∧ (n < size → env.removeFails = false)

/-- The export worked and the destination holds the bytes that are stored, or it failed and the
destination is as it was. -/
def AllOrNothing (S : StoreKeys Master Key) (data : FileData Master) (size : ℕ) (fs : FileSystem)
    (dest : Path) : FileSystem × Result Unit → Prop
  | (fs', .ok ()) => ∃ content, content.length = size ∧
      data.Holds S size ((fs data.path).getD []) content ∧ fs' dest = some content
  | (fs', .error _) => fs' dest = fs dest

variable {env : ExportEnv} {fs : FileSystem} {share : LocalShare Master Hash} {index size : ℕ}
  {data : FileData Master} {dest : Path}

/-- What copying a stored file gives: what can be read of it, or an error. -/
lemma copy_cases (hsized : data.Sized size)
    (hfits : headerSize + blockCount size * slotSize < 2 ^ 64) (env : ExportEnv) (file : Bytes) :
    (∃ handle n content, data.openWith S false true (some file) = .ok handle ∧
        data.Readable S size file n ∧ content.length = n ∧
        handle.copy S.cipher file env.buffer size 0 size = (content, none) ∧
        (n = size → data.Holds S size file content)) ∨
      (∀ n, ¬data.Readable S size file n) ∧
        ((∃ e, data.openWith S false true (some file) = .error (.fail e)) ∨
          ∃ handle e, data.openWith S false true (some file) = .ok handle ∧
            (handle.copy S.cipher file env.buffer size 0 size).2 = some (.fail e)) := by
  cases data with
  | plain path =>
    refine Or.inl ⟨.plain, _, file.slice 0 size, rfl, rfl, ?_,
      copy_plain S.cipher file env.buffer_pos _ _ _ le_rfl, fun hn => ⟨.plain, rfl, ?_⟩⟩
    · rw [length_slice, Nat.sub_zero]
    · exact if_pos (Or.inr (by omega))
  | encrypted path key declared =>
    obtain rfl : declared = size := hsized
    rcases openEncrypted_cases S key declared false true file with ⟨hopen, -, -⟩ | ⟨e, hopen⟩
    · obtain ⟨content, hb⟩ := exists_readsBlocks S.cipher
        (h := ⟨S.fileKey key (headerSalt file), declared, true, false⟩) rfl hfits file
      have hlen : content.length = declared := hb.length_eq
      have hopenWith : (FileData.encrypted path key declared).openWith S false true (some file) =
          .ok (.encrypted ⟨S.fileKey key (headerSalt file), declared, true, false⟩) := by
        simp only [FileData.openWith, hopen]
        rfl
      obtain ⟨hok, herr⟩ := hb.copy_eq env.buffer_pos declared declared 0 le_rfl
      rw [Nat.sub_zero, min_self, allTouched_zero_iff] at hok herr
      by_cases hall : ∀ i, i * blockSize < declared → ∃ plain, Encrypted.openSlot S.cipher
          ⟨S.fileKey key (headerSalt file), declared, true, false⟩ file i = .ok (some plain)
      · have hslice : content.slice 0 declared = content := by rw [← hlen, slice_self]
        have hread := (hb.readExactAt_eq 0 declared).1 (Or.inr (by simp))
          (allTouched_zero_iff.2 hall)
        exact Or.inl ⟨_, declared, content, hopenWith, ⟨rfl, _, hopen, hall⟩, hlen,
          hslice ▸ hok hall, fun _ => ⟨_, hopenWith, hslice ▸ hread⟩⟩
      · obtain ⟨e, he⟩ := herr hall
        refine Or.inr ⟨?_, Or.inr ⟨_, e, hopenWith, he⟩⟩
        rintro n ⟨-, h, hopen', hall'⟩
        rw [hopen] at hopen'
        cases hopen'
        exact hall hall'
    · refine Or.inr ⟨?_, Or.inl ⟨e, ?_⟩⟩
      · rintro n ⟨-, h, hopen', -⟩
        rw [hopen] at hopen'
        cases hopen'
      · simp only [FileData.openWith, hopen]
        rfl

/-- Nothing is created if the export is refused. -/
lemma exportFile_of_refuses (hheld : share.HoldsFile index data size)
    (h : env.Refuses fs dest) : ∃ e, share.exportFile S env fs index dest = (fs, .error e) := by
  obtain ⟨outboard, hcheck⟩ := hheld.checkFile_eq
  obtain ⟨entry, hentry, -⟩ := hheld.entry_eq
  simp only [exportFile, hcheck, hentry]
  by_cases hfolder : env.folderFails = true
  · exact ⟨_, if_pos hfolder⟩
  by_cases hexists : (fs dest).isSome = true
  · rw [if_neg hfolder]
    exact ⟨_, if_pos hexists⟩
  have hcreate : env.createFails = true := (h.resolve_left hfolder).resolve_left hexists
  rw [if_neg hfolder, if_neg hexists]
  exact ⟨_, if_pos hcreate⟩

/-- A file that an error left behind. -/
lemma not_allOrNothing_of_left (habsent : fs dest = none) (fs' : FileSystem) (bytes : Bytes)
    (e : Stop Error) :
    ¬AllOrNothing S data size fs dest (Function.update fs' dest (some bytes), .error e) := by
  intro h
  have hdest : Function.update fs' dest (some bytes) dest = fs dest := h
  rw [Function.update_self, habsent] at hdest
  cases hdest

/-- A copy that an error ended leaves what it copied. -/
lemma not_allOrNothing_of_copy_error (habsent : fs dest = none) (fs' : FileSystem)
    {copied : Bytes × Option (Stop IoError)} {e : Stop IoError} (h : copied.2 = some e) :
    ¬AllOrNothing S data size fs dest (env.copyTo fs' dest size copied) := by
  obtain ⟨copied, e'⟩ := copied
  obtain rfl : e' = some e := h
  rw [ExportEnv.copyTo]
  by_cases hfault : env.fault.any (· < copied.length) = true
  · rw [if_pos hfault]
    exact not_allOrNothing_of_left habsent _ _ _
  · rw [if_neg hfault]
    cases e <;> exact not_allOrNothing_of_left habsent _ _ _

/-- A copy that reading did not end is whole, or was too short and is removed, unless writing or
removing fails. -/
lemma allOrNothing_copyTo_iff (habsent : fs dest = none) (fs' : FileSystem) {content : Bytes}
    (hle : content.length ≤ size)
    (hholds : content.length = size → data.Holds S size ((fs data.path).getD []) content) :
    AllOrNothing S data size fs dest (env.copyTo fs' dest size (content, none)) ↔
      (∀ k ∈ env.fault, content.length ≤ k) ∧
        (content.length < size → env.removeFails = false) := by
  have hleft : ∀ fs' bytes e, ¬AllOrNothing S data size fs dest
      (Function.update fs' dest (some bytes), .error e) := not_allOrNothing_of_left habsent
  rw [ExportEnv.copyTo]
  by_cases hfault : env.fault.any (· < content.length) = true
  · rw [if_pos hfault]
    refine iff_of_false (hleft _ _ _) fun hrest => ?_
    obtain ⟨k, hk, hlt⟩ := (Option.any_eq_true _ _).1 hfault
    exact absurd (of_decide_eq_true hlt) (not_lt.2 (hrest.1 k hk))
  have hwrite : ∀ k ∈ env.fault, content.length ≤ k := by
    intro k hk
    by_contra hlt
    exact hfault ((Option.any_eq_true _ _).2 ⟨k, hk, decide_eq_true (not_le.1 hlt)⟩)
  rw [if_neg hfault]
  by_cases hshort : content.length ≠ size
  · have hlt : content.length < size := lt_of_le_of_ne hle hshort
    simp only [if_pos hshort]
    by_cases hremove : env.removeFails = true
    · rw [if_pos hremove]
      refine iff_of_false (hleft _ _ _) fun hrest => ?_
      exact absurd (hrest.2 hlt) (by rw [hremove]; decide)
    · rw [if_neg hremove]
      refine iff_of_true ?_ ⟨hwrite, fun _ => by simpa using hremove⟩
      exact (Function.update_self ..).trans habsent.symm
  · simp only [if_neg hshort]
    refine iff_of_true ?_ ⟨hwrite, fun hlt => absurd hlt.ne hshort⟩
    exact ⟨content, not_not.1 hshort, hholds (not_not.1 hshort), Function.update_self ..⟩

/-- An export that creates the file is all or nothing exactly if nothing goes wrong after
that. -/
lemma allOrNothing_created (hheld : share.HoldsFile index data size) (hsized : data.Sized size)
    (hfits : headerSize + blockCount size * slotSize < 2 ^ 64) (h : ¬env.Refuses fs dest) :
    AllOrNothing S data size fs dest (share.exportFile S env fs index dest) ↔
      env.Undisturbed S fs dest data size := by
  obtain ⟨outboard, hcheck⟩ := hheld.checkFile_eq
  obtain ⟨entry, hentry, hsize⟩ := hheld.entry_eq
  obtain ⟨hfolder, hexists, hcreate⟩ :
      ¬env.folderFails = true ∧ ¬(fs dest).isSome = true ∧ ¬env.createFails = true := by
    simpa only [ExportEnv.Refuses, not_or] using h
  have habsent : fs dest = none := Option.not_isSome_iff_eq_none.1 hexists
  have hleft : ∀ fs' bytes e, ¬AllOrNothing S data size fs dest
      (Function.update fs' dest (some bytes), .error e) := not_allOrNothing_of_left habsent
  simp only [exportFile, hcheck, hentry, hsize, if_neg hfolder, if_neg hexists, if_neg hcreate]
  by_cases hopens : env.openFails = true
  · rw [if_pos hopens]
    exact iff_of_false (hleft _ _ _) fun hun => absurd hun.1 (by rw [hopens]; decide)
  rw [if_neg hopens]
  cases hfile : Function.update fs dest (some []) data.path with
  | none =>
    refine iff_of_false (hleft _ _ _) ?_
    rintro ⟨-, _, _, hsome, -⟩
    rw [hfile] at hsome
    cases hsome
  | some file =>
    -- a missing file that is exported to its own path is there by now, and empty
    have hstored : (fs data.path).getD [] = file := by
      by_cases hpath : data.path = dest
      · rw [hpath, Function.update_self] at hfile
        rw [hpath, habsent]
        exact Option.some.inj hfile
      · rw [Function.update_of_ne hpath] at hfile
        rw [hfile]
        rfl
    rcases copy_cases (S := S) hsized hfits env file with
      ⟨handle, n, content, hopen, hreadable, hlen, hcopy, hholds⟩ |
        ⟨hnone, ⟨e, hopen⟩ | ⟨handle, e, hopen, hcopy⟩⟩
    · simp only [hopen, Option.getD_some, hcopy]
      have hun : env.Undisturbed S fs dest data size ↔
          (∀ k ∈ env.readFault, k < size → n < k) ∧ (∀ k ∈ env.fault, n ≤ k) ∧
            (n < size → env.removeFails = false) := by
        refine ⟨?_, fun hrest => ⟨by simpa using hopens, file, n, hfile, hreadable, hrest⟩⟩
        rintro ⟨-, _, n', hsome, hreadable', hrest⟩
        cases hfile.symm.trans hsome
        rwa [hreadable.unique hreadable']
      rw [hun]
      by_cases hread : ∀ k ∈ env.readFault, k < size → n < k
      · rw [ExportEnv.cut_of_not_reached (by rwa [hlen]), allOrNothing_copyTo_iff habsent _
          (hlen.le.trans hreadable.le) fun heq => hstored ▸ hholds (hlen ▸ heq), hlen]
        exact (and_iff_right hread).symm
      · -- the reading fails before the end, so that the copy does
        have hcut : (env.cut size (content, none)).2 = some (.fail .other) := by
          simp only [not_forall, not_lt] at hread
          obtain ⟨k, hk, hsize, hle⟩ := hread
          exact ExportEnv.cut_of_reached hk hsize (hlen ▸ hle)
        exact iff_of_false (not_allOrNothing_of_copy_error habsent _ hcut)
          fun hrest => hread hrest.1
    · simp only [hopen]
      refine iff_of_false (hleft _ _ _) ?_
      rintro ⟨-, _, n, hsome, hreadable, -⟩
      cases hfile.symm.trans hsome
      exact hnone n hreadable
    · obtain ⟨e', he'⟩ : ∃ e', (env.cut size
          (handle.copy S.cipher file env.buffer size 0 size)).2 = some e' := by
        rcases env.cut_cases size (handle.copy S.cipher file env.buffer size 0 size) with
          hcut | hcut
        · exact ⟨.fail e, by rw [hcut, hcopy]⟩
        · exact ⟨_, hcut⟩
      simp only [hopen, Option.getD_some]
      refine iff_of_false (not_allOrNothing_of_copy_error habsent _ he') ?_
      rintro ⟨-, _, n, hsome, hreadable, -⟩
      cases hfile.symm.trans hsome
      exact hnone n hreadable

/-- An export is all or nothing exactly if nothing is created, or if nothing goes wrong after
the file was created. -/
theorem export_all_or_nothing_iff (hheld : share.HoldsFile index data size)
    (hsized : data.Sized size) (hfits : headerSize + blockCount size * slotSize < 2 ^ 64) :
    AllOrNothing S data size fs dest (share.exportFile S env fs index dest) ↔
      env.Refuses fs dest ∨ env.Undisturbed S fs dest data size := by
  by_cases h : env.Refuses fs dest
  · obtain ⟨e, he⟩ := exportFile_of_refuses (S := S) hheld h
    rw [he]
    exact iff_of_true rfl (Or.inl h)
  · rw [allOrNothing_created hheld hsized hfits h, or_iff_right h]

end LocalShare

/-! ## A damaged file -/

namespace TwoFiles

open LocalShare

/-- Nothing is refused. -/
def calm : ExportEnv where
  buffer := 16 * blockSize
  buffer_pos := by decide
  folderFails := false
  createFails := false
  openFails := false
  readFault := none
  fault := none
  removeFails := false

def photo : Path := ⟨none, true, ["home", "photo"]⟩

/-- The file `a` as it is stored: a piece takes a whole slot. -/
def storedFile : Bytes := (sealedFile a).setLen (headerSize + blockCount 1 * slotSize)

def intact : FileSystem := both storedFile

/-- The file `a`, cut before the last byte that was sealed. -/
def damaged : FileSystem := both (storedFile.take (headerSize + nonceSize + tagSize))

/-- The file `a` is exported to the photo. -/
def exportPhoto (fs : FileSystem) : FileSystem × Result Unit :=
  share.exportFile keys calm fs 0 photo

/-- The export of a damaged file fails and leaves a file, so that another one is refused. -/
theorem export_of_damaged_left :
    ¬AllOrNothing keys (.encrypted a.path [0] 1) 1 damaged photo (exportPhoto damaged) ∧
      (exportPhoto (exportPhoto damaged).1).2 = .error (.fail (.io photo .alreadyExists)) := by
  have hresult : (exportPhoto damaged).2 = .error (.fail (.io photo .invalidData)) := by
    decide +kernel
  have hdest : (exportPhoto damaged).1 photo = some [] := by
    decide +kernel
  refine ⟨fun h => ?_, by decide +kernel⟩
  generalize exportPhoto damaged = answer at hresult hdest h
  obtain ⟨fs', result⟩ := answer
  subst hresult
  have habsent : fs' photo = damaged photo := h
  rw [show fs' photo = some [] from hdest] at habsent
  exact absurd habsent (by decide)

theorem export_all_or_nothing_iff_intact :
    AllOrNothing keys (.encrypted a.path [0] 1) 1 intact photo
        (share.exportFile keys calm intact 0 photo) ↔
      calm.Refuses intact photo ∨
        calm.Undisturbed keys intact photo (.encrypted a.path [0] 1) 1 :=
  export_all_or_nothing_iff share_holds rfl (by decide)

end TwoFiles

end Chorrent
