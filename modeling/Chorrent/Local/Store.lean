/-
# Storing a piece

`store_piece` on a download: whatever the bytes are and whatever fails, the marked pieces
keep their bytes; the share changes only when a proof of the piece was written, and then the
pairs of the proof join the outboard.
-/
import Chorrent.Local.Prepare

namespace Chorrent

open Lib

variable {Master Key Hash Wire : Type} {S : StoreKeys Master Key} {B : Bao Hash Wire}
  {T : Target Master} {m : Manifest Hash} {disk disk' : Disk Master Hash} {f i : ℕ}
  {entry : FileEntry Hash} {encoded : Wire} {env : StoreEnv}

/-- From one state of a download to a later one: pieces stay marked, and marked pieces keep
their bytes. -/
structure Advances (S : StoreKeys Master Key) (T : Target Master) (m : Manifest Hash)
    (disk disk' : Disk Master Hash) : Prop where
  has_mono : ∀ p, disk.share.has p = true → disk'.share.has p = true
  keeps : ∀ (f : ℕ) (entry : FileEntry Hash) (i : ℕ) (d : Bytes), m.files[f]? = some entry →
    i < entry.pieces → disk.share.has (Layout.firstOf m f + i) = true →
    T.stored S disk.fs f entry i = some d → T.stored S disk'.fs f entry i = some d

lemma Advances.refl (disk : Disk Master Hash) : Advances S T m disk disk :=
  ⟨fun _ => id, fun _ _ _ _ _ _ _ => id⟩

lemma Advances.trans {disk₁ disk₂ disk₃ : Disk Master Hash} (h : Advances S T m disk₁ disk₂)
    (h' : Advances S T m disk₂ disk₃) : Advances S T m disk₁ disk₃ :=
  ⟨fun p hp => h'.has_mono p (h.has_mono p hp), fun f entry i d hf hi hp hd =>
    h'.keeps f entry i d hf hi (h.has_mono _ hp) (h.keeps f entry i d hf hi hp hd)⟩

/-- The share after a piece was accepted: its pairs join the outboard and it is marked. -/
structure Accepts (S : StoreKeys Master Key) (B : Bao Hash Wire) (T : Target Master)
    (disk disk' : Disk Master Hash) (f : ℕ) (entry : FileEntry Hash) (i p : ℕ) : Prop where
  manifest_eq : disk'.share.manifest = disk.share.manifest
  layout_eq : disk'.share.layout = disk.share.layout
  held_length : disk'.share.held.length = disk.share.held.length
  has_iff : ∀ q, disk'.share.has q = true ↔ q = p ∨ disk.share.has q = true
  learns : ∃ load d outboard, ProvesBlock B.hasher load entry.rootHash entry.size i d ∧
    T.stored S disk'.fs f entry i = some d ∧
    disk.share.files[f]? = some ⟨T.data f entry, outboard⟩ ∧
    disk'.share.files = disk.share.files.set f
      ⟨T.data f entry, applyProof outboard (proofNodes load entry.size i)⟩

/-- The same share with another file in place. -/
def LocalShare.setFile (share : LocalShare Master Hash) (f : ℕ) (file : LocalFile Master Hash) :
    LocalShare Master Hash :=
  { share with files := share.files.set f file }

/-- What storing piece `i` of file `f` does. -/
structure StoresPiece (S : StoreKeys Master Key) (B : Bao Hash Wire) (T : Target Master)
    (m : Manifest Hash) (disk : Disk Master Hash) (f : ℕ) (entry : FileEntry Hash) (i : ℕ)
    (env : StoreEnv) (encoded : Wire) (r : Disk Master Hash × Result Bool) : Prop where
  /-- Nothing was written, or the piece was decoded into the file of the piece. -/
  file : r.1.fs = disk.fs ∨ ∃ handle bytes, disk.fs (T.data f entry).path = some bytes ∧
    (T.data f entry).openWith S true false (some bytes) = .ok handle ∧
    r.1.fs = Function.update disk.fs (T.data f entry).path (some (decodeRange B S.cipher handle
      env.write bytes entry.rootHash entry.size (i * blockSize) (pieceEnd entry.size i) encoded).1)
  frame : ∀ p, p ≠ (T.data f entry).path → r.1.fs p = disk.fs p
  others : ∀ j d, j ≠ i → j < entry.pieces → T.stored S disk.fs f entry j = some d →
    T.stored S r.1.fs f entry j = some d
  had : disk.share.has (Layout.firstOf m f + i) = true → r = (disk, .ok false)
  refused : r.2 ≠ .ok true → r.1.share = disk.share
  accepted : r.2 = .ok true → Accepts S B T disk r.1 f entry i (Layout.firstOf m f + i)
  /-- A proof of a piece that is missing is accepted if the file can be written. -/
  accepts : ∀ load d handle, disk.share.has (Layout.firstOf m f + i) = false →
    ProvesBlock B.hasher load entry.rootHash entry.size i d →
    B.decode entry.rootHash entry.size (i * blockSize) (pieceEnd entry.size i) encoded =
      (proofItems load entry.size i d, true) →
    (T.data f entry).openWith S true false (disk.fs (T.data f entry).path) = .ok handle →
    env.openFails = false → (env.write 0 0).fault = none → slotPos i < 2 ^ 64 → r.2 = .ok true

lemma orError_error_ne_ok {α : Type} {toError : IoError → Error} {e : Stop IoError} {a : α} :
    IoResult.orError toError (.error e) ≠ .ok a := by
  rw [ne_eq, IoResult.orError_eq_ok]
  exact fun h => by cases h

/-- Nothing was done. -/
lemma StoresPiece.unchanged {r : Result Bool} (hr : r ≠ .ok true)
    (hhad : disk.share.has (Layout.firstOf m f + i) = true → r = .ok false)
    (hfails : ∀ handle, disk.share.has (Layout.firstOf m f + i) = false →
      (T.data f entry).openWith S true false (disk.fs (T.data f entry).path) = .ok handle →
      env.openFails = false → False) :
    StoresPiece S B T m disk f entry i env encoded (disk, r) where
  file := .inl rfl
  frame _ _ := rfl
  others _ _ _ _ := id
  had h := by rw [hhad h]
  refused _ := rfl
  accepted h := absurd h hr
  accepts _ _ handle hnot _ _ hopen hopens _ _ := (hfails handle hnot hopen hopens).elim

/-- The bytes of a file and its share after decoding piece `i` into it. -/
lemma storesPiece_of_decodes {handle : Handle Key} {bytes bytes' : Bytes}
    {outboard : Outboard Hash} {r : IoResult (ProofNodes Hash)} {r' : Result Bool}
    (hbytes : disk.fs (T.data f entry).path = some bytes)
    (hnot : disk.share.has (Layout.firstOf m f + i) = false)
    (hfile : disk.share.files[f]? = some ⟨T.data f entry, outboard⟩)
    (hopen : (T.data f entry).openWith S true false (some bytes) = .ok handle)
    (hdecodes : decodeRange B S.cipher handle env.write bytes entry.rootHash entry.size
      (i * blockSize) (pieceEnd entry.size i) encoded = (bytes', r))
    (hi : i < entry.pieces)
    (hfs : disk'.fs = Function.update disk.fs (T.data f entry).path (some bytes'))
    (herror : ∀ e, r = .error e → disk'.share = disk.share ∧ r' ≠ .ok true)
    (hok : ∀ nodes, r = .ok nodes → r' = .ok true ∧
      (disk.share.setFile f ⟨T.data f entry, applyProof outboard nodes⟩).Marks disk'.share
        {Layout.firstOf m f + i}) :
    StoresPiece S B T m disk f entry i env encoded (disk', r') := by
  have hspec := decodeRange_spec (B := B) hopen (T.sized f entry) entry.size_lt hi entry.rootHash
    env.write encoded
  rw [hdecodes] at hspec
  have hpath : disk'.fs (T.data f entry).path = some bytes' := by rw [hfs, Function.update_self]
  refine ⟨.inr ⟨handle, bytes, hbytes, hopen, by rw [hdecodes]; exact hfs⟩, fun p hp => ?_,
    fun j d hj hjlt hd => ?_, fun h => ?_, fun hr => ?_, fun hr => ?_,
    fun load d handle' _ hproves hdecode _ _ hcalm hslot => ?_⟩
  · show disk'.fs p = disk.fs p
    rw [hfs, Function.update_of_ne hp]
  · rw [Target.stored, hbytes] at hd
    show T.stored S disk'.fs f entry j = some d
    rw [Target.stored, hpath]
    exact hspec.others j hj (lt_blockCount.1 hjlt) d hd
  · rw [hnot] at h
    cases h
  · cases hres : r with
    | error e => exact (herror e hres).1
    | ok nodes => exact absurd (hok nodes hres).1 hr
  · cases hres : r with
    | error e => exact absurd hr (herror e hres).2
    | ok nodes =>
      obtain ⟨load, d, hproves, hpiece, rfl⟩ := hspec.stored nodes hres
      obtain ⟨-, hmarks⟩ := hok _ hres
      refine ⟨hmarks.manifest_eq, hmarks.layout_eq, hmarks.held_length, hmarks.has_iff,
        load, d, outboard, hproves, ?_, hfile, hmarks.files_eq⟩
      show T.stored S disk'.fs f entry i = some d
      rw [Target.stored, hpath]
      exact hpiece
  · exact (hok _ (hspec.accepts load d hproves hdecode hcalm hslot)).1

variable (S B env encoded) in
lemma storePiece_spec (hd : IsDownload T m disk.share) (hf : m.files[f]? = some entry)
    (hi : i < entry.pieces) :
    StoresPiece S B T m disk f entry i env encoded
      (LocalShare.storePiece S B env disk (Layout.firstOf m f + i) encoded) := by
  obtain ⟨outboard, hfile, -, -, -⟩ := hd.file_eq f entry hf
  have hentry : disk.share.manifest.files[f]? = some entry := by rw [hd.manifest_eq, hf]
  rw [LocalShare.storePiece]
  by_cases hhas : disk.share.has (Layout.firstOf m f + i) = true
  · rw [if_pos hhas]
    refine .unchanged (by simp) (fun _ => rfl) fun handle hnot => ?_
    rw [hhas] at hnot
    cases hnot
  -- the piece is missing, and nothing is marked before it was written
  have hnot : disk.share.has (Layout.firstOf m f + i) = false := by simpa using hhas
  have hlocate := Layout.locate_eq hf hi
  rw [← hd.layout_eq] at hlocate
  rw [if_neg hhas, hlocate]
  simp only [hfile, hentry]
  by_cases hfails : env.openFails = true
  · rw [if_pos hfails]
    refine .unchanged (by simp) (fun h => absurd h hhas) fun handle _ _ hnofail => ?_
    rw [hfails] at hnofail
    cases hnofail
  rw [if_neg hfails]
  cases hopen : (T.data f entry).openWith S true false (disk.fs (T.data f entry).path) with
  | error e =>
    refine .unchanged orError_error_ne_ok (fun h => absurd h hhas) fun handle _ hopens => ?_
    rw [hopen] at hopens
    cases hopens
  | ok handle =>
    obtain ⟨bytes, hbytes⟩ : ∃ bytes, disk.fs (T.data f entry).path = some bytes := by
      cases hfs : disk.fs (T.data f entry).path with
      | none =>
        rw [hfs] at hopen
        cases hopen
      | some bytes => exact ⟨bytes, rfl⟩
    rw [hbytes] at hopen
    simp only [hbytes, Option.getD_some]
    rw [show min (i * blockSize + blockSize) entry.size = pieceEnd entry.size i from rfl]
    obtain ⟨⟨bytes', r⟩, hdec⟩ : ∃ decoded, decodeRange B S.cipher handle env.write bytes
        entry.rootHash entry.size (i * blockSize) (pieceEnd entry.size i) encoded = decoded :=
      ⟨_, rfl⟩
    simp only [hdec]
    cases r with
    | error e =>
      exact storesPiece_of_decodes hbytes hnot hfile hopen hdec hi rfl
        (fun _ _ => ⟨rfl, orError_error_ne_ok⟩) (fun _ h => by cases h)
    | ok nodes =>
      have hlt : Layout.firstOf m f + i <
          (disk.share.setFile f ⟨T.data f entry, applyProof outboard nodes⟩).held.length := by
        show _ < disk.share.held.length
        rw [hd.held_length]
        exact Layout.firstOf_add_lt hf hi
      obtain ⟨share', hmark, hmarks⟩ := LocalShare.markHave_spec hlt
      rw [LocalShare.setFile] at hmark
      simp only [hmark]
      refine storesPiece_of_decodes hbytes hnot hfile hopen hdec hi rfl (fun _ h => by cases h)
        fun nodes' h => ⟨rfl, ?_⟩
      obtain rfl := Except.ok.inj h
      exact hmarks

/-! ## What storing a piece preserves -/

/-- Every piece that is marked is stored, and can be proved somehow. -/
def Genuine (S : StoreKeys Master Key) (B : Bao Hash Wire) (T : Target Master) (m : Manifest Hash)
    (disk : Disk Master Hash) : Prop :=
  ∀ (f : ℕ) (entry : FileEntry Hash) (i : ℕ), m.files[f]? = some entry → i < entry.pieces →
    disk.share.has (Layout.firstOf m f + i) = true → ∃ load, Stores S B T disk.fs load f entry i

lemma CanServe.genuine (hd : IsDownload T m disk.share) (h : CanServe S B T m disk) :
    Genuine S B T m disk := by
  intro f entry i hf hi hhas
  obtain ⟨outboard, hfile, -⟩ := hd.file_eq f entry hf
  exact ⟨_, h f entry outboard i hf hfile hi hhas⟩

namespace StoresPiece

variable {r : Disk Master Hash × Result Bool} {toLowercase : String → String}

lemma isDownload (h : StoresPiece S B T m disk f entry i env encoded r)
    (hd : IsDownload T m disk.share) (hf : m.files[f]? = some entry) :
    IsDownload T m r.1.share := by
  by_cases hr : r.2 = .ok true
  · have hacc := h.accepted hr
    obtain ⟨load, d, outboard, -, -, hfile, hfiles⟩ := hacc.learns
    refine ⟨hacc.manifest_eq.trans hd.manifest_eq, hacc.layout_eq.trans hd.layout_eq,
      hacc.held_length.trans hd.held_length, ?_, fun f' entry' hf' => ?_⟩
    · rw [hfiles, List.length_set, hd.files_length]
    · obtain ⟨outboard', hfile', hroot, hsize, hlength⟩ := hd.file_eq f' entry' hf'
      by_cases hff : f = f'
      · subst hff
        obtain rfl : entry = entry' := Option.some.inj (hf.symm.trans hf')
        obtain ⟨-, rfl⟩ := LocalFile.mk.inj (Option.some.inj (hfile.symm.trans hfile'))
        refine ⟨applyProof outboard (proofNodes load entry.size i), ?_,
          by rw [root_applyProof, hroot], by rw [size_applyProof, hsize],
          by rw [length_applyProof, hlength]⟩
        rw [hfiles, List.getElem?_set_self (List.getElem?_eq_some_iff.1 hfile).1]
      · exact ⟨outboard', by rw [hfiles, List.getElem?_set_ne hff, hfile'], hroot, hsize, hlength⟩
  · rwa [h.refused hr]

/-- The stored bytes of every other piece are kept. -/
lemma keeps (h : StoresPiece S B T m disk f entry i env encoded r)
    (hvalid : m.validate toLowercase = .ok ()) (hf : m.files[f]? = some entry) {f' j : ℕ}
    {entry' : FileEntry Hash} {d : Bytes} (hf' : m.files[f']? = some entry')
    (hj : j < entry'.pieces) (hne : ¬ (f' = f ∧ j = i))
    (hd : T.stored S disk.fs f' entry' j = some d) : T.stored S r.1.fs f' entry' j = some d := by
  by_cases hff : f' = f
  · subst hff
    obtain rfl : entry = entry' := Option.some.inj (hf.symm.trans hf')
    exact h.others j d (fun hji => hne ⟨rfl, hji⟩) hj hd
  · rw [stored_congr (h.frame _ fun hpath => hff (Target.path_injective hvalid hf' hf hpath)), hd]

lemma has_iff (h : StoresPiece S B T m disk f entry i env encoded r) (hr : r.2 = .ok true)
    (hf : m.files[f]? = some entry) (hi : i < entry.pieces) {f' j : ℕ} {entry' : FileEntry Hash}
    (hf' : m.files[f']? = some entry') (hj : j < entry'.pieces) :
    r.1.share.has (Layout.firstOf m f' + j) = true ↔
      (f' = f ∧ j = i) ∨ disk.share.has (Layout.firstOf m f' + j) = true := by
  rw [(h.accepted hr).has_iff]
  constructor
  · rintro (heq | hhas)
    · exact Or.inl (Layout.firstOf_add_inj hf' hj hf hi heq)
    · exact Or.inr hhas
  · rintro (⟨rfl, rfl⟩ | hhas)
    · exact Or.inl rfl
    · exact Or.inr hhas

lemma advances (h : StoresPiece S B T m disk f entry i env encoded r)
    (hvalid : m.validate toLowercase = .ok ()) (hf : m.files[f]? = some entry) :
    Advances S T m disk r.1 := by
  refine ⟨fun p hp => ?_, fun f' entry' j d hf' hj hhas hd => ?_⟩
  · by_cases hr : r.2 = .ok true
    · exact ((h.accepted hr).has_iff p).2 (Or.inr hp)
    · rwa [h.refused hr]
  · by_cases hsame : f' = f ∧ j = i
    · obtain ⟨rfl, rfl⟩ := hsame
      rwa [h.had hhas]
    · exact h.keeps hvalid hf hf' hj hsame hd

lemma genuine (h : StoresPiece S B T m disk f entry i env encoded r)
    (hvalid : m.validate toLowercase = .ok ()) (hf : m.files[f]? = some entry)
    (hi : i < entry.pieces) (hg : Genuine S B T m disk) : Genuine S B T m r.1 := by
  intro f' entry' j hf' hj hhas
  by_cases hold : disk.share.has (Layout.firstOf m f' + j) = true
  · obtain ⟨load, d, hd, hproves⟩ := hg f' entry' j hf' hj hold
    exact ⟨load, d, (h.advances hvalid hf).keeps f' entry' j d hf' hj hold hd, hproves⟩
  · by_cases hr : r.2 = .ok true
    · obtain ⟨rfl, rfl⟩ := ((h.has_iff hr hf hi hf' hj).1 hhas).resolve_right hold
      obtain rfl : entry = entry' := Option.some.inj (hf.symm.trans hf')
      obtain ⟨load, d, outboard, hproves, hd, -, -⟩ := (h.accepted hr).learns
      exact ⟨load, d, hd, hproves⟩
    · rw [h.refused hr] at hhas
      exact absurd hhas hold

lemma canServe (h : StoresPiece S B T m disk f entry i env encoded r)
    (hvalid : m.validate toLowercase = .ok ()) (hd : IsDownload T m disk.share)
    (hf : m.files[f]? = some entry) (hi : i < entry.pieces) (hserve : CanServe S B T m disk) :
    CanServe S B T m r.1 := by
  intro f' entry' outboard' j hf' hfile' hj hhas
  have hadv := h.advances hvalid hf
  by_cases hr : r.2 = .ok true
  · obtain ⟨load, d, outboard, hproves, hstored, hfile, hfiles⟩ := (h.accepted hr).learns
    rw [hfiles] at hfile'
    by_cases hff : f' = f
    · subst hff
      obtain rfl : entry = entry' := Option.some.inj (hf.symm.trans hf')
      rw [List.getElem?_set_self (List.getElem?_eq_some_iff.1 hfile).1] at hfile'
      obtain ⟨-, rfl⟩ := LocalFile.mk.inj (Option.some.inj hfile')
      obtain ⟨outboard', hfile', -, -, hlength⟩ := hd.file_eq f' entry hf
      obtain ⟨-, rfl⟩ := LocalFile.mk.inj (Option.some.inj (hfile.symm.trans hfile'))
      obtain ⟨hnew, hkeep⟩ := hproves.learn hlength
      by_cases hji : j = i
      · subst hji
        exact ⟨d, hstored, hnew⟩
      · have hold := ((h.has_iff hr hf hi hf hj).1 hhas).resolve_left fun hsame => hji hsame.2
        obtain ⟨x, hx, hprovesx⟩ := hserve f' entry outboard j hf hfile hj hold
        exact ⟨x, hadv.keeps f' entry j x hf hj hold hx, hkeep j x hprovesx⟩
    · rw [List.getElem?_set_ne (Ne.symm hff)] at hfile'
      have hold := ((h.has_iff hr hf hi hf' hj).1 hhas).resolve_left fun hsame => hff hsame.1
      obtain ⟨x, hx, hprovesx⟩ := hserve f' entry' outboard' j hf' hfile' hj hold
      exact ⟨x, hadv.keeps f' entry' j x hf' hj hold hx, hprovesx⟩
  · rw [h.refused hr] at hfile' hhas
    obtain ⟨x, hx, hprovesx⟩ := hserve f' entry' outboard' j hf' hfile' hj hhas
    exact ⟨x, hadv.keeps f' entry' j x hf' hj hhas hx, hprovesx⟩

end StoresPiece

end Chorrent
