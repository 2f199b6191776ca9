/-
# Storing a piece twice

`store_piece` asks `has` before it takes the lock of the file, so that two tasks with the same
piece may both store it.  The second finds the piece unmarked, writes it again and marks it
again: the share is as after the first, and if the second write succeeds so are the bytes.
-/
import Chorrent.Local.Serve

namespace Chorrent

open Lib

variable {Master Key Hash Wire : Type}

namespace Disk

/-- The same disk with a piece marked or unmarked. -/
def setHeld (disk : Disk Master Hash) (piece : ℕ) (b : Bool) : Disk Master Hash :=
  { disk with share := { disk.share with held := disk.share.held.set piece b } }

variable {disk : Disk Master Hash} {T : Target Master} {m : Manifest Hash} {p q : ℕ} {b : Bool}

@[simp] lemma fs_setHeld : (disk.setHeld p b).fs = disk.fs := rfl

lemma has_setHeld_of_ne (h : q ≠ p) : (disk.setHeld p b).share.has q = disk.share.has q := by
  rw [LocalShare.has, LocalShare.has, setHeld, List.getElem?_set_ne h.symm]

lemma has_setHeld_self (h : p < disk.share.held.length) :
    (disk.setHeld p b).share.has p = b := by
  rw [LocalShare.has, setHeld, List.getElem?_set_self h]
  rfl

lemma isDownload_setHeld (h : IsDownload T m disk.share) :
    IsDownload T m (disk.setHeld p b).share :=
  ⟨h.manifest_eq, h.layout_eq, List.length_set.trans h.held_length, h.files_length, h.file_eq⟩

end Disk

namespace LocalShare

/-- `store_piece`.  If `late`, `has` was asked before another task marked the piece. -/
def storeRacing (S : StoreKeys Master Key) (B : Bao Hash Wire) (env : StoreEnv) (late : Bool)
    (disk : Disk Master Hash) (piece : ℕ) (encoded : Wire) : Disk Master Hash × Result Bool :=
  if late && disk.share.has piece then
    let (disk', r) := storePiece S B env (disk.setHeld piece false) piece encoded
    (disk'.setHeld piece true, r)
  else storePiece S B env disk piece encoded

/-- Whether these bytes verify as a piece against the root hash of its file. -/
def verifies (B : Bao Hash Wire) (share : LocalShare Master Hash) (piece : ℕ) (encoded : Wire) :
    Bool :=
  match share.layout.locate piece with
  | none => false
  | some loc =>
      match share.manifest.files[loc.file]? with
      | none => false
      | some entry => (B.decode entry.rootHash entry.size loc.start loc.stop encoded).2

end LocalShare

variable {S : StoreKeys Master Key} {B : Bao Hash Wire} {T : Target Master} {m : Manifest Hash}
  {disk : Disk Master Hash} {toLowercase : String → String} {f i : ℕ} {entry : FileEntry Hash}
  {encoded : Wire} {env : StoreEnv} {late : Bool}

/-- What storing piece `i` of file `f` does, whoever else stores it. -/
structure Races (S : StoreKeys Master Key) (B : Bao Hash Wire) (T : Target Master)
    (m : Manifest Hash) (disk : Disk Master Hash) (f : ℕ) (entry : FileEntry Hash) (i : ℕ)
    (env : StoreEnv) (late : Bool) (encoded : Wire) (r : Disk Master Hash × Result Bool) :
    Prop where
  isDownload : IsDownload T m r.1.share
  has_iff : ∀ p, r.1.share.has p = true ↔
    disk.share.has p = true ∨ (p = Layout.firstOf m f + i ∧ r.2 = .ok true)
  has_of_ok : ∀ b, r.2 = .ok b → r.1.share.has (Layout.firstOf m f + i) = true
  holds : r.2 = .ok true → HoldsPiece S B T r.1.fs f entry i
  genuine : Genuine S B T m disk →
    (late = true → disk.share.has (Layout.firstOf m f + i) = true → ∃ b, r.2 = .ok b) →
    Genuine S B T m r.1
  accepts : disk.share.verifies B (Layout.firstOf m f + i) encoded = true →
    ((disk.share.has (Layout.firstOf m f + i) = false ∨ late = true) →
      CanWrite S T disk env f entry i) → ∃ b, r.2 = .ok b

/-- Bytes that verify are a proof of the piece. -/
lemma exists_proof_of_verifies (hd : IsDownload T m disk.share) (hf : m.files[f]? = some entry)
    (hi : i < entry.pieces)
    (h : disk.share.verifies B (Layout.firstOf m f + i) encoded = true) :
    ∃ load d, ProvesBlock B.hasher load entry.rootHash entry.size i d ∧
      B.decode entry.rootHash entry.size (i * blockSize) (pieceEnd entry.size i) encoded =
        (proofItems load entry.size i d, true) := by
  rw [LocalShare.verifies, hd.layout_eq, Layout.locate_eq hf hi, hd.manifest_eq] at h
  simp only [hf] at h
  obtain ⟨load, d, hproves, hitems⟩ := B.decode_done entry.rootHash entry.size i encoded hi h
  exact ⟨load, d, hproves, Prod.ext hitems h⟩

/-- Only a piece that was marked is not stored again. -/
lemma has_of_storePiece_false {piece : ℕ}
    (h : (LocalShare.storePiece S B env disk piece encoded).2 = .ok false) :
    disk.share.has piece = true := by
  by_contra hhas
  rw [LocalShare.storePiece, if_neg hhas] at h
  split at h
  · cases h
  · split at h
    · dsimp only at h
      split_ifs at h
      split at h
      · exact orError_error_ne_ok h
      · split at h
        · exact orError_error_ne_ok h
        · split at h
          · cases h
          · cases h
    · cases h

/-- A task that sees whether the piece is marked. -/
lemma races_alone (hvalid : m.validate toLowercase = .ok ()) (hd : IsDownload T m disk.share)
    (hf : m.files[f]? = some entry) (hi : i < entry.pieces) :
    Races S B T m disk f entry i env late encoded
      (LocalShare.storePiece S B env disk (Layout.firstOf m f + i) encoded) := by
  have hspec := storePiece_spec S B encoded env hd hf hi
  obtain ⟨r, hr⟩ : ∃ r, LocalShare.storePiece S B env disk (Layout.firstOf m f + i) encoded = r :=
    ⟨_, rfl⟩
  have hhad : r.2 = .ok false → disk.share.has (Layout.firstOf m f + i) = true := fun h =>
    has_of_storePiece_false (hr ▸ h)
  rw [hr] at hspec ⊢
  have hiff : ∀ p, r.1.share.has p = true ↔
      disk.share.has p = true ∨ (p = Layout.firstOf m f + i ∧ r.2 = .ok true) := by
    intro p
    by_cases hok : r.2 = .ok true
    · rw [(hspec.accepted hok).has_iff]
      simp [hok, or_comm]
    · rw [hspec.refused hok]
      simp [hok]
  refine ⟨hspec.isDownload hd hf, hiff, fun b hb => ?_, fun hok => ?_,
    fun hg _ => hspec.genuine hvalid hf hi hg, fun hver hwrite => ?_⟩
  · rw [hiff]
    cases b with
    | true => exact .inr ⟨rfl, hb⟩
    | false => exact .inl (hhad hb)
  · obtain ⟨load, d, -, hproves, hstored, -, -⟩ := (hspec.accepted hok).learns
    exact Stores.holdsPiece ⟨d, hstored, hproves⟩
  · cases hhas : disk.share.has (Layout.firstOf m f + i) with
    | true => exact ⟨false, by rw [hspec.had hhas]⟩
    | false =>
      obtain ⟨load, d, hproves, hdecode⟩ := exists_proof_of_verifies hd hf hi hver
      have hw := hwrite (.inl hhas)
      obtain ⟨hopens, handle, hopen⟩ := hw.opens
      exact ⟨true, hspec.accepts load d handle hhas hproves hdecode hopen hopens hw.calm hw.offset⟩

/-- The marks of other pieces, and their bytes, are genuine. -/
lemma Genuine.setHeld {p : ℕ} (h : Genuine S B T m disk) :
    Genuine S B T m (disk.setHeld p false) := by
  intro f entry i hf hi hhas
  by_cases hp : Layout.firstOf m f + i = p
  · subst hp
    rw [LocalShare.has, Disk.setHeld, List.getElem?_set_self'] at hhas
    cases hget : disk.share.held[Layout.firstOf m f + i]? with
    | none => simp [hget] at hhas
    | some b => simp [hget] at hhas
  · rw [Disk.has_setHeld_of_ne hp] at hhas
    exact h f entry i hf hi hhas

/-- A task that is late writes the piece again. -/
lemma races_late (hvalid : m.validate toLowercase = .ok ()) (hd : IsDownload T m disk.share)
    (hf : m.files[f]? = some entry) (hi : i < entry.pieces)
    (hhas : disk.share.has (Layout.firstOf m f + i) = true) {r : Disk Master Hash × Result Bool}
    (hr : LocalShare.storePiece S B env (disk.setHeld (Layout.firstOf m f + i) false)
      (Layout.firstOf m f + i) encoded = r) :
    Races S B T m disk f entry i env true encoded
      (r.1.setHeld (Layout.firstOf m f + i) true, r.2) := by
  have hd' : IsDownload T m (disk.setHeld (Layout.firstOf m f + i) false).share :=
    Disk.isDownload_setHeld hd
  have hlt : Layout.firstOf m f + i < disk.share.held.length := by
    rw [hd.held_length]
    exact Layout.firstOf_add_lt hf hi
  have hnot := Disk.has_setHeld_self (b := false) hlt
  have hspec := storePiece_spec S B encoded env hd' hf hi
  rw [hr] at hspec
  have hdone := hspec.isDownload hd' hf
  have hlt' : Layout.firstOf m f + i < r.1.share.held.length := by
    rw [hdone.held_length]
    exact Layout.firstOf_add_lt hf hi
  have hself := Disk.has_setHeld_self (b := true) hlt'
  -- the marks of the other pieces are as before
  have hother : ∀ p, p ≠ Layout.firstOf m f + i → (r.1.share.has p = true ↔
      disk.share.has p = true) := by
    intro p hp
    have hne : (disk.setHeld (Layout.firstOf m f + i) false).share.has p = disk.share.has p :=
      Disk.has_setHeld_of_ne hp
    rw [← hne]
    by_cases hok : r.2 = .ok true
    · rw [(hspec.accepted hok).has_iff]
      simp [hp]
    · rw [hspec.refused hok]
  refine ⟨Disk.isDownload_setHeld hdone, fun p => ?_, fun _ _ => hself, fun hok => ?_,
    fun hg hclean => ?_, fun hver hwrite => ?_⟩
  · by_cases hp : p = Layout.firstOf m f + i
    · subst hp
      simp [hself, hhas]
    · rw [Disk.has_setHeld_of_ne hp, hother p hp]
      simp [hp]
  · obtain ⟨load, d, -, hproves, hstored, -, -⟩ := (hspec.accepted hok).learns
    exact Stores.holdsPiece ⟨d, hstored, hproves⟩
  · obtain ⟨b, hb⟩ := hclean rfl hhas
    obtain rfl : b = true := by
      cases b with
      | true => rfl
      | false =>
        have := has_of_storePiece_false (by rw [hr]; exact hb)
        rw [hnot] at this
        cases this
    have hg' := hspec.genuine hvalid hf hi hg.setHeld
    intro f' entry' j hf' hj hp
    refine hg' f' entry' j hf' hj ?_
    by_cases hsame : Layout.firstOf m f' + j = Layout.firstOf m f + i
    · rw [hsame, (hspec.accepted hb).has_iff]
      exact .inl rfl
    · rwa [Disk.has_setHeld_of_ne hsame] at hp
  · obtain ⟨load, d, hproves, hdecode⟩ := exists_proof_of_verifies hd hf hi hver
    have hw := hwrite (.inr rfl)
    obtain ⟨hopens, handle, hopen⟩ := hw.opens
    exact ⟨true, hspec.accepts load d handle hnot hproves hdecode hopen hopens hw.calm hw.offset⟩

variable (S B encoded env late) in
lemma storeRacing_spec (hvalid : m.validate toLowercase = .ok ()) (hd : IsDownload T m disk.share)
    (hf : m.files[f]? = some entry) (hi : i < entry.pieces) :
    Races S B T m disk f entry i env late encoded
      (LocalShare.storeRacing S B env late disk (Layout.firstOf m f + i) encoded) := by
  rw [LocalShare.storeRacing]
  split_ifs with h
  · obtain ⟨rfl, hhas⟩ := Bool.and_eq_true_iff.1 h
    exact races_late hvalid hd hf hi hhas rfl
  · exact races_alone hvalid hd hf hi

end Chorrent
