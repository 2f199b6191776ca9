/-
# Writing runs of pieces

A file that is stored from its start on, some whole pieces at a time.  Each run is there once
its write succeeded, and what was stored before stays; a write that fails is not made again.
-/
import Chorrent.Storage.Pieces

namespace Chorrent

open Lib Bytes

variable {Master Key : Type} {S : StoreKeys Master Key} {size : ℕ} {file existing bytes : Bytes}

/-- A write that fails is not made again, and does not panic if the slots are in range. -/
def Refused (fits : Prop) (r : IoResult Unit) : Prop :=
  ∀ e, r = .error e → e ≠ .fail .interrupted ∧ (fits → e ≠ .panic)

/-- The store has room for a file of this size. -/
def FitsStore (size : ℕ) : Prop := headerSize + blockCount size * slotSize < 2 ^ 64

lemma refused_ok (fits : Prop) : Refused fits (.ok ()) := by
  intro e he
  cases he

lemma refused_fail (fits : Prop) {e : IoError} (h : e ≠ .interrupted) :
    Refused fits (.error (.fail e)) := by
  intro e' he
  obtain rfl := Except.error.inj he
  exact ⟨fun heq => h (Stop.fail.inj heq), by simp⟩

lemma refused_writeAllAt (fits : Prop) (pos : ℕ) (fault : Option ℕ) :
    Refused fits (Chorrent.writeAllAt file pos bytes fault).2 := by
  cases fault with
  | none => exact refused_ok fits
  | some k => exact refused_fail fits (by decide)

lemma slotStart_eq_error {i : ℕ} {e : Stop IoError} (h : slotStart i = .error e) : e = .panic := by
  rw [slotStart] at h
  cases hmul : checkedMul 64 i slotSize with
  | none =>
    rw [hmul] at h
    cases h
    rfl
  | some slots =>
    cases hadd : checkedAdd 64 headerSize slots with
    | none =>
      rw [hmul, orPanic_some_bind, hadd] at h
      cases h
      rfl
    | some p =>
      rw [hmul, orPanic_some_bind, hadd] at h
      cases h

lemma refused_writeBlock {C : Aead Key tagSize} {h : Encrypted Key} {i : ℕ}
    (hi : i * blockSize < h.size) (env : WriteEnv) (d : Bytes) :
    Refused (FitsStore h.size) (h.writeBlock C env file i d).2 := by
  rw [Encrypted.writeBlock]
  split_ifs
  · cases hstart : slotStart i with
    | error e =>
      intro e' he
      obtain rfl := Except.error.inj he
      obtain rfl := slotStart_eq_error hstart
      refine ⟨by simp, fun hfits => ?_⟩
      rw [slotStart_eq (slotPos_lt_of_fits hfits hi)] at hstart
      cases hstart
    | ok p => exact refused_writeAllAt _ _ _
  · exact refused_fail _ (by decide)

lemma writeAllLoop_nil {Key : Type} {C : Aead Key tagSize} {h : Encrypted Key} (fuel : ℕ)
    (env : ℕ → WriteEnv) (file : Bytes) (pos : ℕ) :
    h.writeAllLoop C fuel env file pos [] = (file, .ok ()) := by
  cases fuel <;> rfl

/-- What writing a run of pieces to a file of the encrypted store does: the pieces before it
stay, and those of the run are there if the write succeeds. -/
structure WritesRun (S : StoreKeys Master Key) (data : FileData Master) (handle : Handle Key)
    (size i : ℕ) (buf file : Bytes) (r : Bytes × IoResult Unit) : Prop where
  opens : data.openWith S true false (some r.1) = .ok handle
  before : ∀ j < i, j * blockSize < size → ∀ x,
    data.pieceAt S size j (some file) = some x → data.pieceAt S size j (some r.1) = some x
  stored : r.2 = .ok () → ∀ j, i ≤ j → j * blockSize < i * blockSize + buf.length →
    data.pieceAt S size j (some r.1) = some (buf.slice ((j - i) * blockSize) blockSize)
  refused : Refused (FitsStore size) r.2

lemma writesRun {path : Path} {key : Master} {h : Encrypted Key} (hsize : size < 2 ^ 64) :
    ∀ fuel (buf : Bytes) i (env : ℕ → WriteEnv) (file : Bytes), buf.length ≤ fuel →
      i * blockSize + buf.length ≤ size →
      (blockSize ∣ buf.length ∨ i * blockSize + buf.length = size) →
      (FileData.encrypted path key size).openWith S true false (some file) = .ok (.encrypted h) →
      WritesRun S (.encrypted path key size) (.encrypted h) size i buf file
        (h.writeAllLoop S.cipher fuel env file (i * blockSize) buf) := by
  intro fuel
  induction fuel with
  | zero =>
    intro buf i env file hbuf _ _ hopen
    obtain rfl : buf = [] := List.eq_nil_of_length_eq_zero (by omega)
    rw [Encrypted.writeAllLoop]
    refine ⟨hopen, fun _ _ _ _ hx => hx, fun _ j hij hj => ?_, refused_ok _⟩
    have := Nat.mul_le_mul_right blockSize hij
    simp only [List.length_nil] at hj
    omega
  | succ fuel ih =>
    intro buf i env file hbuf hin hrun hopen
    rcases buf with _ | ⟨b, bs⟩
    · rw [Encrypted.writeAllLoop]
      refine ⟨hopen, fun _ _ _ _ hx => hx, fun _ j hij hj => ?_, refused_ok _⟩
      have := Nat.mul_le_mul_right blockSize hij
      simp only [List.length_nil] at hj
      omega
    obtain ⟨buf, hdef⟩ : ∃ buf : Bytes, buf = b :: bs := ⟨_, rfl⟩
    have hpos : 0 < buf.length := by simp [hdef]
    rw [← hdef] at hbuf hin hrun ⊢
    have hi : i * blockSize < size := by omega
    -- the run starts with a piece that it fills
    obtain ⟨len, hlen⟩ : ∃ len, len = pieceLen size i := ⟨_, rfl⟩
    have hlenpos : 0 < len := hlen ▸ pieceLen_pos hi
    have hlenle : len ≤ buf.length := by
      rw [hlen, pieceLen]
      rcases hrun with hdvd | hend
      · exact (min_le_right _ _).trans (Nat.le_of_dvd hpos hdvd)
      · omega
    have htake : (buf.take len).length = pieceLen size i :=
      by rw [List.length_take_of_le hlenle, hlen]
    have hpiece : WritesPiece S (.encrypted path key size) (.encrypted h) size i (buf.take len) file
        (env 0) _ := writesPiece_encrypted hopen hsize hi htake
    have hhsize : h.size = size := by
      rw [Handle.encrypted.inj (openWith_encrypted hopen).1]
    have hrefused : Refused (FitsStore h.size)
        (h.writeBlock S.cipher (env 0) file i (buf.take len)).2 :=
      refused_writeBlock (hhsize.symm ▸ hi) _ _
    have hwrite := writeAt_piece (C := S.cipher) (hhsize.symm ▸ hsize) (hhsize.symm ▸ hi)
      (by rw [hhsize, ← hlen]; exact hlenle) (env 0) file
    rw [hhsize, ← hlen] at hwrite
    rw [hhsize] at hrefused
    generalize h.writeBlock S.cipher (env 0) file i (buf.take len) = first at hpiece hrefused hwrite
    obtain ⟨file₁, r₁⟩ := first
    rw [hdef, Encrypted.writeAllLoop, ← hdef, hwrite]
    cases r₁ with
    | error e =>
      exact ⟨hpiece.opens, fun j hj hjs => hpiece.others j hj.ne hjs,
        (fun hok => by cases hok), fun e' he' => hrefused e' he'⟩
    | ok u =>
      have hstored := hpiece.stored rfl
      simp only [Except.map, if_neg hlenpos.ne']
      by_cases hlast : buf.drop len = []
      · rw [hlast, writeAllLoop_nil]
        have hbuflen : buf.length ≤ len := List.drop_eq_nil_iff.1 hlast
        refine ⟨hpiece.opens, fun j hj hjs => hpiece.others j hj.ne hjs, fun _ j hij hj => ?_,
          refused_ok _⟩
        -- the run was the last piece of the file
        have hlenblock : len ≤ blockSize := hlen ▸ min_le_right _ _
        have hji : j = i := by
          refine le_antisymm
            (Nat.lt_succ_iff.1 (lt_of_mul_lt_mul_right ?_ (Nat.zero_le blockSize))) hij
          rw [Nat.succ_mul]
          omega
        rw [hji, Nat.sub_self, Nat.zero_mul, slice, List.drop_zero,
          List.take_of_length_le (hbuflen.trans hlenblock)]
        rwa [List.take_of_length_le hbuflen] at hstored
      · have hblock : len = blockSize := by
          rw [List.drop_eq_nil_iff] at hlast
          rw [hlen, pieceLen] at hlast ⊢
          omega
        rw [hblock] at hlast hstored ⊢
        have hnext : i * blockSize + blockSize = (i + 1) * blockSize := by
          rw [Nat.add_mul, Nat.one_mul]
        have hrest : (buf.drop blockSize).length = buf.length - blockSize := List.length_drop
        have hlt : blockSize < buf.length := by
          rw [List.drop_eq_nil_iff] at hlast
          omega
        have hrun' : blockSize ∣ (buf.drop blockSize).length ∨
            (i + 1) * blockSize + (buf.drop blockSize).length = size := by
          rw [hrest, ← hnext]
          exact hrun.imp (fun hdvd => Nat.dvd_sub hdvd (dvd_refl _)) fun hend => by omega
        rw [hnext]
        have htail := ih (buf.drop blockSize) (i + 1) (fun k => env (k + 1)) file₁ (by omega)
          (by omega) hrun' hpiece.opens
        refine ⟨htail.opens, fun j hj hjs x hx => ?_, fun hok j hij hj => ?_, htail.refused⟩
        · exact htail.before j (by omega) hjs x (hpiece.others j hj.ne hjs x hx)
        · rcases hij.eq_or_lt with rfl | hlt'
          · rw [Nat.sub_self, Nat.zero_mul, slice, List.drop_zero]
            exact htail.before i (Nat.lt_succ_self i) hi _ hstored
          · rw [htail.stored hok j hlt' (by omega), slice, slice, List.drop_drop]
            congr 3
            rw [Nat.sub_mul, Nat.sub_mul, ← hnext]
            have := Nat.mul_le_mul_right blockSize (show i + 1 ≤ j from hlt')
            omega

/-- The bytes are what a destination holds from its start on: an ordinary file has them before
whatever else it had, a file of the encrypted store has their pieces. -/
def FileData.Starts (S : StoreKeys Master Key) (data : FileData Master) (size : ℕ)
    (existing file bytes : Bytes) : Prop :=
  match data with
  | .plain _ => file = bytes ++ existing.drop bytes.length
  | .encrypted _ _ _ => ∀ i, i * blockSize < bytes.length →
      data.pieceAt S size i (some file) = some (bytes.slice (i * blockSize) blockSize)

/-- Writing behind the bytes that a file starts with. -/
lemma overwrite_behind (bytes chunk existing : Bytes) :
    overwrite (bytes ++ existing.drop bytes.length) bytes.length chunk =
      bytes ++ chunk ++ existing.drop (bytes ++ chunk).length := by
  rw [List.length_append]
  by_cases hchunk : chunk = []
  · rw [hchunk, overwrite_nil, List.append_nil, List.length_nil, Nat.add_zero]
  · rw [overwrite, if_neg hchunk, List.take_left, List.length_append,
      Nat.sub_eq_zero_of_le (Nat.le_add_right _ _), List.drop_append, Nat.add_sub_cancel_left,
      List.drop_of_length_le (Nat.le_add_right _ _), List.nil_append, List.drop_drop, zeros,
      List.replicate_zero, List.append_nil]

/-- Writing a run of pieces behind the bytes that a destination holds. -/
lemma starts_writeAllAt {data : FileData Master} {handle : Handle Key} (hsized : data.Sized size)
    (hsize : size < 2 ^ 64) (hopen : data.openWith S true false (some file) = .ok handle)
    (hstarts : data.Starts S size existing file bytes) (hdvd : blockSize ∣ bytes.length)
    (chunk : Bytes) (hin : bytes.length + chunk.length ≤ size)
    (hrun : blockSize ∣ chunk.length ∨ bytes.length + chunk.length = size)
    (env : ℕ → WriteEnv) :
    data.openWith S true false
        (some (handle.writeAllAt S.cipher env file bytes.length chunk).1) = .ok handle ∧
      ((handle.writeAllAt S.cipher env file bytes.length chunk).2 = .ok () →
        data.Starts S size existing (handle.writeAllAt S.cipher env file bytes.length chunk).1
          (bytes ++ chunk)) ∧
      Refused (data.isEncrypted = true → FitsStore size)
        (handle.writeAllAt S.cipher env file bytes.length chunk).2 := by
  cases data with
  | plain path =>
    obtain rfl : Handle.plain = handle := Except.ok.inj hopen
    refine ⟨rfl, fun hok => ?_, refused_writeAllAt _ _ _⟩
    obtain rfl : file = bytes ++ existing.drop bytes.length := hstarts
    rw [Handle.writeAllAt] at hok ⊢
    cases hfault : (env 0).fault with
    | some k =>
      rw [hfault] at hok
      cases hok
    | none =>
      exact overwrite_behind bytes chunk existing
  | encrypted path key declared =>
    obtain rfl : declared = size := hsized
    obtain ⟨i, hi⟩ := hdvd
    rw [Nat.mul_comm] at hi
    obtain ⟨rfl, -⟩ := openWith_encrypted hopen
    rw [hi] at hin hrun ⊢
    have hwrites := writesRun hsize chunk.length chunk i env file le_rfl hin hrun hopen
    refine ⟨hwrites.opens, fun hok j hj => ?_, fun e he => ?_⟩
    · rw [List.length_append, hi] at hj
      by_cases hji : j < i
      · have hlt := Nat.mul_le_mul_right blockSize (show j + 1 ≤ i from hji)
        rw [Nat.add_mul, Nat.one_mul] at hlt
        have hpos : 0 < blockSize := by decide
        rw [slice, List.drop_append_of_le_length (by omega), List.take_append_of_le_length
          (by rw [List.length_drop]; omega)]
        exact hwrites.before j hji (by omega) _ (hstarts j (by omega))
      · have hle := Nat.mul_le_mul_right blockSize (not_lt.1 hji)
        rw [slice, List.drop_append, List.drop_of_length_le (by omega), List.nil_append, hi,
          ← Nat.sub_mul]
        exact hwrites.stored hok j (not_lt.1 hji) (by omega)
    · exact ⟨(hwrites.refused e he).1, fun hfits => (hwrites.refused e he).2 (hfits rfl)⟩

end Chorrent
