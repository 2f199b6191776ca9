/-
# The bytes stored for a piece

What a file holds for piece `i`: the bytes at its place in a plain file, or what its slot
opens to in a file of the encrypted store, whatever else the file contains.  Writing one
piece sets it and leaves the stored bytes of all other pieces alone, also when the write fails
halfway.
-/
import Chorrent.Storage.Blocks

namespace Chorrent

open Lib Bytes

variable {Master Key : Type}

/-- The bytes stored for piece `i` of a file of the given size. -/
def Handle.pieceAt (C : Aead Key tagSize) (size i : ℕ) (file : Bytes) : Handle Key → Option Bytes
  | .plain =>
      if i * blockSize + pieceLen size i ≤ file.length then
        some (file.slice (i * blockSize) (pieceLen size i))
      else none
  | .encrypted h =>
      match h.openSlot C file i with
      | .ok opened => opened
      | .error _ => none

/-- The same for a file that is opened for it. -/
def FileData.pieceAt (S : StoreKeys Master Key) (data : FileData Master) (size i : ℕ)
    (file : Option Bytes) : Option Bytes :=
  match data.openWith S false false file with
  | .ok handle => handle.pieceAt S.cipher size i (file.getD [])
  | .error _ => none

/-- The stored bytes, read in full. -/
def FileData.Holds (S : StoreKeys Master Key) (data : FileData Master) (size : ℕ)
    (file content : Bytes) : Prop :=
  ∃ handle, data.openWith S false true (some file) = .ok handle ∧
    handle.readExactAt S.cipher file 0 size = .ok content

/-- A file of the encrypted store is declared with this size. -/
def FileData.Sized (size : ℕ) : FileData Master → Prop
  | .plain _ => True
  | .encrypted _ _ declared => declared = size

/-- Two open files of one kind, with one key and size. -/
inductive Handle.Alike : Handle Key → Handle Key → Prop
  | plain : Alike .plain .plain
  | encrypted {key : Key} {size : ℕ} {strict write strict' write' : Bool} :
      Alike (.encrypted ⟨key, size, strict, write⟩) (.encrypted ⟨key, size, strict', write'⟩)

/-- A slot opens to the same whatever else the file is open for. -/
lemma openSlot_congr {h h' : Encrypted Key} (hkey : h.key = h'.key) (hsize : h.size = h'.size)
    (C : Aead Key tagSize) (file : Bytes) (i : ℕ) : h.openSlot C file i = h'.openSlot C file i := by
  rw [Encrypted.openSlot, Encrypted.openSlot, Encrypted.blockLen, Encrypted.blockLen, hkey, hsize]

lemma pieceAt_encrypted_of_eq {C : Aead Key tagSize} {h h' : Encrypted Key} {file : Bytes} {i : ℕ}
    (hopen : h.openSlot C file i = h'.openSlot C file i) (size : ℕ) :
    (Handle.encrypted h).pieceAt C size i file = (Handle.encrypted h').pieceAt C size i file := by
  rw [Handle.pieceAt, Handle.pieceAt, hopen]

lemma Handle.Alike.pieceAt_eq {h h' : Handle Key} (halike : h.Alike h') (C : Aead Key tagSize)
    (size i : ℕ) (file : Bytes) : h.pieceAt C size i file = h'.pieceAt C size i file := by
  cases halike with
  | plain => rfl
  | @encrypted key declared strict write strict' write' =>
    have hopen : (⟨key, declared, strict, write⟩ : Encrypted Key).openSlot C file i =
        (⟨key, declared, strict', write'⟩ : Encrypted Key).openSlot C file i :=
      openSlot_congr rfl rfl C file i
    exact pieceAt_encrypted_of_eq hopen size

variable {S : StoreKeys Master Key} {data : FileData Master} {size i j : ℕ} {file d : Bytes}
  {handle : Handle Key}

/-- A file that opens in some way opens in every way. -/
lemma FileData.openWith_alike {write strict : Bool} {file : Option Bytes}
    (h : data.openWith S write strict file = .ok handle) (write' strict' : Bool) :
    ∃ handle', data.openWith S write' strict' file = .ok handle' ∧ handle.Alike handle' := by
  cases file with
  | none => cases h
  | some file =>
    cases data with
    | plain path =>
      obtain rfl : Handle.plain = handle := Except.ok.inj h
      exact ⟨.plain, rfl, .plain⟩
    | encrypted path key size =>
      simp only [FileData.openWith] at h ⊢
      rcases openEncrypted_cases S key size write strict file with
        ⟨hopen, hlen, hmagic⟩ | ⟨e, hopen⟩
      · rw [hopen] at h
        obtain rfl := Except.ok.inj h
        rcases openEncrypted_cases S key size write' strict' file with ⟨hopen', -⟩ | ⟨e, hopen'⟩
        · exact ⟨_, by rw [hopen']; rfl, .encrypted⟩
        · rw [hopen' write strict] at hopen
          cases hopen
      · rw [hopen] at h
        cases h

lemma FileData.pieceAt_eq {write strict : Bool}
    (h : data.openWith S write strict (some file) = .ok handle) (size i : ℕ) :
    data.pieceAt S size i (some file) = handle.pieceAt S.cipher size i file := by
  obtain ⟨handle', h', halike⟩ := FileData.openWith_alike h false false
  rw [FileData.pieceAt, h']
  exact (halike.pieceAt_eq S.cipher size i file).symm

/-- A file that holds a piece is there and opens. -/
lemma openWith_of_pieceAt {bytes : Option Bytes} (h : data.pieceAt S size i bytes = some d) :
    ∃ file handle, bytes = some file ∧ data.openWith S false false bytes = .ok handle := by
  rw [FileData.pieceAt] at h
  cases hopen : data.openWith S false false bytes with
  | error e =>
    rw [hopen] at h
    cases h
  | ok handle =>
    cases bytes with
    | none => cases hopen
    | some file => exact ⟨file, handle, rfl, rfl⟩

lemma pieceAt_plain_eq_some {path : Path} :
    FileData.pieceAt S (.plain path) size i (some file) = some d ↔
      i * blockSize + pieceLen size i ≤ file.length ∧
        file.slice (i * blockSize) (pieceLen size i) = d := by
  simp [FileData.pieceAt, FileData.openWith, Handle.pieceAt]

lemma openWith_encrypted {path : Path} {key : Master} {write strict : Bool}
    (h : (FileData.encrypted path key size).openWith S write strict (some file) = .ok handle) :
    handle = .encrypted ⟨S.fileKey key (headerSalt file), size, strict, write⟩ ∧
      headerSize ≤ file.length := by
  simp only [FileData.openWith] at h
  rcases openEncrypted_cases S key size write strict file with ⟨hopen, hlen, -⟩ | ⟨e, hopen⟩
  · rw [hopen] at h
    exact ⟨(Except.ok.inj h).symm, hlen⟩
  · rw [hopen] at h
    cases h

lemma Handle.pieceAt_encrypted_eq_some {C : Aead Key tagSize} {h : Encrypted Key} {size' : ℕ} :
    Handle.pieceAt C size' i file (.encrypted h) = some d ↔ h.openSlot C file i = .ok (some d) := by
  rw [Handle.pieceAt]
  cases h.openSlot C file i <;> simp

lemma slotStart_eq_ok {p : ℕ} (h : slotStart i = .ok p) : p = slotPos i ∧ slotPos i < 2 ^ 64 := by
  obtain ⟨slots, hslots, hadd⟩ := orPanic_bind_eq_ok.1 h
  obtain ⟨hlt, rfl⟩ := checkedMul_eq_some.1 hslots
  cases hsum : checkedAdd 64 headerSize (i * slotSize) with
  | none =>
    rw [hsum] at hadd
    cases hadd
  | some q =>
    obtain ⟨hlt', rfl⟩ := checkedAdd_eq_some.1 hsum
    rw [hsum] at hadd
    exact ⟨(Except.ok.inj hadd).symm, hlt'⟩

/-- A slot that opens is inside the file. -/
lemma openSlot_eq_some {C : Aead Key tagSize} {h : Encrypted Key} (hsize : h.size < 2 ^ 64)
    (hi : i * blockSize < h.size) :
    h.openSlot C file i = .ok (some d) ↔ slotPos i < 2 ^ 64 ∧
      slotPos i + (nonceSize + pieceLen h.size i + tagSize) ≤ file.length ∧
      ((slotBytes file h.size i).take nonceSize).all (· == 0) = false ∧
      C.decrypt h.key ((slotBytes file h.size i).take nonceSize) (pieceAad i)
        ((slotBytes file h.size i).drop nonceSize) = some d := by
  by_cases hslot : slotPos i < 2 ^ 64
  · rw [openSlot_eq_slot C file hsize hi hslot, Except.ok.injEq]
    simp only [hslot, true_and]
    split_ifs with hcond
    · simp only [hcond, true_and]
    · simp only [false_iff]
      exact fun hall => hcond ⟨hall.1, hall.2.1⟩
  · simp only [hslot, false_and, iff_false]
    intro hopen
    rw [Encrypted.openSlot, blockLen_eq hsize hi, ok_bind] at hopen
    cases hstart : slotStart i with
    | error e =>
      rw [hstart] at hopen
      cases hopen
    | ok p => exact hslot (slotStart_eq_ok hstart).2

/-- What a slot opens to has the length of the piece. -/
lemma length_of_openSlot {C : Aead Key tagSize} {h : Encrypted Key} (hsize : h.size < 2 ^ 64)
    (hi : i * blockSize < h.size) (hopen : h.openSlot C file i = .ok (some d)) :
    d.length = pieceLen h.size i := by
  obtain ⟨-, hin, -, hdec⟩ := (openSlot_eq_some hsize hi).1 hopen
  have hlen := C.length_of_decrypt hdec
  rw [List.length_drop, slotBytes, length_slice] at hlen
  simp only [nonceSize, tagSize] at hin hlen
  omega

/-! ## Writing a piece -/

/-- `write_at` with at least as many bytes as there are in the piece, from its start on. -/
lemma writeAt_of_blockLen {C : Aead Key tagSize} {h : Encrypted Key} {env : WriteEnv} {pos len : ℕ}
    {buf : Bytes} (hpos : ¬ (pos ≥ h.size ∨ buf = [])) (hindex : pos / blockSize = i)
    (hwithin : pos % blockSize = 0) (hlen : h.blockLen i = .ok len) (hbuf : len ≤ buf.length) :
    h.writeAt C env file pos buf =
      ((h.writeBlock C env file i (buf.take len)).1,
        (h.writeBlock C env file i (buf.take len)).2.map fun _ => len) := by
  rw [Encrypted.writeAt, if_neg hpos, hindex, hwithin]
  simp only
  rw [hlen]
  -- how a slot is written does not matter here
  generalize h.writeBlock C env file = write
  simp only
  rw [checkedSub_of_le (Nat.zero_le _), Nat.sub_zero]
  simp only
  rw [Nat.min_eq_right hbuf, if_pos ⟨trivial, rfl⟩]

lemma writeAt_piece {C : Aead Key tagSize} {h : Encrypted Key} (hsize : h.size < 2 ^ 64)
    (hi : i * blockSize < h.size) {buf : Bytes} (hbuf : pieceLen h.size i ≤ buf.length)
    (env : WriteEnv) (file : Bytes) :
    h.writeAt C env file (i * blockSize) buf =
      ((h.writeBlock C env file i (buf.take (pieceLen h.size i))).1,
        (h.writeBlock C env file i (buf.take (pieceLen h.size i))).2.map
          fun _ => pieceLen h.size i) := by
  have hpos := pieceLen_pos hi
  have hne : buf ≠ [] := List.ne_nil_of_length_pos (by omega)
  exact writeAt_of_blockLen (by simp [hne]; omega) (Nat.mul_div_cancel i (by decide))
    (Nat.mul_mod_left i blockSize) (blockLen_eq hsize hi) hbuf

/-- Writing a whole piece through a handle of the encrypted store seals it into its slot. -/
lemma writeAllAt_piece {C : Aead Key tagSize} {h : Encrypted Key} (hsize : h.size < 2 ^ 64)
    (hi : i * blockSize < h.size) (hd : d.length = pieceLen h.size i) (env : ℕ → WriteEnv) :
    h.writeAllAt C env file (i * blockSize) d = h.writeBlock C (env 0) file i d := by
  have hpos := pieceLen_pos hi
  have hne : d ≠ [] := List.ne_nil_of_length_pos (by omega)
  have hone := writeAt_piece (C := C) hsize hi hd.ge (env 0) file
  rw [← hd, List.take_length] at hone
  obtain ⟨b, buf, rfl⟩ := List.exists_cons_of_ne_nil hne
  rw [Encrypted.writeAllAt, List.length_cons, Encrypted.writeAllLoop, hone]
  obtain ⟨file', r⟩ := h.writeBlock C (env 0) file i (b :: buf)
  cases r with
  | error e => rfl
  | ok u =>
    simp only [Except.map]
    rw [if_neg (by simp), List.drop_length]
    cases buf.length <;> rfl

/-- What writing one piece does: the other pieces stay, and the piece is there if the write
succeeds. -/
structure WritesPiece (S : StoreKeys Master Key) (data : FileData Master) (handle : Handle Key)
    (size i : ℕ) (d file : Bytes) (env : WriteEnv) (r : Bytes × IoResult Unit) : Prop where
  opens : data.openWith S true false (some r.1) = .ok handle
  others : ∀ j, j ≠ i → j * blockSize < size → ∀ x,
    data.pieceAt S size j (some file) = some x → data.pieceAt S size j (some r.1) = some x
  stored : r.2 = .ok () → data.pieceAt S size i (some r.1) = some d
  succeeds : env.fault = none → slotPos i < 2 ^ 64 → r.2 = .ok ()

/-- Two pieces do not overlap. -/
lemma piece_disjoint (size : ℕ) (hij : j ≠ i) :
    j * blockSize + pieceLen size j ≤ i * blockSize ∨
      i * blockSize + pieceLen size i ≤ j * blockSize := by
  have hlen : ∀ k, k * blockSize + pieceLen size k ≤ (k + 1) * blockSize := fun k => by
    rw [Nat.add_mul, Nat.one_mul]
    exact Nat.add_le_add_left (min_le_right _ _) _
  rcases Nat.lt_or_gt_of_ne hij with hlt | hgt
  · exact Or.inl ((hlen j).trans (Nat.mul_le_mul_right blockSize hlt))
  · exact Or.inr ((hlen i).trans (Nat.mul_le_mul_right blockSize hgt))

lemma writesPiece_plain (S : StoreKeys Master Key) (path : Path) {env : WriteEnv}
    (hi : i * blockSize < size) (hd : d.length = pieceLen size i) :
    WritesPiece S (.plain path) .plain size i d file env
      (writeAllAt file (i * blockSize) d env.fault) := by
  have hothers : ∀ bs : Bytes, bs.length ≤ d.length → ∀ j, j ≠ i → j * blockSize < size → ∀ x,
      FileData.pieceAt S (.plain path) size j (some file) = some x →
      FileData.pieceAt S (.plain path) size j (some (file.overwrite (i * blockSize) bs)) =
        some x := by
    intro bs hbs j hij _ x hx
    obtain ⟨hin, hslice⟩ := pieceAt_plain_eq_some.1 hx
    have hle := le_length_overwrite file (i * blockSize) bs
    have hdisjoint := piece_disjoint size hij
    refine pieceAt_plain_eq_some.2 ⟨by omega, ?_⟩
    rw [slice_overwrite_of_le bs hin (by omega), hslice]
  cases hfault : env.fault with
  | none =>
    refine ⟨rfl, hothers d le_rfl, fun _ => pieceAt_plain_eq_some.2 ⟨?_, ?_⟩, fun _ _ => rfl⟩
    · have hne : d ≠ [] := List.ne_nil_of_length_pos (by rw [hd]; exact pieceLen_pos hi)
      rw [writeAllAt, length_overwrite _ _ hne, hd]
      exact le_max_right _ _
    · rw [writeAllAt, ← hd, slice_overwrite_self]
  | some k =>
    refine ⟨rfl, hothers _ (by simp), fun hok => ?_, fun hnone => ?_⟩
    · cases hok
    · rw [hfault] at hnone
      cases hnone

/-- Overwriting (part of) a slot leaves the header and the other slots. -/
lemma overwrite_slot_frame {key : Master} {path : Path} {write strict : Bool}
    (hopen : (FileData.encrypted path key size).openWith S write strict (some file) = .ok handle)
    (hsize : size < 2 ^ 64) (bs : Bytes) (hbs : bs.length ≤ nonceSize + pieceLen size i + tagSize) :
    (FileData.encrypted path key size).openWith S write strict
        (some (file.overwrite (slotPos i) bs)) = .ok handle ∧
      ∀ j, j ≠ i → j * blockSize < size → ∀ x,
        (FileData.encrypted path key size).pieceAt S size j (some file) = some x →
        (FileData.encrypted path key size).pieceAt S size j
          (some (file.overwrite (slotPos i) bs)) = some x := by
  obtain ⟨rfl, hlen⟩ := openWith_encrypted hopen
  have hle := le_length_overwrite file (slotPos i) bs
  have hheader : (file.overwrite (slotPos i) bs).slice 0 headerSize = file.slice 0 headerSize :=
    slice_overwrite_of_le bs (by omega) (Or.inl (by rw [slotPos]; omega))
  have hopen' : (FileData.encrypted path key size).openWith S write strict
      (some (file.overwrite (slotPos i) bs)) =
        .ok (.encrypted ⟨S.fileKey key (headerSalt file), size, strict, write⟩) := by
    have hread : ∀ f : Bytes, headerSize ≤ f.length →
        readExactAt f 0 headerSize = .ok (f.slice 0 headerSize) := fun f hf =>
      if_pos (Or.inr (by omega))
    rw [← hopen]
    simp only [FileData.openWith, openEncrypted, hread _ hlen, hread _ (hlen.trans hle), hheader]
  refine ⟨hopen', fun j hij hj x hx => ?_⟩
  rw [FileData.pieceAt_eq hopen, Handle.pieceAt_encrypted_eq_some, openSlot_eq_some hsize hj] at hx
  rw [FileData.pieceAt_eq hopen', Handle.pieceAt_encrypted_eq_some, openSlot_eq_some hsize hj]
  obtain ⟨hlt, hin, hslot⟩ := hx
  have hbound : ∀ k, nonceSize + pieceLen size k + tagSize ≤ slotSize := slot_length_le size
  have hsame : slotBytes (file.overwrite (slotPos i) bs) size j = slotBytes file size j := by
    refine slice_overwrite_of_le bs hin ?_
    have hboundi := hbound i
    have hboundj := hbound j
    rcases Nat.lt_or_gt_of_ne hij with hlt' | hgt
    · have := slotPos_add_le hlt'
      omega
    · have := slotPos_add_le hgt
      omega
  simp only at hin hslot ⊢
  rw [hsame]
  exact ⟨hlt, by omega, hslot⟩

lemma writesPiece_encrypted {key : Master} {path : Path} {env : WriteEnv} {h : Encrypted Key}
    (hopen : (FileData.encrypted path key size).openWith S true false (some file) =
      .ok (.encrypted h))
    (hsize : size < 2 ^ 64) (hi : i * blockSize < size) (hd : d.length = pieceLen size i) :
    WritesPiece S (.encrypted path key size) (.encrypted h) size i d file env
      (h.writeBlock S.cipher env file i d) := by
  have hhandle := (openWith_encrypted hopen).1
  obtain rfl := (Handle.encrypted.inj hhandle)
  set slot := env.nonce.bytes ++ S.cipher.encrypt (S.fileKey key (headerSalt file))
    env.nonce.bytes (pieceAad i) d with hslotdef
  have hslotlen : slot.length = nonceSize + pieceLen size i + tagSize := by
    rw [hslotdef, List.length_append, env.nonce.length_eq, S.cipher.length_encrypt, hd]
    omega
  rw [Encrypted.writeBlock, if_pos rfl]
  cases hstart : slotStart i with
  | error e =>
    refine ⟨hopen, fun j _ _ x hx => hx, fun hok => ?_, fun _ hlt => ?_⟩
    · cases hok
    · rw [slotStart_eq hlt] at hstart
      cases hstart
  | ok p =>
    obtain ⟨rfl, hlt⟩ := slotStart_eq_ok hstart
    simp only
    cases hfault : env.fault with
    | none =>
      obtain ⟨hopen', hothers⟩ := overwrite_slot_frame (i := i) hopen hsize slot hslotlen.le
      refine ⟨hopen', hothers, fun _ => ?_, fun _ _ => rfl⟩
      have hne : slot ≠ [] := List.ne_nil_of_length_pos (by
        rw [hslotlen]
        simp only [nonceSize]
        omega)
      have hself : slotBytes (file.overwrite (slotPos i) slot) size i = slot := by
        rw [slotBytes, ← hslotlen, slice_overwrite_self]
      show FileData.pieceAt S _ size i (some (file.overwrite (slotPos i) slot)) = some d
      rw [FileData.pieceAt_eq hopen', Handle.pieceAt_encrypted_eq_some, openSlot_eq_some hsize hi]
      refine ⟨hlt, ?_, ?_, ?_⟩
      · rw [length_overwrite _ _ hne, ← hslotlen]
        exact le_max_right _ _
      · rw [hself, hslotdef, List.take_left' env.nonce.length_eq, env.nonce.nonzero]
      · rw [hself, hslotdef, List.take_left' env.nonce.length_eq,
          List.drop_left' env.nonce.length_eq, S.cipher.decrypt_encrypt]
    | some k =>
      -- only the first bytes of the slot are written, which may leave it unreadable
      obtain ⟨hopen', hothers⟩ := overwrite_slot_frame (i := i) hopen hsize
        (slot.take k) (by rw [List.length_take]; omega)
      refine ⟨hopen', hothers, fun hok => ?_, fun hnone => ?_⟩
      · cases hok
      · rw [hfault] at hnone
        cases hnone

/-- Writing a piece through a handle of either kind. -/
lemma writesPiece (hopen : data.openWith S true false (some file) = .ok handle)
    (hsized : data.Sized size) (hsize : size < 2 ^ 64) (hi : i * blockSize < size)
    (hd : d.length = pieceLen size i) (env : ℕ → WriteEnv) :
    WritesPiece S data handle size i d file (env 0)
      (handle.writeAllAt S.cipher env file (i * blockSize) d) := by
  cases data with
  | plain path =>
    obtain rfl : Handle.plain = handle := Except.ok.inj hopen
    exact writesPiece_plain S path hi hd
  | encrypted path key declared =>
    obtain rfl : declared = size := hsized
    obtain ⟨rfl, -⟩ := openWith_encrypted hopen
    rw [Handle.writeAllAt, writeAllAt_piece hsize hi hd]
    exact writesPiece_encrypted hopen hsize hi hd

end Chorrent
