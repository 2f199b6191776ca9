/-
# The bytes of a store file

`Represents` ties the bytes of a store file to a flat file: every slot is unwritten or a
sealing of its piece.  What a handle reads from such a file, piece by piece, is what the
flat file holds; a strict handle refuses the pieces that were never written.
-/
import Chorrent.Storage.Blocks

namespace Chorrent

open Lib Bytes

variable {Master Key : Type} {S : StoreKeys Master Key}

/-- The bytes of a store file hold a flat file under a salt: a slot is either unwritten, and
the piece all zeros, or a sealing of the piece. -/
structure Represents (S : StoreKeys Master Key) (master : Master) (salt : Bytes) (size : ℕ)
    (file : Bytes) (flat : Flat) : Prop where
  length_flat : flat.bytes.length = size
  length_file : file.length = headerSize + blockCount size * slotSize
  length_lt : file.length < 2 ^ 64
  header : file.slice 0 headerSize = magic ++ salt
  unwritten : ∀ i, i * blockSize < size → i ∉ flat.written →
    (slotBytes file size i).take nonceSize = zeros nonceSize ∧
      flat.piece i = zeros (pieceLen size i)
  written : ∀ i, i * blockSize < size → i ∈ flat.written →
    ∃ nonce : Nonce, slotBytes file size i =
      nonce.bytes ++ S.cipher.encrypt (S.fileKey master salt) nonce.bytes (pieceAad i)
        (flat.piece i)

variable {master : Master} {salt : Bytes} {size : ℕ} {file : Bytes} {flat : Flat}

namespace Represents

lemma slotPos_le (hr : Represents S master salt size file flat) {i : ℕ}
    (hi : i * blockSize < size) : slotPos i + slotSize ≤ file.length := by
  have hcount := lt_blockCount.2 hi
  have := Nat.mul_le_mul_right slotSize (show i + 1 ≤ blockCount size from hcount)
  rw [Nat.add_mul, Nat.one_mul] at this
  rw [hr.length_file, slotPos]
  omega

lemma size_lt (hr : Represents S master salt size file flat) : size < 2 ^ 64 :=
  size_lt_of_fits (hr.length_file ▸ hr.length_lt)

lemma length_piece (hr : Represents S master salt size file flat) (i : ℕ) :
    (flat.piece i).length = pieceLen size i := by
  rw [Flat.length_piece, hr.length_flat, pieceLen, Nat.min_comm]

end Represents

/-! ## Reading -/

/-- A handle of the file: it has the file's key and size. -/
def HandleOf (S : StoreKeys Master Key) (master : Master) (salt : Bytes) (size : ℕ)
    (h : Encrypted Key) : Prop :=
  h.key = S.fileKey master salt ∧ h.size = size

variable {h : Encrypted Key}

lemma openSlot_eq (hr : Represents S master salt size file flat)
    (hh : HandleOf S master salt size h)
    {i : ℕ} (hi : i * blockSize < size) :
    (i ∈ flat.written → h.openSlot S.cipher file i = .ok (some (flat.piece i))) ∧
      (i ∉ flat.written → h.openSlot S.cipher file i = .ok none) := by
  obtain ⟨hkey, hsize⟩ := hh
  have hslot := hr.slotPos_le hi
  have hlen := slot_length_le size i
  have hopen := openSlot_eq_slot S.cipher file (hsize ▸ hr.size_lt) (hsize ▸ hi)
    (show slotPos i < 2 ^ 64 by have := hr.length_lt; omega)
  rw [hopen, hsize]
  constructor
  · intro hw
    obtain ⟨nonce, heq⟩ := hr.written i hi hw
    have htake : (slotBytes file size i).take nonceSize = nonce.bytes := by
      rw [heq, List.take_left' nonce.length_eq]
    have hdrop : (slotBytes file size i).drop nonceSize =
        S.cipher.encrypt (S.fileKey master salt) nonce.bytes (pieceAad i) (flat.piece i) := by
      rw [heq, List.drop_left' nonce.length_eq]
    rw [htake, hdrop, if_pos ⟨by omega, nonce.nonzero⟩, hkey, Aead.decrypt_encrypt]
  · intro hw
    rw [(hr.unwritten i hi hw).1, if_neg]
    rintro ⟨-, hnonzero⟩
    exact absurd hnonzero (by decide)

/-- Reading a piece: the piece, except that a strict handle refuses an unwritten one. -/
lemma readBlock_eq (hr : Represents S master salt size file flat)
    (hh : HandleOf S master salt size h)
    {i : ℕ} (hi : i * blockSize < size) :
    ((h.strict = true → i ∈ flat.written) → h.readBlock S.cipher file i = .ok (flat.piece i)) ∧
      (h.strict = true → i ∉ flat.written →
        h.readBlock S.cipher file i = .error (.fail .invalidData)) := by
  obtain ⟨hwritten, hunwritten⟩ := openSlot_eq hr hh hi
  rw [Encrypted.readBlock]
  by_cases hw : i ∈ flat.written
  · rw [hwritten hw]
    exact ⟨fun _ => rfl, fun _ hnot => absurd hw hnot⟩
  · rw [hunwritten hw]
    have hlen := blockLen_eq (hh.2 ▸ hr.size_lt) (hh.2 ▸ hi)
    rw [hh.2] at hlen
    constructor
    · intro hstrict
      have : h.strict = false := Bool.eq_false_iff.2 fun hs => hw (hstrict hs)
      simp only [bind, Except.bind, this, hlen, (hr.unwritten i hi hw).2]
      rfl
    · intro hs _
      simp only [bind, Except.bind, hs]
      rfl

/-- A handle of the file reads every piece of the flat file, except that a strict one refuses
those that were never written. -/
lemma Represents.readsBlocks (hr : Represents S master salt size file flat)
    (hh : HandleOf S master salt size h) :
    ReadsBlocks S.cipher h file flat.bytes fun i => h.strict = true → i ∈ flat.written where
  length_eq := hr.length_flat.trans hh.2.symm
  good i hi hw := (readBlock_eq hr hh (hh.2 ▸ hi)).1 hw
  bad i hi hnot := by
    have hs : h.strict = true := by
      by_contra hs
      exact hnot fun hs' => absurd hs' hs
    exact (readBlock_eq hr hh (hh.2 ▸ hi)).2 hs fun hmem => hnot fun _ => hmem

end Chorrent
