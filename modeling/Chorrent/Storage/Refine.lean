/-
# The encrypted store refines the flat file

Each write of a handle does to the bytes of the store file what the flat file's write does
to the represented array, so any sequence of writes is a run of the flat file.
-/
import Chorrent.Lib.Run
import Chorrent.Storage.Represents

namespace Chorrent

open Lib Bytes

variable {Master Key : Type} {S : StoreKeys Master Key} {master : Master} {salt : Bytes}
  {size : ℕ} {file : Bytes} {flat : Flat} {h : Encrypted Key}

/-! ## One slot -/

/-- Sealing a new text of piece `i` into its slot. -/
lemma Represents.setSlot (hr : Represents S master salt size file flat) {i : ℕ}
    (hi : i * blockSize < size) (nonce : Nonce) {flat' : Flat}
    (hlen : flat'.bytes.length = flat.bytes.length)
    (hothers : ∀ j, j ≠ i → flat'.piece j = flat.piece j)
    (hwritten : ∀ j, j ∈ flat'.written ↔ j ∈ flat.written ∨ j = i) :
    Represents S master salt size (file.overwrite (slotPos i) (nonce.bytes ++
      S.cipher.encrypt (S.fileKey master salt) nonce.bytes (pieceAad i) (flat'.piece i)))
        flat' := by
  set slot := nonce.bytes ++
    S.cipher.encrypt (S.fileKey master salt) nonce.bytes (pieceAad i) (flat'.piece i) with hslot
  have hslotLen : slot.length = nonceSize + pieceLen size i + tagSize := by
    rw [hslot, List.length_append, nonce.length_eq, Aead.length_encrypt, Flat.length_piece, hlen,
      hr.length_flat, pieceLen, Nat.min_comm blockSize]
    omega
  have hroom := hr.slotPos_le hi
  have hbound := slot_length_le size i
  have hsame : (file.overwrite (slotPos i) slot).length = file.length :=
    length_overwrite_of_le (by omega)
  -- the other slots and the header are out of the range written
  have hother : ∀ j, j ≠ i → slotBytes (file.overwrite (slotPos i) slot) size j =
      slotBytes file size j := by
    intro j hj
    have hjbound := slot_length_le size j
    refine slice_overwrite_of_disjoint (by omega) ?_
    rcases Nat.lt_or_gt_of_ne hj with hlt | hgt
    · have := slotPos_add_le hlt
      omega
    · have := slotPos_add_le hgt
      omega
  refine ⟨hlen.trans hr.length_flat, hsame.trans hr.length_file, hsame ▸ hr.length_lt, ?_, ?_, ?_⟩
  · rw [slice_overwrite_of_disjoint (by omega) (Or.inl (by simp [slotPos])), hr.header]
  · intro j hj hjw
    have hji : j ≠ i := fun heq => hjw ((hwritten j).2 (Or.inr heq))
    rw [hother j hji, hothers j hji]
    exact hr.unwritten j hj fun hw => hjw ((hwritten j).2 (Or.inl hw))
  · intro j hj hjw
    by_cases hji : j = i
    · subst hji
      refine ⟨nonce, ?_⟩
      rw [slotBytes, ← hslotLen, slice_overwrite_self]
    · rw [hother j hji, hothers j hji]
      exact hr.written j hj (((hwritten j).1 hjw).resolve_right hji)

/-- The slots of other pieces keep their bytes. -/
def KeepsSlots (pos n : ℕ) (file file' : Bytes) : Prop :=
  ∀ j, ¬ Touched pos n j → file'.slice (slotPos j) slotSize = file.slice (slotPos j) slotSize

lemma keepsSlots_overwrite {i pos n : ℕ} {slot : Bytes} (hi : Touched pos n i)
    (hpos : slotPos i ≤ file.length) (hlen : slot.length ≤ slotSize) :
    KeepsSlots pos n file (file.overwrite (slotPos i) slot) := by
  intro j hj
  refine slice_overwrite_of_disjoint hpos ?_
  have hji : j ≠ i := fun heq => hj (heq ▸ hi)
  rcases Nat.lt_or_gt_of_ne hji with hlt | hgt
  · have := slotPos_add_le hlt
    omega
  · have := slotPos_add_le hgt
    omega

/-! ## Writing -/

/-- A handle that may write, as `open(true)` gives. -/
def WritableHandle (S : StoreKeys Master Key) (master : Master) (salt : Bytes) (size : ℕ)
    (h : Encrypted Key) : Prop :=
  HandleOf S master salt size h ∧ h.write = true ∧ h.strict = false

lemma writeBlock_eq (hr : Represents S master salt size file flat)
    (hh : WritableHandle S master salt size h) {i : ℕ} (hi : i * blockSize < size)
    (nonce : Nonce) (plain : Bytes) :
    h.writeBlock S.cipher ⟨nonce, none⟩ file i plain =
      (file.overwrite (slotPos i) (nonce.bytes ++
        S.cipher.encrypt (S.fileKey master salt) nonce.bytes (pieceAad i) plain), .ok ()) := by
  have hslot := hr.slotPos_le hi
  have hlt := hr.length_lt
  rw [Encrypted.writeBlock, if_pos hh.2.1, slotStart_eq (by omega), hh.1.1]
  rfl

/-- How many bytes `write_at` writes: up to the end of the piece. -/
def writeLen (size pos n : ℕ) : ℕ := min n (pieceLen size (pos / blockSize) - pos % blockSize)

lemma writeLen_pos {pos n : ℕ} (hpos : pos < size) (hn : 0 < n) :
    0 < writeLen size pos n ∧ pos % blockSize + writeLen size pos n ≤ blockSize ∧
      pos + writeLen size pos n ≤ size := by
  have hdiv := div_mul_blockSize_add_mod pos
  have hmod := mod_blockSize_lt pos
  simp only [writeLen, pieceLen]
  omega

/-- `write_at` inside the file writes up to the end of the piece, and nothing else changes. -/
lemma writeAt_eq (hr : Represents S master salt size file flat)
    (hh : WritableHandle S master salt size h) {pos : ℕ} {buf : Bytes} (hpos : pos < size)
    (hbuf : buf ≠ []) (nonce : Nonce) :
    ∃ file', h.writeAt S.cipher ⟨nonce, none⟩ file pos buf =
        (file', .ok (writeLen size pos buf.length)) ∧
      Represents S master salt size file'
        (flat.write pos (buf.take (writeLen size pos buf.length))) ∧
      KeepsSlots pos buf.length file file' := by
  have hdiv := div_mul_blockSize_add_mod pos
  have hmod := mod_blockSize_lt pos
  have hi : pos / blockSize * blockSize < size := by omega
  have hlenpos : 0 < buf.length := List.length_pos_iff.2 hbuf
  obtain ⟨hn, hblock, hin⟩ := writeLen_pos hpos hlenpos
  obtain ⟨n, hndef⟩ : ∃ n, n = writeLen size pos buf.length := ⟨_, rfl⟩
  rw [← hndef] at hn hblock hin ⊢
  have hnbuf : n ≤ buf.length := hndef ▸ min_le_left _ _
  have htake : (buf.take n).length = n := List.length_take_of_le hnbuf
  have hmin : min n (flat.bytes.length - pos) = n := by rw [hr.length_flat]; omega
  have hle : pos % blockSize + n ≤ pieceLen size (pos / blockSize) :=
    le_pieceLen.2 ⟨by omega, hblock⟩
  have hpieceLen := pieceLen_le_sub size (pos / blockSize)
  -- the flat write replaces piece `pos / blockSize`
  have htouched : ∀ j, Touched pos (min (buf.take n).length (flat.bytes.length - pos)) j ↔
      j = pos / blockSize := fun j => by rw [htake, hmin]; exact touched_iff_eq hn hblock
  have hpiece : (flat.write pos (buf.take n)).piece (pos / blockSize) =
      (flat.piece (pos / blockSize)).overwrite (pos % blockSize) (buf.take n) := by
    have hwithin : pos - pos / blockSize * blockSize = pos % blockSize := by omega
    rw [Flat.piece, Flat.piece, slice_blockSize (by simp [hr.length_flat] : _ = size),
      slice_blockSize hr.length_flat,
      Flat.write, List.take_of_length_le (by rw [htake, hr.length_flat]; omega),
      slice_overwrite_of_subset (by omega) (by rw [htake]; omega)
        (by rw [hr.length_flat]; omega), hwithin]
  have hset := hr.setSlot hi nonce (flat.length_write pos (buf.take n))
    (fun j hj => Flat.piece_write_of_not_touched fun ht => hj ((htouched j).1 ht))
    (fun j => by rw [Flat.write, Set.mem_union, Set.mem_ofPred_eq, htouched])
  rw [hpiece] at hset
  have hslotLen : (nonce.bytes ++ S.cipher.encrypt (S.fileKey master salt) nonce.bytes
      (pieceAad (pos / blockSize)) ((flat.piece (pos / blockSize)).overwrite (pos % blockSize)
        (buf.take n))).length ≤ slotSize := by
    rw [List.length_append, nonce.length_eq, Aead.length_encrypt, ← hpiece, Flat.length_piece]
    rw [slotSize, Nat.add_assoc]
    exact Nat.add_le_add_left (Nat.add_le_add_right (min_le_left _ _) _) _
  refine ⟨_, ?_, hset, keepsSlots_overwrite ?_ ?_ hslotLen⟩
  · have hsub : pos % blockSize ≤ pieceLen size (pos / blockSize) := by omega
    rw [Encrypted.writeAt, if_neg (by rw [hh.1.2]; simp [hbuf]; omega)]
    have hlen := blockLen_eq (hh.1.2 ▸ hr.size_lt) (hh.1.2 ▸ hi)
    rw [hh.1.2] at hlen
    simp only [hlen, checkedSub_of_le hsub]
    rw [show min buf.length (pieceLen size (pos / blockSize) - pos % blockSize) = n from hndef.symm]
    split_ifs with hwhole
    · -- the whole piece is written at once
      have hall : (flat.piece (pos / blockSize)).overwrite (pos % blockSize) (buf.take n) =
          buf.take n := by
        rw [hwhole.1, overwrite_all (by rw [htake, hr.length_piece, hwhole.2])]
      rw [writeBlock_eq hr hh hi, hall]
      rfl
    · have hread := (readBlock_eq hr hh.1 hi).1 fun hs => absurd hs (by simp [hh.2.2])
      rw [hread]
      simp only
      rw [if_pos (by rw [hr.length_piece]; omega), writeBlock_eq hr hh hi]
      rfl
  · exact ⟨by rw [Nat.add_mul, Nat.one_mul]; omega, by omega, hlenpos⟩
  · have := hr.slotPos_le hi
    omega

/-- What a calm environment is: the operating system does not fail. -/
def calm (nonces : ℕ → Nonce) (k : ℕ) : WriteEnv := ⟨nonces k, none⟩

lemma KeepsSlots.trans {file₁ file₂ file₃ : Bytes} {pos n pos₁ n₁ pos₂ n₂ : ℕ}
    (h₁ : KeepsSlots pos₁ n₁ file₁ file₂) (h₂ : KeepsSlots pos₂ n₂ file₂ file₃)
    (hsub₁ : ∀ i, Touched pos₁ n₁ i → Touched pos n i)
    (hsub₂ : ∀ i, Touched pos₂ n₂ i → Touched pos n i) : KeepsSlots pos n file₁ file₃ := by
  intro j hj
  rw [h₂ j fun ht => hj (hsub₂ j ht), h₁ j fun ht => hj (hsub₁ j ht)]

/-- `write_all_at` writes the part of the buffer that lies inside the file, and fails when
that is not all of it. -/
lemma writeAllLoop_eq (hh : WritableHandle S master salt size h) : ∀ (fuel : ℕ) (buf : Bytes),
    buf.length ≤ fuel → ∀ (nonces : ℕ → Nonce) (file : Bytes) (flat : Flat) (pos : ℕ),
    Represents S master salt size file flat →
    ∃ file', h.writeAllLoop S.cipher fuel (calm nonces) file pos buf =
        (file',
          if buf = [] ∨ pos + buf.length ≤ size then .ok () else .error (.fail .invalidInput)) ∧
      Represents S master salt size file' (flat.write pos buf) ∧
      KeepsSlots pos buf.length file file' := by
  intro fuel
  induction fuel with
  | zero =>
    intro buf hbuf nonces file flat pos hr
    obtain rfl : buf = [] := List.eq_nil_of_length_eq_zero (by omega)
    exact ⟨file, by simp [Encrypted.writeAllLoop], by rwa [Flat.write_nil], fun _ _ => rfl⟩
  | succ fuel ih =>
    intro buf hbuf nonces file flat pos hr
    rcases buf with _ | ⟨b, bs⟩
    · exact ⟨file, by simp [Encrypted.writeAllLoop], by rwa [Flat.write_nil], fun _ _ => rfl⟩
    obtain ⟨buf, hdef⟩ : ∃ buf, buf = b :: bs := ⟨_, rfl⟩
    have hne : buf ≠ [] := by simp [hdef]
    have hlenpos : 0 < buf.length := List.length_pos_iff.2 hne
    rw [← hdef] at hbuf ⊢
    by_cases hpos : pos < size
    · obtain ⟨file₁, hwrite, hr₁, hkeep₁⟩ := writeAt_eq hr hh hpos hne (nonces 0)
      obtain ⟨hn, hblock, hin⟩ := writeLen_pos hpos hlenpos
      obtain ⟨n, hndef⟩ : ∃ n, n = writeLen size pos buf.length := ⟨_, rfl⟩
      rw [← hndef] at hwrite hr₁ hn hblock hin
      have hnbuf : n ≤ buf.length := hndef ▸ min_le_left _ _
      have htake : (buf.take n).length = n := List.length_take_of_le hnbuf
      obtain ⟨file₂, hloop, hr₂, hkeep₂⟩ := ih (buf.drop n) (by simp; omega)
        (fun k => nonces (k + 1)) file₁ _ (pos + n) hr₁
      refine ⟨file₂, ?_, ?_, hkeep₁.trans hkeep₂ (fun _ ht => ht) ?_⟩
      · have hround : h.writeAllLoop S.cipher (fuel + 1) (calm nonces) file pos buf =
            h.writeAllLoop S.cipher fuel (calm fun k => nonces (k + 1)) file₁ (pos + n)
              (buf.drop n) := by
          have hzero : calm nonces 0 = ⟨nonces 0, none⟩ := rfl
          rw [hdef, Encrypted.writeAllLoop, ← hdef, hzero, hwrite]
          simp only [if_neg (show ¬ n = 0 by omega)]
          rfl
        rw [hround, hloop]
        congr 1
        have hcond : (buf.drop n = [] ∨ pos + n + (buf.drop n).length ≤ size) ↔
            (buf = [] ∨ pos + buf.length ≤ size) := by
          simp only [List.drop_eq_nil_iff, List.length_drop, hne, false_or]
          omega
        simp only [hcond]
      · -- two writes next to each other are one
        have hsplit := Flat.write_write (buf.take n) (buf.drop n)
          (show pos + (buf.take n).length ≤ flat.bytes.length by rw [htake, hr.length_flat]; omega)
        rw [htake, List.take_append_drop] at hsplit
        rwa [← hsplit]
      · intro i ht
        simp only [Touched, List.length_drop] at ht ⊢
        omega
    · refine ⟨file, ?_, ?_, fun _ _ => rfl⟩
      · have hfail : h.writeAt S.cipher (calm nonces 0) file pos buf =
            (file, .error (.fail .invalidInput)) := by
          rw [Encrypted.writeAt, if_pos (Or.inl (by rw [hh.1.2]; omega))]
        rw [hdef, Encrypted.writeAllLoop, ← hdef, hfail, if_neg (by simp [hne]; omega)]
      · rwa [Flat.write_of_ge (by rw [hr.length_flat]; omega)]

/-! ## Sequences of writes -/

/-- A write through a handle, with the random nonces it draws. -/
inductive WriteOp where
  | writeAt (nonces : ℕ → Nonce) (pos : ℕ) (buf : Bytes)
  | writeAllAt (nonces : ℕ → Nonce) (pos : ℕ) (buf : Bytes)

def WriteOp.pos : WriteOp → ℕ
  | .writeAt _ pos _ | .writeAllAt _ pos _ => pos

def WriteOp.buf : WriteOp → Bytes
  | .writeAt _ _ buf | .writeAllAt _ _ buf => buf

/-- Perform a write on the bytes of the store file; the result is how much was written. -/
def WriteOp.exec (C : Aead Key tagSize) (h : Encrypted Key) (file : Bytes) :
    WriteOp → Bytes × IoResult ℕ
  | .writeAt nonces pos buf => h.writeAt C (calm nonces 0) file pos buf
  | .writeAllAt nonces pos buf =>
      let (file, r) := h.writeAllAt C (calm nonces) file pos buf
      (file, r.map fun _ => buf.length)

/-- Perform a write on a plain array: `write_at` stops at the end of a piece or of the file,
`write_all_at` at the end of the file, where it fails. -/
def Flat.exec (flat : Flat) : WriteOp → Flat × IoResult ℕ
  | .writeAt _ pos buf =>
      if pos ≥ flat.bytes.length ∨ buf = [] then (flat, .error (.fail .invalidInput))
      else
        let n := writeLen flat.bytes.length pos buf.length
        (flat.write pos (buf.take n), .ok n)
  | .writeAllAt _ pos buf =>
      (flat.write pos buf,
        if buf = [] ∨ pos + buf.length ≤ flat.bytes.length then .ok buf.length
        else .error (.fail .invalidInput))

lemma exec_eq (hr : Represents S master salt size file flat)
    (hh : WritableHandle S master salt size h) (op : WriteOp) :
    ∃ file', op.exec S.cipher h file = (file', (flat.exec op).2) ∧
      Represents S master salt size file' (flat.exec op).1 ∧
      KeepsSlots op.pos op.buf.length file file' := by
  cases op with
  | writeAt nonces pos buf =>
    by_cases hcond : pos ≥ flat.bytes.length ∨ buf = []
    · refine ⟨file, ?_, ?_, fun _ _ => rfl⟩
      · rw [WriteOp.exec, Encrypted.writeAt, if_pos (by rwa [hh.1.2, ← hr.length_flat]), Flat.exec,
          if_pos hcond]
      · rwa [Flat.exec, if_pos hcond]
    · simp only [not_or, not_le, ge_iff_le, hr.length_flat] at hcond
      obtain ⟨file', heq, hr', hkeep⟩ := writeAt_eq hr hh hcond.1 hcond.2 (nonces 0)
      rw [Flat.exec, if_neg (by simp [hr.length_flat, hcond]), hr.length_flat]
      exact ⟨file', heq, hr', hkeep⟩
  | writeAllAt nonces pos buf =>
    obtain ⟨file', heq, hr', hkeep⟩ :=
      writeAllLoop_eq hh buf.length buf le_rfl nonces file flat pos hr
    refine ⟨file', ?_, hr', hkeep⟩
    rw [WriteOp.exec, Encrypted.writeAllAt, heq, Flat.exec, hr.length_flat]
    split_ifs <;> rfl

/-- One write through the handle and its result. -/
def WriteStep (C : Aead Key tagSize) (h : Encrypted Key) (file : Bytes)
    (e : WriteOp × IoResult ℕ) (file' : Bytes) : Prop :=
  e.1.exec C h file = (file', e.2)

/-- One write of the flat file and its result. -/
def Flat.Step (flat : Flat) (e : WriteOp × IoResult ℕ) (flat' : Flat) : Prop :=
  flat.exec e.1 = (flat', e.2)

/-- Every run of writes on a store file is a run of the flat file with the same results. -/
lemma represents_of_run (hh : WritableHandle S master salt size h) {file' : Bytes}
    {events : List (WriteOp × IoResult ℕ)} (hr : Represents S master salt size file flat)
    (hrun : Run (WriteStep S.cipher h) file events file') :
    ∃ flat', Run Flat.Step flat events flat' ∧ Represents S master salt size file' flat' := by
  refine hrun.simulation (R := fun file flat => Represents S master salt size file flat) ?_ hr
  rintro file ⟨op, result⟩ file' flat hr hstep
  obtain ⟨file'', heq, hr', -⟩ := exec_eq hr hh op
  obtain ⟨rfl, hresult⟩ := Prod.mk.inj (heq.symm.trans hstep)
  exact ⟨(flat.exec op).1, Prod.ext rfl hresult, hr'⟩

/-! ## The start -/

/-- A new file stands for the array of zeros. -/
lemma represents_preallocate (S : StoreKeys Master Key) (master : Master) {existing : Option Bytes}
    (hsalt : salt.length = saltSize) (hfresh : ∀ f ∈ existing, f.length < headerSize)
    (hpre : preallocateEncrypted salt size existing = .ok file) :
    Represents S master salt size file (Flat.zero size) := by
  have hcreate : preallocateEncrypted salt size existing =
      preallocateEncrypted.create salt size := by
    rcases existing with _ | f
    · rfl
    · have := hfresh f rfl
      simp [preallocateEncrypted, show ¬ headerSize ≤ f.length by omega]
  -- the length of the new file fits into a 64-bit integer, or nothing would have been created
  obtain ⟨hlt, hfile⟩ : headerSize + blockCount size * slotSize < 2 ^ 64 ∧
      (magic ++ salt).setLen (headerSize + blockCount size * slotSize) = file := by
    rw [hcreate, preallocateEncrypted.create] at hpre
    obtain ⟨slots, hslots, hpre⟩ := orPanic_bind_eq_ok.1 hpre
    obtain ⟨len, hlen, hpre⟩ := orPanic_bind_eq_ok.1 hpre
    obtain ⟨-, rfl⟩ := checkedMul_eq_some.1 hslots
    obtain ⟨hlt, rfl⟩ := checkedAdd_eq_some.1 hlen
    exact ⟨hlt, Except.ok.inj hpre⟩
  have hheader : (magic ++ salt).length = headerSize := by
    rw [List.length_append, hsalt]
    rfl
  have hsplit : file = (magic ++ salt) ++ zeros (blockCount size * slotSize) := by
    rw [← hfile, setLen, List.take_of_length_le (by omega), hheader, Nat.add_sub_cancel_left]
  refine ⟨by simp [Flat.zero], by simp [← hfile], by simpa [← hfile], ?_, ?_, ?_⟩
  · rw [hsplit, slice, List.drop_zero, List.take_left' hheader]
  · intro i hi _
    have hroom : slotPos i + slotSize ≤ headerSize + blockCount size * slotSize := by
      have := Nat.mul_le_mul_right slotSize (show i + 1 ≤ blockCount size from lt_blockCount.2 hi)
      rw [Nat.add_mul, Nat.one_mul] at this
      rw [slotPos]
      omega
    have hbound := slot_length_le size i
    have hslot : slotBytes file size i = zeros (nonceSize + pieceLen size i + tagSize) := by
      have hpos : slotPos i = (magic ++ salt).length + i * slotSize := by rw [hheader, slotPos]
      rw [slotBytes, hsplit, slice, hpos, ← List.drop_drop, List.drop_left]
      refine slice_zeros ?_
      simp only [slotPos] at hroom
      omega
    refine ⟨?_, ?_⟩
    · rw [hslot, zeros, List.take_replicate, zeros]
      congr 1
      exact min_eq_left (by omega)
    · rw [Flat.piece, Flat.zero, slice, zeros, List.drop_replicate, List.take_replicate, zeros,
        pieceLen, Nat.min_comm]
  · intro i _ hw
    exact absurd hw (Set.notMem_empty i)

/-- Whatever handle is opened on the file, it has the file's key. -/
lemma openEncrypted_eq (hr : Represents S master salt size file flat) (write strict : Bool) :
    openEncrypted S master size write strict file =
      .ok ⟨S.fileKey master salt, size, strict, write⟩ := by
  have hread : readExactAt file 0 headerSize = .ok (magic ++ salt) := by
    rw [readExactAt, if_pos (by rw [hr.length_file]; omega), hr.header]
  rw [openEncrypted, hread]
  rfl

end Chorrent
