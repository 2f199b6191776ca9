/-
# Reading piece by piece

The loops of a handle on a store file, for any handle each of whose pieces can either be
read, and then holds certain bytes, or is refused: a range is returned when all the pieces
it touches can be read, and is an error (never a panic) otherwise.
-/
import Chorrent.Storage.Flat

namespace Chorrent

open Lib Bytes

variable {Master Key : Type} {C : Aead Key tagSize} {h : Encrypted Key} {file content : Bytes}
  {readable : ℕ → Prop}

/-! ## Opening a file and a slot -/

/-- The salt in the header of a file. -/
def headerSalt (file : Bytes) : Bytes := (file.slice 0 headerSize).drop magic.length

/-- Opening a store file: refused unless the header is there. -/
lemma openEncrypted_cases (S : StoreKeys Master Key) (master : Master) (size : ℕ)
    (write strict : Bool) (file : Bytes) :
    (openEncrypted S master size write strict file =
        .ok ⟨S.fileKey master (headerSalt file), size, strict, write⟩ ∧
      headerSize ≤ file.length ∧ (file.slice 0 headerSize).take magic.length = magic) ∨
      ∃ e, ∀ write strict, openEncrypted S master size write strict file = .error (.fail e) := by
  by_cases hlen : 0 + headerSize ≤ file.length
  · have hread : readExactAt file 0 headerSize = .ok (file.slice 0 headerSize) :=
      if_pos (Or.inr hlen)
    simp only [openEncrypted, hread, bind, Except.bind]
    by_cases hmagic : (file.slice 0 headerSize).take magic.length = magic
    · rw [if_neg (not_not.2 hmagic)]
      exact Or.inl ⟨rfl, by omega, hmagic⟩
    · refine Or.inr ⟨.invalidData, fun _ _ => ?_⟩
      rw [if_pos hmagic]
      rfl
  · have hread : readExactAt file 0 headerSize = .error (.fail .unexpectedEof) :=
      if_neg (by simp only [headerSize] at hlen ⊢; omega)
    simp only [openEncrypted, hread]
    exact Or.inr ⟨.unexpectedEof, fun _ _ => rfl⟩

lemma blockLen_eq (hsize : h.size < 2 ^ 64) {i : ℕ} (hi : i * blockSize < h.size) :
    h.blockLen i = .ok (pieceLen h.size i) := by
  rw [Encrypted.blockLen, checkedMul_of_lt (hi.trans hsize), orPanic_some_bind,
    checkedSub_of_le hi.le, orPanic_some_bind]
  rfl

/-- The contents of slot `i` of a file: nonce, sealed piece and tag. -/
def slotBytes (file : Bytes) (size i : ℕ) : Bytes :=
  file.slice (slotPos i) (nonceSize + pieceLen size i + tagSize)

/-- Opening a slot: it must be there, its nonce not all zeros, and what follows must decrypt. -/
lemma openSlot_eq_slot (C : Aead Key tagSize) (file : Bytes) (hsize : h.size < 2 ^ 64) {i : ℕ}
    (hi : i * blockSize < h.size) (hslot : slotPos i < 2 ^ 64) :
    h.openSlot C file i = .ok
      (if slotPos i + (nonceSize + pieceLen h.size i + tagSize) ≤ file.length ∧
          ((slotBytes file h.size i).take nonceSize).all (· == 0) = false then
        C.decrypt h.key ((slotBytes file h.size i).take nonceSize) (pieceAad i)
          ((slotBytes file h.size i).drop nonceSize)
      else none) := by
  rw [Encrypted.openSlot, blockLen_eq hsize hi, ok_bind, slotStart_eq hslot, ok_bind]
  by_cases hlen : slotPos i + (nonceSize + pieceLen h.size i + tagSize) ≤ file.length
  · have hread : readExactAt file (slotPos i) (nonceSize + pieceLen h.size i + tagSize) =
        .ok (slotBytes file h.size i) := if_pos (Or.inr hlen)
    rw [hread]
    simp only [hlen, true_and]
    cases ((slotBytes file h.size i).take nonceSize).all (· == 0) <;> rfl
  · have hread : readExactAt file (slotPos i) (nonceSize + pieceLen h.size i + tagSize) =
        .error (.fail .unexpectedEof) := if_neg (by simp only [nonceSize] at hlen ⊢; omega)
    rw [hread, if_neg fun hboth => hlen hboth.1]
    rfl

/-- A piece read on its own. -/
lemma readExactAt_of_readBlock {plain : Bytes} {i : ℕ} (hi : i * blockSize < h.size)
    (hpos : 0 < plain.length) (hread : h.readBlock C file i = .ok plain) :
    h.readExactAt C file (i * blockSize) plain.length = .ok plain := by
  have hmod : i * blockSize % blockSize = 0 := Nat.mul_mod_left i blockSize
  have hdiv : i * blockSize / blockSize = i := Nat.mul_div_cancel i (by decide)
  have hone : h.readAt C file (i * blockSize) plain.length = .ok plain := by
    rw [Encrypted.readAt, if_neg (by omega), hmod, hdiv, hread]
    simp only [bind, Except.bind, checkedSub_of_le (Nat.zero_le _), orPanic, Nat.sub_zero,
      Nat.min_self, slice_self]
    rfl
  obtain ⟨n, hn⟩ : ∃ n, plain.length = n + 1 := ⟨plain.length - 1, by omega⟩
  have hne : plain ≠ [] := List.ne_nil_of_length_pos hpos
  rw [hn] at hone
  rw [Encrypted.readExactAt, hn, Encrypted.readExactLoop, hone]
  simp only [bind, Except.bind, if_neg hne, hn, Nat.sub_self]
  cases n <;> simp [Encrypted.readExactLoop, pure, Except.pure]

/-! ## Ranges of pieces -/

/-- The pieces that are `readable` hold the bytes of `content`; the others are refused. -/
structure ReadsBlocks (C : Aead Key tagSize) (h : Encrypted Key) (file content : Bytes)
    (readable : ℕ → Prop) : Prop where
  length_eq : content.length = h.size
  good : ∀ i, i * blockSize < h.size → readable i →
    h.readBlock C file i = .ok (content.slice (i * blockSize) blockSize)
  bad : ∀ i, i * blockSize < h.size → ¬ readable i →
    h.readBlock C file i = .error (.fail .invalidData)

/-- All the pieces that the `n` bytes from `pos` on touch have a property. -/
def AllTouched (readable : ℕ → Prop) (pos n : ℕ) : Prop := ∀ i, Touched pos n i → readable i

lemma allTouched_zero (readable : ℕ → Prop) (pos : ℕ) : AllTouched readable pos 0 :=
  fun _ hi => absurd hi.2.2 (Nat.lt_irrefl 0)

lemma allTouched_split {pos n k : ℕ} (hk : 0 < k) (hkn : k ≤ n)
    (hle : pos % blockSize + k ≤ blockSize) :
    AllTouched readable pos n ↔
      readable (pos / blockSize) ∧ AllTouched readable (pos + k) (n - k) := by
  constructor
  · exact fun hall => ⟨hall _ ((touched_split hk hkn hle).2 (Or.inl rfl)),
      fun i hi => hall i ((touched_split hk hkn hle).2 (Or.inr hi))⟩
  · rintro ⟨hfirst, hrest⟩ i hi
    rcases (touched_split hk hkn hle).1 hi with rfl | hi
    · exact hfirst
    · exact hrest i hi

namespace ReadsBlocks

/-- `read_at` returns the bytes from `pos` to the end of the piece, or as many as asked. -/
lemma readAt_eq (hb : ReadsBlocks C h file content readable) {pos n : ℕ} (hpos : pos < h.size)
    (hn : 0 < n) :
    (readable (pos / blockSize) → h.readAt C file pos n =
        .ok (content.slice pos (min n (blockSize - pos % blockSize)))) ∧
      (¬ readable (pos / blockSize) →
        h.readAt C file pos n = .error (.fail .invalidData)) := by
  have hdiv := div_mul_blockSize_add_mod pos
  have hmod := mod_blockSize_lt pos
  have hi : pos / blockSize * blockSize < h.size := by omega
  rw [Encrypted.readAt, if_neg (by omega)]
  constructor
  · intro hread
    have hlen : (content.slice (pos / blockSize * blockSize) blockSize).length =
        min blockSize (h.size - pos / blockSize * blockSize) := by
      rw [length_slice, hb.length_eq]
    rw [hb.good _ hi hread]
    simp only [bind, Except.bind]
    rw [hlen, checkedSub_of_le (by omega)]
    show Except.ok (slice (slice content _ _) (pos % blockSize) _) = _
    rw [slice_slice _ _ _ _ _ (by omega), hdiv]
    congr 1
    refine slice_clip ?_
    rw [hb.length_eq]
    omega
  · intro hread
    rw [hb.bad _ hi hread]
    rfl

/-- One round of the loop of `read_exact_at` that reads `k` bytes. -/
lemma readExactLoop_step {pos n fuel k : ℕ} (hk : 0 < k)
    (hread : h.readAt C file pos (n + 1) = .ok (content.slice pos k))
    (hlen : (content.slice pos k).length = k) :
    h.readExactLoop C file (fuel + 1) pos (n + 1) =
      (h.readExactLoop C file fuel (pos + k) (n + 1 - k)).map (content.slice pos k ++ ·) := by
  have hne : ¬ content.slice pos k = [] := by
    intro hnil
    rw [hnil, List.length_nil] at hlen
    omega
  rw [Encrypted.readExactLoop, hread]
  simp only [bind, Except.bind, if_neg hne, hlen]
  cases h.readExactLoop C file fuel (pos + k) (n + 1 - k) <;> rfl

lemma readExactLoop_eq (hb : ReadsBlocks C h file content readable) : ∀ fuel n pos, n ≤ fuel →
    ((n = 0 ∨ pos + n ≤ h.size) → AllTouched readable pos n →
        h.readExactLoop C file fuel pos n = .ok (content.slice pos n)) ∧
      (¬ ((n = 0 ∨ pos + n ≤ h.size) ∧ AllTouched readable pos n) →
        ∃ e, h.readExactLoop C file fuel pos n = .error (.fail e)) := by
  have hzero : ∀ fuel pos, (AllTouched readable pos 0 →
      h.readExactLoop C file fuel pos 0 = .ok (content.slice pos 0)) ∧
      (¬ AllTouched readable pos 0 →
        ∃ e, h.readExactLoop C file fuel pos 0 = .error (.fail e)) := fun fuel pos =>
    ⟨fun _ => by cases fuel <;> simp [Encrypted.readExactLoop],
      fun hnot => absurd (allTouched_zero readable pos) hnot⟩
  intro fuel
  induction fuel with
  | zero =>
    intro n pos hn
    obtain rfl : n = 0 := by omega
    simpa using hzero 0 pos
  | succ fuel ih =>
    intro n pos hn
    rcases n with _ | n
    · simpa using hzero (fuel + 1) pos
    by_cases hpos : pos < h.size
    · obtain ⟨hok, herr⟩ := hb.readAt_eq hpos (Nat.succ_pos n)
      have hmod := mod_blockSize_lt pos
      -- the first piece gives `k` bytes; the induction covers what is left
      obtain ⟨k, hk⟩ : ∃ k, k = min (min (n + 1) (blockSize - pos % blockSize)) (h.size - pos) :=
        ⟨_, rfl⟩
      have hsplit : AllTouched readable pos (n + 1) ↔
          readable (pos / blockSize) ∧ AllTouched readable (pos + k) (n + 1 - k) :=
        allTouched_split (by omega) (by omega) (by omega)
      by_cases hw : readable (pos / blockSize)
      · have hread : h.readAt C file pos (n + 1) = .ok (content.slice pos k) := by
          rw [hok hw, slice_clip (show min _ _ = min k _ by rw [hb.length_eq]; omega)]
        have hlen : (content.slice pos k).length = k := by
          rw [length_slice, hb.length_eq]
          omega
        obtain ⟨hih, hih'⟩ := ih (n + 1 - k) (pos + k) (by omega)
        rw [readExactLoop_step (by omega) hread hlen, hsplit]
        constructor
        · rintro hin ⟨-, hrest⟩
          rw [hih (by omega) hrest]
          show Except.ok (slice _ _ _ ++ slice _ _ _) = _
          rw [slice_append_slice, Nat.add_sub_cancel' (by omega)]
        · intro hnot
          obtain ⟨e, he⟩ := hih' fun hboth => hnot ⟨by omega, hw, hboth.2⟩
          exact ⟨e, by rw [he]; rfl⟩
      · have hfail : h.readExactLoop C file (fuel + 1) pos (n + 1) =
            .error (.fail .invalidData) := by
          rw [Encrypted.readExactLoop, herr hw]
          rfl
        exact ⟨fun _ hread => absurd (hsplit.1 hread).1 hw, fun _ => ⟨_, hfail⟩⟩
    · have hfail : h.readExactLoop C file (fuel + 1) pos (n + 1) =
          .error (.fail .unexpectedEof) := by
        rw [Encrypted.readExactLoop, Encrypted.readAt, if_pos (Or.inl (by omega))]
        rfl
      exact ⟨fun hin _ => by omega, fun _ => ⟨_, hfail⟩⟩

/-- `read_exact_at`: the range if it lies inside the file and its pieces are readable, an
error otherwise. -/
lemma readExactAt_eq (hb : ReadsBlocks C h file content readable) (pos n : ℕ) :
    ((n = 0 ∨ pos + n ≤ h.size) → AllTouched readable pos n →
        h.readExactAt C file pos n = .ok (content.slice pos n)) ∧
      (¬ ((n = 0 ∨ pos + n ≤ h.size) ∧ AllTouched readable pos n) →
        ∃ e, h.readExactAt C file pos n = .error (.fail e)) :=
  hb.readExactLoop_eq n n pos le_rfl

/-- One round of a copy that reads `k` bytes. -/
lemma copy_step {cap pos n fuel k : ℕ} (hk : 0 < k)
    (hread : h.readAt C file pos (min cap (n + 1)) = .ok (content.slice pos k))
    (hlen : (content.slice pos k).length = k) :
    (Handle.encrypted h).copy C file cap (fuel + 1) pos (n + 1) =
      (content.slice pos k ++
          ((Handle.encrypted h).copy C file cap fuel (pos + k) (n + 1 - k)).1,
        ((Handle.encrypted h).copy C file cap fuel (pos + k) (n + 1 - k)).2) := by
  have hne : ¬ content.slice pos k = [] := by
    intro hnil
    rw [hnil, List.length_nil] at hlen
    omega
  rw [Handle.copy, Handle.readAt, hread]
  simp only [if_neg hne, hlen]

/-- Copying through a `SequentialReader`: the bytes up to the limit or the end of the file,
or an error at the first piece that is refused. -/
lemma copy_eq (hb : ReadsBlocks C h file content readable) {cap : ℕ} (hcap : 0 < cap) :
    ∀ fuel n pos, n ≤ fuel →
    (AllTouched readable pos (min n (h.size - pos)) →
        (Handle.encrypted h).copy C file cap fuel pos n = (content.slice pos n, none)) ∧
      (¬ AllTouched readable pos (min n (h.size - pos)) →
        ∃ e, ((Handle.encrypted h).copy C file cap fuel pos n).2 = some (.fail e)) := by
  have hzero : ∀ fuel pos, (AllTouched readable pos 0 →
      (Handle.encrypted h).copy C file cap fuel pos 0 = (content.slice pos 0, none)) ∧
      (¬ AllTouched readable pos 0 →
        ∃ e, ((Handle.encrypted h).copy C file cap fuel pos 0).2 = some (.fail e)) :=
    fun fuel pos => ⟨fun _ => by cases fuel <;> simp [Handle.copy],
      fun hnot => absurd (allTouched_zero readable pos) hnot⟩
  intro fuel
  induction fuel with
  | zero =>
    intro n pos hn
    obtain rfl : n = 0 := by omega
    simpa using hzero 0 pos
  | succ fuel ih =>
    intro n pos hn
    rcases n with _ | n
    · simpa using hzero (fuel + 1) pos
    by_cases hpos : pos < h.size
    · obtain ⟨hok, herr⟩ := hb.readAt_eq hpos (show 0 < min cap (n + 1) by omega)
      have hmod := mod_blockSize_lt pos
      -- one read ends at the limit of the reader, the end of the block or the end of the file
      obtain ⟨k, hk⟩ : ∃ k, k = min (min (min cap (n + 1)) (blockSize - pos % blockSize))
          (h.size - pos) := ⟨_, rfl⟩
      have hsplit : AllTouched readable pos (min (n + 1) (h.size - pos)) ↔
          readable (pos / blockSize) ∧
            AllTouched readable (pos + k) (min (n + 1) (h.size - pos) - k) :=
        allTouched_split (by omega) (by omega) (by omega)
      have hrest : min (n + 1) (h.size - pos) - k = min (n + 1 - k) (h.size - (pos + k)) := by
        omega
      by_cases hw : readable (pos / blockSize)
      · have hread : h.readAt C file pos (min cap (n + 1)) = .ok (content.slice pos k) := by
          rw [hok hw, slice_clip (show min _ _ = min k _ by rw [hb.length_eq]; omega)]
        have hlen : (content.slice pos k).length = k := by
          rw [length_slice, hb.length_eq]
          omega
        obtain ⟨hih, hih'⟩ := ih (n + 1 - k) (pos + k) (by omega)
        rw [copy_step (by omega) hread hlen, hsplit, hrest]
        constructor
        · rintro ⟨-, htail⟩
          rw [hih htail, slice_append_slice, Nat.add_sub_cancel' (by omega)]
        · intro hnot
          exact hih' fun htail => hnot ⟨hw, htail⟩
      · have hfail : ((Handle.encrypted h).copy C file cap (fuel + 1) pos (n + 1)).2 =
            some (.fail .invalidData) := by
          rw [Handle.copy, Handle.readAt, herr hw]
        exact ⟨fun hread => absurd (hsplit.1 hread).1 hw, fun _ => ⟨_, hfail⟩⟩
    · have hend : (Handle.encrypted h).copy C file cap (fuel + 1) pos (n + 1) = ([], none) := by
        rw [Handle.copy, Handle.readAt, Encrypted.readAt, if_pos (Or.inl (by omega))]
        rfl
      have hslice : content.slice pos (n + 1) = [] := by
        apply List.eq_nil_of_length_eq_zero
        rw [length_slice, hb.length_eq]
        omega
      have hmin : min (n + 1) (h.size - pos) = 0 := by omega
      rw [hend, hslice, hmin]
      exact ⟨fun _ => rfl, fun hnot => absurd (allTouched_zero readable pos) hnot⟩

end ReadsBlocks

end Chorrent
