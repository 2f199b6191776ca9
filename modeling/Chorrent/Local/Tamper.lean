/-
# Tampering with the encrypted store

Someone without the key changes the files of the store at will.  What they cannot do is make
a slot that opens: a slot opens only if it was sealed earlier under the same file key and
the same piece number.  The file key comes from the salt in the header, which travels with
the file, and strict reads check no content hash; so everything hinges on whether a slot of
another file was put, with that file's header, where it opens.
-/
import Chorrent.Local.Basic
import Chorrent.Storage.Blocks

namespace Chorrent

open Lib Bytes

variable {Master Key Hash : Type} {S : StoreKeys Master Key} {master : Master}

/-- A complete file of the store: where it is, its salt and its content. -/
structure StoredFile where
  path : Path
  salt : Bytes
  content : Bytes
  /-- The file could be created: its length is a 64-bit number. -/
  fits : headerSize + blockCount content.length * slotSize < 2 ^ 64

/-- Piece `i` of the file. -/
def StoredFile.piece (f : StoredFile) (i : ℕ) : Bytes := f.content.slice (i * blockSize) blockSize

/-- Under this salt, the store has sealed this text as piece `i`. -/
def SealedIn (store : List StoredFile) (salt : Bytes) (i : ℕ) (plain : Bytes) : Prop :=
  ∃ g ∈ store, g.salt = salt ∧ i * blockSize < g.content.length ∧ g.piece i = plain

/-- A slot of a tampered file opens only if it was sealed earlier, under the same file key
and with the same piece number. -/
def Authentic (S : StoreKeys Master Key) (master : Master) (store : List StoredFile)
    (fs : FileSystem) : Prop :=
  ∀ f ∈ store, ∀ file, fs f.path = some file → ∀ i plain, i * blockSize < f.content.length →
    S.cipher.decrypt (S.fileKey master (headerSalt file))
        ((slotBytes file f.content.length i).take nonceSize) (pieceAad i)
        ((slotBytes file f.content.length i).drop nonceSize) = some plain →
    ∃ salt j, S.fileKey master salt = S.fileKey master (headerSalt file) ∧
      pieceAad j = pieceAad i ∧ SealedIn store salt j plain

/-- A slot of the file was sealed, as the same piece of a file of the store whose header the
file has, from other bytes. -/
def Swapped (S : StoreKeys Master Key) (master : Master) (store : List StoredFile)
    (f : StoredFile) (file : Bytes) : Prop :=
  ∃ g ∈ store, file.slice 0 headerSize = magic ++ g.salt ∧
    ∃ (i : ℕ) (nonce : Nonce), i * blockSize < f.content.length ∧
      i * blockSize < g.content.length ∧
      (g.piece i).length = (f.piece i).length ∧ g.piece i ≠ f.piece i ∧
      slotBytes file f.content.length i = nonce.bytes ++
        S.cipher.encrypt (S.fileKey master g.salt) nonce.bytes (pieceAad i) (g.piece i)

/-- Reading and exporting a file gives its content or an error. -/
structure NeverWrong (S : StoreKeys Master Key) (fs : FileSystem)
    (share : LocalShare Master Hash) (index : ℕ) (content : Bytes) : Prop where
  readRange : ∀ offset len,
    share.readRange S fs index offset len =
        .ok (content.slice offset (min len (content.length - offset))) ∨
      ∃ e, share.readRange S fs index offset len = .error (.fail e)
  exportFile : ∀ env dest,
    ((share.exportFile S env fs index dest).2 = .ok () ∧
        (share.exportFile S env fs index dest).1 dest = some content) ∨
      ∃ e, (share.exportFile S env fs index dest).2 = .error (.fail e)

namespace StoredFile

variable (f : StoredFile)

lemma slotPos_lt {i : ℕ} (hi : i * blockSize < f.content.length) : slotPos i < 2 ^ 64 :=
  slotPos_lt_of_fits f.fits hi

lemma index_lt {i : ℕ} (hi : i * blockSize < f.content.length) : i < 256 ^ 8 := by
  have hslot := f.slotPos_lt hi
  have hle : i * 1 ≤ i * slotSize := Nat.mul_le_mul_left i (by decide)
  rw [slotPos] at hslot
  omega

lemma length_lt : f.content.length < 2 ^ 64 := size_lt_of_fits f.fits

lemma length_piece (i : ℕ) : (f.piece i).length = pieceLen f.content.length i := by
  rw [piece, length_slice, pieceLen, Nat.min_comm]

end StoredFile

variable {store : List StoredFile} {fs : FileSystem} {f : StoredFile} {file : Bytes}

/-- If no slot was swapped, a strict handle reads each piece right or refuses it. -/
lemma readsBlocks_of_not_swapped (hkeys : Function.Injective (S.fileKey master))
    (hauth : Authentic S master store fs) (hf : f ∈ store) (hfs : fs f.path = some file)
    (hmagic : (file.slice 0 headerSize).take magic.length = magic)
    (hnot : ¬ Swapped S master store f file) :
    ∃ readable, ReadsBlocks S.cipher
      ⟨S.fileKey master (headerSalt file), f.content.length, true, false⟩ file f.content
        readable := by
  set h : Encrypted Key := ⟨S.fileKey master (headerSalt file), f.content.length, true, false⟩
  have hopen : ∀ i, i * blockSize < f.content.length → _ := fun i hi =>
    openSlot_eq_slot (h := h) S.cipher file f.length_lt hi (f.slotPos_lt hi)
  refine ⟨fun i => h.openSlot S.cipher file i = .ok (some (f.piece i)), rfl, ?_, ?_⟩
  · intro i _ hread
    rw [Encrypted.readBlock, hread]
    rfl
  · intro i hi hread
    -- a slot that opens holds a piece of a file of the store; here it can only be the right one
    have hnone : h.openSlot S.cipher file i = .ok none := by
      rw [hopen i hi] at hread ⊢
      split_ifs at hread ⊢ with hcond
      · cases hdec : S.cipher.decrypt h.key ((slotBytes file h.size i).take nonceSize) (pieceAad i)
            ((slotBytes file h.size i).drop nonceSize) with
        | none => rfl
        | some plain =>
          exfalso
          rw [hdec] at hread
          obtain ⟨salt, j, hkey, haad, g, hg, rfl, hj, rfl⟩ := hauth f hf file hfs i plain hi hdec
          have hsalt := hkeys hkey
          have hji : j = i := leBytes_injective (g.index_lt hj) (f.index_lt hi) haad
          subst hji
          refine hnot ⟨g, hg, ?_, j, ⟨_, ?_, hcond.2⟩, hi, hj, ?_,
            fun heq => hread (by rw [heq]), ?_⟩
          · rw [hsalt, headerSalt, ← hmagic, hmagic, ← List.take_append_drop magic.length
              (file.slice 0 headerSize), hmagic]
            simp
          · rw [List.length_take, slotBytes, length_slice]
            simp only [nonceSize] at hcond ⊢
            omega
          · have hlen := S.cipher.length_of_decrypt hdec
            have hsize : h.size = f.content.length := rfl
            rw [List.length_drop, slotBytes, length_slice, hsize] at hlen
            rw [hsize] at hcond
            rw [f.length_piece]
            simp only [nonceSize, tagSize] at hlen hcond ⊢
            omega
          · rw [hsalt, ← (S.cipher.decrypt_eq_some _ _ _ _ _).1 hdec, List.take_append_drop]
      · rfl
    rw [Encrypted.readBlock, hnone]
    rfl

/-- What a strict open of the file gives when no slot was swapped. -/
lemma openWith_of_not_swapped (hkeys : Function.Injective (S.fileKey master))
    (hauth : Authentic S master store fs) (hf : f ∈ store)
    (hnot : ∀ file, fs f.path = some file → ¬ Swapped S master store f file) :
    (∃ e, (FileData.encrypted f.path master f.content.length).openWith S false true (fs f.path) =
        .error (.fail e)) ∨
      ∃ (h : Encrypted Key) (readable : ℕ → Prop),
        (FileData.encrypted f.path master f.content.length).openWith S false true (fs f.path) =
          .ok (.encrypted h) ∧
        ReadsBlocks S.cipher h ((fs f.path).getD []) f.content readable := by
  cases hfs : fs f.path with
  | none => exact Or.inl ⟨.notFound, rfl⟩
  | some file =>
    rcases openEncrypted_cases S master f.content.length false true file with
      ⟨hopen, -, hmagic⟩ | ⟨e, hopen⟩
    · obtain ⟨readable, hb⟩ :=
        readsBlocks_of_not_swapped hkeys hauth hf hfs hmagic (hnot file hfs)
      refine Or.inr ⟨_, readable, ?_, hb⟩
      simp only [FileData.openWith, hopen]
      rfl
    · refine Or.inl ⟨e, ?_⟩
      simp only [FileData.openWith, hopen]
      rfl

lemma readRange_of_not_swapped {share : LocalShare Master Hash} {index : ℕ}
    (hkeys : Function.Injective (S.fileKey master)) (hauth : Authentic S master store fs)
    (hf : f ∈ store)
    (hheld : share.HoldsFile index (.encrypted f.path master f.content.length) f.content.length)
    (hnot : ∀ file, fs f.path = some file → ¬ Swapped S master store f file) (offset len : ℕ) :
    share.readRange S fs index offset len =
        .ok (f.content.slice offset (min len (f.content.length - offset))) ∨
      ∃ e, share.readRange S fs index offset len = .error (.fail e) := by
  rcases openWith_of_not_swapped hkeys hauth hf hnot with ⟨e, hopen⟩ | ⟨h, readable, hopen, hb⟩
  · refine Or.inr ⟨.io f.path e, ?_⟩
    rw [hheld.readRange_eq]
    simp only [FileData.path, hopen]
    rfl
  · rw [hheld.readRange_of_opens hopen, Handle.readExactAt]
    have hsize : f.content.length = h.size := hb.length_eq
    obtain ⟨hok, herr⟩ := hb.readExactAt_eq offset (min len (f.content.length - offset))
    by_cases hall : AllTouched readable offset (min len (f.content.length - offset))
    · refine Or.inl ?_
      rw [FileData.path, hok (by omega) hall]
      rfl
    · obtain ⟨e, he⟩ := herr fun hboth => hall hboth.2
      refine Or.inr ⟨.io f.path e, ?_⟩
      rw [FileData.path, he]
      rfl

lemma exportFile_of_not_swapped {share : LocalShare Master Hash} {index : ℕ}
    (hkeys : Function.Injective (S.fileKey master)) (hauth : Authentic S master store fs)
    (hf : f ∈ store)
    (hheld : share.HoldsFile index (.encrypted f.path master f.content.length) f.content.length)
    (hnot : ∀ file, fs f.path = some file → ¬ Swapped S master store f file)
    (env : LocalShare.ExportEnv) (dest : Path) :
    ((share.exportFile S env fs index dest).2 = .ok () ∧
        (share.exportFile S env fs index dest).1 dest = some f.content) ∨
      ∃ e, (share.exportFile S env fs index dest).2 = .error (.fail e) := by
  obtain ⟨outboard, hcheck⟩ := hheld.checkFile_eq
  obtain ⟨entry, hentry, hsize⟩ := hheld.entry_eq
  simp only [LocalShare.exportFile, hcheck, hentry, FileData.path]
  by_cases hfolder : env.folderFails = true
  · rw [if_pos hfolder]
    exact Or.inr ⟨_, rfl⟩
  rw [if_neg hfolder]
  by_cases hexists : (fs dest).isSome = true
  · rw [if_pos hexists]
    exact Or.inr ⟨_, rfl⟩
  rw [if_neg hexists]
  by_cases hcreate : env.createFails = true
  · rw [if_pos hcreate]
    exact Or.inr ⟨_, rfl⟩
  rw [if_neg hcreate]
  by_cases hopens : env.openFails = true
  · rw [if_pos hopens]
    exact Or.inr ⟨_, rfl⟩
  rw [if_neg hopens]
  by_cases hdest : f.path = dest
  · -- the file itself is gone, and an empty one was just created in its place
    rcases openEncrypted_cases S master f.content.length false true [] with
      ⟨-, -, hmagic⟩ | ⟨e, hopen⟩
    · exact absurd hmagic (by decide)
    · refine Or.inr ⟨.io dest e, ?_⟩
      simp only [hdest, Function.update_self, FileData.openWith, hopen]
      rfl
  · have hfs' : Function.update fs dest (some []) f.path = fs f.path :=
      Function.update_of_ne hdest _ _
    simp only [hfs']
    rcases openWith_of_not_swapped hkeys hauth hf hnot with ⟨e, hopen⟩ | ⟨h, readable, hopen, hb⟩
    · exact Or.inr ⟨.io dest e, by rw [hopen]; rfl⟩
    rw [hopen, hsize]
    have hlen : f.content.length = h.size := hb.length_eq
    obtain ⟨hok, herr⟩ :=
      hb.copy_eq env.buffer_pos f.content.length f.content.length 0 le_rfl
    rw [← hlen] at hok herr
    -- what was copied when reading failed or came to an end
    have hcopied : env.cut f.content.length ((Handle.encrypted h).copy S.cipher
          ((fs f.path).getD []) env.buffer f.content.length 0 f.content.length) =
            (f.content, none) ∨
        ∃ e, (env.cut f.content.length ((Handle.encrypted h).copy S.cipher
          ((fs f.path).getD []) env.buffer f.content.length 0 f.content.length)).2 =
            some (.fail e) := by
      rcases env.cut_cases f.content.length ((Handle.encrypted h).copy S.cipher
        ((fs f.path).getD []) env.buffer f.content.length 0 f.content.length) with hcut | hcut
      · rw [hcut]
        by_cases hall : AllTouched readable 0 (min f.content.length (f.content.length - 0))
        · rw [hok hall, slice_self]
          exact Or.inl rfl
        · exact Or.inr (herr hall)
      · exact Or.inr ⟨_, hcut⟩
    rcases hcopied with hcopied | ⟨e, hcopied⟩
    · simp only [hcopied, LocalShare.ExportEnv.copyTo]
      by_cases hfault : env.fault.any (· < f.content.length) = true
      · rw [if_pos hfault]
        exact Or.inr ⟨_, rfl⟩
      · rw [if_neg hfault, if_neg (not_not.2 rfl)]
        exact Or.inl ⟨rfl, Function.update_self ..⟩
    · simp only [LocalShare.ExportEnv.copyTo, hcopied]
      split
      · exact Or.inr ⟨_, rfl⟩
      · exact Or.inr ⟨.io dest e, rfl⟩

/-- A swapped slot opens to what it was sealed from. -/
lemma readBlock_of_swapped {g : StoredFile} {i : ℕ} {nonce : Nonce}
    (hi : i * blockSize < f.content.length) (hlen : (g.piece i).length = (f.piece i).length)
    (hslot : slotBytes file f.content.length i = nonce.bytes ++
      S.cipher.encrypt (S.fileKey master g.salt) nonce.bytes (pieceAad i) (g.piece i)) :
    slotPos i + (nonceSize + pieceLen f.content.length i + tagSize) ≤ file.length ∧
      Encrypted.readBlock S.cipher ⟨S.fileKey master g.salt, f.content.length, true, false⟩ file i =
        .ok (g.piece i) := by
  have hin : slotPos i + (nonceSize + pieceLen f.content.length i + tagSize) ≤ file.length := by
    have hbytes := congrArg List.length hslot
    rw [slotBytes, length_slice, List.length_append, nonce.length_eq, S.cipher.length_encrypt, hlen,
      f.length_piece] at hbytes
    simp only [nonceSize, tagSize] at hbytes ⊢
    omega
  refine ⟨hin, ?_⟩
  have htake : (slotBytes file f.content.length i).take nonceSize = nonce.bytes := by
    rw [hslot, ← nonce.length_eq, List.take_left]
  have hdrop : (slotBytes file f.content.length i).drop nonceSize =
      S.cipher.encrypt (S.fileKey master g.salt) nonce.bytes (pieceAad i) (g.piece i) := by
    rw [hslot, ← nonce.length_eq, List.drop_left]
  have hopen : Encrypted.openSlot S.cipher
      ⟨S.fileKey master g.salt, f.content.length, true, false⟩ file i = .ok (some (g.piece i)) := by
    rw [openSlot_eq_slot S.cipher file f.length_lt hi (f.slotPos_lt hi)]
    simp only [htake, hdrop, nonce.nonzero, hin, and_self, if_true, S.cipher.decrypt_encrypt]
  rw [Encrypted.readBlock, hopen]
  rfl

/-- Reading a swapped piece gives the piece of the other file. -/
lemma readRange_of_swapped {share : LocalShare Master Hash} {index : ℕ}
    (hheld : share.HoldsFile index (.encrypted f.path master f.content.length) f.content.length)
    (hfs : fs f.path = some file) (hswapped : Swapped S master store f file) :
    ∃ i plain, plain.length = (f.piece i).length ∧ plain ≠ f.piece i ∧
      share.readRange S fs index (i * blockSize) (f.piece i).length = .ok plain := by
  obtain ⟨g, -, hheader, i, nonce, hi, -, hlen, hne, hslot⟩ := hswapped
  refine ⟨i, g.piece i, hlen, hne, ?_⟩
  obtain ⟨hin, hblock⟩ := readBlock_of_swapped hi hlen hslot
  have hpiece := f.length_piece i
  have hpos : 0 < blockSize := by decide
  have hopen : openEncrypted S master f.content.length false true file =
      .ok ⟨S.fileKey master g.salt, f.content.length, true, false⟩ := by
    have hread : readExactAt file 0 headerSize = .ok (file.slice 0 headerSize) :=
      if_pos (Or.inr (by rw [slotPos] at hin; omega))
    rw [openEncrypted, hread, hheader, ok_bind]
    simp only [List.take_left, List.drop_left, ne_eq, not_true_eq_false, if_false]
    rfl
  have hmin : min (f.piece i).length (f.content.length - i * blockSize) = (g.piece i).length := by
    rw [hlen, hpiece]
    exact min_eq_left (pieceLen_le_sub _ i)
  have hexact := readExactAt_of_readBlock (C := S.cipher) hi
    (by rw [hlen, hpiece]; exact pieceLen_pos hi) hblock
  have hopens : (FileData.encrypted f.path master f.content.length).openWith S false true
      (fs f.path) = .ok (.encrypted ⟨S.fileKey master g.salt, f.content.length, true, false⟩) := by
    rw [hfs, FileData.openWith, hopen]
    rfl
  rw [hheld.readRange_of_opens hopens, hmin, FileData.path, hfs, Option.getD_some,
    Handle.readExactAt, hexact]
  rfl

/-- Reads and exports of a file whose slots others may have changed are right or refused,
exactly as long as no slot was replaced, header and all, by the same piece of another file of
the store. -/
theorem neverWrong_iff_not_swapped (hkeys : Function.Injective (S.fileKey master))
    (hauth : Authentic S master store fs) (hf : f ∈ store)
    {share : LocalShare Master Hash} {index : ℕ}
    (hheld : share.HoldsFile index (.encrypted f.path master f.content.length) f.content.length) :
    NeverWrong S fs share index f.content ↔
      ∀ file, fs f.path = some file → ¬ Swapped S master store f file := by
  constructor
  · intro hright file hfs hswapped
    obtain ⟨i, plain, hlen, hne, hread⟩ := readRange_of_swapped hheld hfs hswapped
    rcases hright.readRange (i * blockSize) (f.piece i).length with hok | ⟨e, herr⟩
    · rw [hread] at hok
      refine hne ((Except.ok.inj hok).trans ?_)
      rw [f.length_piece, min_eq_left (pieceLen_le_sub _ i)]
      exact (slice_blockSize rfl i).symm
    · rw [hread] at herr
      cases herr
  · intro hnot
    exact ⟨readRange_of_not_swapped hkeys hauth hf hheld hnot,
      exportFile_of_not_swapped hkeys hauth hf hheld hnot⟩

/-! ## Two files of one store -/

namespace TwoFiles

def keys : StoreKeys Bytes Bytes := ⟨fun m salt => salt ++ m, Aead.tagging⟩

def a : StoredFile := ⟨⟨none, true, ["store", "a", "0.enc"]⟩, List.replicate 16 1, [97], by decide⟩

def b : StoredFile := ⟨⟨none, true, ["store", "b", "0.enc"]⟩, List.replicate 16 2, [98], by decide⟩

/-- The header of the file and its only slot as it was sealed. -/
def sealedFile (f : StoredFile) : Bytes :=
  magic ++ f.salt ++ List.replicate 24 9 ++
    Aead.tagging.encrypt (f.salt ++ [0]) (List.replicate 24 9) (pieceAad 0) f.content

/-- Both paths have the given contents. -/
def both (bytes : Bytes) : FileSystem :=
  fun p => if p = a.path ∨ p = b.path then some bytes else none

/-- The share of the file `a`. -/
def share : LocalShare Bytes Unit where
  manifest := ⟨"a", [⟨["a"], 1, by decide, ()⟩]⟩
  layout := Layout.new ⟨"a", [⟨["a"], 1, by decide, ()⟩]⟩
  files := [⟨.encrypted a.path [0] 1, ⟨(), 1, []⟩⟩]
  root := ⟨none, true, ["store", "a"]⟩
  held := [true]

lemma fileKey_injective : Function.Injective (keys.fileKey [0]) :=
  fun _ _ h => List.append_cancel_right h

lemma share_holds : share.HoldsFile 0 (.encrypted a.path [0] 1) 1 where
  layout_eq := rfl
  file_eq := ⟨_, rfl⟩
  entry_eq := ⟨_, rfl, rfl⟩
  held i hi := by
    obtain rfl : i = 0 := by
      have : blockCount 1 = 1 := rfl
      omega
    rfl

/-- The only slots that open are the two that were sealed. -/
lemma authentic {g : StoredFile} (hg : g = a ∨ g = b) :
    Authentic keys [0] [a, b] (both (sealedFile g)) := by
  intro f hf bytes hbytes i plain hi hdec
  have hlen : f.content.length = 1 := by
    rcases List.mem_pair.1 hf with rfl | rfl <;> rfl
  obtain rfl : i = 0 := by
    have : 0 < blockSize := by decide
    rcases Nat.eq_zero_or_pos i with hi0 | hpos
    · exact hi0
    · have := Nat.mul_le_mul_right blockSize hpos
      omega
  obtain rfl : bytes = sealedFile g := by
    rcases List.mem_pair.1 hf with rfl | rfl <;> simp [both] at hbytes <;> exact hbytes.symm
  rw [hlen] at hdec
  refine ⟨g.salt, 0, ?_, rfl, g, List.mem_pair.2 hg, rfl, ?_, ?_⟩
  · rcases hg with rfl | rfl <;> rfl
  · rcases hg with rfl | rfl <;> decide
  · refine Option.some.inj (Eq.trans ?_ hdec)
    rcases hg with rfl | rfl <;> decide

end TwoFiles

open TwoFiles in
/-- The file `a` as it was written is read right. -/
theorem neverWrong_iff_not_swapped_two_files :
    NeverWrong keys (both (sealedFile a)) share 0 [97] ↔
      ∀ bytes, both (sealedFile a) a.path = some bytes → ¬ Swapped keys [0] [a, b] a bytes :=
  neverWrong_iff_not_swapped (f := a) fileKey_injective (authentic (Or.inl rfl))
    (List.mem_pair.2 (Or.inl rfl)) share_holds

open TwoFiles in
/-- With the file `b` in the place of `a`, which contains the byte 97, the share of `a` returns
the byte 98. -/
theorem swapped_file_reads_wrong :
    Authentic keys [0] [a, b] (both (sealedFile b)) ∧
      share.HoldsFile 0 (.encrypted a.path [0] 1) 1 ∧
      share.readRange keys (both (sealedFile b)) 0 0 1 = .ok [98] ∧
      ¬ NeverWrong keys (both (sealedFile b)) share 0 a.content := by
  have hread : share.readRange keys (both (sealedFile b)) 0 0 1 = .ok [98] := by decide
  refine ⟨authentic (Or.inr rfl), share_holds, hread, fun hright => ?_⟩
  rcases hright.readRange 0 1 with hok | ⟨e, herr⟩
  · rw [hread] at hok
    exact absurd hok (by decide)
  · rw [hread] at herr
    cases herr

end Chorrent
