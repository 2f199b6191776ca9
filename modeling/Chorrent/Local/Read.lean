/-
# Reading the encrypted store

The encrypted store behaves like a plain file: after any sequence of writes to a fresh file,
every handle, the sequential reader and `read_range` of a share return what an array of
zeros would hold after the same writes.  Strict reads insist on pieces that were written.
-/
import Chorrent.Local.Basic
import Chorrent.Storage.Refine

namespace Chorrent

open Lib Bytes

variable {Master Key Hash : Type} {S : StoreKeys Master Key} {master : Master} {salt : Bytes}
  {size : ℕ} {file : Bytes} {flat : Flat}

open Classical in
/-- What `read_at` gives on a flat file: as many bytes as asked, up to the end of the piece
and of the file. -/
noncomputable def Flat.readAt (flat : Flat) (strict : Bool) (pos n : ℕ) : IoResult Bytes :=
  if pos ≥ flat.bytes.length ∨ n = 0 then .ok []
  else if strict = true ∧ pos / blockSize ∉ flat.written then .error (.fail .invalidData)
  else .ok (flat.bytes.slice pos (min n (blockSize - pos % blockSize)))

/-- All the pieces touched are written, or the reader does not insist on that. -/
def Flat.Readable (flat : Flat) (strict : Bool) (pos n : ℕ) : Prop :=
  AllTouched (fun i => strict = true → i ∈ flat.written) pos n

/-- A handle reads what the flat file holds, by single reads, exact reads and copies. -/
structure ReadsFlat (C : Aead Key tagSize) (h : Encrypted Key) (file : Bytes) (flat : Flat) :
    Prop where
  readAt : ∀ pos n, h.readAt C file pos n = flat.readAt h.strict pos n
  readExactAt : ∀ pos n, n = 0 ∨ pos + n ≤ flat.bytes.length → flat.Readable h.strict pos n →
    h.readExactAt C file pos n = .ok (flat.bytes.slice pos n)
  readExactAt_fails : ∀ pos n,
    ¬ ((n = 0 ∨ pos + n ≤ flat.bytes.length) ∧ flat.Readable h.strict pos n) →
    ∃ e, h.readExactAt C file pos n = .error (.fail e)
  copy : ∀ cap fuel pos n, 0 < cap → n ≤ fuel →
    flat.Readable h.strict pos (min n (flat.bytes.length - pos)) →
    (Handle.encrypted h).copy C file cap fuel pos n = (flat.bytes.slice pos n, none)
  copy_fails : ∀ cap fuel pos n, 0 < cap → n ≤ fuel →
    ¬ flat.Readable h.strict pos (min n (flat.bytes.length - pos)) →
    ∃ e, ((Handle.encrypted h).copy C file cap fuel pos n).2 = some (.fail e)

lemma Represents.readsFlat (hr : Represents S master salt size file flat) {h : Encrypted Key}
    (hh : HandleOf S master salt size h) : ReadsFlat S.cipher h file flat := by
  have hb := hr.readsBlocks hh
  have hlen : flat.bytes.length = h.size := hb.length_eq
  constructor
  · intro pos n
    rw [Flat.readAt, hlen]
    split_ifs with hend hunwritten
    · rw [Encrypted.readAt, if_pos hend]
    · exact (hb.readAt_eq (by omega) (by omega)).2 fun hw => hunwritten.2 (hw hunwritten.1)
    · exact (hb.readAt_eq (by omega) (by omega)).1 fun hs =>
        not_not.1 fun hnot => hunwritten ⟨hs, hnot⟩
  · exact fun pos n hin hread => (hb.readExactAt_eq pos n).1 (hlen ▸ hin) hread
  · exact fun pos n hnot => (hb.readExactAt_eq pos n).2 (hlen ▸ hnot)
  · exact fun cap fuel pos n hcap hn hread => (hb.copy_eq hcap fuel n pos hn).1 (hlen ▸ hread)
  · exact fun cap fuel pos n hcap hn hnot => (hb.copy_eq hcap fuel n pos hn).2 (hlen ▸ hnot)

/-- What a file of the encrypted store is good for once it stands for a flat file: handles of
every kind open and read the flat file, and so does `read_range` of a share holding it. -/
structure ServesFlat (S : StoreKeys Master Key) (Hash : Type) (master : Master) (size : ℕ)
    (file : Bytes) (flat : Flat) : Prop where
  length_eq : flat.bytes.length = size
  handles : ∀ write strict, ∃ h, openEncrypted S master size write strict file = .ok h ∧
    h.strict = strict ∧ ReadsFlat S.cipher h file flat
  readRange : ∀ (fs : FileSystem) (share : LocalShare Master Hash) (index : ℕ) (path : Path),
    share.HoldsFile index (.encrypted path master size) size → fs path = some file →
      ∀ offset len,
      (flat.Readable true offset (min len (size - offset)) →
        share.readRange S fs index offset len =
          .ok (flat.bytes.slice offset (min len (size - offset)))) ∧
      (¬ flat.Readable true offset (min len (size - offset)) →
        ∃ e, share.readRange S fs index offset len = .error (.fail e))

lemma Represents.servesFlat (hr : Represents S master salt size file flat) :
    ServesFlat S Hash master size file flat where
  length_eq := hr.length_flat
  handles write strict := ⟨_, openEncrypted_eq hr write strict, rfl, hr.readsFlat ⟨rfl, rfl⟩⟩
  readRange fs share index path hheld hfs offset len := by
    have hreads := hr.readsFlat (h := ⟨S.fileKey master salt, size, true, false⟩) ⟨rfl, rfl⟩
    have hin : min len (size - offset) = 0 ∨
        offset + min len (size - offset) ≤ flat.bytes.length := by
      rw [hr.length_flat]
      omega
    have heq : share.readRange S fs index offset len =
        (Encrypted.readExactAt S.cipher ⟨S.fileKey master salt, size, true, false⟩ file offset
          (min len (size - offset))).orError (.io path) := by
      have hopen : (FileData.encrypted path master size).openWith S false true (fs path) =
          .ok (.encrypted ⟨S.fileKey master salt, size, true, false⟩) := by
        rw [hfs, FileData.openWith, openEncrypted_eq hr]
        rfl
      rw [hheld.readRange_of_opens hopen, FileData.path, hfs]
      rfl
    rw [heq]
    constructor
    · intro hread
      rw [hreads.readExactAt _ _ hin hread]
      rfl
    · intro hnot
      obtain ⟨e, he⟩ := hreads.readExactAt_fails _ _ fun hboth => hnot hboth.2
      exact ⟨.io path e, by rw [he]; rfl⟩

/-- The encrypted store behaves like a plain file.  After any sequence of writes through a
handle of a fresh file, the results of the writes and every later read are those of an array
of zeros of the declared size after the same writes (never a panic), and a write to some
pieces leaves the slots of all others as they were. -/
theorem encrypted_refines_flat (S : StoreKeys Master Key) (Hash : Type) (master : Master)
    (hsalt : salt.length = saltSize) {existing : Option Bytes}
    (hfresh : ∀ f ∈ existing, f.length < headerSize)
    (hpre : preallocateEncrypted salt size existing = .ok file) :
    ∃ h, openEncrypted S master size true false file = .ok h ∧
      ∀ events file', Run (WriteStep S.cipher h) file events file' →
        ∃ flat, Run Flat.Step (Flat.zero size) events flat ∧
          ServesFlat S Hash master size file' flat ∧
          ∀ op : WriteOp, KeepsSlots op.pos op.buf.length file' (op.exec S.cipher h file').1 := by
  have hr := represents_preallocate S master hsalt hfresh hpre
  have hh : WritableHandle S master salt size ⟨S.fileKey master salt, size, false, true⟩ :=
    ⟨⟨rfl, rfl⟩, rfl, rfl⟩
  refine ⟨_, openEncrypted_eq hr true false, fun events file' hrun => ?_⟩
  obtain ⟨flat, hflat, hr'⟩ := represents_of_run hh hr hrun
  refine ⟨flat, hflat, hr'.servesFlat, fun op => ?_⟩
  obtain ⟨file'', heq, -, hkeep⟩ := exec_eq hr' hh op
  rwa [heq]

/-- A fresh file of five bytes. -/
theorem encrypted_refines_flat_five :
    ∃ h, openEncrypted ⟨fun (m : Bytes) salt => salt ++ m, Aead.tagging⟩ [1] 5 true false
        ((magic ++ List.replicate 16 7).setLen 65600) = .ok h ∧
      ∀ events file', Run (WriteStep Aead.tagging h)
          ((magic ++ List.replicate 16 7).setLen 65600) events file' →
        ∃ flat, Run Flat.Step (Flat.zero 5) events flat ∧
          ServesFlat ⟨fun (m : Bytes) salt => salt ++ m, Aead.tagging⟩ Unit [1] 5 file' flat ∧
          ∀ op : WriteOp,
            KeepsSlots op.pos op.buf.length file' (op.exec Aead.tagging h file').1 :=
  encrypted_refines_flat ⟨fun (m : Bytes) salt => salt ++ m, Aead.tagging⟩ Unit [1]
    (show (List.replicate 16 (7 : UInt8)).length = saltSize from rfl)
    (show ∀ f ∈ (none : Option Bytes), f.length < headerSize by simp) rfl

end Chorrent
