/-
# Importing a file

A source is read once, stored and hashed on the way (`import` of `chunker.rs`).  How the
bao-tree crate asks for the bytes is a parameter; it asks for as many as it was told there are.
-/
import Chorrent.Chunker.Reference
import Chorrent.Storage.Import

namespace Chorrent

open Lib Bytes

/-- How `create_sized` asks for the bytes of a file. -/
structure Reads where
  parts : ℕ → List ℕ
  sum_parts : ∀ size, (parts size).sum = size

/-- What an import meets: refusals of the operating system when the file is made and opened,
and what the writes meet. -/
structure ImportEnv extends PrepareEnv where
  openFails : Bool
  writes : ℕ → ℕ → WriteEnv

/-- `FileData::preallocate`, which leaves the length of an ordinary file to the caller. -/
def FileData.preallocate {Master : Type} (env : PrepareEnv) (data : FileData Master)
    (file : Option Bytes) : Option Bytes × IoResult Unit :=
  match data with
  | .plain _ =>
      if env.createFails then (file, .error (.fail .other)) else (some (file.getD []), .ok ())
  | .encrypted _ _ size => Chorrent.preallocate env data size file

/-- What an import leaves: the destination, the writes that were made, and the result. -/
structure Imported (Hash : Type) where
  file : Option Bytes
  writes : List DestWrite
  result : Result (Outboard Hash)

section

variable {Master Key Hash Wire : Type} (S : StoreKeys Master Key) (B : Bao Hash Wire)

/-- `import`: read the source once, storing it into `dest` while hashing it. -/
def importFile (reads : Reads) (env : ImportEnv) (source : Source) (size : ℕ)
    (dest : FileData Master) (existing : Option Bytes) : Imported Hash :=
  match dest.preallocate env.toPrepareEnv existing with
  | (file, .error e) =>
      ⟨file, [], IoResult.orError (fun e => .chunker (.openFailed dest.path e)) (.error e)⟩
  | (file, .ok ()) =>
      match if env.openFails then .error (.fail .other) else dest.openWith S true false file with
      | .error e =>
          ⟨file, [], IoResult.orError (fun e => .chunker (.openFailed dest.path e)) (.error e)⟩
      | .ok handle =>
          let importer : ImportingReader := ⟨source, file.getD [], [], 0, []⟩
          match importer.readParts S.cipher env.writes handle (reads.parts size) with
          | (r, .error e) =>
              ⟨some r.dest, r.writes,
                IoResult.orError (fun e => .chunker (.hashFailed dest.path e)) (.error e)⟩
          | (r, .ok bytes) =>
              match r.finish S.cipher env.writes handle with
              | (r, .error e) =>
                  ⟨some r.dest, r.writes,
                    IoResult.orError (fun e => .chunker (.hashFailed dest.path e)) (.error e)⟩
              | (r, .ok written) =>
                  ⟨some r.dest, r.writes,
                    if written ≠ size then
                      .error (.fail (.chunker (.hashFailed dest.path .unexpectedEof)))
                    else .ok (B.create bytes)⟩

end

/-! ## What an import leaves -/

section

open ImportingReader

variable {Master Key Hash Wire : Type} {S : StoreKeys Master Key} {B : Bao Hash Wire} {size : ℕ}
  {dest : FileData Master} {existing : Option Bytes} {file content : Bytes} {handle : Handle Key}

/-- A destination that starts with all the bytes gives them when it is read. -/
lemma holds_of_starts {old : Bytes} (hsized : dest.Sized size) (hsize : size < 2 ^ 64)
    (hopen : dest.openWith S true false (some file) = .ok handle)
    (hstarts : dest.Starts S size old file content) (hlen : content.length = size) :
    dest.Holds S size file content := by
  obtain ⟨strict, hstrict, halike⟩ := FileData.openWith_alike hopen false true
  refine ⟨strict, hstrict, ?_⟩
  cases dest with
  | plain path =>
    obtain rfl : Handle.plain = strict := Except.ok.inj hstrict
    obtain rfl : file = content ++ old.drop content.length := hstarts
    rw [Handle.readExactAt, Chorrent.readExactAt, if_pos (Or.inr (by simp [hlen])), slice,
      List.drop_zero, ← hlen, List.take_left]
  | encrypted path key declared =>
    obtain rfl : declared = size := hsized
    obtain ⟨rfl, -⟩ := openWith_encrypted hstrict
    have hb : ReadsBlocks S.cipher ⟨S.fileKey key (headerSalt file), declared, true, false⟩ file
        content fun _ => True := by
      refine ⟨hlen, fun i hi _ => ?_, fun i _ hnot => absurd trivial hnot⟩
      have hpiece := hstarts i (hlen ▸ hi)
      rw [FileData.pieceAt_eq hstrict, Handle.pieceAt_encrypted_eq_some] at hpiece
      rw [Encrypted.readBlock, hpiece]
      rfl
    have hread := (hb.readExactAt_eq 0 declared).1 (Or.inr (by simp)) fun _ _ => trivial
    rw [← hlen, slice_self] at hread
    rw [← hlen]
    exact hread

/-- Making the destination keeps the bytes of an ordinary file. -/
lemma preallocate_plain {env : PrepareEnv} {path : Path} {file : Option Bytes}
    (h : (FileData.plain path : FileData Master).preallocate env existing = (file, .ok ())) :
    file = some (existing.getD []) := by
  rw [FileData.preallocate] at h
  split_ifs at h
  · cases h
  · exact (congrArg Prod.fst h).symm

lemma preallocateEncrypted_eq_ok (hfits : FitsStore size) (salt : Bytes)
    (existing : Option Bytes) :
    ∃ bytes, preallocateEncrypted salt size existing = .ok bytes := by
  have hcreate : preallocateEncrypted.create salt size =
      .ok ((magic ++ salt).setLen (headerSize + blockCount size * slotSize)) := by
    have hlt : headerSize + blockCount size * slotSize < 2 ^ 64 := hfits
    rw [preallocateEncrypted.create, checkedMul_of_lt (by omega), orPanic_some_bind,
      checkedAdd_of_lt hlt, orPanic_some_bind]
    rfl
  cases existing with
  | none => exact ⟨_, hcreate⟩
  | some file =>
    rw [preallocateEncrypted]
    split_ifs
    · exact ⟨file, rfl⟩
    · exact ⟨_, hcreate⟩

lemma preallocate_no_panic {env : PrepareEnv} {file : Option Bytes}
    (hsized : dest.Sized size) (hfits : dest.isEncrypted = true → FitsStore size) :
    dest.preallocate env existing ≠ (file, .error .panic) := by
  intro h
  cases dest with
  | plain path =>
    rw [FileData.preallocate] at h
    split_ifs at h
    · cases h
    · cases h
  | encrypted path key declared =>
    obtain rfl : declared = size := hsized
    obtain ⟨bytes, hbytes⟩ := preallocateEncrypted_eq_ok (hfits rfl) env.salt.bytes existing
    rw [FileData.preallocate, preallocate] at h
    split_ifs at h
    · cases h
    · cases h
    · cases h
    · rw [hbytes] at h
      cases h

/-- Opening a destination does not panic. -/
lemma openWith_no_panic {write strict : Bool} {file : Option Bytes} :
    dest.openWith S write strict file ≠ .error .panic := by
  intro h
  cases file with
  | none => cases h
  | some file =>
    cases dest with
    | plain path => cases h
    | encrypted path key declared =>
      simp only [FileData.openWith] at h
      rcases openEncrypted_cases S key declared write strict file with ⟨hopen, -⟩ | ⟨e, hopen⟩
      · rw [hopen] at h
        cases h
      · rw [hopen] at h
        cases h

lemma orError_error {α : Type} (toError : IoError → Error) (e : Stop IoError) :
    ∃ e', IoResult.orError toError (.error e : IoResult α) = .error e' ∧
      (e ≠ .panic → e' ≠ .panic) := by
  cases e with
  | fail e => exact ⟨_, rfl, fun _ => nofun⟩
  | panic => exact ⟨_, rfl, fun h => absurd rfl h⟩

/-- What an import stores when it works. -/
structure Imported.Stores (S : StoreKeys Master Key) (B : Bao Hash Wire) (size : ℕ)
    (dest : FileData Master) (existing : Option Bytes) (content : Bytes)
    (imported : Imported Hash) (outboard : Outboard Hash) : Prop where
  length_eq : content.length = size
  hashed : outboard = B.create content
  file : ∃ file, imported.file = some file ∧ dest.Holds S size file content ∧
    (dest.isEncrypted = false → file = content ++ (existing.getD []).drop size)
  writes : Writes imported.writes content

/-- Before anything is read. -/
lemma holding_start (size : ℕ) {env : PrepareEnv}
    (hpre : dest.preallocate env existing = (some file, .ok ()))
    (hopen : dest.openWith S true false (some file) = .ok handle) (source : Source) :
    Holding S dest size (existing.getD []) handle ⟨source, file, [], 0, []⟩ [] where
  opens := hopen
  starts := by
    cases dest with
    | plain path => exact Option.some.inj (preallocate_plain hpre)
    | encrypted path key declared => exact fun i hi => absurd hi (Nat.not_lt_zero _)
  dvd_written := dvd_zero _
  written_le := le_rfl
  pending_eq := rfl
  pending_lt := (by decide : 0 < blockSize)
  writes := ⟨rfl, nofun, nofun, nofun⟩

/-- An import fails, or it stores the bytes that come first in the source. -/
lemma importFile_cases (reads : Reads) (env : ImportEnv) (source : Source) (hsize : size < 2 ^ 64)
    (hsized : dest.Sized size) (existing : Option Bytes) :
    (∃ e, (importFile S B reads env source size dest existing).result = .error e ∧
        ((dest.isEncrypted = true → FitsStore size) → e ≠ .panic)) ∨
      ∃ outboard content, (importFile S B reads env source size dest existing).result =
          .ok outboard ∧ content = source.available.take size ∧
        Imported.Stores S B size dest existing content
          (importFile S B reads env source size dest existing) outboard := by
  rw [importFile]
  cases hpre : dest.preallocate env.toPrepareEnv existing with
  | mk file result =>
  cases result with
  | error e =>
    obtain ⟨e', he', hpanic⟩ := orError_error (α := Outboard Hash)
      (fun e => .chunker (.openFailed dest.path e)) e
    refine Or.inl ⟨e', he', fun hfits => hpanic ?_⟩
    rintro rfl
    exact preallocate_no_panic hsized hfits hpre
  | ok u =>
    simp only
    cases hopen : (if env.openFails then .error (.fail .other)
        else dest.openWith S true false file : IoResult (Handle Key)) with
    | error e =>
      obtain ⟨e', he', hpanic⟩ := orError_error (α := Outboard Hash)
        (fun e => .chunker (.openFailed dest.path e)) e
      refine Or.inl ⟨e', he', fun _ => hpanic ?_⟩
      rintro rfl
      split_ifs at hopen
      · cases hopen
      · exact openWith_no_panic hopen
    | ok handle =>
      have hopen' : dest.openWith S true false file = .ok handle := by
        by_cases hfails : env.openFails = true
        · rw [if_pos hfails] at hopen
          cases hopen
        · rwa [if_neg hfails] at hopen
      obtain ⟨bytes, rfl⟩ : ∃ bytes, file = some bytes := by
        cases file with
        | none => cases hopen'
        | some bytes => exact ⟨bytes, rfl⟩
      simp only [Option.getD_some]
      -- from here on the file is open, and it holds what was read so far
      have hstart := holding_start size hpre hopen' source
      rcases Holding.readParts env.writes hsized hsize (reads.parts size) _ _ hstart
          (by rw [reads.sum_parts, List.length_nil, Nat.zero_add]) with
        ⟨r, e, hread, hpanic⟩ | ⟨r, content, hread, hholding, hlen, havailable⟩
      · rw [hread]
        obtain ⟨e', he', hpanic'⟩ := orError_error (α := Outboard Hash)
          (fun e => .chunker (.hashFailed dest.path e)) e
        exact Or.inl ⟨e', he', fun hfits => hpanic' (hpanic hfits)⟩
      · rw [hread]
        rw [List.nil_append] at hholding
        rw [reads.sum_parts] at hlen
        simp only
        rcases hholding.finish env.writes hsized hsize hlen with
          ⟨r', e, hfinish, hpanic⟩ | ⟨r', hfinish, hopens, hstarts, hwrites⟩
        · rw [hfinish]
          obtain ⟨e', he', hpanic'⟩ := orError_error (α := Outboard Hash)
            (fun e => .chunker (.hashFailed dest.path e)) e
          exact Or.inl ⟨e', he', fun hfits => hpanic' (hpanic hfits)⟩
        · rw [hfinish]
          refine Or.inr ⟨B.create content, content, if_neg (not_not.2 rfl), ?_, hlen, rfl,
            ⟨r'.dest, rfl, holds_of_starts hsized hsize hopens hstarts hlen, ?_⟩, hwrites⟩
          · rw [havailable, ← hlen, List.take_left]
          · intro hplain
            cases dest with
            | plain path => exact hlen ▸ hstarts
            | encrypted path key declared => cases hplain

/-- An ordinary destination holds the bytes that were imported, and no others. -/
def Imported.Exact (dest : FileData Master) (content : Bytes) (imported : Imported Hash) : Prop :=
  dest.isEncrypted = false → imported.file = some content

/-- The destination is encrypted, or nothing is there, or nothing longer. -/
def FileData.TakesOver (dest : FileData Master) (size : ℕ) (existing : Option Bytes) : Prop :=
  dest.isEncrypted = true ∨ ∀ old, existing = some old → old.length ≤ size

lemma Imported.Stores.exact_iff {imported : Imported Hash} {outboard : Outboard Hash}
    (h : imported.Stores S B size dest existing content outboard) :
    imported.Exact dest content ↔ dest.TakesOver size existing := by
  obtain ⟨file, hfile, -, hrest⟩ := h.file
  rw [Imported.Exact, FileData.TakesOver]
  cases hkind : dest.isEncrypted with
  | true => simp
  | false =>
    simp only [forall_const, Bool.false_eq_true, false_or]
    rw [hfile, hrest hkind, Option.some_inj, List.append_right_eq_self, List.drop_eq_nil_iff]
    cases existing with
    | none => simp
    | some old => simp

end

/-! ## An import that meets nothing -/

namespace ThreeBytes

/-- All bytes are asked for at once. -/
def reads : Reads := ⟨fun size => [size], fun size => by simp⟩

def salt : Bytes := List.replicate 16 7

lemma length_salt : salt.length = saltSize := rfl

/-- Nothing is refused. -/
def env : ImportEnv where
  hashFails := false
  createFails := false
  resizeFails := false
  salt := ⟨salt, length_salt⟩
  openFails := false
  writes _ _ := ⟨⟨List.replicate 24 9, rfl, by decide⟩, none⟩

end ThreeBytes

section

open ImportingReader ThreeBytes

variable {Master Key Hash Wire : Type} {S : StoreKeys Master Key} {B : Bao Hash Wire} {size : ℕ}
  {dest : FileData Master} {existing : Option Bytes}

lemma writeDest_plain (r : ImportingReader) (bytes : Bytes) :
    writeDest S.cipher env.writes .plain r bytes =
      ({ r with
          dest := r.dest.overwrite r.written bytes
          writes := r.writes ++ [⟨r.written, bytes, false⟩] }, .ok ()) := rfl

/-- All bytes of an ordinary file are read at once. -/
lemma readParts_plain (file : Bytes) (size : ℕ) :
    ∃ r, readParts S.cipher env.writes .plain ⟨[.got (zeros size)], file, [], 0, []⟩ [size] =
        (r, .ok (zeros size)) ∧ r.written + r.pending.length = size := by
  rcases size with _ | n
  · exact ⟨_, rfl, rfl⟩
  have hlength := length_zeros (n + 1)
  obtain ⟨r, hread, hsum⟩ : ∃ r, read S.cipher env.writes .plain
      ⟨[.got (zeros (n + 1))], file, [], 0, []⟩ (n + 1) = (r, .ok (zeros (n + 1))) ∧
        r.written + r.pending.length = n + 1 := by
    rw [ImportingReader.read, Source.read, if_pos hlength.le, List.take_of_length_le hlength.le]
    simp only [List.nil_append, hlength, writeDest_plain]
    split_ifs
    · refine ⟨_, rfl, ?_⟩
      have := Nat.div_mul_le_self (n + 1) blockSize
      simp only [List.length_drop, hlength]
      omega
    · exact ⟨_, rfl, by simp only [hlength, Nat.zero_add]⟩
  refine ⟨r, ?_, hsum⟩
  rw [readParts, ImportingReader.readExact, hread]
  have hne : zeros (n + 1) ≠ [] := List.cons_ne_nil _ _
  simp only [if_neg hne, hlength, Nat.sub_self, ImportingReader.readExact, readParts, Except.map,
    List.append_nil]

/-- Where nothing is refused, an ordinary file is imported. -/
lemma importFile_plain (path : Path) (size : ℕ) (existing : Option Bytes) :
    (importFile S B reads env [.got (zeros size)] size (.plain path) existing).result =
      .ok (B.create (zeros size)) := by
  obtain ⟨r, hread, hsum⟩ := readParts_plain (S := S) (existing.getD []) size
  have hfinish : ∃ r', r.finish S.cipher env.writes .plain = (r', .ok size) := by
    rw [ImportingReader.finish]
    split_ifs with hempty
    · rw [hempty, List.length_nil, Nat.add_zero] at hsum
      exact ⟨r, by rw [hsum]⟩
    · rw [writeDest_plain]
      exact ⟨_, Prod.ext rfl (congrArg Except.ok hsum)⟩
  obtain ⟨r', hfinish⟩ := hfinish
  have hopen : ∀ file, (FileData.plain path : FileData Master).openWith S true false (some file) =
      .ok .plain := fun _ => rfl
  have hpre : (FileData.plain path : FileData Master).preallocate env.toPrepareEnv existing =
      (some (existing.getD []), .ok ()) := rfl
  have hopens : env.openFails = false := rfl
  rw [importFile, hpre]
  simp only [hopens, Bool.false_eq_true, if_false, hopen, Option.getD_some]
  rw [show reads.parts size = [size] from rfl, hread]
  simp only [hfinish, ne_eq, not_true_eq_false, if_false]

end

section

variable {Master Key Hash Wire : Type} {S : StoreKeys Master Key} {B : Bao Hash Wire} {size : ℕ}
  {dest : FileData Master}

/-- Importing stores exactly what was hashed.  However the source splits its bytes, an import
that works has hashed the first `size` bytes of the source, in order, and the destination
holds them; every write but the last is of whole pieces at the start of a piece.  It fails if the
source ends early, or if a read or a write fails.  An ordinary file keeps what it had behind the
bytes: it holds no others if and only if it was no longer than they are. -/
theorem import_stores_what_was_hashed (reads : Reads) (env : ImportEnv) (source : Source)
    (hsize : size < 2 ^ 64) (hsized : dest.Sized size) (existing : Option Bytes) :
    (∀ outboard, (importFile S B reads env source size dest existing).result = .ok outboard →
        Imported.Stores S B size dest existing (source.available.take size)
          (importFile S B reads env source size dest existing) outboard) ∧
      (source.available.length < size ∨
          (∃ w ∈ (importFile S B reads env source size dest existing).writes, w.failed = true) →
        ∃ e, (importFile S B reads env source size dest existing).result = .error e) ∧
      ((dest.isEncrypted = true → FitsStore size) →
        (importFile S B reads env source size dest existing).result ≠ .error .panic) ∧
      (∀ outboard, (importFile S B reads env source size dest existing).result = .ok outboard →
        ((importFile S B reads env source size dest existing).Exact dest
          (source.available.take size) ↔ dest.TakesOver size existing)) ∧
      ((∀ reads env source outboard,
          (importFile S B reads env source size dest existing).result = .ok outboard →
          (importFile S B reads env source size dest existing).Exact dest
            (source.available.take size)) ↔ dest.TakesOver size existing) := by
  have hok : ∀ reads env source outboard,
      (importFile S B reads env source size dest existing).result = .ok outboard →
        Imported.Stores S B size dest existing (source.available.take size)
          (importFile S B reads env source size dest existing) outboard := by
    intro reads env source outboard hresult
    rcases importFile_cases (S := S) (B := B) reads env source hsize hsized existing with
      ⟨e, he, -⟩ | ⟨outboard', content, hok, rfl, hstores⟩
    · cases he.symm.trans hresult
    · rwa [Except.ok.inj (hresult.symm.trans hok)]
  refine ⟨hok reads env source, fun hshort => ?_, fun hfits heq => ?_,
    fun outboard h => (hok reads env source outboard h).exact_iff, fun hall => ?_,
    fun htakes reads env source outboard h =>
      (hok reads env source outboard h).exact_iff.2 htakes⟩
  · cases hresult : (importFile S B reads env source size dest existing).result with
    | error e => exact ⟨e, rfl⟩
    | ok outboard =>
      have hstores := hok reads env source outboard hresult
      rcases hshort with hshort | ⟨w, hw, hfailed⟩
      · have hlen := hstores.length_eq
        rw [List.length_take] at hlen
        omega
      · rw [hstores.writes.succeeded w hw] at hfailed
        cases hfailed
  · rcases importFile_cases (S := S) (B := B) reads env source hsize hsized existing with
      ⟨e, he, hpanic⟩ | ⟨outboard, content, hresult, -⟩
    · exact hpanic hfits (Except.error.inj (he.symm.trans heq))
    · cases hresult.symm.trans heq
  · -- an import that meets nothing works, so that the length decides
    cases dest with
    | encrypted path key declared => exact .inl rfl
    | plain path =>
      have hresult := importFile_plain (S := S) (B := B) path size existing
      exact (hok _ _ _ _ hresult).exact_iff.1 (hall _ _ _ _ hresult)

end

/-! ## A file of three bytes -/

namespace ThreeBytes

def keys : StoreKeys Bytes Bytes := ⟨fun m salt => salt ++ m, Aead.tagging⟩

/-- The bytes come one, none and two at a time. -/
def source : Source := [.got [1], .failed .interrupted, .got [2, 3]]

def path : Path := ⟨none, true, ["blobs", "x"]⟩

end ThreeBytes

open ThreeBytes in
/-- An ordinary file that was longer keeps what it had behind the bytes that are imported. -/
theorem import_keeps_rest :
    (∃ outboard, (importFile keys referenceBao reads env source 3 (.plain path)
        (some [4, 5, 6, 7])).result = .ok outboard) ∧
      (importFile keys referenceBao reads env source 3 (.plain path) (some [4, 5, 6, 7])).file ≠
        some (source.available.take 3) :=
  ⟨⟨referenceBao.create [1, 2, 3], rfl⟩, by decide +kernel⟩

open ThreeBytes in
/-- A file of two bytes is written over, one of the store is filled, and a source that ends early
fails. -/
theorem import_stores_what_was_hashed_three_bytes :
    (importFile keys referenceBao reads env source 3 (.plain path) (some [8, 9])).file =
        some [1, 2, 3] ∧
      (∀ outboard, (importFile keys referenceBao reads env source 3 (.encrypted path [0] 3)
          none).result = .ok outboard →
        Imported.Stores keys referenceBao 3 (.encrypted path [0] 3) none [1, 2, 3]
          (importFile keys referenceBao reads env source 3 (.encrypted path [0] 3) none)
          outboard) ∧
      ∃ e, (importFile keys referenceBao reads env [.got [1]] 3 (.plain path) none).result =
        .error e := by
  have hplain : FileData.Sized 3 (.plain path : FileData Bytes) := trivial
  have hencrypted : FileData.Sized 3 (.encrypted path [0] 3 : FileData Bytes) := rfl
  obtain ⟨-, -, -, hexact, -⟩ := import_stores_what_was_hashed (S := keys) (B := referenceBao)
    reads env source (by decide) hplain (some [8, 9])
  obtain ⟨hstores, -⟩ := import_stores_what_was_hashed (S := keys) (B := referenceBao) reads env
    source (by decide) hencrypted none
  obtain ⟨-, hshort, -⟩ := import_stores_what_was_hashed (S := keys) (B := referenceBao) reads env
    [.got [1]] (by decide) hplain none
  refine ⟨(hexact (referenceBao.create [1, 2, 3]) rfl).2 (.inr fun old hold => ?_) rfl,
    hstores, hshort (.inl (by decide))⟩
  rw [← Option.some.inj hold]
  decide

end Chorrent
