/-
# Manifests

What a share contains (`manifest.rs`): its name and, for each file, the path below the
download folder, the size and the root hash.  The share's id is the hash of the encoded
manifest, so a downloader can take the manifest from any peer and check it.
-/
import Mathlib.Data.List.DropRight
import Chorrent.Lib.Codec
import Chorrent.Error
import Chorrent.Path

namespace Chorrent

open Lib

/-! ## Portable names -/

/-- `char::is_whitespace`: the Unicode property `White_Space`. -/
def isWhitespace (c : Char) : Bool :=
  let n := c.toNat
  (0x9 ≤ n && n ≤ 0xD) || n == 0x20 || n == 0x85 || n == 0xA0 || n == 0x1680 ||
    (0x2000 ≤ n && n ≤ 0x200A) || n == 0x2028 || n == 0x2029 || n == 0x202F || n == 0x205F ||
    n == 0x3000

/-- `str::trim_end`. -/
def trimEnd (text : List Char) : List Char := text.rdropWhile isWhitespace

/-- `eq_ignore_ascii_case`; `Char.toLower` changes ASCII letters only. -/
def eqIgnoreAsciiCase (a b : List Char) : Bool := a.map Char.toLower == b.map Char.toLower

/-- Names Windows keeps for devices. -/
def reservedNames : List String :=
  ["CON", "PRN", "AUX", "NUL", "COM1", "COM2", "COM3", "COM4", "COM5", "COM6", "COM7", "COM8",
    "COM9", "LPT1", "LPT2", "LPT3", "LPT4", "LPT5", "LPT6", "LPT7", "LPT8", "LPT9"]

/-- Characters Windows doesn't allow in a name, besides control characters. -/
def forbiddenChars : List Char := "<>:\"/\\|?*".toList

/-- Why `name` can't be used as a file name on every system we support, if it can't. -/
def nameProblem (name : String) : Option String :=
  if name = "" ∨ name = "." ∨ name = ".." then some "is not a file name"
  else if name.toList.any fun c => c < ' ' || forbiddenChars.contains c then
    some ("contains a character Windows doesn't allow " ++
      "(< > : \" / \\ | ? * or a control character)")
  else if name.toList.getLast?.any fun c => c == '.' || c == ' ' then
    some "ends with a dot or space, which Windows doesn't allow"
  else
    let stem := trimEnd (name.toList.takeWhile (· ≠ '.'))
    if reservedNames.any fun r => eqIgnoreAsciiCase r.toList stem then
      some "is a reserved device name on Windows"
    else none

lemma ordinary_of_nameProblem {name : String} (h : nameProblem name = none) :
    Path.Ordinary name := by
  unfold nameProblem at h
  split_ifs at h with hname hchars
  simp only [not_or] at hname
  refine ⟨hname.1, hname.2.1, hname.2.2, fun c hc => ?_⟩
  have hforbidden : c ∉ forbiddenChars := fun hmem =>
    hchars (List.any_eq_true.2 ⟨c, hc, by simp [hmem]⟩)
  refine ⟨?_, ?_, ?_⟩ <;> rintro rfl <;> exact hforbidden (by decide)

/-! ## Manifests -/

/-- One file in a share. -/
structure FileEntry (Hash : Type) where
  /-- Components below the download folder; the first is the share's name. -/
  path : List String
  size : ℕ
  size_lt : size < 2 ^ 64
  rootHash : Hash
deriving DecidableEq

/-- The size of the files in the examples. -/
lemma FileEntry.five_lt : 5 < 2 ^ 64 := by decide

/-- The list of files in a share. -/
structure Manifest (Hash : Type) where
  name : String
  files : List (FileEntry Hash)
deriving DecidableEq

variable {Hash : Type}

/-- The path of the file below the download folder. -/
def FileEntry.relativePath (os : Os) (file : FileEntry Hash) : Path := Path.collect os file.path

instance lawfulBEqComponents : LawfulBEq (List String) := inferInstance

/-- How a file entry is serialized. -/
def FileEntry.codec (hash : Codec Hash) : Codec (FileEntry Hash) :=
  ((Codec.list .string).seq (Codec.varint.seq hash)).convert
    (fun file => (file.path, file.size, file.rootHash))
    (fun v => if h : v.2.1 < 2 ^ 64 then some ⟨v.1, v.2.1, h, v.2.2⟩ else none)
    (fun file => dif_pos file.size_lt)

namespace Manifest

/-- `MANIFEST_VERSION` -/
def version : UInt8 := 1

/-- How a manifest is serialized, after the version byte. -/
def codec (hash : Codec Hash) : Codec (Manifest Hash) :=
  (Codec.string.seq (Codec.list (FileEntry.codec hash))).convert
    (fun m => (m.name, m.files)) (fun v => some ⟨v.1, v.2⟩) (fun _ => rfl)

/-- Combined size of all files. -/
def totalSize (m : Manifest Hash) : ℕ := (m.files.map FileEntry.size).sum

def encode (hash : Codec Hash) (m : Manifest Hash) : List UInt8 :=
  version :: (codec hash).encode m

section

variable (toLowercase : String → String)

/-- The loop of `validate` over the files, with the lower-cased paths seen before. -/
def validateFiles (name : String) :
    List (FileEntry Hash) → List (List String) → Except BadManifest Unit
  | [], _ => .ok ()
  | file :: files, seen =>
      if file.path.head? ≠ some name then .error .outsideFolder
      else
        match file.path.findSome? fun c => (nameProblem c).map fun why => (c, why) with
        | some (c, why) => .error (.unsafeName c why)
        | none =>
            -- case-insensitive: these would collide on Windows and macOS
            let lowered := file.path.map toLowercase
            if lowered ∈ seen then .error .duplicatePath
            else validateFiles name files (lowered :: seen)

def validate (m : Manifest Hash) : Except BadManifest Unit :=
  validateFiles toLowercase m.name m.files []

variable [DecidableEq Hash] (idOf : List UInt8 → Hash) (hash : Codec Hash)

/-- Decode a manifest a peer sent us, checking it is the one we asked for. -/
def decodeVerified (encoded : List UInt8) (expected : Hash) :
    Except BadManifest (Manifest Hash) :=
  if idOf encoded ≠ expected then .error .wrongHash
  else
    match encoded with
    | [] => .error .empty
    | v :: rest =>
        if v ≠ version then .error (.unsupportedVersion v)
        else
          match (codec hash).decode rest with
          | none => .error .undecodable
          | some (m, _) => do
              m.validate toLowercase
              return m

end

lemma nameProblem_of_validateFiles {toLowercase : String → String} {name : String}
    {files : List (FileEntry Hash)} {seen : List (List String)}
    (h : validateFiles toLowercase name files seen = .ok ()) :
    ∀ file ∈ files, file.path.head? = some name ∧ ∀ c ∈ file.path, nameProblem c = none := by
  induction files generalizing seen with
  | nil => simp
  | cons file files ih =>
    unfold validateFiles at h
    split_ifs at h with hhead
    cases hfind : file.path.findSome? fun c => (nameProblem c).map fun why => (c, why) with
    | some found =>
      rw [hfind] at h
      simp at h
    | none =>
      rw [hfind] at h
      simp only at h
      split_ifs at h with hseen
      intro f hf
      rcases List.mem_cons.1 hf with rfl | hf
      · refine ⟨by simpa using hhead, fun c hc => ?_⟩
        have := List.findSome?_eq_none_iff.1 hfind c hc
        simpa using this
      · exact ih h f hf

variable [DecidableEq Hash] {idOf : List UInt8 → Hash} {hash : Codec Hash}
  {toLowercase : String → String}

/-- What an accepted byte string is: the version byte and an encoding of the manifest, which
passed the check. -/
lemma decodeVerified_eq_ok {encoded : List UInt8} {expected : Hash} {m : Manifest Hash} :
    decodeVerified toLowercase idOf hash encoded expected = .ok m ↔
      idOf encoded = expected ∧ m.validate toLowercase = .ok () ∧
        ∃ rest tail, encoded = version :: rest ∧ (codec hash).decode rest = some (m, tail) := by
  unfold decodeVerified
  by_cases hid : idOf encoded = expected
  · cases encoded with
    | nil => simp [hid]
    | cons v rest =>
      by_cases hv : v = version
      · subst hv
        cases hdec : (codec hash).decode rest with
        | none => simp [hid, hdec]
        | some r =>
          obtain ⟨m', tail⟩ := r
          have hrest : (∃ rest' tail', version :: rest = version :: rest' ∧
              (codec hash).decode rest' = some (m, tail')) ↔ m' = m := by
            constructor
            · rintro ⟨rest', tail', heq, hdec'⟩
              rw [← (List.cons.inj heq).2, hdec] at hdec'
              exact (Prod.mk.inj (Option.some.inj hdec')).1
            · rintro rfl
              exact ⟨rest, tail, rfl, hdec⟩
          rw [hrest]
          cases hval : m'.validate toLowercase with
          | error e =>
            simp only [hid, hdec, hval, bind, Except.bind, ne_eq, not_true_eq_false, if_false,
              true_and, reduceCtorEq, false_iff, not_and]
            rintro hok rfl
            simp [hval] at hok
          | ok u =>
            simp only [hid, hdec, hval, bind, Except.bind, pure, Except.pure, ne_eq,
              not_true_eq_false, if_false, true_and, Except.ok.injEq]
            refine ⟨?_, fun h => h.2⟩
            rintro rfl
            exact ⟨hval, rfl⟩
      · constructor
        · intro h
          simp [hid, hv] at h
        · rintro ⟨-, -, rest', tail', heq, -⟩
          exact absurd (List.cons.inj heq).1 hv
  · simp [hid]

end Manifest

end Chorrent
