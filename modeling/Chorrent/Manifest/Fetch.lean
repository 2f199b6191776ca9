/-
# Fetching a manifest

What a downloader accepts as the manifest of a share code (`fetch_manifest` of `download.rs`).
The total size it compares with the code's is computed in wrapping arithmetic, so a code can
understate what arrives: it can't exactly if the sizes suit the machine words.
-/
import Chorrent.Manifest.Release
import Chorrent.Protocol.Basic

namespace Chorrent

open Lib

variable {Hash : Type}

/-- `MAX_MANIFEST_BYTES`: 8 MiB. -/
def maxManifestBytes : ℕ := 8 * 1024 * 1024

/-- What a share code says of the content. -/
structure ShareCode (Hash : Type) where
  id : Hash
  name : String
  totalSize : ℕ
  totalSize_lt : totalSize < 2 ^ 64

instance [DecidableEq Hash] : DecidableEq (ShareCode Hash) := fun c c' =>
  decidable_of_iff (c.id = c'.id ∧ c.name = c'.name ∧ c.totalSize = c'.totalSize) (by
    cases c
    cases c'
    rw [ShareCode.mk.injEq])

variable [DecidableEq Hash]

/-- `fetch_manifest`, from a peer's answer on. -/
def fetchManifest (toLowercase : String → String) (idOf : List UInt8 → Hash) (hash : Codec Hash)
    (code : ShareCode Hash) : Response → Except BadManifest (Manifest Hash × Bytes)
  | .manifest bytes =>
      if bytes.length ≤ maxManifestBytes then do
        let m ← Manifest.decodeVerified toLowercase idOf hash bytes code.id
        -- the share code is what the user saw; don't let it understate what arrives
        if (Release.totalSize m).value ≠ code.totalSize ∨ m.name ≠ code.name then
          throw .codeMismatch
        return (m, bytes)
      else .error .notSent
  | _ => .error .notSent

variable {toLowercase : String → String} {idOf : List UInt8 → Hash} {hash : Codec Hash}
  {code : ShareCode Hash} {response : Response} {m : Manifest Hash} {bytes : Bytes}

lemma fetchManifest_eq_ok :
    fetchManifest toLowercase idOf hash code response = .ok (m, bytes) ↔
      response = .manifest bytes ∧ bytes.length ≤ maxManifestBytes ∧
        Manifest.decodeVerified toLowercase idOf hash bytes code.id = .ok m ∧
        (Release.totalSize m).value = code.totalSize ∧ m.name = code.name := by
  cases response with
  | manifest sent =>
    rw [fetchManifest]
    by_cases hlen : sent.length ≤ maxManifestBytes
    · rw [if_pos hlen]
      cases hdecode : Manifest.decodeVerified toLowercase idOf hash sent code.id with
      | error e =>
        constructor
        · exact fun h => by cases h
        · rintro ⟨hsent, -, hm, -⟩
          rw [← Response.manifest.inj hsent, hdecode] at hm
          cases hm
      | ok decoded =>
        -- the total size is compared as the release build adds it up
        by_cases hcode : (Release.totalSize decoded).value = code.totalSize ∧
            decoded.name = code.name
        · simp only [bind, Except.bind, hcode.1, hcode.2, ne_eq, not_true_eq_false,
            or_self, if_false]
          constructor
          · intro h
            obtain ⟨rfl, rfl⟩ := Prod.mk.inj (Except.ok.inj h)
            exact ⟨rfl, hlen, hdecode, hcode⟩
          · rintro ⟨hsent, -, hm, -⟩
            obtain rfl := Response.manifest.inj hsent
            rw [Except.ok.inj (hdecode.symm.trans hm)]
            rfl
        · have hrefuse : (Release.totalSize decoded).value ≠ code.totalSize ∨
              decoded.name ≠ code.name := not_and_or.1 hcode
          simp only [bind, Except.bind, hrefuse, if_true]
          constructor
          · exact fun h => by cases h
          · rintro ⟨hsent, -, hm, hsame⟩
            rw [← Response.manifest.inj hsent, hdecode] at hm
            obtain rfl := Except.ok.inj hm
            exact absurd hsame hcode
    · rw [if_neg hlen]
      constructor
      · exact fun h => by cases h
      · rintro ⟨hsent, hle, -⟩
        rw [← Response.manifest.inj hsent] at hle
        exact absurd hle hlen
  | _ => simp [fetchManifest]

/-- An accepted manifest is exactly as large as the share code says, and nothing about its
pieces overflows, exactly if the sizes it lists suit the words. -/
theorem fetched_as_stated_iff (w : ℕ)
    (h : fetchManifest toLowercase idOf hash code response = .ok (m, bytes)) :
    m.totalSize = code.totalSize ∧ Release.Exact w m ↔
      (m.files.map FileEntry.size).sum < 2 ^ 64 ∧
        (∀ file ∈ m.files, file.size ≤ 2 ^ 64 - blockSize) ∧
        (m.files.map fun file => blockCount file.size).sum < 2 ^ w := by
  have hsize := (fetchManifest_eq_ok.1 h).2.2.2.1
  rw [Release.exact_iff]
  constructor
  · rintro ⟨-, htotal, hsizes, hpieces⟩
    exact ⟨htotal, hsizes, hpieces⟩
  · rintro ⟨htotal, hsizes, hpieces⟩
    refine ⟨?_, htotal, hsizes, hpieces⟩
    rw [← hsize, Release.totalSize_eq htotal]

/-! ## Manifests to try -/

/-- A manifest that is sent as it was encoded is accepted with its own share code. -/
lemma fetchManifest_encode (idOf : List UInt8 → Hash) (hvalid : m.validate toLowercase = .ok ())
    (hfits : (Manifest.codec hash).Fits m) (hlen : (m.encode hash).length ≤ maxManifestBytes)
    (hid : code.id = idOf (m.encode hash)) (hname : code.name = m.name)
    (hsize : code.totalSize = (Release.totalSize m).value) :
    fetchManifest toLowercase idOf hash code (.manifest (m.encode hash)) =
      .ok (m, m.encode hash) := by
  have hdecode := (Manifest.codec hash).decode_encode m [] hfits
  rw [List.append_nil] at hdecode
  refine fetchManifest_eq_ok.2 ⟨rfl, hlen, ?_, hsize.symm, hname.symm⟩
  exact Manifest.decodeVerified_eq_ok.2 ⟨hid.symm, hvalid, _, _, rfl, hdecode⟩

namespace Understated

/-- A file of 2⁶³ bytes. -/
def half (name : String) : FileEntry (List.Vector UInt8 32) :=
  ⟨["x", name], 2 ^ 63, by decide, List.Vector.replicate 32 7⟩

/-- Two files that make up 2⁶⁴ bytes. -/
def twoHalves : Manifest (List.Vector UInt8 32) := ⟨"x", [half "a", half "b"]⟩

def oneFile : Manifest (List.Vector UInt8 32) :=
  ⟨"x", [⟨["x"], 5, FileEntry.five_lt, List.Vector.replicate 32 7⟩]⟩

/-- The share code of a manifest, as far as it says how much arrives. -/
def codeOf (hashOf : List UInt8 → List.Vector UInt8 32) (m : Manifest (List.Vector UInt8 32))
    (total : ℕ) (h : total < 2 ^ 64) : ShareCode (List.Vector UInt8 32) :=
  ⟨hashOf (m.encode (.array 32)), m.name, total, h⟩

lemma fits_twoHalves : (Manifest.codec (.array 32)).Fits twoHalves := by
  simp only [Manifest.codec, FileEntry.codec, Codec.convert, Codec.seq, Codec.list, Codec.string,
    Codec.varint, Codec.array, twoHalves, half]
  decide

end Understated

open Understated in
/-- Whatever the hash function, a share code that says nothing arrives is accepted with two
files that make up 2⁶⁴ bytes. -/
theorem fetched_understated :
    (∀ hashOf : List UInt8 → List.Vector UInt8 32,
      fetchManifest id hashOf (.array 32) (codeOf hashOf twoHalves 0 (by decide))
        (.manifest (twoHalves.encode (.array 32))) =
          .ok (twoHalves, twoHalves.encode (.array 32))) ∧
      twoHalves.totalSize = 2 ^ 64 := by
  have htotal : (Release.totalSize twoHalves).value = 0 := by decide
  refine ⟨fun hashOf => ?_, by decide⟩
  exact fetchManifest_encode hashOf rfl fits_twoHalves (by decide) rfl rfl htotal.symm

open Understated in
/-- A file of five bytes. -/
theorem fetched_as_stated_iff_five :
    oneFile.totalSize = 5 ∧ Release.Exact 64 oneFile := by
  have hfetched : fetchManifest id (fun _ => List.Vector.replicate 32 1) (.array 32)
      (codeOf (fun _ => List.Vector.replicate 32 1) oneFile 5 (by decide))
      (.manifest (oneFile.encode (.array 32))) = .ok (oneFile, oneFile.encode (.array 32)) := by
    decide +kernel
  exact (fetched_as_stated_iff 64 hfetched).2 (by decide)

end Chorrent
