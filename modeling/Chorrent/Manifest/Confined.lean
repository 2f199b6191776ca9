/-
# Manifests and the download folder

Where a plain download of an accepted manifest puts things: the share's root is the
destination joined with the manifest's name, each file is the destination joined with its
path.  The check of the files ties the name to the first component of every path, so the
name is as safe as the paths are when there are any.
-/
import Chorrent.Manifest.Basic

namespace Chorrent

open Lib

variable {Hash : Type}

/-- Where `for_download` puts a file. -/
def FileEntry.downloadPath (os : Os) (dest : Path) (file : FileEntry Hash) : Path :=
  dest.push os (file.relativePath os)

namespace Manifest

/-- The share's root, as `for_download` computes it and as it is saved and removed later. -/
def downloadRoot (os : Os) (dest : Path) (m : Manifest Hash) : Path := dest.join os m.name

/-- The root and every file lie strictly inside the destination. -/
def Confined (os : Os) (dest : Path) (m : Manifest Hash) : Prop :=
  dest.StrictlyInside (m.downloadRoot os dest) ∧
    ∀ file ∈ m.files, dest.StrictlyInside (file.downloadPath os dest)

/-- The manifest a byte string spells, checked or not. -/
def contents (hash : Codec Hash) (encoded : List UInt8) : Option (Manifest Hash) :=
  ((codec hash).decode encoded.tail).map Prod.fst

lemma downloadPath_strictlyInside {toLowercase : String → String} {m : Manifest Hash}
    (h : m.validate toLowercase = .ok ()) (os : Os) (dest : Path) {file : FileEntry Hash}
    (hfile : file ∈ m.files) : dest.StrictlyInside (file.downloadPath os dest) := by
  obtain ⟨hhead, hpath⟩ := nameProblem_of_validateFiles h file hfile
  have hne : file.path ≠ [] := by
    intro hnil
    simp [hnil] at hhead
  have hordinary : ∀ c ∈ file.path, Path.Ordinary c := fun c hc =>
    ordinary_of_nameProblem (hpath c hc)
  rw [FileEntry.downloadPath, FileEntry.relativePath, Path.collect_ordinary os hne hordinary]
  exact Path.strictlyInside_of_ordinary os dest hne hordinary

/-- A checked manifest with a file has an ordinary name. -/
lemma ordinary_name {toLowercase : String → String} {m : Manifest Hash}
    (h : m.validate toLowercase = .ok ()) (hfiles : m.files ≠ []) : Path.Ordinary m.name := by
  obtain ⟨file, hfile⟩ := List.exists_mem_of_ne_nil _ hfiles
  obtain ⟨hhead, hpath⟩ := nameProblem_of_validateFiles h file hfile
  exact ordinary_of_nameProblem (hpath _ (List.mem_of_mem_head? hhead))

variable [DecidableEq Hash]

/-- An accepted manifest stays inside every destination folder exactly when it lists a file
or its name happens to be nothing but ordinary names: without files, the name is never
checked. -/
theorem decodeVerified_confined_iff (os : Os) {toLowercase : String → String}
    {idOf : List UInt8 → Hash} {hash : Codec Hash} {encoded : List UInt8} {expected : Hash}
    {m : Manifest Hash} (h : decodeVerified toLowercase idOf hash encoded expected = .ok m) :
    (∀ dest, m.Confined os dest) ↔
      ∃ written, contents hash encoded = some written ∧
        (written.files ≠ [] ∨ Path.OrdinaryText os written.name) := by
  obtain ⟨-, hvalid, rest, tail, hencoded, hdecode⟩ := decodeVerified_eq_ok.1 h
  have hcontents : contents hash encoded = some m := by simp [contents, hencoded, hdecode]
  have hroot : (∀ dest : Path, dest.StrictlyInside (m.downloadRoot os dest)) ↔
      Path.OrdinaryText os m.name := Path.forall_strictlyInside_iff os m.name
  simp only [hcontents, Option.some.injEq, exists_eq_left']
  constructor
  · intro hconf
    exact Or.inr (hroot.1 fun dest => (hconf dest).1)
  · rintro (hfiles | hname) dest
    · refine ⟨?_, fun file hfile => downloadPath_strictlyInside hvalid os dest hfile⟩
      have hordinary := ordinary_name hvalid hfiles
      rw [downloadRoot, Path.join, Path.parse_ordinary os hordinary]
      exact Path.strictlyInside_of_ordinary os dest (by simp) (by simpa using hordinary)
    · exact ⟨hroot.2 hname dest, fun file hfile => downloadPath_strictlyInside hvalid os dest hfile⟩

/-- A manifest of one file is accepted and stays inside every folder. -/
theorem decodeVerified_confined_iff_single :
    (∀ dest : Path, (⟨"x", [⟨["x"], 5, by decide, List.Vector.replicate 2 7⟩]⟩ :
        Manifest (List.Vector UInt8 2)).Confined .unix dest) ↔
      ∃ written, contents (.array 2) [1, 1, 120, 1, 1, 1, 120, 5, 7, 7] = some written ∧
        (written.files ≠ [] ∨ Path.OrdinaryText .unix written.name) :=
  decodeVerified_confined_iff .unix
    (show decodeVerified id (fun bytes => List.Vector.replicate 2 (bytes.headD 0)) (.array 2)
      [1, 1, 120, 1, 1, 1, 120, 5, 7, 7] (List.Vector.replicate 2 1) = _ by decide)

/-- The manifest named `..` that lists no files is accepted, whatever the hash function, and
its root is not inside the folder it is downloaded to. -/
theorem decodeVerified_escapes :
    (∀ idOf : List UInt8 → List.Vector UInt8 32,
      decodeVerified id idOf (.array 32) [1, 2, 46, 46, 0] (idOf [1, 2, 46, 46, 0]) =
        .ok ⟨"..", []⟩) ∧
    (⟨"..", []⟩ : Manifest (List.Vector UInt8 32)).downloadRoot .unix
        ⟨none, true, ["home", "downloads"]⟩ = ⟨none, true, ["home", "downloads", ".."]⟩ ∧
    ¬ (⟨"..", []⟩ : Manifest (List.Vector UInt8 32)).Confined .unix
        ⟨none, true, ["home", "downloads"]⟩ := by
  have hroot : (⟨"..", []⟩ : Manifest (List.Vector UInt8 32)).downloadRoot .unix
      ⟨none, true, ["home", "downloads"]⟩ = ⟨none, true, ["home", "downloads", ".."]⟩ := by decide
  refine ⟨fun idOf => ?_, hroot, ?_⟩
  · rw [decodeVerified_eq_ok]
    exact ⟨rfl, rfl, [2, 46, 46, 0], [], rfl, by decide⟩
  · rintro ⟨⟨-, -, names, hne, hnames, hsegments⟩, -⟩
    rw [hroot] at hsegments
    have hsplit : ["home", "downloads"] ++ [".."] = ["home", "downloads"] ++ names := hsegments
    have : names = [".."] := (List.append_cancel_left hsplit).symm
    exact absurd (hnames ".." (by simp [this])).2.2.1 (by simp)

end Manifest

end Chorrent
