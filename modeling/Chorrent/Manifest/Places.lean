/-
# The places of files

Whether the files of an accepted manifest can be created below an empty folder.  The check of the
files makes sure that no two have the same path without regard to case; it does not look whether
a file is where another needs a folder.
-/
import Chorrent.Lib.Folders
import Chorrent.Manifest.Confined

namespace Chorrent

open Lib

variable {Hash : Type}

/-- The path of the file without regard to case. -/
def FileEntry.lowered (toLowercase : String → String) (file : FileEntry Hash) : List String :=
  file.path.map toLowercase

/-- The place of the file below the destination, for a file system that takes names for the same
if `fold` does. -/
def FileEntry.placeBelow (os : Os) (dest : Path) (fold : String → String) (file : FileEntry Hash) :
    List String :=
  ((file.downloadPath os dest).segments.drop dest.base.length).map fold

namespace Manifest

variable (toLowercase : String → String)

def loweredPaths (m : Manifest Hash) : List (List String) :=
  m.files.map (FileEntry.lowered toLowercase)

/-- The paths of the folders that files are in, and of the folders above these. -/
def loweredFolders (m : Manifest Hash) : List (List String) :=
  (m.loweredPaths toLowercase).flatMap fun path => path.dropLast.inits

/-- Below any empty folder, on any file system that tells names apart which differ in more than
case, the files can be created in any order, each in its own place. -/
def LaysOut (os : Os) (m : Manifest Hash) : Prop :=
  ∀ (dest : Path) (fold : String → String),
    (∀ a b, fold a = fold b → toLowercase a = toLowercase b) →
    ∀ steps, LayOutStep.Ordered steps → (∀ s ∈ steps, s.label ∈ m.files) →
      ∃ t, Folder.layOut (FileEntry.placeBelow os dest fold) .empty steps = some t ∧
        ∀ file, .file file ∈ steps → t (file.path.map fold) = some (.file file)

/-- The paths are distinct, none is a proper start of another, and the files can be created. -/
structure Layable (os : Os) (m : Manifest Hash) : Prop where
  distinct : (m.loweredPaths toLowercase).Nodup
  free : ∀ p ∈ m.loweredPaths toLowercase, ∀ q ∈ m.loweredPaths toLowercase, p <+: q → p = q
  laysOut : m.LaysOut toLowercase os

variable {toLowercase}

lemma nodup_of_validateFiles {name : String} {files : List (FileEntry Hash)}
    {seen : List (List String)} (h : validateFiles toLowercase name files seen = .ok ()) :
    (files.map (FileEntry.lowered toLowercase)).Nodup ∧
      ∀ file ∈ files, file.lowered toLowercase ∉ seen := by
  induction files generalizing seen with
  | nil => simp
  | cons file files ih =>
    unfold validateFiles at h
    split_ifs at h
    cases hfind : file.path.findSome? fun c => (nameProblem c).map fun why => (c, why) with
    | some found =>
      rw [hfind] at h
      cases h
    | none =>
      rw [hfind] at h
      simp only at h
      split_ifs at h with hseen
      obtain ⟨hnodup, hnew⟩ := ih h
      refine ⟨List.nodup_cons.2 ⟨fun hmem => ?_, hnodup⟩, fun f hf => ?_⟩
      · obtain ⟨f, hf, heq⟩ := List.mem_map.1 hmem
        exact hnew f hf (heq ▸ List.mem_cons_self)
      · rcases List.mem_cons.1 hf with rfl | hf
        · exact hseen
        · exact fun hmem => hnew f hf (List.mem_cons_of_mem _ hmem)

/-- In a checked manifest, the place of a file is its path. -/
lemma placeBelow_eq {m : Manifest Hash} (h : m.validate toLowercase = .ok ())
    (os : Os) (dest : Path)
    (fold : String → String) {file : FileEntry Hash} (hfile : file ∈ m.files) :
    file.path ≠ [] ∧ file.placeBelow os dest fold = file.path.map fold := by
  obtain ⟨hhead, hpath⟩ := nameProblem_of_validateFiles h file hfile
  have hne : file.path ≠ [] := by
    intro hnil
    simp [hnil] at hhead
  have hordinary : ∀ c ∈ file.path, Path.Ordinary c := fun c hc =>
    ordinary_of_nameProblem (hpath c hc)
  refine ⟨hne, ?_⟩
  rw [FileEntry.placeBelow, FileEntry.downloadPath, FileEntry.relativePath,
    Path.collect_ordinary os hne hordinary, Path.push_ordinary os dest hordinary, List.drop_left]

/-- Paths that start alike for a finer comparison start alike for a coarser one. -/
lemma map_prefix_of_map {fold fold' : String → String}
    (h : ∀ a b, fold a = fold b → fold' a = fold' b) :
    ∀ {l l' : List String}, l.map fold <+: l'.map fold → l.map fold' <+: l'.map fold'
  | [], _, _ => List.nil_prefix
  | a :: l, [], hpre => absurd (List.prefix_nil.1 hpre) (by simp)
  | a :: l, b :: l', hpre => by
      obtain ⟨hab, hrest⟩ := List.cons_prefix_cons.1 hpre
      exact List.cons_prefix_cons.2 ⟨h a b hab, map_prefix_of_map h hrest⟩

lemma laysOut_of_free {os : Os} {m : Manifest Hash} (hvalid : m.validate toLowercase = .ok ())
    (hfree : ∀ p ∈ m.loweredPaths toLowercase, ∀ q ∈ m.loweredPaths toLowercase, p <+: q → p = q) :
    m.LaysOut toLowercase os := by
  intro dest fold hfold steps hordered hlabels
  have hplace : ∀ file ∈ m.files,
      file.path ≠ [] ∧ file.placeBelow os dest fold = file.path.map fold :=
    fun file hfile => placeBelow_eq hvalid os dest fold hfile
  have hfiles : ∀ b ∈ m.files, ∀ c ∈ m.files,
      b.placeBelow os dest fold <+: c.placeBelow os dest fold → b = c := by
    intro b hb c hc hpre
    rw [(hplace b hb).2, (hplace c hc).2] at hpre
    refine List.inj_on_of_nodup_map (nodup_of_validateFiles hvalid).1 hb hc ?_
    exact hfree _ (List.mem_map_of_mem hb) _ (List.mem_map_of_mem hc) (map_prefix_of_map hfold hpre)
  have hne : ∀ b ∈ m.files, b.placeBelow os dest fold ≠ [] := by
    intro b hb hnil
    rw [(hplace b hb).2, List.map_eq_nil_iff] at hnil
    exact (hplace b hb).1 hnil
  obtain ⟨t, ht, hlaid⟩ := Folder.layOut_of_free hfiles hne hordered hlabels
  refine ⟨t, ht, fun file hfile => ?_⟩
  rw [← (hplace file (hlabels _ hfile)).2]
  exact hlaid.files file hfile

/-- A file where another needs a folder cannot be created before that folder. -/
lemma not_laysOut {os : Os} {m : Manifest Hash} (hvalid : m.validate toLowercase = .ok ())
    {b c : FileEntry Hash} (hb : b ∈ m.files) (hc : c ∈ m.files)
    (hpre : b.lowered toLowercase <+: c.lowered toLowercase)
    (hproper : b.lowered toLowercase ≠ c.lowered toLowercase) : ¬m.LaysOut toLowercase os := by
  intro h
  have hordered : LayOutStep.Ordered [.folders b, .file b, .folders c] := by
    intro before f after heq
    rcases before with _ | ⟨s, _ | ⟨s', _ | ⟨s'', before⟩⟩⟩
    · cases heq
    · cases heq
      exact List.mem_cons_self
    · cases heq
    · cases before <;> cases heq
  obtain ⟨t, ht, -⟩ := h .empty toLowercase (fun _ _ h => h) [.folders b, .file b, .folders c]
    hordered (by simp [LayOutStep.label, hb, hc])
  obtain ⟨hne, hbplace⟩ := placeBelow_eq hvalid os .empty toLowercase hb
  obtain ⟨-, hcplace⟩ := placeBelow_eq hvalid os .empty toLowercase hc
  have hne' : b.placeBelow os .empty toLowercase ≠ [] := by
    rw [hbplace]
    simpa using hne
  have hpre' : b.placeBelow os .empty toLowercase <+: c.placeBelow os .empty toLowercase := by
    rw [hbplace, hcplace]
    exact hpre
  have hproper' : b.placeBelow os .empty toLowercase ≠ c.placeBelow os .empty toLowercase := by
    rw [hbplace, hcplace]
    exact hproper
  have hnone := Folder.layOut_eq_none hne' hpre' hproper'
  rw [hnone] at ht
  cases ht

lemma free_iff {m : Manifest Hash} (hvalid : m.validate toLowercase = .ok ()) :
    (∀ p ∈ m.loweredPaths toLowercase, ∀ q ∈ m.loweredPaths toLowercase, p <+: q → p = q) ↔
      ∀ p ∈ m.loweredPaths toLowercase, p ∉ m.loweredFolders toLowercase := by
  have hne : ∀ q ∈ m.loweredPaths toLowercase, q ≠ [] := by
    intro q hq hnil
    obtain ⟨file, hfile, rfl⟩ := List.mem_map.1 hq
    exact (placeBelow_eq hvalid .unix .empty id hfile).1 (List.map_eq_nil_iff.1 hnil)
  constructor
  · intro hfree p hp hfolder
    obtain ⟨q, hq, hpq⟩ := List.mem_flatMap.1 hfolder
    have hpre : p <+: q.dropLast := (List.mem_inits _ _).1 hpq
    obtain rfl := hfree p hp q hq (hpre.trans (List.dropLast_prefix q))
    exact Folder.not_prefix_dropLast (hne p hp) hpre
  · intro hclear p hp q hq hpre
    by_contra hproper
    refine hclear p hp (List.mem_flatMap.2 ⟨q, hq, (List.mem_inits _ _).2 ?_⟩)
    exact Folder.prefix_dropLast hpre hproper

variable [DecidableEq Hash]

/-- The files of an accepted manifest have distinct paths; they can be created in any order, and
none of the paths is a proper start of another, exactly when no file is where another needs a
folder. -/
theorem accepted_layable_iff (os : Os) {idOf : List UInt8 → Hash} {hash : Codec Hash}
    {encoded : List UInt8} {expected : Hash} {m : Manifest Hash}
    (h : decodeVerified toLowercase idOf hash encoded expected = .ok m) :
    (m.Layable toLowercase os ↔
        ∀ p ∈ m.loweredPaths toLowercase, p ∉ m.loweredFolders toLowercase) ∧
      (m.LaysOut toLowercase os ↔
        ∀ p ∈ m.loweredPaths toLowercase, p ∉ m.loweredFolders toLowercase) := by
  obtain ⟨-, hvalid, -⟩ := decodeVerified_eq_ok.1 h
  rw [← free_iff hvalid]
  constructor
  · exact ⟨fun hlayable => hlayable.free,
      fun hfree => ⟨(nodup_of_validateFiles hvalid).1, hfree, laysOut_of_free hvalid hfree⟩⟩
  · refine ⟨fun hlays p hp q hq hpre => ?_, fun hfree => laysOut_of_free hvalid hfree⟩
    obtain ⟨b, hb, rfl⟩ := List.mem_map.1 hp
    obtain ⟨c, hc, rfl⟩ := List.mem_map.1 hq
    by_contra hproper
    exact not_laysOut hvalid hb hc hpre hproper hlays

/-- A folder with two files in it. -/
theorem accepted_layable_iff_two :
    (⟨"x", [⟨["x", "a"], 5, FileEntry.five_lt, List.Vector.replicate 2 7⟩,
      ⟨["x", "b"], 5, by decide, List.Vector.replicate 2 7⟩]⟩ :
        Manifest (List.Vector UInt8 2)).Layable id .unix :=
  (accepted_layable_iff .unix
    (show decodeVerified id (fun bytes => List.Vector.replicate 2 (bytes.headD 0)) (.array 2)
      [1, 1, 120, 2, 2, 1, 120, 1, 97, 5, 7, 7, 2, 1, 120, 1, 98, 5, 7, 7]
      (List.Vector.replicate 2 1) = .ok _ by decide +kernel)).1.2 (by decide)

/-- A share that is to be a file, and the folder of another file. -/
def fileAndFolder : Manifest (List.Vector UInt8 32) :=
  ⟨"x", [⟨["x"], 5, FileEntry.five_lt, List.Vector.replicate 32 7⟩,
    ⟨["x", "a"], 5, FileEntry.five_lt, List.Vector.replicate 32 7⟩]⟩

/-- It is accepted, whatever the hash function, and cannot be laid out in its own order. -/
theorem file_and_folder_accepted :
    (∀ idOf : List UInt8 → List.Vector UInt8 32,
      decodeVerified id idOf (.array 32) (fileAndFolder.encode (.array 32))
        (idOf (fileAndFolder.encode (.array 32))) = .ok fileAndFolder) ∧
    Folder.layOut (FileEntry.placeBelow .unix .empty id) .empty
        (fileAndFolder.files.flatMap fun file => [.folders file, .file file]) = none ∧
    ¬fileAndFolder.Layable id .unix := by
  have hvalid : fileAndFolder.validate id = .ok () := by decide
  refine ⟨fun idOf => ?_, ?_, fun hlayable => ?_⟩
  · rw [decodeVerified_eq_ok]
    exact ⟨rfl, hvalid, _, [], rfl, by decide +kernel⟩
  · exact Option.isNone_iff_eq_none.1 (by decide +kernel)
  · refine not_laysOut hvalid (b := fileAndFolder.files.get ⟨0, by decide⟩)
      (c := fileAndFolder.files.get ⟨1, by decide⟩) (List.get_mem ..) (List.get_mem ..)
      (by decide) (by decide) hlayable.laysOut

end Manifest

end Chorrent
