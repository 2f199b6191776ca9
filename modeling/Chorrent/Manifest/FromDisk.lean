/-
# Manifests of what is on disk

How the manifest of a file, a folder or a stream is made (`from_disk`, `single` of
`manifest.rs`).  Names are bytes, as the operating system gives them; what is listed has
names that every system supports, and no two paths that differ in case only.
-/
import Chorrent.Chunker.Basic
import Chorrent.Lib.Except
import Chorrent.Lib.Text
import Chorrent.Manifest.Fetch

namespace Chorrent

open Lib

/-- A file or folder as it is found on disk. -/
inductive Tree where
  | file
  | dir (entries : List (Bytes × Tree))
  /-- Neither a file nor a folder, such as a symlink. -/
  | other
  | unreadable

/-- The names from the shared file or folder down to a file. -/
abbrev DiskNames := List Bytes

/-- The order in which names are sorted: byte by byte. -/
def nameLe (a b : Bytes) : Bool := a.map UInt8.toNat ≤ b.map UInt8.toNat

def unsupported (path : SeedPath) (reason : String) : Stop Error :=
  .fail (.unsupportedName path reason)

def portableName (path : SeedPath) : Option Bytes → Result String
  | none => .error (unsupported path "path has no file name")
  | some name =>
      match ofUtf8 name with
      | none => .error (unsupported path "name isn't valid Unicode")
      | some name =>
          match nameProblem name with
          | some reason => .error (unsupported path reason)
          | none => .ok name

mutual

/-- `collect`: list the files at and below a place, in a stable order. -/
def collect (path : DiskNames) (components : List String) :
    Tree → Result (List (List String × DiskNames))
  | .file => .ok [(components, path)]
  | .dir entries => do
      -- which error is met, and in which order files are listed, is decided by the names
      let listings := (collectEntries path components entries).mergeSort fun a b => nameLe a.1 b.1
      return (← listings.mapM Prod.snd).flatten
  | .other => .ok []
  | .unreadable => .error (.fail (.seedIo path .other))

/-- What each entry of a folder lists. -/
def collectEntries (path : DiskNames) (components : List String) :
    List (Bytes × Tree) → List (Bytes × Result (List (List String × DiskNames)))
  | [] => []
  | (name, tree) :: entries =>
      let listing := do
        let portable ← portableName (.below (path ++ [name])) (some name)
        collect (path ++ [name]) (components ++ [portable]) tree
      (name, listing) :: collectEntries path components entries

end

/-- An outboard whose size is a 64-bit number. -/
abbrev FileOutboard (Hash : Type) := { o : Outboard Hash // o.size < 2 ^ 64 }

lemma FileOutboard.size_lt (outboard : FileOutboard Hash) : outboard.1.size < 2 ^ 64 := outboard.2

namespace Manifest

variable {Hash Data σ : Type}

/-- The share's name: the file or folder's own name, or the label given. -/
def shareName (rootName : Option Bytes) : Option String → Result String
  | none => portableName (.below []) rootName
  | some label =>
      match nameProblem label with
      | some reason => .error (unsupported (.label label) reason)
      | none => .ok label

/-- The check that no two paths match apart from upper/lower case. -/
def checkUnique (toLowercase : String → String) :
    List (List String × DiskNames) → List (List String) → Result Unit
  | [], _ => .ok ()
  | (components, path) :: found, seen =>
      let lowered := components.map toLowercase
      if lowered ∈ seen then
        .error (unsupported (.below path)
          "matches another file's name apart from upper/lower case")
      else checkUnique toLowercase found (lowered :: seen)

/-- The loop of `from_disk` over the files found, from number `index` on; `ingest` may change
what is on disk. -/
def ingestFiles (metadata : DiskNames → IoResult ℕ)
    (ingest : ℕ → DiskNames → ℕ → σ → σ × Result (Data × FileOutboard Hash)) :
    ℕ → List (List String × DiskNames) → σ →
      σ × Result (List (FileEntry Hash × Data × FileOutboard Hash))
  | _, [], s => (s, .ok [])
  | index, (components, path) :: found, s =>
      match IoResult.orError (.seedIo path) (metadata path) with
      | .error e => (s, .error e)
      | .ok size =>
          match ingest index path size s with
          | (s, .error e) => (s, .error e)
          | (s, .ok (data, outboard)) =>
              let entry := ⟨components, outboard.1.size, outboard.size_lt, outboard.1.root⟩
              match ingestFiles metadata ingest (index + 1) found s with
              | (s, .error e) => (s, .error e)
              | (s, .ok files) => (s, .ok ((entry, data, outboard) :: files))

/-- Build the manifest for a file or folder on disk. -/
def fromDisk (toLowercase : String → String) (rootName : Option Bytes) (label : Option String)
    (tree : Tree) (metadata : DiskNames → IoResult ℕ)
    (ingest : ℕ → DiskNames → ℕ → σ → σ × Result (Data × FileOutboard Hash)) (s : σ) :
    σ × Result (Manifest Hash × List (Data × FileOutboard Hash)) :=
  let listed : Result (String × List (List String × DiskNames)) := do
    let name ← shareName rootName label
    let found ← collect [] [name] tree
    checkUnique toLowercase found []
    return (name, found)
  match listed with
  | .error e => (s, .error e)
  | .ok (name, found) =>
      match ingestFiles metadata ingest 0 found s with
      | (s, .error e) => (s, .error e)
      | (s, .ok files) => (s, .ok (⟨name, files.map Prod.fst⟩, files.map Prod.snd))

/-- A share of one file that arrived as a stream rather than a path. -/
def single (name : String) (outboard : FileOutboard Hash) : Result (Manifest Hash) :=
  match nameProblem name with
  | some reason => .error (unsupported (.label name) reason)
  | none => .ok ⟨name, [⟨[name], outboard.1.size, outboard.2, outboard.1.root⟩]⟩

end Manifest

/-! ## What is listed -/

variable {toLowercase : String → String}

lemma portableName_eq_ok {path : SeedPath} {name : Option Bytes} {portable : String}
    (h : portableName path name = .ok portable) : nameProblem portable = none := by
  cases name with
  | none => cases h
  | some name =>
    rw [portableName] at h
    split at h
    · cases h
    · split at h
      · cases h
      · rename_i hproblem
        obtain rfl := Except.ok.inj h
        exact hproblem

lemma shareName_eq_ok {rootName : Option Bytes} {label : Option String} {name : String}
    (h : Manifest.shareName rootName label = .ok name) : nameProblem name = none := by
  cases label with
  | none => exact portableName_eq_ok h
  | some label =>
    rw [Manifest.shareName] at h
    split at h
    · cases h
    · rename_i hproblem
      obtain rfl := Except.ok.inj h
      exact hproblem

/-- A path that continues the given one with portable names. -/
def Continues (components file : List String) : Prop :=
  ∃ names, file = components ++ names ∧ ∀ c ∈ names, nameProblem c = none

lemma Continues.trans {components file : List String} {name : String}
    (h : Continues (components ++ [name]) file) (hname : nameProblem name = none) :
    Continues components file := by
  obtain ⟨names, rfl, hnames⟩ := h
  exact ⟨name :: names, by simp, by simpa [hname] using hnames⟩

mutual

lemma collect_continues (path : DiskNames) (components : List String) :
    ∀ (tree : Tree) (found : List (List String × DiskNames)),
      collect path components tree = .ok found → ∀ file ∈ found, Continues components file.1
  | .file, found, h => by
      rw [collect] at h
      obtain rfl := Except.ok.inj h
      rintro file hfile
      obtain rfl := List.mem_singleton.1 hfile
      exact ⟨[], by simp, by simp⟩
  | .dir entries, found, h => by
      rw [collect] at h
      obtain ⟨listings, hlistings, h⟩ := except_bind_eq_ok.1 h
      obtain rfl := Except.ok.inj h
      intro file hfile
      obtain ⟨listing, hmem, hfile⟩ := List.mem_flatten.1 hfile
      obtain ⟨entry, hentry, hlisting⟩ := exists_of_mem_mapM hlistings hmem
      exact collectEntries_continues path components entries entry (List.mem_mergeSort.1 hentry)
        listing hlisting file hfile
  | .other, found, h => by
      rw [collect] at h
      obtain rfl := Except.ok.inj h
      simp
  | .unreadable, found, h => by
      rw [collect] at h
      cases h

lemma collectEntries_continues (path : DiskNames) (components : List String) :
    ∀ (entries : List (Bytes × Tree)), ∀ entry ∈ collectEntries path components entries,
      ∀ listing, entry.2 = .ok listing → ∀ file ∈ listing, Continues components file.1
  | [], entry, hentry => by
      rw [collectEntries] at hentry
      simp at hentry
  | (name, tree) :: entries, entry, hentry => by
      rw [collectEntries] at hentry
      rcases List.mem_cons.1 hentry with rfl | hentry
      · intro listing hlisting file hfile
        obtain ⟨portable, hportable, hcollect⟩ := except_bind_eq_ok.1 hlisting
        exact (collect_continues _ _ tree listing hcollect file hfile).trans
          (portableName_eq_ok hportable)
      · exact collectEntries_continues path components entries entry hentry

end

namespace Manifest

variable {Hash Data σ : Type} {metadata : DiskNames → IoResult ℕ}
  {ingest : ℕ → DiskNames → ℕ → σ → σ × Result (Data × FileOutboard Hash)}

/-- How a manifest made of what is on disk comes about. -/
lemma fromDisk_iff {rootName : Option Bytes} {label : Option String} {tree : Tree} {s s' : σ}
    {m : Manifest Hash} {hashed : List (Data × FileOutboard Hash)} :
    fromDisk toLowercase rootName label tree metadata ingest s = (s', .ok (m, hashed)) ↔
      shareName rootName label = .ok m.name ∧ ∃ found files, collect [] [m.name] tree = .ok found ∧
        checkUnique toLowercase found [] = .ok () ∧
        ingestFiles metadata ingest 0 found s = (s', .ok files) ∧
        m.files = files.map Prod.fst ∧ hashed = files.map Prod.snd := by
  rw [fromDisk]
  constructor
  · intro h
    split at h
    · cases h
    · rename_i name found hlisted
      obtain ⟨name', hname, hlisted⟩ := except_bind_eq_ok.1 hlisted
      obtain ⟨found', hfound, hlisted⟩ := except_bind_eq_ok.1 hlisted
      obtain ⟨_, hunique, hlisted⟩ := except_bind_eq_ok.1 hlisted
      cases hlisted
      split at h
      · cases h
      · rename_i hfiles
        cases h
        exact ⟨hname, _, _, hfound, hunique, hfiles, rfl, rfl⟩
  · rintro ⟨hname, found, files, hfound, hunique, hfiles, hm, rfl⟩
    obtain ⟨name, entries⟩ := m
    dsimp only at hname hfound hm
    subst hm
    simp only [hname, hfound, hunique, bind, Except.bind, pure, Except.pure, hfiles]

/-- The entries have the paths that were found and the sizes that were hashed. -/
lemma ingestFiles_eq_ok (found : List (List String × DiskNames)) :
    ∀ (index : ℕ) (s s' : σ) (files : List (FileEntry Hash × Data × FileOutboard Hash)),
      ingestFiles metadata ingest index found s = (s', .ok files) →
      files.map (fun file => file.1.path) = found.map Prod.fst ∧
        files.map (fun file => file.1.size) = files.map fun file => file.2.2.1.size := by
  induction found with
  | nil =>
    intro index s s' files h
    obtain ⟨-, hfiles⟩ := Prod.mk.inj h
    obtain rfl := Except.ok.inj hfiles
    exact ⟨rfl, rfl⟩
  | cons head found ih =>
    intro index s s' files h
    obtain ⟨components, path⟩ := head
    rw [ingestFiles] at h
    split at h
    · cases h
    · split at h
      · cases h
      · simp only at h
        split at h
        · cases h
        · rename_i hrest
          obtain ⟨rfl, hfiles⟩ := Prod.mk.inj h
          obtain rfl := Except.ok.inj hfiles
          obtain ⟨hpaths, hsizes⟩ := ih _ _ _ _ hrest
          exact ⟨by rw [List.map_cons, hpaths]; rfl, by rw [List.map_cons, hsizes]; rfl⟩

/-- Each file of the manifest was found, and comes from `ingest`. -/
lemma exists_ingested (found : List (List String × DiskNames)) :
    ∀ (index : ℕ) (s s' : σ) (files : List (FileEntry Hash × Data × FileOutboard Hash)),
      ingestFiles metadata ingest index found s = (s', .ok files) →
      ∀ file ∈ files, ∃ names, (file.1.path, names) ∈ found ∧
        file.1 = ⟨file.1.path, file.2.2.1.size, file.2.2.2, file.2.2.1.root⟩ ∧
        ∃ i size s s', metadata names = .ok size ∧ ingest i names size s = (s', .ok file.2) := by
  induction found with
  | nil =>
    intro index s s' files h file hfile
    cases h
    cases hfile
  | cons head found ih =>
    intro index s s' files h
    obtain ⟨components, path⟩ := head
    rw [ingestFiles] at h
    split at h
    · cases h
    · rename_i hmetadata
      split at h
      · cases h
      · rename_i hingest
        dsimp only at h
        split at h
        · cases h
        · rename_i hrest
          cases h
          intro file hfile
          rcases List.mem_cons.1 hfile with rfl | hfile
          · exact ⟨path, List.mem_cons_self, rfl, _, _, _, _, IoResult.orError_eq_ok.1 hmetadata,
              hingest⟩
          · obtain ⟨names, hmem, hrest⟩ := ih _ _ _ _ hrest file hfile
            exact ⟨names, List.mem_cons_of_mem _ hmem, hrest⟩

end Manifest

end Chorrent
