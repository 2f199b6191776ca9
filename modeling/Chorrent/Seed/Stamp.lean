/-
# Files that are edited while a share is saved

A plain file is hashed piece by piece, its size and modified time are looked up later, when the
share is saved, and they are compared when the share is loaded; other programs may write to it
at any time in between.  So a record may vouch for a file that was never hashed: one that was
edited after its bytes were read and before it was looked up.  Nothing else goes wrong: if each
file is looked up as it was when its reading began, a file that looks unchanged has the content
that was hashed.
-/
import Chorrent.Lib.Run
import Chorrent.Lib.Versions
import Chorrent.Seed.Rehash

namespace Chorrent

open Lib

/-! ## Files and edits -/

/-- A file as it lies on disk. -/
structure OnDisk where
  content : FileBytes
  /-- The modified time, unless it is before 1970. -/
  mtime : Option ℕ

/-- `modified`, of a file that may be missing. -/
def stampOf (file : Option OnDisk) : Option (ℕ × ℕ) :=
  file.bind fun file => file.mtime.map fun mtime => (file.content.1.length, mtime)

/-- Files and their earlier versions. -/
abbrev Edited := Versions Path (Option OnDisk)

/-- What the operating system answers now. -/
def Edited.disk (files : Edited) : SeedDisk where
  tree path := if (files.now path).isSome then .file else .dir []
  read path := ((files.now path).map fun file => .ok file.content).getD (.error (.fail .notFound))
  len path := ((files.now path).map fun file => .ok file.content.1.length).getD
    (.error (.fail .notFound))
  mtime path := (files.now path).bind OnDisk.mtime
  len_of_read path content h := by
    cases hfile : files.now path with
    | none =>
      rw [hfile] at h
      cases h
    | some file =>
      rw [hfile] at h
      cases h
      rfl

lemma Edited.modified_disk (files : Edited) (path : Path) :
    files.disk.modified path = stampOf (files.now path) := by
  cases hfile : files.now path with
  | none => simp [SeedDisk.modified, disk, stampOf, hfile]
  | some file => simp [SeedDisk.modified, disk, stampOf, hfile]

section

variable {Master Key Hash Wire : Type} [DecidableEq Hash] (B : Bao Hash Wire) (form : PairForm Hash)
  (toLowercase : String → String) (idOf : Bytes → Hash) (hash : Codec Hash) (os : Os)
  (text : Path → String)

/-! ## Saving a share file by file -/

/-- What is hashed: a share that is made of what was listed at and below a root, which must get
this id if it is loaded again, or a download that is checked. -/
inductive Job (Master Hash : Type)
  | make (expected : Option Hash) (root : Path) (name : String)
      (secret : Option (List.Vector UInt8 32)) (found : List (List String × DiskNames))
  | verify (seed : Seed Master Hash)

/-- The files that are hashed, in turn. -/
def Job.paths : Job Master Hash → List Path
  | .make _ root _ _ found => found.map fun file => SeedDisk.below os root file.2
  | .verify seed => seed.share.files.map fun file => file.data.path

/-- The share that comes of it when all files are hashed, if any. -/
def Job.outcome : Job Master Hash → List (FileOutboard Hash) → Option (Seed Master Hash)
  | .make expected root name secret found, outboards =>
      let manifest : Manifest Hash := ⟨name, found.zipWith (fun file outboard =>
        ⟨file.1, outboard.1.size, outboard.size_lt, outboard.1.root⟩) outboards⟩
      let seed := Seed.fromParts idOf manifest (manifest.encode hash)
        (found.zipWith (fun file outboard => ⟨.plain (SeedDisk.below os root file.2), outboard.1⟩)
          outboards) secret root
      if expected.all (· = seed.id) then some seed else none
  | .verify seed, outboards =>
      if outboards.map (fun outboard => outboard.1.root) =
        seed.share.manifest.files.map FileEntry.rootHash then some seed else none

/-- What is checked is a plain share. -/
def Job.Proper : Job Master Hash → Prop
  | .make .. => True
  | .verify seed => seed.Plain B toLowercase idOf hash os ∧ seed.manifestBytes.length < 2 ^ 64

/-- What `remember_seed` saves, given what it looked up of each file. -/
def Seed.recordWith (seed : Seed Master Hash) (stamps : List (ℕ × ℕ)) : SeedRecord where
  root := text seed.share.root
  secret := seed.secret
  manifest := seed.manifestBytes
  files := seed.share.files.zipWith (fun file stamp => (text file.data.path, stamp)) stamps
  outboards := seed.share.progress form

/-- A call that hashes, loads or saves a share.  `opened` are the numbers of the versions that
files had when their reading began, which the program does not know. -/
inductive Attempt (Master Hash : Type)
  | idle
  /-- These files are hashed; of the next one, if it is open, so many bytes are to be read and
  these were read. -/
  | hashing (job : Job Master Hash) (hashed : List (FileOutboard Hash)) (opened : List ℕ)
      (reading : Option (ℕ × Bytes))
  /-- `load_seed` compares the files of a record with what was saved of them. -/
  | checking (id : Hash) (record : SeedRecord) (manifest : Manifest Hash) (opened : List ℕ)
  /-- The share is held, and will be saved once each file is looked up. -/
  | saving (seed : Seed Master Hash) (opened : List ℕ) (stamps : List (ℕ × ℕ))

/-- The files, the records of shares, and the calls in progress. -/
structure SaveState (Master Hash : Type) where
  files : Edited
  saved : Hash → Option SeedRecord
  attempts : ℕ → Attempt Master Hash

namespace SaveState

/-- Nothing is saved. -/
def new (now : Path → Option OnDisk) : SaveState Master Hash :=
  ⟨.new now, fun _ => none, fun _ => .idle⟩

def set (s : SaveState Master Hash) (n : ℕ) (attempt : Attempt Master Hash) :
    SaveState Master Hash :=
  { s with attempts := Function.update s.attempts n attempt }

omit [DecidableEq Hash] in
@[simp] lemma attempts_set (s : SaveState Master Hash) (n : ℕ) (attempt : Attempt Master Hash) :
    (s.set n attempt).attempts n = attempt := Function.update_self ..

end SaveState

inductive SaveAction (Master Hash : Type)
  /-- Another program writes, creates or removes a file. -/
  | edit (path : Path) (file : Option OnDisk)
  | start (n : ℕ) (job : Job Master Hash)
  | openFile (n : ℕ)
  | read (n count : ℕ)
  | hashFile (n : ℕ)
  | hold (n : ℕ)
  | load (n : ℕ) (id : Hash)
  | check (n : ℕ)
  | resume (n : ℕ) (allowed : Option (Finset EndpointId))
  | rehash (n : ℕ) (found : List (List String × DiskNames))
  | lookUp (n : ℕ)
  | save (n : ℕ)
  /-- The call fails, or is dropped. -/
  | abandon (n : ℕ)
  | forget (id : Hash)

/-- One step.  A file that is replaced while it is open may still be read as it was. -/
inductive SaveStep : SaveState Master Hash → SaveAction Master Hash → SaveState Master Hash → Prop
  | edit {s : SaveState Master Hash} {path : Path} {file : Option OnDisk}
      (hfresh : s.files.Fresh stampOf path file) :
      SaveStep s (.edit path file) { s with files := s.files.write path file }
  | start {s : SaveState Master Hash} {n : ℕ} {job : Job Master Hash} (hidle : s.attempts n = .idle)
      (hproper : job.Proper B toLowercase idOf hash os) :
      SaveStep s (.start n job) (s.set n (.hashing job [] [] none))
  | openFile {s : SaveState Master Hash} {n : ℕ} {job : Job Master Hash}
      {hashed : List (FileOutboard Hash)} {opened : List ℕ} {path : Path} {file : OnDisk}
      (h : s.attempts n = .hashing job hashed opened none)
      (hpath : (job.paths os)[hashed.length]? = some path) (hfile : s.files.now path = some file) :
      SaveStep s (.openFile n) (s.set n (.hashing job hashed (opened ++ [s.files.count path])
        (some (file.content.1.length, []))))
  | read {s : SaveState Master Hash} {n count : ℕ} {job : Job Master Hash}
      {hashed : List (FileOutboard Hash)} {opened : List ℕ} {size version : ℕ} {seen : Bytes}
      {path : Path} {file : OnDisk}
      (h : s.attempts n = .hashing job hashed opened (some (size, seen)))
      (hpath : (job.paths os)[hashed.length]? = some path)
      (hopened : opened[hashed.length]? = some version)
      (hfile : some file ∈ s.files.since path version) :
      SaveStep s (.read n count) (s.set n (.hashing job hashed opened
        (some (size, seen ++ file.content.1.slice seen.length (min count (size - seen.length))))))
  | hashFile {s : SaveState Master Hash} {n : ℕ} {job : Job Master Hash}
      {hashed : List (FileOutboard Hash)} {opened : List ℕ} {size : ℕ} {seen : Bytes}
      (h : s.attempts n = .hashing job hashed opened (some (size, seen)))
      (hsize : seen.length = size) (hlt : (B.create seen).size < 2 ^ 64) :
      SaveStep s (.hashFile n)
        (s.set n (.hashing job (hashed ++ [⟨B.create seen, hlt⟩]) opened none))
  | hold {s : SaveState Master Hash} {n : ℕ} {job : Job Master Hash}
      {hashed : List (FileOutboard Hash)} {opened : List ℕ} {seed : Seed Master Hash}
      (h : s.attempts n = .hashing job hashed opened none)
      (hall : hashed.length = (job.paths os).length)
      (hseed : job.outcome idOf hash os hashed = some seed)
      (hlt : seed.manifestBytes.length < 2 ^ 64) :
      SaveStep s (.hold n) (s.set n (.saving seed opened []))
  | load {s : SaveState Master Hash} {n : ℕ} {id : Hash} {record : SeedRecord}
      {manifest : Manifest Hash} (hidle : s.attempts n = .idle) (hsaved : s.saved id = some record)
      (hdecode : Manifest.decodeVerified toLowercase idOf hash record.manifest id = .ok manifest) :
      SaveStep s (.load n id) (s.set n (.checking id record manifest []))
  | check {s : SaveState Master Hash} {n : ℕ} {id : Hash} {record : SeedRecord}
      {manifest : Manifest Hash} {opened : List ℕ} {file : String × ℕ × ℕ}
      (h : s.attempts n = .checking id record manifest opened)
      (hfile : record.files[opened.length]? = some file)
      (hsame : s.files.disk.modified (Path.parse os file.1) = some file.2) :
      SaveStep s (.check n) (s.set n (.checking id record manifest
        (opened ++ [s.files.count (Path.parse os file.1)])))
  | resume {s : SaveState Master Hash} {n : ℕ} {id : Hash} {record : SeedRecord}
      {manifest : Manifest Hash} {opened : List ℕ} {allowed : Option (Finset EndpointId)}
      (h : s.attempts n = .checking id record manifest opened)
      (hall : opened.length = record.files.length)
      (hlength : record.outboards.length = record.files.length) :
      SaveStep s (.resume n allowed) (s.set n (.saving (asSaved B form idOf os record manifest
        (record.files.map fun file => .plain (Path.parse os file.1)) allowed) opened []))
  | rehash {s : SaveState Master Hash} {n : ℕ} {id : Hash} {record : SeedRecord}
      {manifest : Manifest Hash} {opened : List ℕ} {file : String × ℕ × ℕ}
      {found : List (List String × DiskNames)}
      (h : s.attempts n = .checking id record manifest opened)
      (hfile : record.files[opened.length]? = some file)
      (hchanged : s.files.disk.modified (Path.parse os file.1) ≠ some file.2) :
      SaveStep s (.rehash n found) (s.set n (.hashing (.make (some id) (Path.parse os record.root)
        manifest.name record.secret found) [] [] none))
  | lookUp {s : SaveState Master Hash} {n : ℕ} {seed : Seed Master Hash} {opened : List ℕ}
      {stamps : List (ℕ × ℕ)} {file : LocalFile Master Hash}
      (h : s.attempts n = .saving seed opened stamps)
      (hfile : seed.share.files[stamps.length]? = some file) :
      SaveStep s (.lookUp n) (s.set n (.saving seed opened
        (stamps ++ [(s.files.disk.modified file.data.path).getD (0, 0)])))
  | save {s : SaveState Master Hash} {n : ℕ} {seed : Seed Master Hash} {opened : List ℕ}
      {stamps : List (ℕ × ℕ)} (h : s.attempts n = .saving seed opened stamps)
      (hall : stamps.length = seed.share.files.length)
      (htext : ∀ file ∈ seed.share.files, Path.parse os (text file.data.path) = file.data.path) :
      SaveStep s (.save n) { s.set n .idle with
        saved := Function.update s.saved seed.id (some (seed.recordWith form text stamps)) }
  | abandon {s : SaveState Master Hash} {n : ℕ} : SaveStep s (.abandon n) (s.set n .idle)
  | forget {s : SaveState Master Hash} {id : Hash} :
      SaveStep s (.forget id) { s with saved := Function.update s.saved id none }

/-- When a file is looked up it has a modified time, and nobody wrote to it since its reading
began. -/
def SaveState.Undisturbed (s : SaveState Master Hash) : SaveAction Master Hash → Prop
  | .lookUp n => ∀ seed opened stamps (file : LocalFile Master Hash),
      s.attempts n = .saving seed opened stamps → seed.share.files[stamps.length]? = some file →
        opened[stamps.length]? = some (s.files.count file.data.path) ∧
          s.files.disk.modified file.data.path ≠ none
  | _ => True

/-! ## Without edits -/

omit [DecidableEq Hash] in
/-- What is ingested are the files that were found, hashed one by one. -/
lemma ingestFiles_hashed {root : Path} {disk : SeedDisk} (found : List (List String × DiskNames)) :
    ∀ (index : ℕ) (u : Unit) (files : List (FileEntry Hash × FileData Master × FileOutboard Hash)),
      Manifest.ingestFiles (fun names => disk.len (SeedDisk.below os root names))
          (fun _ names _ u =>
            (u, (hashFile B disk (SeedDisk.below os root names)).map fun outboard =>
            ((FileData.plain (SeedDisk.below os root names) : FileData Master), outboard)))
          index found () = (u, .ok files) →
      List.Forall₂ (fun (file : List String × DiskNames) outboard =>
          hashFile B disk (SeedDisk.below os root file.2) = .ok outboard) found
          (files.map fun file => file.2.2) ∧
        files.map Prod.fst = found.zipWith (fun file (outboard : FileOutboard Hash) =>
          ⟨file.1, outboard.1.size, outboard.size_lt, outboard.1.root⟩)
            (files.map fun file => file.2.2) ∧
        files.map (fun file => (⟨file.2.1, file.2.2.1⟩ : LocalFile Master Hash)) =
          found.zipWith (fun file (outboard : FileOutboard Hash) =>
            ⟨.plain (SeedDisk.below os root file.2), outboard.1⟩)
              (files.map fun file => file.2.2) := by
  induction found with
  | nil =>
    intro index u files h
    cases h
    exact ⟨.nil, rfl, rfl⟩
  | cons head found ih =>
    intro index u files h
    obtain ⟨components, names⟩ := head
    rw [Manifest.ingestFiles] at h
    split at h
    · cases h
    · split at h
      · cases h
      · rename_i hingest
        dsimp only at h
        split at h
        · cases h
        · rename_i hrest
          cases h
          obtain ⟨outboard, hhashed, hpair⟩ := except_map_eq_ok.1 (congrArg Prod.snd hingest)
          cases hpair
          obtain ⟨hall, hentries, hdata⟩ := ih _ _ _ hrest
          exact ⟨.cons hhashed hall, by rw [List.map_cons, hentries]; rfl,
            by rw [List.map_cons, hdata]; rfl⟩

/-- If nothing is edited meanwhile, what is shared is what is made of the hashed files. -/
lemma Job.outcome_fromDisk {disk : SeedDisk} {root : Path} {rootName : Option Bytes}
    {label : Option String} {secret : Option (List.Vector UInt8 32)} {seed : Seed Master Hash}
    (h : Seed.fromDisk B toLowercase idOf hash os disk root rootName label secret = .ok seed) :
    ∃ found hashed, collect [] [seed.share.manifest.name] (disk.tree root) = .ok found ∧
      List.Forall₂ (fun (file : List String × DiskNames) outboard =>
        hashFile B disk (SeedDisk.below os root file.2) = .ok outboard) found hashed ∧
      (Job.make none root seed.share.manifest.name secret found).outcome idOf hash os hashed =
        some seed := by
  obtain ⟨⟨manifest, kept⟩, hmade, rfl⟩ := except_map_eq_ok.1 h
  obtain ⟨-, found, files, hfound, -, hfiles, hm, rfl⟩ :=
    Manifest.fromDisk_iff.1 (Prod.ext rfl hmade)
  obtain ⟨hall, hentries, hdata⟩ := ingestFiles_hashed B os found _ _ _ hfiles
  refine ⟨found, files.map fun file => file.2.2, hfound, hall, ?_⟩
  obtain ⟨name, entries⟩ := manifest
  dsimp only at hm
  subst hm
  have hkept := (List.map_map (f := Prod.snd) (l := files)
    (g := fun file : FileData Master × FileOutboard Hash =>
      (⟨file.1, file.2.1⟩ : LocalFile Master Hash))).trans hdata
  show _ = some (Seed.fromParts idOf ⟨name, files.map Prod.fst⟩
    (Manifest.encode hash ⟨name, files.map Prod.fst⟩) ((files.map Prod.snd).map fun file =>
      ⟨file.1, file.2.1⟩) secret root)
  rw [hkept, hentries]
  rfl

/-! ## What records and calls know -/

/-- The file has this root. -/
def Names (root : Hash) (file : Option OnDisk) : Prop :=
  ∃ there, file = some there ∧ B.rootHash there.content.1 = root

/-- Each file that is still at the version that was opened has the root that was found. -/
def Vouched (files : Edited) (paths : List Path) (roots : List Hash) (opened : List ℕ) : Prop :=
  ∀ (k : ℕ) (path : Path) (root : Hash) (version : ℕ), paths[k]? = some path →
    roots[k]? = some root →
    opened[k]? = some version → files.Seen (Names B root) path version

/-- Each stamp is of a version that has the root. -/
def Stamped (files : Edited) (paths : List Path) (roots : List Hash)
    (stamps : List (ℕ × ℕ)) : Prop :=
  ∀ (k : ℕ) (path : Path) (root : Hash) (stamp : ℕ × ℕ), paths[k]? = some path →
    roots[k]? = some root → stamps[k]? = some stamp → files.Named stampOf (Names B root) path stamp

variable {B form toLowercase idOf hash os text} {files : Edited} {paths : List Path}
  {roots : List Hash} {opened : List ℕ} {stamps : List (ℕ × ℕ)}

omit [DecidableEq Hash] in
lemma Vouched.write (h : Vouched B files paths roots opened) (path : Path) (file : Option OnDisk) :
    Vouched B (files.write path file) paths roots opened :=
  fun k p root version hp hroot hversion => (h k p root version hp hroot hversion).write

omit [DecidableEq Hash] in
lemma Stamped.write (h : Stamped B files paths roots stamps) (path : Path) (file : Option OnDisk) :
    Stamped B (files.write path file) paths roots stamps :=
  fun k p root stamp hp hroot hstamp => (h k p root stamp hp hroot hstamp).write

lemma getElem?_concat_eq_some {α : Type} {l : List α} {a b : α} {k : ℕ}
    (h : (l ++ [a])[k]? = some b) : l[k]? = some b ∨ k = l.length ∧ b = a := by
  rcases lt_trichotomy k l.length with hlt | rfl | hlt
  · rw [List.getElem?_append_left hlt] at h
    exact .inl h
  · rw [List.getElem?_concat_length] at h
    exact .inr ⟨rfl, (Option.some.inj h).symm⟩
  · rw [List.getElem?_eq_none (by rw [List.length_append, List.length_singleton]; omega)] at h
    cases h

omit [DecidableEq Hash] in
lemma Vouched.concat_root (h : Vouched B files paths roots opened) {root : Hash}
    (hroot : ∀ path version, paths[roots.length]? = some path →
      opened[roots.length]? = some version →
      files.Seen (Names B root) path version) : Vouched B files paths (roots ++ [root]) opened := by
  intro k path root' version hpath hget hversion
  rcases getElem?_concat_eq_some hget with hget | ⟨rfl, rfl⟩
  · exact h k path root' version hpath hget hversion
  · exact hroot path version hpath hversion

omit [DecidableEq Hash] in
lemma Vouched.concat_opened (h : Vouched B files paths roots opened) {version : ℕ}
    (hopened : ∀ path root, paths[opened.length]? = some path → roots[opened.length]? = some root →
      files.Seen (Names B root) path version) :
    Vouched B files paths roots (opened ++ [version]) := by
  intro k path root version' hpath hroot hget
  rcases getElem?_concat_eq_some hget with hget | ⟨rfl, rfl⟩
  · exact h k path root version' hpath hroot hget
  · exact hopened path root hpath hroot

omit [DecidableEq Hash] in
lemma Stamped.concat (h : Stamped B files paths roots stamps) {stamp : ℕ × ℕ}
    (hstamp : ∀ path root, paths[stamps.length]? = some path → roots[stamps.length]? = some root →
      files.Named stampOf (Names B root) path stamp) :
    Stamped B files paths roots (stamps ++ [stamp]) := by
  intro k path root stamp' hpath hroot hget
  rcases getElem?_concat_eq_some hget with hget | ⟨rfl, rfl⟩
  · exact h k path root stamp' hpath hroot hget
  · exact hstamp path root hpath hroot

variable (B toLowercase idOf hash os)

/-- A record vouches for the files of its manifest. -/
structure RecordOk (files : Edited) (record : SeedRecord) (manifest : Manifest Hash) : Prop where
  length_eq : record.files.length = manifest.files.length
  stamped : Stamped B files (record.files.map fun file => Path.parse os file.1)
    (manifest.files.map FileEntry.rootHash) (record.files.map Prod.snd)

/-- A share that is held has the manifest that its bytes spell. -/
structure SeedOk (seed : Seed Master Hash) : Prop where
  decodes : ∀ manifest, Manifest.decodeVerified toLowercase idOf hash seed.manifestBytes seed.id =
    .ok manifest → manifest = seed.share.manifest
  length_eq : seed.share.files.length = seed.share.manifest.files.length

/-- What was read so far of a file of this size. -/
def Partly (size : ℕ) (seen : Bytes) (file : Option OnDisk) : Prop :=
  ∃ there, file = some there ∧ there.content.1.length = size ∧
    seen = there.content.1.take seen.length

/-- What a call knows of the files, as long as they are not written over. -/
def Attempt.Ok (files : Edited) : Attempt Master Hash → Prop
  | .idle => True
  | .hashing job hashed opened reading =>
      job.Proper B toLowercase idOf hash os ∧
        opened.length = hashed.length + (if reading.isSome then 1 else 0) ∧
        Vouched B files (job.paths os) (hashed.map fun outboard => outboard.1.root) opened ∧
        ∀ size seen path version, reading = some (size, seen) →
          (job.paths os)[hashed.length]? = some path → opened[hashed.length]? = some version →
            files.Seen (Partly size seen) path version
  | .checking id record manifest opened =>
      Manifest.decodeVerified toLowercase idOf hash record.manifest id = .ok manifest ∧
        RecordOk B os files record manifest ∧
        Vouched B files (record.files.map fun file => Path.parse os file.1)
          (manifest.files.map FileEntry.rootHash) opened
  | .saving seed opened stamps =>
      SeedOk toLowercase idOf hash seed ∧
        Vouched B files (seed.share.files.map fun file => file.data.path)
          (seed.share.manifest.files.map FileEntry.rootHash) opened ∧
        Stamped B files (seed.share.files.map fun file => file.data.path)
          (seed.share.manifest.files.map FileEntry.rootHash) stamps

/-- No two versions of a file look the same, and all records and calls are in order. -/
structure SaveState.Inv (s : SaveState Master Hash) : Prop where
  once : s.files.Once stampOf
  saved : ∀ id record manifest, s.saved id = some record →
    Manifest.decodeVerified toLowercase idOf hash record.manifest id = .ok manifest →
      RecordOk B os s.files record manifest
  attempts : ∀ n, (s.attempts n).Ok B toLowercase idOf hash os s.files

variable {B toLowercase idOf hash os} {s s' : SaveState Master Hash}

lemma Attempt.Ok.write {attempt : Attempt Master Hash}
    (h : attempt.Ok B toLowercase idOf hash os files) (path : Path) (file : Option OnDisk) :
    attempt.Ok B toLowercase idOf hash os (files.write path file) := by
  cases attempt with
  | idle => trivial
  | hashing job hashed opened reading =>
    obtain ⟨hproper, hlength, hvouched, hreading⟩ := h
    exact ⟨hproper, hlength, hvouched.write _ _, fun size seen p version hsome hp hversion =>
      (hreading size seen p version hsome hp hversion).write⟩
  | checking id record manifest opened =>
    obtain ⟨hdecode, hrecord, hvouched⟩ := h
    exact ⟨hdecode, ⟨hrecord.length_eq, hrecord.stamped.write _ _⟩, hvouched.write _ _⟩
  | saving seed opened stamps =>
    obtain ⟨hseed, hvouched, hstamped⟩ := h
    exact ⟨hseed, hvouched.write _ _, hstamped.write _ _⟩

lemma SaveState.Inv.set (h : s.Inv B toLowercase idOf hash os) {n : ℕ}
    {attempt : Attempt Master Hash}
    (hattempt : attempt.Ok B toLowercase idOf hash os s.files) :
    (s.set n attempt).Inv B toLowercase idOf hash os := by
  refine ⟨h.once, h.saved, fun m => ?_⟩
  show (Function.update s.attempts n attempt m).Ok B toLowercase idOf hash os s.files
  by_cases hm : m = n
  · subst hm
    rwa [Function.update_self]
  · rw [Function.update_of_ne hm]
    exact h.attempts m

lemma zipWith_left {α β γ : Type} (f : α → γ) : ∀ {l : List α} {l' : List β}, l.length = l'.length →
    List.zipWith (fun a _ => f a) l l' = l.map f
  | [], [], _ => rfl
  | a :: l, b :: l', h => by
    rw [List.zipWith_cons_cons, List.map_cons, zipWith_left f (Nat.succ_injective h)]

lemma zipWith_right {α β γ : Type} (f : β → γ) {l : List α} {l' : List β}
    (h : l.length = l'.length) :
    List.zipWith (fun _ b => f b) l l' = l'.map f := by
  rw [List.zipWith_comm]
  exact zipWith_left f h.symm

/-- The share that comes of a job has the files and the roots that were hashed. -/
lemma Job.outcome_eq_some {job : Job Master Hash} {hashed : List (FileOutboard Hash)}
    {seed : Seed Master Hash} (hhash : ∀ h, hash.Fits h)
    (hproper : job.Proper B toLowercase idOf hash os) (hall : hashed.length = (job.paths os).length)
    (hlt : seed.manifestBytes.length < 2 ^ 64) (h : job.outcome idOf hash os hashed = some seed) :
    SeedOk toLowercase idOf hash seed ∧
      (seed.share.files.map fun file => file.data.path) = job.paths os ∧
      seed.share.manifest.files.map FileEntry.rootHash =
        hashed.map fun outboard => outboard.1.root := by
  cases job with
  | make expected root name secret found =>
    rw [Job.paths, List.length_map] at hall
    rw [Job.outcome] at h
    split_ifs at h
    cases h
    have hpaths :=
      zipWith_left (fun file : List String × DiskNames => SeedDisk.below os root file.2)
      hall.symm
    have hroots := zipWith_right (l := found) (fun outboard : FileOutboard Hash => outboard.1.root)
      hall.symm
    refine ⟨⟨fun manifest hdecode => ?_, ?_⟩, ?_, ?_⟩
    · -- the bytes are the encoding of the manifest
      obtain ⟨-, -, rest, tail, hbytes, hread⟩ := Manifest.decodeVerified_eq_ok.1 hdecode
      have hmade := (Manifest.codec hash).decode_encode _ [] (Manifest.fits_of_length hhash hlt)
      rw [List.append_nil, (List.cons.inj hbytes).2, hread] at hmade
      exact congrArg Prod.fst (Option.some.inj hmade)
    · show (List.zipWith _ _ _).length = (List.zipWith _ _ _).length
      rw [List.length_zipWith, List.length_zipWith]
    · show List.map _ (List.zipWith _ _ _) = _
      rw [List.map_zipWith]
      exact hpaths
    · show List.map _ (List.zipWith _ _ _) = _
      rw [List.map_zipWith]
      exact hroots
  | verify seed' =>
    rw [Job.outcome] at h
    split_ifs at h with hroots
    cases h
    have hplaced := hproper.1.placed hhash hproper.2
    exact ⟨⟨fun manifest hdecode => Except.ok.inj (hdecode.symm.trans hplaced.decodes),
      hplaced.files_length⟩, rfl, hroots.symm⟩

omit [DecidableEq Hash] in
/-- Bytes that are read one after another are the start of the file. -/
lemma Partly.read {size count : ℕ} {seen : Bytes} {file : OnDisk}
    (h : Partly size seen (some file)) :
    Partly size (seen ++ file.content.1.slice seen.length (min count (size - seen.length)))
      (some file) := by
  obtain ⟨_, hfile, hsize, hseen⟩ := h
  cases hfile
  refine ⟨file, rfl, hsize, ?_⟩
  have hle : seen.length ≤ file.content.1.length := by
    rw [hseen]
    exact List.length_take_le' _ _
  have hslice : (file.content.1.slice seen.length (min count (size - seen.length))).length =
      min count (size - seen.length) := by
    rw [Bytes.slice, List.length_take, List.length_drop, hsize]
    omega
  rw [List.length_append, hslice, List.take_add, ← hseen]
  rfl

/-- A share whose files were all looked up is saved as it is held. -/
lemma SeedOk.recordOk {seed : Seed Master Hash} (h : SeedOk toLowercase idOf hash seed)
    (htext : ∀ file ∈ seed.share.files, Path.parse os (text file.data.path) = file.data.path)
    (hall : stamps.length = seed.share.files.length)
    (hstamped : Stamped B files (seed.share.files.map fun file => file.data.path)
      (seed.share.manifest.files.map FileEntry.rootHash) stamps) :
    RecordOk B os files (seed.recordWith form text stamps) seed.share.manifest := by
  have hpaths : ((seed.recordWith form text stamps).files.map fun file => Path.parse os file.1) =
      seed.share.files.map fun file => file.data.path := by
    rw [Seed.recordWith, List.map_zipWith, zipWith_left
      (fun file : LocalFile Master Hash => Path.parse os (text file.data.path)) hall.symm]
    exact List.map_congr_left htext
  have hstamps : (seed.recordWith form text stamps).files.map Prod.snd = stamps := by
    rw [Seed.recordWith, List.map_zipWith, zipWith_right (fun stamp : ℕ × ℕ => stamp) hall.symm,
      List.map_id']
  refine ⟨?_, ?_⟩
  · have hlength := congrArg List.length hstamps
    rwa [List.length_map, hall, h.length_eq] at hlength
  · rwa [hpaths, hstamps]

/-- One step. -/
lemma SaveState.Inv.step {a : SaveAction Master Hash} (hhash : ∀ h, hash.Fits h)
    (h : s.Inv B toLowercase idOf hash os)
    (hstep : SaveStep B form toLowercase idOf hash os text s a s')
    (hcareful : s.Undisturbed a) : s'.Inv B toLowercase idOf hash os := by
  cases hstep with
  | @edit path file hfresh =>
    refine ⟨h.once.write hfresh, fun id record manifest hsaved hdecode => ?_, fun n =>
      (h.attempts n).write path file⟩
    have hrecord := h.saved id record manifest hsaved hdecode
    exact ⟨hrecord.length_eq, hrecord.stamped.write path file⟩
  | start hidle hproper =>
    exact h.set ⟨hproper, rfl, fun k path root version _ hroot _ => by simp at hroot,
      fun _ _ _ _ hsome => by cases hsome⟩
  | @openFile n job hashed opened path file hat hpath hfile =>
    have hok := h.attempts n
    rw [hat] at hok
    obtain ⟨hproper, hlength, hvouched, -⟩ := hok
    have hlength : opened.length = hashed.length := hlength
    refine h.set ⟨hproper, by simp [hlength], hvouched.concat_opened fun p root _ hroot => ?_,
      fun size seen p version hsome hp hversion => ?_⟩
    · rw [List.getElem?_eq_none (by rw [List.length_map, hlength])] at hroot
      cases hroot
    · obtain ⟨rfl, rfl⟩ := Prod.mk.inj (Option.some.inj hsome)
      obtain rfl : path = p := Option.some.inj (hpath.symm.trans hp)
      rw [← hlength, List.getElem?_concat_length] at hversion
      cases hversion
      exact .now ⟨file, hfile, rfl, rfl⟩
  | @read n count job hashed opened size version seen path file hat hpath hopened hfile =>
    have hok := h.attempts n
    rw [hat] at hok
    obtain ⟨hproper, hlength, hvouched, hreading⟩ := hok
    refine h.set ⟨hproper, hlength, hvouched, fun size' seen' p version' hsome hp hversion => ?_⟩
    obtain ⟨rfl, rfl⟩ := Prod.mk.inj (Option.some.inj hsome)
    obtain rfl : path = p := Option.some.inj (hpath.symm.trans hp)
    obtain rfl : version = version' := Option.some.inj (hopened.symm.trans hversion)
    refine (hreading size seen path version rfl hpath hopened).imp fun hcount hpartly => ?_
    -- nothing but this version can be read
    rw [← hcount, Versions.since_count, List.mem_singleton] at hfile
    rw [← hfile] at hpartly ⊢
    exact hpartly.read
  | @hashFile n job hashed opened size seen hat hsize hlt =>
    have hok := h.attempts n
    rw [hat] at hok
    obtain ⟨hproper, hlength, hvouched, hreading⟩ := hok
    refine h.set ⟨hproper, by simpa using hlength, ?_, fun _ _ _ _ hsome => by cases hsome⟩
    rw [List.map_append, List.map_singleton]
    refine hvouched.concat_root fun path version hpath hversion => ?_
    rw [List.length_map] at hpath hversion
    refine (hreading size seen path version rfl hpath hversion).imp fun _ hpartly => ?_
    obtain ⟨there, hthere, hlen, hseen⟩ := hpartly
    rw [hsize, ← hlen, List.take_length] at hseen
    refine ⟨there, hthere, ?_⟩
    show B.rootHash there.content.1 = (B.create seen).root
    rw [hseen, B.create_root, Bao.rootHash]
  | @hold n job hashed opened seed hat hall hseed hlt =>
    have hok := h.attempts n
    rw [hat] at hok
    obtain ⟨hproper, -, hvouched, -⟩ := hok
    obtain ⟨hseedOk, hpaths, hroots⟩ := Job.outcome_eq_some hhash hproper hall hlt hseed
    refine h.set ⟨hseedOk, ?_, fun k path root stamp _ _ hstamp => by simp at hstamp⟩
    rwa [hpaths, hroots]
  | load hidle hsaved hdecode =>
    exact h.set ⟨hdecode, h.saved _ _ _ hsaved hdecode, fun k path root version _ _ hversion => by
      simp at hversion⟩
  | @check n id record manifest opened file hat hfile hsame =>
    have hok := h.attempts n
    rw [hat] at hok
    obtain ⟨hdecode, hrecord, hvouched⟩ := hok
    refine h.set ⟨hdecode, hrecord, hvouched.concat_opened fun path root hpath hroot => ?_⟩
    rw [List.getElem?_map, hfile, Option.map_some] at hpath
    obtain rfl := Option.some.inj hpath
    rw [Edited.modified_disk] at hsame
    have hnamed := hrecord.stamped _ _ _ file.2 (by rw [List.getElem?_map, hfile]; rfl) hroot
      (by rw [List.getElem?_map, hfile]; rfl)
    exact .now (hnamed.of_stamp h.once hsame)
  | @resume n id record manifest opened allowed hat hall hlength =>
    have hok := h.attempts n
    rw [hat] at hok
    obtain ⟨hdecode, hrecord, hvouched⟩ := hok
    have hdata : (savedFiles B form (record.files.map fun file =>
        (FileData.plain (Path.parse os file.1) : FileData Master)) record.outboards
          manifest.files).map LocalFile.data =
            record.files.map fun file => .plain (Path.parse os file.1) :=
      map_data_savedFiles _ _ _ (by rw [hlength, List.length_map])
        (by rw [List.length_map, hrecord.length_eq])
    have hpaths := congrArg (List.map FileData.path) hdata
    rw [List.map_map, List.map_map] at hpaths
    refine h.set ⟨⟨fun manifest' hdecode' => ?_, ?_⟩, ?_, fun k path root stamp _ _ hstamp => by
      simp at hstamp⟩
    · obtain ⟨hid, -⟩ := Manifest.decodeVerified_eq_ok.1 hdecode
      have hdecode' : Manifest.decodeVerified toLowercase idOf hash record.manifest
          (idOf record.manifest) = .ok manifest' := hdecode'
      rw [hid, hdecode] at hdecode'
      exact (Except.ok.inj hdecode').symm
    · have hcount := congrArg List.length hdata
      rw [List.length_map, List.length_map, hrecord.length_eq] at hcount
      exact hcount
    · show Vouched B s.files (List.map (FileData.path ∘ LocalFile.data) (savedFiles B form _ _ _))
        (manifest.files.map FileEntry.rootHash) opened
      rw [hpaths]
      exact hvouched
  | rehash hat hfile hchanged =>
    exact h.set ⟨trivial, rfl, fun k path root version _ hroot _ => by simp at hroot,
      fun _ _ _ _ hsome => by cases hsome⟩
  | @lookUp n seed opened stamps file hat hfile =>
    have hok := h.attempts n
    rw [hat] at hok
    obtain ⟨hseed, hvouched, hstamped⟩ := hok
    refine h.set ⟨hseed, hvouched, hstamped.concat fun path root hpath hroot => ?_⟩
    obtain ⟨hopened, hthere⟩ := hcareful seed opened stamps file hat hfile
    obtain ⟨stamp, hstamp⟩ := Option.ne_none_iff_exists'.1 hthere
    rw [hstamp, Option.getD_some]
    rw [Edited.modified_disk] at hstamp
    have hp := hpath
    rw [List.getElem?_map, hfile, Option.map_some] at hp
    obtain rfl := Option.some.inj hp
    exact (hvouched _ _ root _ hpath hroot hopened).named rfl hstamp
  | @save n seed opened stamps hat hall htext =>
    have hok := h.attempts n
    rw [hat] at hok
    obtain ⟨hseed, -, hstamped⟩ := hok
    have hset : (s.set n .idle).Inv B toLowercase idOf hash os := h.set trivial
    refine ⟨h.once, fun id record manifest hsaved hdecode => ?_, hset.attempts⟩
    dsimp only at hsaved
    by_cases hid : id = seed.id
    · subst hid
      rw [Function.update_self] at hsaved
      cases hsaved
      obtain rfl := hseed.decodes manifest hdecode
      exact hseed.recordOk htext hall hstamped
    · rw [Function.update_of_ne hid] at hsaved
      exact h.saved id record manifest hsaved hdecode
  | abandon => exact h.set trivial
  | @forget id =>
    refine ⟨h.once, fun id' record manifest hsaved hdecode => ?_, h.attempts⟩
    dsimp only at hsaved
    by_cases hid : id' = id
    · subst hid
      rw [Function.update_self] at hsaved
      cases hsaved
    · rw [Function.update_of_ne hid] at hsaved
      exact h.saved id' record manifest hsaved hdecode

/-- Each file of a saved share that looks as it was saved has the content that the manifest
names. -/
def SaveState.Sound (B : Bao Hash Wire) (toLowercase : String → String) (idOf : Bytes → Hash)
    (hash : Codec Hash) (os : Os) (s : SaveState Master Hash) : Prop :=
  ∀ id record manifest, s.saved id = some record →
    Manifest.decodeVerified toLowercase idOf hash record.manifest id = .ok manifest →
      List.Forall₂ (fun (file : String × ℕ × ℕ) (entry : FileEntry Hash) =>
        s.files.disk.modified (Path.parse os file.1) = some file.2 →
          ∃ content, s.files.disk.read (Path.parse os file.1) = .ok content ∧
            B.rootHash content.1 = entry.rootHash) record.files manifest.files

lemma SaveState.Inv.sound (h : s.Inv B toLowercase idOf hash os) :
    s.Sound B toLowercase idOf hash os := by
  intro id record manifest hsaved hdecode
  have hrecord := h.saved id record manifest hsaved hdecode
  refine List.forall₂_iff_get.2 ⟨hrecord.length_eq, fun k hk hk' hsame => ?_⟩
  rw [Edited.modified_disk] at hsame
  have hnamed := hrecord.stamped k (Path.parse os (record.files.get ⟨k, hk⟩).1)
    (manifest.files.get ⟨k, hk'⟩).rootHash (record.files.get ⟨k, hk⟩).2
    (by simp [hk]) (by simp [hk']) (by simp [hk])
  obtain ⟨there, hthere, hroot⟩ := hnamed.of_stamp h.once hsame
  refine ⟨there.content, ?_, hroot⟩
  show ((s.files.now _).map _).getD _ = _
  rw [hthere]
  rfl

/-- If no file is looked up that was written to since its reading began, or that has no modified
time, then whenever the files of a saved share look unchanged, each has the content that its
manifest names. -/
theorem unchanged_sound (hhash : ∀ h, hash.Fits h) {now : Path → Option OnDisk}
    {actions : List (SaveAction Master Hash)}
    (hrun : Run
      (fun s a s' => SaveStep B form toLowercase idOf hash os text s a s' ∧ s.Undisturbed a)
      (.new now) actions s) :
    s.Sound B toLowercase idOf hash os ∧
      ∀ id record manifest, s.saved id = some record →
        Manifest.decodeVerified toLowercase idOf hash record.manifest id = .ok manifest →
        record.unchanged os s.files.disk = true →
          List.Forall₂ (fun (file : String × ℕ × ℕ) (entry : FileEntry Hash) =>
            ∃ content, s.files.disk.read (Path.parse os file.1) = .ok content ∧
              B.rootHash content.1 = entry.rootHash) record.files manifest.files := by
  have hsound := (hrun.invariant (fun s a s' hs h => hs.step hhash h.1 h.2)
    (⟨Versions.once_new now, fun _ _ _ hsaved => (by cases hsaved), fun _ => trivial⟩ :
      SaveState.Inv B toLowercase idOf hash os (.new now))).sound
  refine ⟨hsound, fun id record manifest hsaved hdecode hunchanged => ?_⟩
  rw [SeedRecord.unchanged, List.all_eq_true] at hunchanged
  obtain ⟨hlength, hfiles⟩ := List.forall₂_iff_get.1 (hsound id record manifest hsaved hdecode)
  exact List.forall₂_iff_get.2 ⟨hlength, fun k hk hk' =>
    hfiles k hk hk' (by simpa using hunchanged _ (List.getElem_mem hk))⟩

end

/-! ## An edit between hashing and saving -/

namespace OneFile

/-- The file when it is shared. -/
def original : OnDisk := ⟨⟨content, content_fits⟩, some 1⟩

def rewritten : OnDisk := ⟨⟨[9, 9, 9, 9, 9], by decide⟩, some 2⟩

def onlyFile (path : Path) : Option OnDisk := if path = filePath then some original else none

/-- The file is listed. -/
def job : Job Bytes Digest := .make none filePath "a" none [(["a"], [])]

/-- The file is hashed. -/
def hashing : List (SaveAction Bytes Digest) :=
  [.start 0 job, .openFile 0, .read 0 5, .hashFile 0, .hold 0]

lemma exists_hashed : ∃ s : SaveState Bytes Digest,
    Run (fun s a s' =>
      SaveStep referenceBao Digest.pairForm id idOf Digest.codec .unix placeText s a s' ∧
      s.Undisturbed a) (.new onlyFile) hashing s ∧
    s.attempts 0 = .saving inPlace [0] [] ∧ s.files = .new onlyFile := by
  have hjob : (job.paths .unix)[0]? = some filePath := rfl
  have hthere : onlyFile filePath = some original := rfl
  have hdone : job.outcome idOf Digest.codec .unix [⟨Digest.createOutboard content, by decide⟩] =
    some inPlace := rfl
  exact ⟨_, .cons ⟨.start rfl trivial, trivial⟩ <| .cons ⟨.openFile rfl hjob hthere, trivial⟩ <|
    .cons ⟨.read rfl hjob rfl (List.mem_singleton_self (some original)), trivial⟩ <|
    .cons ⟨.hashFile rfl rfl (by decide), trivial⟩ <|
    .cons ⟨.hold rfl rfl hdone (by decide), trivial⟩ <| .nil _, rfl, rfl⟩

/-- The file is looked up, and the share is saved. -/
lemma exists_saved {s : SaveState Bytes Digest} {stamp : ℕ × ℕ}
    (hat : s.attempts 0 = .saving inPlace [0] [])
    (hstamp : s.files.disk.modified filePath = some stamp) :
    ∃ s₁ s₂, SaveStep referenceBao Digest.pairForm id idOf Digest.codec .unix placeText s
      (.lookUp 0) s₁ ∧
      SaveStep referenceBao Digest.pairForm id idOf Digest.codec .unix placeText s₁ (.save 0) s₂ ∧
      s₂.files = s.files ∧ s₂.saved (idOf manifestBytes) =
        some (inPlace.recordWith Digest.pairForm placeText [stamp]) := by
  have hfile : inPlace.share.files[0]? =
      some ⟨.plain filePath, Digest.createOutboard content⟩ := rfl
  have htext : ∀ file ∈ inPlace.share.files,
      Path.parse .unix (placeText file.data.path) = file.data.path := by
    intro file hf
    rw [List.mem_singleton.1 hf]
    decide
  have hstamps : [] ++ [(s.files.disk.modified filePath).getD (0, 0)] = [stamp] := by
    rw [hstamp]
    rfl
  refine ⟨_, _, .lookUp hat hfile, .save (SaveState.attempts_set ..) rfl htext, rfl, ?_⟩
  have hid : inPlace.id = idOf manifestBytes := rfl
  rw [← hid]
  show Function.update s.saved inPlace.id (some (inPlace.recordWith Digest.pairForm placeText
    ([] ++ [(s.files.disk.modified filePath).getD (0, 0)]))) inPlace.id = _
  rw [hstamps, Function.update_self]

end OneFile

open OneFile in
/-- The file is not edited meanwhile. -/
theorem unchanged_sound_one_file : ∃ (s : SaveState Bytes Digest) (record : SeedRecord),
    s.saved (idOf manifestBytes) = some record ∧ record.unchanged .unix s.files.disk = true ∧
      List.Forall₂ (fun (file : String × ℕ × ℕ) (entry : FileEntry Digest) =>
        ∃ content, s.files.disk.read (Path.parse .unix file.1) = .ok content ∧
          referenceBao.rootHash content.1 = entry.rootHash) record.files manifest.files := by
  obtain ⟨s, hrun, hat, hfiles⟩ := exists_hashed
  have hstamp : s.files.disk.modified filePath = some (5, 1) := by
    rw [hfiles]
    rfl
  obtain ⟨s₁, s₂, hlook, hsave, hsame, hsaved⟩ := exists_saved hat hstamp
  have hcareful : s.Undisturbed (.lookUp 0) := by
    intro seed opened stamps file hat' hfile
    rw [hat] at hat'
    cases hat'
    cases hfile
    exact ⟨by rw [hfiles]; rfl, fun hnone => by cases hstamp.symm.trans hnone⟩
  have hunchanged : (inPlace.recordWith Digest.pairForm placeText [(5, 1)]).unchanged .unix
      s₂.files.disk = true := by
    rw [hsame, hfiles]
    decide
  exact ⟨s₂, _, hsaved, hunchanged, (unchanged_sound (fun _ => trivial)
    ((hrun.snoc ⟨hlook, hcareful⟩).snoc ⟨hsave, trivial⟩)).2 _ _ manifest hsaved
      decodeVerified_manifestBytes hunchanged⟩

open OneFile in
/-- The file is hashed, then edited, then the share is saved: the file looks unchanged ever after,
and does not have the content that the manifest names. -/
theorem unchanged_unsound : ∃ (s : SaveState Bytes Digest) (record : SeedRecord),
    Run (SaveStep referenceBao Digest.pairForm id idOf Digest.codec .unix placeText) (.new onlyFile)
      (hashing ++ [.edit filePath (some rewritten), .lookUp 0, .save 0]) s ∧
    s.saved (idOf manifestBytes) = some record ∧
    Manifest.decodeVerified id idOf Digest.codec record.manifest (idOf manifestBytes) =
      .ok manifest ∧
    record.unchanged .unix s.files.disk = true ∧
    ¬ List.Forall₂ (fun (file : String × ℕ × ℕ) (entry : FileEntry Digest) =>
      ∃ content, s.files.disk.read (Path.parse .unix file.1) = .ok content ∧
        referenceBao.rootHash content.1 = entry.rootHash) record.files manifest.files := by
  obtain ⟨s, hrun, hat, hfiles⟩ := exists_hashed
  have hfresh : s.files.Fresh stampOf filePath (some rewritten) := by
    rw [hfiles]
    intro old hold t ht
    rw [List.mem_singleton.1 hold]
    cases ht
    decide
  have hstamp : (Edited.disk (s.files.write filePath (some rewritten))).modified filePath =
      some (5, 2) := by
    rw [Edited.modified_disk, Versions.now_write, Function.update_self]
    rfl
  have hedit : SaveStep referenceBao Digest.pairForm id idOf Digest.codec .unix placeText s
      (.edit filePath (some rewritten))
        { s with files := s.files.write filePath (some rewritten) } :=
    .edit hfresh
  obtain ⟨s₁, s₂, hlook, hsave, hsame, hsaved⟩ := exists_saved
    (s := { s with files := s.files.write filePath (some rewritten) }) hat hstamp
  refine ⟨s₂, _, (hrun.mono fun _ _ _ h => h.1).append (.cons hedit (.cons hlook (.single hsave))),
    hsaved, decodeVerified_manifestBytes, ?_, ?_⟩
  · rw [hsame, hfiles]
    show SeedRecord.unchanged .unix
      (Edited.disk ((Versions.new onlyFile).write filePath (some rewritten))) _ = true
    decide
  · rw [hsame, hfiles]
    rintro (_ | ⟨⟨content, hread, hroot⟩, -⟩)
    have hcontent : Except.ok rewritten.content = Except.ok content := hread
    cases hcontent
    exact absurd hroot (by decide)

end Chorrent
