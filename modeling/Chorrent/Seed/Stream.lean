/-
# Streams into the store

`seed_reader` stores a stream in a new folder below `blobs`, and checks its name only when all
of it is there.  What is written stays in that folder as long as the name does not lead out of
it, and the name is refused as such only if the stream was stored.
-/
import Chorrent.Client.Dest
import Chorrent.Seed.Ways

namespace Chorrent

open Lib

namespace Path

/-! ## Paths below a folder -/

/-- A segment that names an entry of the folder it is looked up in; on Windows a colon sets apart
a drive or a stream of a file. -/
def isEntry (os : Os) (s : String) : Bool := os == .unix || ':' ∉ s.toList

/-- How deep below a folder the segments lead, unless they lead out of it. -/
def depthAfter (os : Os) : ℕ → List String → Option ℕ
  | depth, [] => some depth
  | depth, s :: segments =>
      if s = "" ∨ s = "." then depthAfter os depth segments
      else if s = ".." then if depth = 0 then none else depthAfter os (depth - 1) segments
      else if isEntry os s then depthAfter os (depth + 1) segments
      else none

/-- The path is the folder's, followed by segments that lead so deep below it. -/
def Leads (os : Os) (folder p : Path) (depth : ℕ) : Prop :=
  p.pathPrefix = folder.pathPrefix ∧ p.root = folder.root ∧
    ∃ rest, p.segments = folder.base ++ rest ∧ depthAfter os 0 rest = some depth

/-- Below the folder. -/
def Below (os : Os) (folder p : Path) : Prop := ∃ depth, Leads os folder p (depth + 1)

/-- The folder, below it, or on the way to it. -/
def Around (os : Os) (folder p : Path) : Prop :=
  (∃ depth, Leads os folder p depth) ∨
    p.pathPrefix = folder.pathPrefix ∧ p.root = folder.root ∧ p.segments <+: folder.base

/-- The folders that `create_dir_all` may make for a file. -/
def parents (p : Path) : List Path :=
  (List.range p.segments.length).map fun k => { p with segments := p.segments.take k }

lemma depthAfter_append (os : Os) (left right : List String) : ∀ depth,
    depthAfter os depth (left ++ right) =
      (depthAfter os depth left).bind fun d => depthAfter os d right := by
  induction left with
  | nil => exact fun depth => rfl
  | cons s left ih =>
    intro depth
    rw [List.cons_append, depthAfter, depthAfter]
    split_ifs
    · exact ih _
    · rfl
    · exact ih _
    · exact ih _
    · rfl

/-- The folders above a file below a folder are around the folder. -/
lemma Below.parents_around {os : Os} {folder p q : Path} (h : Below os folder p)
    (hq : q ∈ p.parents) : Around os folder q := by
  obtain ⟨depth, hdrive, hroot, rest, hsegments, hdepth⟩ := h
  obtain ⟨k, hk, rfl⟩ := List.mem_map.1 hq
  rcases Nat.le_total k folder.base.length with hle | hle
  · refine Or.inr ⟨hdrive, hroot, ?_⟩
    simpa [hsegments, List.take_append_of_le_length hle] using List.take_prefix k folder.base
  · rw [← List.take_append_drop (k - folder.base.length) rest, depthAfter_append] at hdepth
    obtain ⟨d, hd, -⟩ := Option.bind_eq_some_iff.1 hdepth
    refine Or.inl ⟨d, hdrive, hroot, rest.take (k - folder.base.length), ?_, hd⟩
    simp [hsegments, List.take_append, List.take_of_length_le hle]

lemma join_ordinary (os : Os) (folder : Path) {name : String} (h : Ordinary name) :
    folder.join os name = { folder with segments := folder.base ++ [name] } := by
  rw [join, parse_ordinary os h, push_ordinary os folder (by simpa using h)]

/-- A folder that was joined with an ordinary name ends in no separator. -/
lemma base_join_ordinary (os : Os) (folder : Path) {name : String} (h : Ordinary name) :
    (folder.join os name).base = (folder.join os name).segments := by
  rw [join_ordinary os folder h, base]
  cases hverbatim : folder.isVerbatim with
  | true =>
    have hname : name ≠ "" := h.1
    have hsame : ({ folder with segments := folder.base ++ [name] } : Path).isVerbatim = true :=
      hverbatim
    rw [if_pos hsame, base, if_pos hverbatim]
    simp [hname]
  | false =>
    have hsame : ¬({ folder with segments := folder.base ++ [name] } : Path).isVerbatim = true := by
      rw [show ({ folder with segments := folder.base ++ [name] } : Path).isVerbatim =
        folder.isVerbatim from rfl, hverbatim]
      exact Bool.false_ne_true
    rw [if_neg hsame]
    simp [h.1]

/-- The folder that a file is in is made for it. -/
lemma mem_parents_join (os : Os) {folder : Path} {name : String} (h : Ordinary name)
    (hfolder : folder.base = folder.segments) : folder ∈ (folder.join os name).parents := by
  rw [join_ordinary os folder h, hfolder]
  exact List.mem_map.2 ⟨folder.segments.length, by simp, by simp⟩

/-- An ordinary name leads one step down. -/
lemma below_join_ordinary (os : Os) (folder : Path) {name : String} (h : Ordinary name) :
    Below os folder (folder.join os name) := by
  rw [join_ordinary os folder h]
  obtain ⟨hne, hdot, hdots, hchars⟩ := h
  have hentry : isEntry os name = true := by
    have : ':' ∉ name.toList := fun hc => (hchars ':' hc).2.2 rfl
    simp [isEntry, this]
  exact ⟨0, rfl, rfl, [name], rfl, by simp [depthAfter, hne, hdot, hdots, hentry]⟩

end Path

/-! ## The folder of an import -/

/-- `new_share_dir`, with the bytes it drew. -/
def StoreConfig.newShareDir {Key : Type} (cfg : StoreConfig Key) (os : Os)
    (random : List.Vector UInt8 8) : Path :=
  cfg.blobs.join os ("import-" ++ hex random.toList)

lemma ordinary_import (random : Bytes) : Path.Ordinary ("import-" ++ hex random) := by
  have hlist : ("import-" ++ hex random).toList =
      ['i', 'm', 'p', 'o', 'r', 't', '-'] ++ hexDigits random := by
    rw [String.toList_append, hex]
    exact congrArg _ String.toList_ofList
  refine Path.ordinary_of_length (by rw [hlist]; simp) fun c hc => ?_
  rw [hlist] at hc
  rcases List.mem_append.1 hc with hc | hc
  · have hletters : ∀ c ∈ ['i', 'm', 'p', 'o', 'r', 't', '-'], c ≠ '/' ∧ c ≠ '\\' ∧ c ≠ ':' :=
      List.forall_iff_forall_mem.1 (by decide)
    exact hletters c hc
  · obtain ⟨hslash, hbackslash, hcolon, -⟩ := Process.hexDigits_ordinary c hc
    exact ⟨hslash, hbackslash, hcolon⟩

section

variable {Master Key Hash Wire : Type} (S : StoreKeys Master Key) (B : Bao Hash Wire)
  (idOf : Bytes → Hash) (hash : Codec Hash) (os : Os) (reads : Reads)

/-- A call of `seed_reader` on a client with a data dir, and what it meets. -/
structure StreamCall (Master : Type) where
  cfg : StoreConfig Master
  name : String
  /-- `SeedOptions::name`, which wins. -/
  label : Option String
  size : ℕ
  source : Source
  secret : Option (List.Vector UInt8 32)
  random : List.Vector UInt8 8
  env : ImportEnv
  fs : FileSystem

namespace StreamCall

variable (call : StreamCall Master)

/-- The folder for the new share. -/
def dir : Path := call.cfg.newShareDir os call.random

/-- The name of the share. -/
def shareName : String := call.label.getD call.name

/-- Where the stream is stored. -/
def data : FileData Master :=
  match call.cfg.key with
  | some key => .encrypted ((call.dir os).join os "0.enc") key call.size
  | none => .plain ((call.dir os).join os call.shareName)

/-- What `from_reader` leaves and returns. -/
def fromReader : FileSystem × Result (Seed Master Hash) :=
  Seed.fromReader S B idOf hash os reads call.env call.shareName call.size call.source call.secret
    (call.dir os) call.cfg.key call.fs

/-- The folder is new: no file is below it. -/
def Fresh : Prop := ∀ p, Path.Below os (call.dir os) p → call.fs p = none

/-- The stream is stored and hashed. -/
def Imports : Prop :=
  ∃ outboard full, (importFile S B reads call.env call.source call.size (call.data os)
    (call.fs (call.data os).path)).result = .ok outboard ∧ sized outboard = .ok full

/-- Nothing is made or written but in the folder for the new share (and the folders that lead to
it), no file that was there is changed, and a name that is not portable is refused as such. -/
structure StaysInStore : Prop where
  file : call.env.createFails = false → Path.Below os (call.dir os) (call.data os).path
  folders : call.env.createFails = false → ∀ q ∈ (call.data os).path.parents,
    Path.Around os (call.dir os) q
  kept : ∀ p, (call.fs p).isSome → (call.fromReader S B idOf hash os reads).1 p = call.fs p
  refused : ∀ reason, nameProblem call.shareName = some reason →
    (call.fromReader S B idOf hash os reads).2 = .error (unsupported (.label call.shareName) reason)

end StreamCall

end

/-! ## What an import of a stream returns -/

section

variable {Master Key Hash Wire : Type} {S : StoreKeys Master Key} {B : Bao Hash Wire}
  {idOf : Bytes → Hash} {hash : Codec Hash} {os : Os} {reads : Reads}

/-- An import fails with an error of the chunker, or panics. -/
lemma importFile_eq_error {env : ImportEnv} {source : Source} {size : ℕ} {dest : FileData Master}
    {existing : Option Bytes} {e : Stop Error}
    (h : (importFile S B reads env source size dest existing).result = .error e) :
    e = .panic ∨ ∃ why, e = .fail (.chunker why) := by
  have hchunker : ∀ (toError : IoError → ChunkerError) (e' : Stop IoError),
      IoResult.orError (fun e => .chunker (toError e)) (.error e' : IoResult (Outboard Hash)) =
        .error e → e = .panic ∨ ∃ why, e = .fail (.chunker why) := by
    intro toError e' he
    cases e' with
    | fail e' => exact Or.inr ⟨toError e', (Except.error.inj he).symm⟩
    | panic => exact Or.inl (Except.error.inj he).symm
  rw [importFile] at h
  split at h
  · exact hchunker _ _ h
  · split at h
    · exact hchunker _ _ h
    · dsimp only at h
      split at h
      · exact hchunker _ _ h
      · split at h
        · exact hchunker _ _ h
        · dsimp only at h
          split_ifs at h
          · exact Or.inr ⟨_, (Except.error.inj h).symm⟩

/-- Nothing is imported into a file that cannot be made. -/
lemma importFile_of_createFails {env : ImportEnv} {source : Source} {size : ℕ}
    {dest : FileData Master} {existing : Option Bytes} (h : env.createFails = true) :
    (importFile S B reads env source size dest existing).file = existing ∧
      ∃ e, (importFile S B reads env source size dest existing).result = .error e := by
  have hpre : dest.preallocate env.toPrepareEnv existing = (existing, .error (.fail .other)) := by
    cases dest <;> simp [FileData.preallocate, Chorrent.preallocate, h]
  rw [importFile, hpre]
  exact ⟨rfl, _, rfl⟩

lemma createFails_of_importFile {env : ImportEnv} {source : Source} {size : ℕ}
    {dest : FileData Master} {existing : Option Bytes} {outboard : Outboard Hash}
    (h : (importFile S B reads env source size dest existing).result = .ok outboard) :
    env.createFails = false := by
  by_contra hfails
  rw [Bool.not_eq_false] at hfails
  obtain ⟨e, he⟩ : ∃ e, (importFile S B reads env source size dest existing).result = .error e :=
    (importFile_of_createFails hfails).2
  cases he.symm.trans h

namespace StreamCall

variable {call : StreamCall Master}

lemma fromReader_fst :
    (call.fromReader S B idOf hash os reads).1 =
      Function.update call.fs (call.data os).path
        (importFile S B reads call.env call.source call.size (call.data os)
          (call.fs (call.data os).path)).file := rfl

lemma fromReader_snd {result : Result (Seed Master Hash)}
    (h : (call.fromReader S B idOf hash os reads).2 = result) :
    ∃ make : FileOutboard Hash → Manifest Hash → Seed Master Hash, result = (do
      let outboard ← (importFile S B reads call.env call.source call.size (call.data os)
        (call.fs (call.data os).path)).result
      let full ← sized outboard
      let manifest ← Manifest.single call.shareName full
      return make full manifest) :=
  ⟨_, h.symm⟩

/-- A name that is not portable is refused once the stream is stored. -/
lemma fromReader_of_imports (h : call.Imports S B os reads) {reason : String}
    (hname : nameProblem call.shareName = some reason) :
    (call.fromReader S B idOf hash os reads).2 =
      .error (unsupported (.label call.shareName) reason) := by
  obtain ⟨outboard, full, himport, hsized⟩ := h
  obtain ⟨make, hresult⟩ := fromReader_snd (rfl : (call.fromReader S B idOf hash os reads).2 = _)
  have hsingle : Manifest.single call.shareName full =
      .error (unsupported (.label call.shareName) reason) := by
    rw [Manifest.single, hname]
  rw [hresult, himport]
  change (sized outboard >>= _) = _
  rw [hsized]
  change (Manifest.single call.shareName full >>= _) = _
  rw [hsingle]
  rfl

/-- A stream that is not stored is not refused for its name. -/
lemma imports_of_unsupported {path : SeedPath} {reason : String}
    (h : (call.fromReader S B idOf hash os reads).2 = .error (unsupported path reason)) :
    call.Imports S B os reads := by
  obtain ⟨make, h⟩ := fromReader_snd h
  cases himport : (importFile S B reads call.env call.source call.size (call.data os)
      (call.fs (call.data os).path)).result with
  | error e =>
    rw [himport] at h
    obtain rfl : e = unsupported path reason := Except.error.inj h.symm
    rcases importFile_eq_error himport with hpanic | ⟨why, hwhy⟩
    · cases hpanic
    · cases hwhy
  | ok outboard =>
    cases hsized : sized outboard with
    | ok full => exact ⟨outboard, full, himport, hsized⟩
    | error e =>
      rw [himport] at h
      change _ = (sized outboard >>= _) at h
      rw [hsized] at h
      obtain rfl : e = unsupported path reason := Except.error.inj h.symm
      rw [sized] at hsized
      split_ifs at hsized
      cases hsized

lemma below_data_of_ordinary (h : Path.Ordinary call.shareName) :
    Path.Below os (call.dir os) (call.data os).path := by
  rw [data]
  cases call.cfg.key with
  | some key => exact Path.below_join_ordinary os _ (by decide)
  | none => exact Path.below_join_ordinary os _ h

/-- A stream stays in the store, and its name is refused if need be, just when the name is
portable, or the stream is stored and the name does not lead out of the folder for it. -/
theorem stays_in_store_iff (call : StreamCall Master) (hfresh : call.Fresh os) :
    call.StaysInStore S B idOf hash os reads ↔ nameProblem call.shareName = none ∨
      call.Imports S B os reads ∧ Path.Below os (call.dir os) (call.data os).path := by
  constructor
  · intro h
    cases hname : nameProblem call.shareName with
    | none => exact Or.inl rfl
    | some reason =>
      obtain ⟨outboard, full, himport, hsized⟩ := imports_of_unsupported (h.refused reason hname)
      exact Or.inr ⟨⟨outboard, full, himport, hsized⟩, h.file (createFails_of_importFile himport)⟩
  · intro h
    have hbelow : Path.Below os (call.dir os) (call.data os).path :=
      h.elim (fun hname => below_data_of_ordinary (ordinary_of_nameProblem hname)) fun h => h.2
    refine ⟨fun _ => hbelow, fun _ q hq => hbelow.parents_around hq, fun p hp => ?_,
      fun reason hname => ?_⟩
    · rw [fromReader_fst, Function.update_of_ne]
      rintro rfl
      rw [hfresh _ hbelow] at hp
      cases hp
    · rcases h with hnone | ⟨himports, -⟩
      · cases hname.symm.trans hnone
      · exact fromReader_of_imports himports hname

/-- An encrypted store is never left. -/
theorem encrypted_stays_below {key : Master} (hkey : call.cfg.key = some key) :
    Path.Below os (call.dir os) (call.data os).path := by
  rw [data, hkey]
  exact Path.below_join_ordinary os _ (by decide)

end StreamCall

end

/-! ## A stream named after a file -/

namespace NamedStream

def blobs : Path := ⟨none, true, ["d", "blobs"]⟩

def file : Path := ⟨none, true, ["home", "f"]⟩

/-- Three bytes under a name, for a client with a plain store, next to a file outside it. -/
def call (name : String) : StreamCall Bytes where
  cfg := ⟨blobs, none⟩
  name := name
  label := none
  size := 3
  source := ThreeBytes.source
  secret := none
  random := .replicate 8 7
  env := ThreeBytes.env
  fs := Function.update (fun _ => none) file (some [4, 5, 6, 7])

lemma base_dir (name : String) :
    ((call name).dir .unix).base = ["d", "blobs", "import-0707070707070707"] := by
  have h : ((call "x").dir .unix).base = ["d", "blobs", "import-0707070707070707"] := by
    decide +kernel
  exact h

lemma fresh (name : String) : (call name).Fresh .unix := by
  rintro p ⟨depth, -, -, rest, hsegments, -⟩
  have hne : p ≠ file := by
    rintro rfl
    rw [base_dir] at hsegments
    exact absurd (List.cons.inj hsegments).1 (by decide)
  simp [call, hne]

/-- The name is that of the file, which is overwritten; then the name is refused. -/
theorem stream_overwrites_file :
    (call "/home/f").Fresh .unix ∧
      ¬ (call "/home/f").StaysInStore ThreeBytes.keys referenceBao OneFile.idOf Digest.codec .unix
        ThreeBytes.reads ∧
      ((call "/home/f").fromReader ThreeBytes.keys referenceBao OneFile.idOf Digest.codec .unix
        ThreeBytes.reads).1 file = some [1, 2, 3, 7] := by
  have hpath : ((call "/home/f").data .unix).path = file := by decide +kernel
  have hfile : ((call "/home/f").fromReader ThreeBytes.keys referenceBao OneFile.idOf Digest.codec
      .unix ThreeBytes.reads).1 file = some [1, 2, 3, 7] := by
    rw [StreamCall.fromReader_fst, hpath, Function.update_self]
    decide +kernel
  refine ⟨fresh _, fun h => ?_, hfile⟩
  have hold : (call "/home/f").fs file = some [4, 5, 6, 7] := by
    simp [call]
  have hkept := h.kept file (by rw [hold]; rfl)
  rw [hfile, hold] at hkept
  cases hkept

theorem stays_in_store_iff_named :
    (call "x").StaysInStore ThreeBytes.keys referenceBao OneFile.idOf Digest.codec .unix
      ThreeBytes.reads :=
  (StreamCall.stays_in_store_iff (call "x") (fresh "x")).2 (Or.inl (by decide +kernel))

end NamedStream

end Chorrent
