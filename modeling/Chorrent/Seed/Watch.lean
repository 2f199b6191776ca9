/-
# Files that are edited while they are served

The files of a share that is served from where it is can be edited at any time.  When the share
is assembled each file is looked up, after it was hashed; and when a piece cannot be encoded its
file is looked up again, so that a change can be reported, once for each file.  Every piece that is
sent is one of the files that were shared; and if no file was edited before it was looked up, no
piece is refused unless its file was edited, and is reported.
-/
import Chorrent.Seed.Stamp
import Chorrent.Seed.Ways

namespace Chorrent

open Lib

/-! ## Serving -/

/-- What a file of a share remembers of when it was shared. -/
structure WatchedFile where
  /-- The number of the version that was looked up, which the program does not know. -/
  version : ℕ
  sourceStamp : Option (ℕ × ℕ)
  reportedChange : Bool
deriving DecidableEq

/-- What `serve_piece` answers. -/
inductive PieceAnswer (Wire : Type)
  | piece (encoded : Wire)
  | dontHave
  | busy

/-- Where `serve_piece` is; pieces are given by their numbers. -/
inductive PieceStage (Wire : Type)
  | asked (index : ℕ)
  /-- Waits for a free upload slot. -/
  | waiting (index : ℕ)
  /-- Holds a slot; waits for the limiter. -/
  | limited (index : ℕ)
  /-- `encode_piece` reads the file, of which this version was opened. -/
  | encoding (index opened : ℕ)
  /-- At the start of `note_serve_failure`. -/
  | failed (index : ℕ)
  /-- About to swap `reported_change`. -/
  | changed (index : ℕ)
  /-- About to send the event. -/
  | reporting (index : ℕ)
  | answered (index : ℕ) (answer : PieceAnswer Wire)
  | aborted

inductive PieceAction
  | check
  | slot
  | slotTimeout
  | openFile
  /-- What `encode_piece` met: whether the file cannot be opened, and what it read. -/
  | encode (fails : Bool) (seen : Option Bytes)
  | lookUp
  | swap
  | report
  /-- The connection ended. -/
  | abort

/-- An event of a share; it is noted which file it is about. -/
inductive WatchEvent (Wire : Type)
  | uploaded (encoded : Wire)
  | sharedFileChanged (number : ℕ) (path : Path)

def WatchEvent.reports {Wire : Type} (number : ℕ) : WatchEvent Wire → Bool
  | .uploaded _ => false
  | .sharedFileChanged number' _ => number' = number

namespace PieceStage

variable {Wire : Type}

/-- A permit is held until `serve_piece` returns. -/
def holdsSlot : PieceStage Wire → Bool
  | .limited _ | .encoding _ _ | .failed _ | .changed _ | .reporting _ => true
  | .asked _ | .waiting _ | .answered _ _ | .aborted => false

/-- At an `await`, where a task can be stopped. -/
def awaits : PieceStage Wire → Bool
  | .waiting _ | .limited _ | .encoding _ _ | .answered _ _ => true
  | .asked _ | .failed _ | .changed _ | .reporting _ | .aborted => false

end PieceStage

/-- The files, what is remembered of those that were looked up, and the streams on which pieces
are asked for. -/
structure Watch (Wire : Type) where
  files : Edited
  watched : List WatchedFile
  streams : List (PieceStage Wire)
  events : List (WatchEvent Wire)

inductive WatchAction
  /-- Another program writes, creates or removes a file. -/
  | edit (path : Path) (file : Option OnDisk)
  /-- `assemble` goes on to the next file. -/
  | share
  /-- A peer asks for a piece. -/
  | accept (index : ℕ)
  | stream (k : ℕ) (action : PieceAction)

section

variable {Master Key Hash Wire : Type}

/-- `shared_in_place` -/
def FileData.sharedInPlace (data : FileData Master) (files : Edited) : WatchedFile where
  version := files.count data.path
  sourceStamp := if data.isEncrypted then none else files.disk.modified data.path
  reportedChange := false

/-- The file that a piece is of. -/
def LocalShare.fileOf (share : LocalShare Master Hash) (index : ℕ) :
    Option (ℕ × LocalFile Master Hash) := do
  let loc ← share.layout.locate index
  let file ← share.files[loc.file]?
  some (loc.file, file)

lemma Edited.fs_disk (files : Edited) (path : Path) :
    files.disk.fs path = (files.now path).map fun file => file.content.1 := by
  cases hfile : files.now path with
  | none => simp [SeedDisk.fs, disk, hfile, Except.toOption]
  | some file => simp [SeedDisk.fs, disk, hfile, Except.toOption]

namespace Watch

def new (now : Path → Option OnDisk) : Watch Wire := ⟨.new now, [], [], []⟩

variable (S : StoreKeys Master Key) (B : Bao Hash Wire) (share : LocalShare Master Hash)
  (uploadSlots : ℕ) (s : Watch Wire)

def freeSlots : ℕ := uploadSlots - s.streams.countP PieceStage.holdsSlot

/-- What `serve_piece` does next.  What is read of a file that was edited since it was opened can
be of any version, or of several. -/
def serve : PieceStage Wire → PieceAction → Option (Watch Wire × PieceStage Wire)
  | .asked index, .check =>
      if index ≥ share.totalPieces ∨ ¬ share.has index then some (s, .answered index .dontHave)
      else some (s, .waiting index)
  | .waiting index, .slot => if 0 < s.freeSlots uploadSlots then some (s, .limited index) else none
  -- the slots are the node's: its other shares may hold all of them
  | .waiting index, .slotTimeout => some (s, .answered index .busy)
  | .limited index, .openFile => do
      let (_, file) ← share.fileOf index
      some (s, .encoding index (s.files.count file.data.path))
  | .encoding index opened, .encode fails seen => do
      let (_, file) ← share.fileOf index
      let path := file.data.path
      if s.files.count path = opened ∧ seen ≠ s.files.disk.fs path then none
      else
        match share.encodePiece S B fails (fun _ => seen) index with
        | .ok encoded =>
            some ({ s with events := s.events ++ [.uploaded encoded] },
              .answered index (.piece encoded))
        | .error _ => some (s, .failed index)
  | .failed index, .lookUp => do
      let (number, file) ← share.fileOf index
      let w ← s.watched[number]?
      match w.sourceStamp with
      | none => some (s, .answered index .dontHave)
      | some stamp =>
          if s.files.disk.modified file.data.path ≠ some stamp then some (s, .changed index)
          else some (s, .answered index .dontHave)
  | .changed index, .swap => do
      let (number, _) ← share.fileOf index
      let w ← s.watched[number]?
      let s' := { s with watched := s.watched.set number { w with reportedChange := true } }
      if w.reportedChange then some (s', .answered index .dontHave) else some (s', .reporting index)
  | .reporting index, .report => do
      let (number, file) ← share.fileOf index
      some ({ s with events := s.events ++ [.sharedFileChanged number file.data.path] },
        .answered index .dontHave)
  | stage, .abort => if stage.awaits then some (s, .aborted) else none
  | _, _ => none

/-- Pieces are asked for once the share is assembled. -/
def step : WatchAction → Option (Watch Wire)
  | .edit path file => some { s with files := s.files.write path file }
  | .share => do
      let file ← share.files[s.watched.length]?
      some { s with watched := s.watched ++ [file.data.sharedInPlace s.files] }
  | .accept index =>
      if s.watched.length = share.files.length then
        some { s with streams := s.streams ++ [.asked index] }
      else none
  | .stream k action => do
      let stage ← s.streams[k]?
      let (s', stage') ← serve S B share uploadSlots s stage action
      some { s' with streams := s.streams.set k stage' }

end Watch

/-! ## What is known of a share -/

/-- A piece of a share in place: the file it is of was there with this content when it was
hashed. -/
structure PieceOf (B : Bao Hash Wire) (now : Path → Option OnDisk) (share : LocalShare Master Hash)
    (index number i : ℕ) (entry : FileEntry Hash) (path : Path) (there : OnDisk) : Prop where
  entry_eq : share.manifest.files[number]? = some entry
  lt : i < entry.pieces
  index_eq : index = Layout.firstOf share.manifest number + i
  file_eq : share.files[number]? = some ⟨.plain path, B.create there.content.1⟩
  there_eq : now path = some there
  size_eq : entry.size = there.content.1.length
  root_eq : entry.rootHash = (B.create there.content.1).root

/-- A complete share whose files are served from where they are. -/
structure InPlace (B : Bao Hash Wire) (now : Path → Option OnDisk)
    (share : LocalShare Master Hash) : Prop where
  layout_eq : share.layout = Layout.new share.manifest
  file : ∀ (number : ℕ) (entry : FileEntry Hash), share.manifest.files[number]? = some entry →
    ∃ (path : Path) (there : OnDisk),
      share.files[number]? = some ⟨.plain path, B.create there.content.1⟩ ∧ now path = some there ∧
        entry.size = there.content.1.length ∧ entry.rootHash = (B.create there.content.1).root
  plain : ∀ file ∈ share.files, file.data.isEncrypted = false
  has : ∀ index < share.totalPieces, share.has index = true

variable {S : StoreKeys Master Key} {B : Bao Hash Wire} {share : LocalShare Master Hash}
  {now : Path → Option OnDisk} {index number i : ℕ} {entry : FileEntry Hash} {path : Path}
  {there : OnDisk}

lemma PieceOf.fileOf (h : PieceOf B now share index number i entry path there)
    (hlayout : share.layout = Layout.new share.manifest) :
    share.fileOf index = some (number, ⟨.plain path, B.create there.content.1⟩) := by
  rw [LocalShare.fileOf, hlayout, h.index_eq, Layout.locate_eq h.entry_eq h.lt]
  simp [h.file_eq]

lemma LocalShare.files_of_fileOf {file : LocalFile Master Hash}
    (h : share.fileOf index = some (number, file)) : share.files[number]? = some file := by
  obtain ⟨loc, -, h⟩ := Option.bind_eq_some_iff.1 h
  obtain ⟨file', hfile, h⟩ := Option.bind_eq_some_iff.1 h
  cases h
  exact hfile

lemma InPlace.pieceOf (h : InPlace B now share) (hlt : index < share.totalPieces) :
    ∃ number i entry path there, PieceOf B now share index number i entry path there := by
  rw [LocalShare.totalPieces, h.layout_eq] at hlt
  obtain ⟨number, i, entry, hentry, hi, rfl⟩ := Layout.exists_piece hlt
  obtain ⟨path, there, hfile, hthere, hsize, hroot⟩ := h.file number entry hentry
  exact ⟨number, i, entry, path, there, hentry, hi, rfl, hfile, hthere, hsize, hroot⟩

/-- A share that is made of files on disk, as they are when it is made. -/
lemma Seed.fromDisk_inPlace [DecidableEq Hash] {toLowercase : String → String} {idOf : Bytes → Hash}
    {hash : Codec Hash} {os : Os} {disk : SeedDisk} {root : Path} {rootName : Option Bytes}
    {label : Option String} {secret : Option (List.Vector UInt8 32)} {seed : Seed Master Hash}
    (hnow : ∀ path content, disk.read path = .ok content →
      ∃ there, now path = some there ∧ there.content = content)
    (h : Seed.fromDisk B toLowercase idOf hash os disk root rootName label secret = .ok seed) :
    InPlace B now seed.share := by
  obtain ⟨found, hashed, -, hall, hmade⟩ := Job.outcome_fromDisk B toLowercase idOf hash os h
  generalize seed.share.manifest.name = name at hmade
  cases hmade
  refine ⟨rfl, fun number entry hentry => ?_, fun file hfile => ?_, fun index hlt => ?_⟩
  · obtain ⟨file, outboard, hfile, houtboard, rfl⟩ := List.getElem?_zipWith_eq_some.1 hentry
    obtain ⟨hlt, rfl⟩ := List.getElem?_eq_some_iff.1 hfile
    obtain ⟨hlt', rfl⟩ := List.getElem?_eq_some_iff.1 houtboard
    obtain ⟨content, hread, hcreate⟩ := except_map_eq_ok.1 ((List.forall₂_iff_get.1 hall).2 number
      hlt hlt')
    obtain ⟨there, hthere, rfl⟩ := hnow _ _ (IoResult.orError_eq_ok.1 hread)
    have hdata : (hashed[number] : Outboard Hash) = B.create there.content.1 :=
      (congrArg Subtype.val hcreate).symm
    refine ⟨_, there, List.getElem?_zipWith_eq_some.2 ⟨_, _, hfile, houtboard,
      congrArg (LocalFile.mk _) hdata⟩, hthere, ?_, ?_⟩
    · show (hashed[number] : Outboard Hash).size = _
      rw [hdata, B.create_size]
    · show (hashed[number] : Outboard Hash).root = _
      rw [hdata]
  · obtain ⟨number, hfile⟩ := List.mem_iff_getElem?.1 hfile
    obtain ⟨_, _, -, -, rfl⟩ := List.getElem?_zipWith_eq_some.1 hfile
    rfl
  · simp only [LocalShare.has, Seed.fromParts, LocalShare.totalPieces] at hlt ⊢
    simp [hlt]

/-! ## Encoding a piece -/

/-- The encoding proves the piece as it was when it was shared. -/
def GivesPiece (B : Bao Hash Wire) (now : Path → Option OnDisk) (share : LocalShare Master Hash)
    (index : ℕ) (encoded : Wire) : Prop :=
  ∃ number i entry path there load, PieceOf B now share index number i entry path there ∧
    ProvesBlock B.hasher load entry.rootHash entry.size i (block there.content.1 i) ∧
      B.decode entry.rootHash entry.size (i * blockSize) (pieceEnd entry.size i) encoded =
        (proofItems load entry.size i (block there.content.1 i), true)

namespace PieceOf

variable {fails : Bool} {seen : Option Bytes} {encoded : Wire}
  (h : PieceOf B now share index number i entry path there)
  (hlayout : share.layout = Layout.new share.manifest)
include h hlayout

lemma encodePiece_eq_ok :
    share.encodePiece S B fails (fun _ => seen) index = .ok encoded ↔
      fails = false ∧ encodeRange B S (.plain path) (B.create there.content.1) seen (i * blockSize)
        (pieceEnd entry.size i) = .ok encoded := by
  rw [LocalShare.encodePiece, hlayout, h.index_eq, Layout.locate_eq h.entry_eq h.lt,
    orPanic_some_bind]
  simp only
  rw [h.file_eq, orPanic_some_bind]
  cases fails with
  | true =>
    simp only [if_true, Bool.true_eq_false, false_and, iff_false]
    exact fun h => by cases h
  | false =>
    simp only [Bool.false_eq_true, if_false, true_and]
    exact IoResult.orError_eq_ok

/-- Whatever is read, what is encoded is what was shared. -/
lemma gives (hencode : share.encodePiece S B fails (fun _ => seen) index = .ok encoded) :
    GivesPiece B now share index encoded := by
  obtain ⟨-, hencode⟩ := (h.encodePiece_eq_ok hlayout).1 hencode
  obtain ⟨handle, -, hencode⟩ := except_bind_eq_ok.1 hencode
  have hsize : (B.create there.content.1).size = entry.size := by rw [B.create_size, h.size_eq]
  rw [← hsize] at hencode
  obtain ⟨d, -, hproves, hdecode⟩ := B.encode_valid _ _ i encoded
    (by rw [hsize]; exact h.lt) hencode
  rw [hsize, ← h.root_eq] at hproves hdecode
  have hroot : B.rootHash there.content.1 = entry.rootHash := by
    rw [h.root_eq, B.create_root, Bao.rootHash]
  obtain rfl := hproves.eq_block hroot
  exact ⟨number, i, entry, path, there, _, h, hproves, hdecode⟩

/-- A file that opens and has the content it had can be served. -/
lemma encodePiece_succeeds :
    ∃ encoded, share.encodePiece S B false (fun _ => some there.content.1) index = .ok encoded := by
  have hlt : i < blockCount there.content.1.length := by
    rw [← h.size_eq]
    exact h.lt
  have hproves := B.create_proves there.content.1 i hlt
  have hread : readExactAt there.content.1 (i * blockSize) (pieceLen there.content.1.length i) =
      .ok (block there.content.1 i) := by
    have hpos := lt_blockCount.1 hlt
    have hle := pieceLen_le_sub there.content.1.length i
    rw [readExactAt, if_pos (Or.inr (by omega)), block, slice_blockSize rfl]
  rw [← B.create_size] at hproves hread hlt
  obtain ⟨encoded, hencode⟩ := B.encode_succeeds _ (readExactAt there.content.1) i _ hlt hproves
    hread
  rw [B.create_size, ← h.size_eq] at hencode
  exact ⟨encoded, (h.encodePiece_eq_ok hlayout).2 ⟨rfl, hencode⟩⟩

end PieceOf

/-! ## Steps of a stream -/

namespace Watch

variable {uploadSlots : ℕ} {s s' : Watch Wire}

variable (S B share uploadSlots) in
/-- What a task in `serve_piece` may do. -/
inductive Move (s : Watch Wire) :
    PieceStage Wire → PieceAction → Watch Wire → PieceStage Wire → Prop
  | refused {index : ℕ} (hnot : index ≥ share.totalPieces ∨ ¬ share.has index) :
      Move s (.asked index) .check s (.answered index .dontHave)
  | accepted {index : ℕ} (hlt : index < share.totalPieces) :
      Move s (.asked index) .check s (.waiting index)
  | slot {index : ℕ} (hfree : 0 < s.freeSlots uploadSlots) :
      Move s (.waiting index) .slot s (.limited index)
  | busy {index : ℕ} : Move s (.waiting index) .slotTimeout s (.answered index .busy)
  | opened {index number : ℕ} {file : LocalFile Master Hash}
      (hfile : share.fileOf index = some (number, file)) :
      Move s (.limited index) .openFile s (.encoding index (s.files.count file.data.path))
  | encoded {index opened : ℕ} {fails : Bool} {seen : Option Bytes} {encoded : Wire}
      (hencode : share.encodePiece S B fails (fun _ => seen) index = .ok encoded) :
      Move s (.encoding index opened) (.encode fails seen)
        { s with events := s.events ++ [.uploaded encoded] } (.answered index (.piece encoded))
  | failed {index opened number : ℕ} {file : LocalFile Master Hash} {fails : Bool}
      {seen : Option Bytes} {e : Stop Error} (hfile : share.fileOf index = some (number, file))
      (hseen : s.files.count file.data.path = opened → seen = s.files.disk.fs file.data.path)
      (hencode : share.encodePiece S B fails (fun _ => seen) index = .error e) :
      Move s (.encoding index opened) (.encode fails seen) s (.failed index)
  | same {index number : ℕ} {file : LocalFile Master Hash} {w : WatchedFile}
      (hfile : share.fileOf index = some (number, file)) (hw : s.watched[number]? = some w)
      (hsame : ∀ stamp, w.sourceStamp = some stamp →
        s.files.disk.modified file.data.path = some stamp) :
      Move s (.failed index) .lookUp s (.answered index .dontHave)
  | changed {index number : ℕ} {file : LocalFile Master Hash} {w : WatchedFile} {stamp : ℕ × ℕ}
      (hfile : share.fileOf index = some (number, file)) (hw : s.watched[number]? = some w)
      (hstamp : w.sourceStamp = some stamp)
      (hne : s.files.disk.modified file.data.path ≠ some stamp) :
      Move s (.failed index) .lookUp s (.changed index)
  | again {index number : ℕ} {file : LocalFile Master Hash} {w : WatchedFile}
      (hfile : share.fileOf index = some (number, file)) (hw : s.watched[number]? = some w)
      (hflag : w.reportedChange = true) :
      Move s (.changed index) .swap
        { s with watched := s.watched.set number { w with reportedChange := true } }
        (.answered index .dontHave)
  | first {index number : ℕ} {file : LocalFile Master Hash} {w : WatchedFile}
      (hfile : share.fileOf index = some (number, file)) (hw : s.watched[number]? = some w)
      (hflag : w.reportedChange = false) :
      Move s (.changed index) .swap
        { s with watched := s.watched.set number { w with reportedChange := true } }
        (.reporting index)
  | reported {index number : ℕ} {file : LocalFile Master Hash}
      (hfile : share.fileOf index = some (number, file)) :
      Move s (.reporting index) .report
        { s with events := s.events ++ [.sharedFileChanged number file.data.path] }
        (.answered index .dontHave)
  | aborted {stage : PieceStage Wire} (hawaits : stage.awaits = true) :
      Move s stage .abort s .aborted

lemma serve_cases {stage stage' : PieceStage Wire} {action : PieceAction}
    (h : serve S B share uploadSlots s stage action = some (s', stage')) :
    Move S B share uploadSlots s stage action s' stage' := by
  rw [serve.eq_def] at h
  split at h
  · split_ifs at h with hnot
    · cases h
      exact .refused hnot
    · cases h
      exact .accepted (by omega)
  · split_ifs at h with hfree
    cases h
    exact .slot hfree
  · cases h
    exact .busy
  · obtain ⟨⟨number, file⟩, hfile, h⟩ := Option.bind_eq_some_iff.1 h
    cases h
    exact .opened hfile
  · obtain ⟨⟨number, file⟩, hfile, h⟩ := Option.bind_eq_some_iff.1 h
    dsimp only at h
    split_ifs at h with hseen
    split at h
    · cases h
      exact .encoded ‹_›
    · cases h
      exact .failed hfile (fun hcount => not_not.1 fun hne => hseen ⟨hcount, hne⟩) ‹_›
  · obtain ⟨⟨number, file⟩, hfile, h⟩ := Option.bind_eq_some_iff.1 h
    obtain ⟨w, hw, h⟩ := Option.bind_eq_some_iff.1 h
    split at h
    · rename_i hnone
      cases h
      exact .same hfile hw fun stamp hstamp => by cases hnone.symm.trans hstamp
    · rename_i hstamp
      split_ifs at h with hne
      · cases h
        exact .changed hfile hw hstamp hne
      · cases h
        exact .same hfile hw fun stamp' hstamp' => by
          cases hstamp.symm.trans hstamp'
          exact not_not.1 hne
  · obtain ⟨⟨number, file⟩, hfile, h⟩ := Option.bind_eq_some_iff.1 h
    obtain ⟨w, hw, h⟩ := Option.bind_eq_some_iff.1 h
    dsimp only at h
    split_ifs at h with hflag
    · cases h
      exact .again hfile hw hflag
    · cases h
      exact .first hfile hw (by simpa using hflag)
  · obtain ⟨⟨number, file⟩, hfile, h⟩ := Option.bind_eq_some_iff.1 h
    cases h
    exact .reported hfile
  · split_ifs at h with hawaits
    cases h
    exact .aborted hawaits
  · cases h

/-- Later, files may have been edited, and changes reported. -/
structure Later (s s' : Watch Wire) : Prop where
  count_le : ∀ path, s.files.count path ≤ s'.files.count path
  watched : ∀ (number : ℕ) (w : WatchedFile), s.watched[number]? = some w →
    ∃ w', s'.watched[number]? = some w' ∧ w'.version = w.version ∧ w'.sourceStamp = w.sourceStamp ∧
      (w.reportedChange = true → w'.reportedChange = true)

lemma Later.of_eq (hfiles : s'.files = s.files) (hwatched : s'.watched = s.watched) : Later s s' :=
  ⟨fun path => by rw [hfiles], fun number w hw => ⟨w, by rw [hwatched, hw], rfl, rfl, id⟩⟩

lemma Move.later {stage stage' : PieceStage Wire} {action : PieceAction}
    (h : Move S B share uploadSlots s stage action s' stage') : Later s s' := by
  have hset : ∀ (number : ℕ) (w : WatchedFile), s.watched[number]? = some w →
      Later s { s with watched := s.watched.set number { w with reportedChange := true } } := by
    refine fun number w hw => ⟨fun path => Nat.le_refl _, fun number' w' hw' => ?_⟩
    dsimp only
    by_cases heq : number = number'
    · subst heq
      cases hw.symm.trans hw'
      exact ⟨_, List.getElem?_set_self (List.getElem?_eq_some_iff.1 hw).1, rfl, rfl, fun _ => rfl⟩
    · exact ⟨w', by rw [List.getElem?_set_ne heq, hw'], rfl, rfl, id⟩
  cases h with
  | again hfile hw hflag => exact hset _ _ hw
  | first hfile hw hflag => exact hset _ _ hw
  | _ => exact .of_eq rfl rfl

lemma step_later {a : WatchAction} (h : step S B share uploadSlots s a = some s') : Later s s' := by
  cases a with
  | edit path file =>
    cases h
    refine ⟨fun path' => ?_, fun number w hw => ⟨w, hw, rfl, rfl, id⟩⟩
    by_cases heq : path' = path
    · subst heq
      rw [Versions.count_write_same]
      exact Nat.le_succ _
    · rw [Versions.count_write_ne heq]
  | share =>
    obtain ⟨file, hfile, h⟩ := Option.bind_eq_some_iff.1 h
    cases h
    exact ⟨fun path => Nat.le_refl _, fun number w hw => ⟨w, by
      rw [List.getElem?_append_left (List.getElem?_eq_some_iff.1 hw).1, hw], rfl, rfl, id⟩⟩
  | accept index =>
    rw [step] at h
    split_ifs at h
    cases h
    exact .of_eq rfl rfl
  | stream k action =>
    obtain ⟨stage, hstage, h⟩ := Option.bind_eq_some_iff.1 h
    obtain ⟨⟨s₁, stage'⟩, hserve, h⟩ := Option.bind_eq_some_iff.1 h
    cases h
    have hlater := (serve_cases hserve).later
    exact ⟨hlater.count_le, hlater.watched⟩

/-! ## What is sent and what is reported -/

variable (share) in
/-- The file was edited since it was looked up. -/
def EditedSince (s : Watch Wire) (number : ℕ) : Prop :=
  ∃ w file, s.watched[number]? = some w ∧ share.files[number]? = some file ∧
    w.version < s.files.count file.data.path

variable (B now share) in
/-- What holds where a stream is. -/
def Right (s : Watch Wire) : PieceStage Wire → Prop
  | .waiting index | .limited index | .failed index => index < share.totalPieces
  | .encoding index opened => index < share.totalPieces ∧ ∃ number file,
      share.fileOf index = some (number, file) ∧ opened ≤ s.files.count file.data.path
  | .changed index | .reporting index => index < share.totalPieces ∧ ∃ number file,
      share.fileOf index = some (number, file) ∧ s.EditedSince share number
  | .answered index (.piece encoded) => GivesPiece B now share index encoded
  | .asked _ | .answered _ _ | .aborted => True

variable (share) in
/-- The stream is about to report this file. -/
def reportsOn (number : ℕ) : PieceStage Wire → Bool
  | .reporting index => (share.fileOf index).any fun file => file.1 = number
  | _ => false

/-- How often a change of this file was reported or is about to be. -/
def reportedOf (s : Watch Wire) (number : ℕ) : ℕ :=
  (s.watched[number]?).elim 0 fun w => w.reportedChange.toNat

variable (B now share) in
structure Inv (s : Watch Wire) : Prop where
  looked : ∀ (number : ℕ) (w : WatchedFile) (file : LocalFile Master Hash),
    s.watched[number]? = some w → share.files[number]? = some file →
      s.files.Seen (fun version => stampOf version = w.sourceStamp) file.data.path w.version
  stages : ∀ stage ∈ s.streams, s.Right B share now stage
  tally : ∀ number, s.events.countP (WatchEvent.reports number) +
    s.streams.countP (reportsOn share number) = s.reportedOf number
  events : ∀ number path, .sharedFileChanged number path ∈ s.events →
    s.EditedSince share number ∧ (share.files[number]?).map (fun file => file.data.path) = some path

lemma EditedSince.mono (hlater : Later s s') (h : s.EditedSince share number) :
    s'.EditedSince share number := by
  obtain ⟨w, file, hw, hfile, hlt⟩ := h
  obtain ⟨w', hw', hversion, -, -⟩ := hlater.watched number w hw
  exact ⟨w', file, hw', hfile, hversion ▸ hlt.trans_le (hlater.count_le _)⟩

lemma Right.mono (hlater : Later s s') {stage : PieceStage Wire} (h : s.Right B share now stage) :
    s'.Right B share now stage := by
  cases stage with
  | encoding index opened =>
    obtain ⟨hlt, number, file, hfile, hle⟩ := h
    exact ⟨hlt, number, file, hfile, hle.trans (hlater.count_le _)⟩
  | changed index =>
    obtain ⟨hlt, number, file, hfile, hedited⟩ := h
    exact ⟨hlt, number, file, hfile, hedited.mono hlater⟩
  | reporting index =>
    obtain ⟨hlt, number, file, hfile, hedited⟩ := h
    exact ⟨hlt, number, file, hfile, hedited.mono hlater⟩
  | answered index answer => cases answer <;> exact h
  | _ => exact h

lemma reportedOf_set {w : WatchedFile} (hw : s.watched[number]? = some w) (number' : ℕ) :
    reportedOf { s with watched := s.watched.set number { w with reportedChange := true } }
      number' = if number = number' then 1 else s.reportedOf number' := by
  rw [reportedOf]
  split_ifs with heq
  · subst heq
    rw [List.getElem?_set_self (List.getElem?_eq_some_iff.1 hw).1]
    rfl
  · rw [List.getElem?_set_ne heq]
    rfl

lemma countP_set_add {α : Type} {p : α → Bool} {l : List α} {k : ℕ} {a b : α}
    (h : l[k]? = some a) :
    (l.set k b).countP p + (p a).toNat = l.countP p + (p b).toNat := by
  obtain ⟨hlt, rfl⟩ := List.getElem?_eq_some_iff.1 h
  have hpos : p l[k] = true → 0 < l.countP p := fun hp =>
    List.countP_pos_iff.2 ⟨_, List.getElem_mem hlt, hp⟩
  rw [List.countP_set hlt]
  cases hp : p l[k] with
  | true =>
    have := hpos hp
    cases p b <;> simp <;> omega
  | false => cases p b <;> simp

/-- A stream changes no file, and of what is remembered only the flags. -/
lemma Move.frame {stage stage' : PieceStage Wire} {action : PieceAction}
    (h : Move S B share uploadSlots s stage action s' stage') :
    s'.files = s.files ∧ s'.streams = s.streams ∧
      ∀ (number : ℕ) (w' : WatchedFile), s'.watched[number]? = some w' →
        ∃ w, s.watched[number]? = some w ∧ w'.version = w.version ∧
          w'.sourceStamp = w.sourceStamp := by
  have hset : ∀ (number : ℕ) (w : WatchedFile), s.watched[number]? = some w →
      ∀ (number' : ℕ) (w' : WatchedFile),
        (s.watched.set number { w with reportedChange := true })[number']? = some w' →
        ∃ w, s.watched[number']? = some w ∧ w'.version = w.version ∧
          w'.sourceStamp = w.sourceStamp := by
    intro number w hw number' w' hw'
    by_cases heq : number = number'
    · subst heq
      rw [List.getElem?_set_self (List.getElem?_eq_some_iff.1 hw).1] at hw'
      cases hw'
      exact ⟨w, hw, rfl, rfl⟩
    · rw [List.getElem?_set_ne heq] at hw'
      exact ⟨w', hw', rfl, rfl⟩
  cases h with
  | again hfile hw hflag => exact ⟨rfl, rfl, hset _ _ hw⟩
  | first hfile hw hflag => exact ⟨rfl, rfl, hset _ _ hw⟩
  | _ => exact ⟨rfl, rfl, fun number w' hw' => ⟨w', hw', rfl, rfl⟩⟩

lemma Move.events {stage stage' : PieceStage Wire} {action : PieceAction}
    (h : Move S B share uploadSlots s stage action s' stage') (number : ℕ) (path : Path)
    (hevent : .sharedFileChanged number path ∈ s'.events) :
    .sharedFileChanged number path ∈ s.events ∨ ∃ index file, stage = .reporting index ∧
      share.fileOf index = some (number, file) ∧ path = file.data.path := by
  cases h with
  | encoded hencode => exact .inl (by simpa using hevent)
  | reported hfile =>
    rcases List.mem_append.1 hevent with hevent | hevent
    · exact .inl hevent
    · cases List.mem_singleton.1 hevent
      exact .inr ⟨_, _, rfl, hfile, rfl⟩
  | _ => exact .inl hevent

/-- A change is reported by who sets the flag. -/
lemma Move.tally {stage stage' : PieceStage Wire} {action : PieceAction}
    (h : Move S B share uploadSlots s stage action s' stage') (number : ℕ) :
    s'.events.countP (WatchEvent.reports number) + (reportsOn share number stage').toNat +
        s.reportedOf number =
      s.events.countP (WatchEvent.reports number) + (reportsOn share number stage).toNat +
        s'.reportedOf number := by
  cases h with
  | encoded hencode =>
    rw [List.countP_append]
    rfl
  | again hfile hw hflag =>
    rw [reportedOf_set hw]
    split_ifs with heq
    · subst heq
      rw [reportedOf, hw]
      simp [hflag, reportsOn]
    · rfl
  | first hfile hw hflag =>
    rw [reportedOf_set hw]
    split_ifs with heq
    · subst heq
      rw [reportedOf, hw]
      simp [hflag, reportsOn, hfile]
    · simp [reportsOn, hfile, heq]
  | @reported index number' file hfile =>
    rw [List.countP_append]
    by_cases heq : number' = number
    · simp [reportsOn, hfile, heq, WatchEvent.reports, reportedOf]
    · simp [reportsOn, hfile, heq, WatchEvent.reports, reportedOf]
  | @aborted stage hawaits =>
    cases stage with
    | reporting index => cases hawaits
    | _ => rfl
  | _ => rfl

lemma Move.right {stage stage' : PieceStage Wire} {action : PieceAction}
    (hshare : InPlace B now share) (hinv : s.Inv B share now) (hright : s.Right B share now stage)
    (h : Move S B share uploadSlots s stage action s' stage') : s'.Right B share now stage' := by
  have hlater := h.later
  cases h with
  | accepted hlt => exact hlt
  | slot hfree => exact hright
  | opened hfile => exact ⟨hright, _, _, hfile, Nat.le_refl _⟩
  | encoded hencode =>
    obtain ⟨number, i, entry, path, there, hpiece⟩ := hshare.pieceOf hright.1
    exact hpiece.gives hshare.layout_eq hencode
  | failed hfile hseen hencode => exact hright.1
  | @changed index number file w stamp hfile hw hstamp hne =>
    have hof := LocalShare.files_of_fileOf hfile
    obtain ⟨hle, hseen⟩ := hinv.looked number w file hw hof
    -- a file that was not edited since it was looked up has the stamp it had
    have hnot : s.files.count file.data.path ≠ w.version := fun hcount =>
      hne (by rw [Edited.modified_disk, hseen hcount, hstamp])
    exact ⟨hright, number, file, hfile, w, file, hw, hof, by omega⟩
  | first hfile hw hflag => exact hright.mono hlater
  | _ => trivial

lemma inv_new : (new now : Watch Wire).Inv B share now := by
  refine ⟨?_, ?_, fun number => rfl, ?_⟩
  · rintro number w file ⟨⟩
  · rintro stage ⟨⟩
  · rintro number path ⟨⟩

lemma Inv.step {a : WatchAction} (hshare : InPlace B now share) (h : s.Inv B share now)
    (hstep : step S B share uploadSlots s a = some s') : s'.Inv B share now := by
  have hlater := step_later hstep
  have hevents : ∀ number path, .sharedFileChanged number path ∈ s.events →
      s'.EditedSince share number ∧
        (share.files[number]?).map (fun file => file.data.path) = some path :=
    fun number path hevent => ⟨(h.events number path hevent).1.mono hlater,
      (h.events number path hevent).2⟩
  have hstages : ∀ stage ∈ s.streams, s'.Right B share now stage :=
    fun stage hstage => (h.stages stage hstage).mono hlater
  cases a with
  | edit path file =>
    cases hstep
    exact ⟨fun number w file' hw hfile => (h.looked number w file' hw hfile).write, hstages,
      h.tally, hevents⟩
  | share =>
    obtain ⟨file, hfile, hstep⟩ := Option.bind_eq_some_iff.1 hstep
    cases hstep
    refine ⟨fun number w file' hw hfile' => ?_, hstages, fun number => ?_, hevents⟩
    · by_cases hlt : number < s.watched.length
      · rw [List.getElem?_append_left hlt] at hw
        exact h.looked number w file' hw hfile'
      · rw [List.getElem?_append_right (Nat.not_lt.1 hlt), List.getElem?_singleton] at hw
        split_ifs at hw with hnumber
        obtain rfl : number = s.watched.length := by omega
        cases hfile.symm.trans hfile'
        cases hw
        refine .now ?_
        show _ = if file.data.isEncrypted = true then none else _
        rw [hshare.plain file (List.mem_of_getElem? hfile), if_neg Bool.false_ne_true,
          Edited.modified_disk]
    · refine (h.tally number).trans ?_
      rw [reportedOf, reportedOf]
      by_cases hlt : number < s.watched.length
      · rw [List.getElem?_append_left hlt]
      · rw [List.getElem?_eq_none (Nat.not_lt.1 hlt), List.getElem?_append_right (Nat.not_lt.1 hlt),
          List.getElem?_singleton]
        split_ifs <;> rfl
  | accept index =>
    rw [Watch.step] at hstep
    split_ifs at hstep
    cases hstep
    refine ⟨h.looked, fun stage hstage => ?_, fun number => ?_, hevents⟩
    · rcases List.mem_append.1 hstage with hstage | hstage
      · exact hstages stage hstage
      · obtain rfl := List.mem_singleton.1 hstage
        trivial
    · rw [List.countP_append]
      exact h.tally number
  | stream k action =>
    obtain ⟨stage, hstage, hstep⟩ := Option.bind_eq_some_iff.1 hstep
    obtain ⟨⟨s₁, stage'⟩, hserve, hstep⟩ := Option.bind_eq_some_iff.1 hstep
    cases hstep
    have hmove := serve_cases hserve
    have hright := h.stages stage (List.mem_of_getElem? hstage)
    obtain ⟨hfiles, hstreams, hback⟩ := hmove.frame
    refine ⟨fun number w file hw hfile => ?_, fun stage₁ hstage₁ => ?_, fun number => ?_,
      fun number path hevent => ?_⟩
    · obtain ⟨w₀, hw₀, hversion, hstamp⟩ := hback number w hw
      rw [hversion, hstamp]
      show s₁.files.Seen _ _ _
      rw [hfiles]
      exact h.looked number w₀ file hw₀ hfile
    · rcases List.mem_or_eq_of_mem_set hstage₁ with hstage₁ | rfl
      · exact hstages stage₁ hstage₁
      · exact (hmove.right hshare h hright).mono (.of_eq rfl rfl)
    · have hset := countP_set_add (p := reportsOn share number) (b := stage') hstage
      have htally := hmove.tally number
      have hbefore := h.tally number
      show s₁.events.countP _ + (s.streams.set k stage').countP _ = s₁.reportedOf number
      omega
    · rcases hmove.events number path hevent with hevent | ⟨index, file, rfl, hfile, rfl⟩
      · exact hevents number path hevent
      · obtain ⟨hlt, number', file', hfile', hedited⟩ := hright
        cases hfile.symm.trans hfile'
        refine ⟨hedited.mono hlater, ?_⟩
        rw [LocalShare.files_of_fileOf hfile]
        rfl

/-! ## When everything is noticed -/

variable (share) in
/-- Each edit leaves a stamp that the file never had; no file is edited before it is looked up, and
it has a modified time then; and a file that cannot be opened was edited. -/
def Careful (s : Watch Wire) : WatchAction → Prop
  | .edit path file => s.files.Fresh stampOf path file
  | .share => ∀ file, share.files[s.watched.length]? = some file →
      s.files.count file.data.path = 0 ∧ s.files.disk.modified file.data.path ≠ none
  | .stream k (.encode true _) => ∀ index opened number file,
      s.streams[k]? = some (.encoding index opened) → share.fileOf index = some (number, file) →
        0 < s.files.count file.data.path
  | _ => True

variable (share) in
/-- The file of the piece was edited, and somebody set its flag. -/
def Flagged (s : Watch Wire) (index : ℕ) : Prop :=
  ∃ number file w, share.fileOf index = some (number, file) ∧ s.watched[number]? = some w ∧
    w.reportedChange = true ∧ 0 < s.files.count file.data.path

variable (share) in
/-- Encoding fails only where a file was edited, and that is noticed. -/
def Noticed (s : Watch Wire) : PieceStage Wire → Prop
  | .failed index => ∀ number file, share.fileOf index = some (number, file) →
      0 < s.files.count file.data.path
  | .answered index .dontHave => index < share.totalPieces → s.Flagged share index
  | _ => True

variable (share now) in
structure Alert (s : Watch Wire) : Prop where
  once : s.files.Once stampOf
  first : ∀ path, (s.files.all path).getLast? = some (now path)
  looked : ∀ (number : ℕ) (w : WatchedFile) (file : LocalFile Master Hash),
    s.watched[number]? = some w → share.files[number]? = some file →
      w.version = 0 ∧ w.sourceStamp ≠ none ∧ w.sourceStamp = stampOf (now file.data.path)
  stages : ∀ stage ∈ s.streams, s.Noticed share stage

lemma Noticed.mono (hlater : Later s s') {stage : PieceStage Wire} (h : s.Noticed share stage) :
    s'.Noticed share stage := by
  cases stage with
  | failed index =>
    exact fun number file hfile => (h number file hfile).trans_le (hlater.count_le _)
  | answered index answer =>
    cases answer with
    | dontHave =>
      intro hlt
      obtain ⟨number, file, w, hfile, hw, hflag, hpos⟩ := h hlt
      obtain ⟨w', hw', -, -, hkept⟩ := hlater.watched number w hw
      exact ⟨number, file, w', hfile, hw', hkept hflag, hpos.trans_le (hlater.count_le _)⟩
    | piece | busy => trivial
  | _ => trivial

lemma alert_new : (new now : Watch Wire).Alert share now := by
  refine ⟨Versions.once_new now, fun path => rfl, ?_, ?_⟩
  · rintro number w file ⟨⟩
  · rintro stage ⟨⟩

/-- What is edited since it was looked up was edited. -/
lemma EditedSince.pos {file : LocalFile Master Hash}
    (hfile : share.fileOf index = some (number, file)) (h : s.EditedSince share number) :
    0 < s.files.count file.data.path := by
  obtain ⟨w, file', -, hfile', hlt⟩ := h
  cases (LocalShare.files_of_fileOf hfile).symm.trans hfile'
  omega

lemma Move.noticed {stage stage' : PieceStage Wire} {action : PieceAction}
    (hshare : InPlace B now share) (hinv : s.Inv B share now) (h : s.Alert share now)
    (hstage : stage ∈ s.streams)
    (hopens : ∀ index opened seen number file, stage = .encoding index opened →
      action = .encode true seen → share.fileOf index = some (number, file) →
        0 < s.files.count file.data.path)
    (hmove : Move S B share uploadSlots s stage action s' stage') : s'.Noticed share stage' := by
  have hright := hinv.stages stage hstage
  have hnoticed := h.stages stage hstage
  have hlater := hmove.later
  cases hmove with
  | refused hnot =>
    intro hlt
    exact absurd hnot (by simp [hlt, hshare.has _ hlt])
  | @failed index opened number file fails seen e hfile hseen hencode =>
    intro number' file' hfile'
    cases hfile.symm.trans hfile'
    cases fails with
    | true => exact hopens index opened seen number file rfl rfl hfile
    | false =>
      -- a file that was never edited is read as it was shared
      by_contra hnot
      have hcount : s.files.count file.data.path = 0 := Nat.eq_zero_of_not_pos hnot
      obtain ⟨hlt, number₁, file₁, hfile₁, hopened⟩ := hright
      cases hfile.symm.trans hfile₁
      obtain ⟨number₂, i, entry, path, there, hpiece⟩ := hshare.pieceOf hlt
      cases hfile.symm.trans (hpiece.fileOf hshare.layout_eq)
      have hnow := Versions.now_eq_of_count (h.first path) hcount
      have hread : seen = some there.content.1 := by
        rw [hseen (by omega), Edited.fs_disk]
        show (s.files.now path).map _ = _
        rw [hnow, hpiece.there_eq]
        rfl
      obtain ⟨encoded, hgives⟩ := hpiece.encodePiece_succeeds (S := S) hshare.layout_eq
      rw [← hread, hencode] at hgives
      cases hgives
  | @same index number file w hfile hw hsame =>
    obtain ⟨-, hsome, hstamp⟩ := h.looked number w file hw (LocalShare.files_of_fileOf hfile)
    obtain ⟨stamp, hlooked⟩ := Option.ne_none_iff_exists'.1 hsome
    have hnow := hsame stamp hlooked
    rw [Edited.modified_disk] at hnow
    exact absurd hnow (h.once.stamp_ne (h.first _) (hnoticed number file hfile)
      (hstamp.symm.trans hlooked))
  | @again index number file w hfile hw hflag =>
    intro hlt
    obtain ⟨-, number', file', hfile', hedited⟩ := hright
    cases hfile.symm.trans hfile'
    have hpos := hedited.pos hfile
    obtain ⟨w', hw', -, -, hkept⟩ := hlater.watched number w hw
    exact ⟨number, file, w', hfile, hw', hkept hflag, hpos⟩
  | @reported index number file hfile =>
    intro hlt
    obtain ⟨-, number', file', hfile', hedited⟩ := hright
    cases hfile.symm.trans hfile'
    have htally := hinv.tally number
    have hpos : 0 < s.streams.countP (reportsOn share number) :=
      List.countP_pos_iff.2 ⟨_, hstage, by simp [reportsOn, hfile]⟩
    rw [reportedOf] at htally
    cases hw : s.watched[number]? with
    | none =>
      rw [hw, Option.elim_none] at htally
      omega
    | some w =>
      rw [hw, Option.elim_some] at htally
      refine ⟨number, file, w, hfile, hw, ?_, hedited.pos hfile⟩
      cases hflag : w.reportedChange with
      | true => rfl
      | false =>
        rw [hflag, Bool.toNat_false] at htally
        omega
  | _ => trivial

lemma Alert.step {a : WatchAction} (hshare : InPlace B now share) (hinv : s.Inv B share now)
    (h : s.Alert share now) (hcareful : s.Careful share a)
    (hstep : step S B share uploadSlots s a = some s') : s'.Alert share now := by
  have hlater := step_later hstep
  have hstages : ∀ stage ∈ s.streams, s'.Noticed share stage :=
    fun stage hstage => (h.stages stage hstage).mono hlater
  cases a with
  | edit path file =>
    cases hstep
    exact ⟨h.once.write hcareful, fun path' => Versions.getLast?_all_write.trans (h.first path'),
      h.looked, hstages⟩
  | share =>
    obtain ⟨file, hfile, hstep⟩ := Option.bind_eq_some_iff.1 hstep
    cases hstep
    refine ⟨h.once, h.first, fun number w file' hw hfile' => ?_, hstages⟩
    by_cases hlt : number < s.watched.length
    · rw [List.getElem?_append_left hlt] at hw
      exact h.looked number w file' hw hfile'
    · rw [List.getElem?_append_right (Nat.not_lt.1 hlt), List.getElem?_singleton] at hw
      split_ifs at hw with hnumber
      obtain rfl : number = s.watched.length := by omega
      cases hfile.symm.trans hfile'
      cases hw
      obtain ⟨hcount, hmtime⟩ := hcareful file hfile
      have hstamp : (file.data.sharedInPlace s.files).sourceStamp =
          s.files.disk.modified file.data.path := by
        rw [FileData.sharedInPlace, hshare.plain file (List.mem_of_getElem? hfile)]
        rfl
      refine ⟨hcount, hstamp ▸ hmtime, hstamp.trans ?_⟩
      rw [Edited.modified_disk, Versions.now_eq_of_count (h.first _) hcount]
  | accept index =>
    rw [Watch.step] at hstep
    split_ifs at hstep
    cases hstep
    refine ⟨h.once, h.first, h.looked, fun stage hstage => ?_⟩
    rcases List.mem_append.1 hstage with hstage | hstage
    · exact hstages stage hstage
    · obtain rfl := List.mem_singleton.1 hstage
      trivial
  | stream k action =>
    obtain ⟨stage, hstage, hstep⟩ := Option.bind_eq_some_iff.1 hstep
    obtain ⟨⟨s₁, stage'⟩, hserve, hstep⟩ := Option.bind_eq_some_iff.1 hstep
    cases hstep
    have hmove := serve_cases hserve
    obtain ⟨hfiles, -, hback⟩ := hmove.frame
    have hnoticed : s₁.Noticed share stage' := by
      refine hmove.noticed hshare hinv h (List.mem_of_getElem? hstage) ?_
      rintro index opened seen number file rfl rfl hfile
      exact hcareful index opened number file hstage hfile
    refine ⟨hfiles ▸ h.once, hfiles ▸ h.first, fun number w file hw hfile => ?_,
      fun stage₁ hstage₁ => ?_⟩
    · obtain ⟨w₀, hw₀, hversion, hstamp⟩ := hback number w hw
      rw [hversion, hstamp]
      exact h.looked number w₀ file hw₀ hfile
    · rcases List.mem_or_eq_of_mem_set hstage₁ with hstage₁ | rfl
      · exact hstages stage₁ hstage₁
      · exact hnoticed.mono (.of_eq rfl rfl)

lemma exists_of_flagged (hinv : s.Inv B share now) (h : s.Flagged share index) :
    ∃ number file, share.fileOf index = some (number, file) ∧ 0 < s.files.count file.data.path ∧
      (.sharedFileChanged number file.data.path ∈ s.events ∨ ∃ other, .reporting other ∈ s.streams ∧
        (share.fileOf other).map Prod.fst = some number) := by
  obtain ⟨number, file, w, hfile, hw, hflag, hpos⟩ := h
  refine ⟨number, file, hfile, hpos, ?_⟩
  have htally := hinv.tally number
  rw [reportedOf, hw, Option.elim_some, hflag, Bool.toNat_true] at htally
  rcases Nat.eq_zero_or_pos (s.events.countP (WatchEvent.reports number)) with hnone | hsome
  · obtain ⟨stage, hstage, hreports⟩ := List.countP_pos_iff.1
      (by omega : 0 < s.streams.countP (reportsOn share number))
    cases stage with
    | reporting other =>
      obtain ⟨found, hfound, hnumber⟩ := (Option.any_eq_true _ _).1 hreports
      exact .inr ⟨other, hstage, by rw [hfound]; simpa using hnumber⟩
    | _ => cases hreports
  · obtain ⟨event, hevent, hreports⟩ := List.countP_pos_iff.1 hsome
    cases event with
    | uploaded encoded => cases hreports
    | sharedFileChanged number' path =>
      obtain rfl : number' = number := by simpa [WatchEvent.reports] using hreports
      obtain ⟨-, hpath⟩ := hinv.events _ _ hevent
      rw [LocalShare.files_of_fileOf hfile] at hpath
      obtain rfl : file.data.path = path := Option.some.inj hpath
      exact .inl hevent

/-- In every run in which files that are shared in place are edited while streams are served, each
piece that is sent is as it was when it was shared; a change is reported at most once for each
file, and only of a file that was edited since it was looked up.  If edits leave new stamps, no
file is edited between hashing and being looked up, and every file can be opened that was not
edited, then a piece is refused only if its file was edited, and that was reported or is about
to be. -/
theorem edits_reported [DecidableEq Hash] {toLowercase : String → String} {idOf : Bytes → Hash}
    {hash : Codec Hash} {os : Os} {disk : SeedDisk} {root : Path} {rootName : Option Bytes}
    {label : Option String} {secret : Option (List.Vector UInt8 32)} {seed : Seed Master Hash}
    {actions : List WatchAction}
    (hnow : ∀ path content, disk.read path = .ok content →
      ∃ there, now path = some there ∧ there.content = content)
    (hmade : Seed.fromDisk B toLowercase idOf hash os disk root rootName label secret = .ok seed)
    (hrun : Run (fun s a s' => step S B seed.share uploadSlots s a = some s') (.new now)
      actions s) :
    (∀ index encoded, .answered index (.piece encoded) ∈ s.streams →
      GivesPiece B now seed.share index encoded) ∧
    (∀ number, s.events.countP (WatchEvent.reports number) ≤ 1) ∧
    (∀ number path, .sharedFileChanged number path ∈ s.events → s.EditedSince seed.share number ∧
      (seed.share.files[number]?).map (fun file => file.data.path) = some path) ∧
    (Run (fun s a s' => step S B seed.share uploadSlots s a = some s' ∧ s.Careful seed.share a)
        (.new now) actions s →
      ∀ index < seed.share.totalPieces, .answered index .dontHave ∈ s.streams →
        ∃ number file, seed.share.fileOf index = some (number, file) ∧
          0 < s.files.count file.data.path ∧
          (.sharedFileChanged number file.data.path ∈ s.events ∨
            ∃ other, .reporting other ∈ s.streams ∧
              (seed.share.fileOf other).map Prod.fst = some number)) := by
  have hshare := Seed.fromDisk_inPlace hnow hmade
  have hinv : s.Inv B seed.share now :=
    hrun.invariant (fun _ _ _ h hstep => h.step hshare hstep) inv_new
  refine ⟨fun index encoded hanswered => hinv.stages _ hanswered, fun number => ?_, hinv.events,
    fun hcareful index hlt hanswered => ?_⟩
  · have htally := hinv.tally number
    have hle : s.reportedOf number ≤ 1 := by
      rw [reportedOf]
      cases s.watched[number]? with
      | none => exact Nat.zero_le _
      | some w => exact Bool.toNat_le _
    omega
  · have halert : s.Alert seed.share now := (hcareful.invariant
      (P := fun s => s.Inv B seed.share now ∧ s.Alert seed.share now)
      (fun _ _ _ h hstep => ⟨h.1.step hshare hstep.1, h.2.step hshare h.1 hstep.2 hstep.1⟩)
      ⟨inv_new, alert_new⟩).2
    exact exists_of_flagged hinv (halert.stages _ hanswered hlt)

end Watch

end

/-! ## An edit while a piece is served -/

namespace ThreeBytes

/-- Every file is the one that is shared. -/
def onDisk (_ : Path) : Option OnDisk := some ⟨bytes, some 1⟩

def rewritten : OnDisk := ⟨⟨[9, 9, 9], by decide⟩, some 2⟩

/-- The file is written over after it was opened. -/
def serving : List WatchAction :=
  [.share, .accept 0, .stream 0 .check, .stream 0 .slot, .stream 0 .openFile,
    .edit file (some rewritten), .stream 0 (.encode false (some [9, 9, 9])), .stream 0 .lookUp,
    .stream 0 .swap, .stream 0 .report]

end ThreeBytes

open ThreeBytes in
/-- The change is reported. -/
theorem Watch.edits_reported_three_bytes : ∃ s : Watch Digest.Encoding,
    Run (fun s a s' => step keys referenceBao served.share 1 s a = some s' ∧
      s.Careful served.share a) (.new onDisk) serving s ∧
    s.events.countP (WatchEvent.reports 0) ≤ 1 ∧
    ∃ number file, served.share.fileOf 0 = some (number, file) ∧ 0 < s.files.count file.data.path ∧
      (.sharedFileChanged number file.data.path ∈ s.events ∨ ∃ other, .reporting other ∈ s.streams ∧
        (served.share.fileOf other).map Prod.fst = some number) := by
  have hlook : (new onDisk : Watch Digest.Encoding).Careful served.share .share := by
    rintro file ⟨⟩
    exact ⟨rfl, by rintro ⟨⟩⟩
  have hfresh : (Versions.new onDisk).Fresh stampOf file (some rewritten) := by
    intro old hold t ht
    obtain rfl : old = some ⟨bytes, some 1⟩ := List.mem_singleton.1 hold
    cases ht
    decide
  obtain ⟨s, hrun, hanswered⟩ : ∃ s : Watch Digest.Encoding,
      Run (fun s a s' => step keys referenceBao served.share 1 s a = some s' ∧
        s.Careful served.share a) (.new onDisk) serving s ∧ .answered 0 .dontHave ∈ s.streams := by
    refine ⟨_, .cons ⟨rfl, hlook⟩ <| .cons ⟨rfl, trivial⟩ <| .cons ⟨rfl, trivial⟩ <|
      .cons ⟨rfl, trivial⟩ <| .cons ⟨rfl, trivial⟩ <| .cons ⟨rfl, hfresh⟩ <|
      .cons ⟨rfl, trivial⟩ <| .cons ⟨rfl, trivial⟩ <| .cons ⟨rfl, trivial⟩ <|
      .cons ⟨rfl, trivial⟩ <| .nil _, ?_⟩
    exact List.mem_singleton_self _
  obtain ⟨-, honce, -, hnoticed⟩ := edits_reported (fun _ _ h => ⟨_, rfl, Except.ok.inj h⟩)
    fromDisk_served (hrun.mono fun _ _ _ h => h.1)
  exact ⟨s, hrun, honce 0, hnoticed hrun 0 (by decide) hanswered⟩

end Chorrent
