/-
# What is saved

The operations on the database (`store.rs`): the node's key, the shares we seed, who may
download them, unfinished downloads and their progress.  Records are in postcard form; a path
is its text.
-/
import Chorrent.Ids
import Chorrent.Lib.Codec
import Chorrent.Store.Basic

namespace Chorrent

open Lib

structure SeedRecord where
  root : String
  secret : Option (List.Vector UInt8 32)
  manifest : Bytes
  /-- Path, size and modified time of each file. -/
  files : List (String × ℕ × ℕ)
  outboards : List Bytes

structure DownloadRecord where
  code : String
  destDir : String

/-- Something from a previous run that can be picked up again. -/
inductive SavedTransfer (Code : Type) where
  | seed (id : ShareId) (path : String) (isPrivate : Bool)
  | download (code : Code) (destDir : String)

/-- The forms in which records are stored, the text form of a share code, and which 32 bytes
are a public key. -/
structure Formats (Code : Type) where
  seed : Codec SeedRecord
  kinds : Codec (List Bool)
  allowed : Codec (List EndpointId)
  outboards : Codec (List Bytes)
  download : Codec DownloadRecord
  codeId : Code → ShareId
  codeText : Code → String
  parseCode : String → Option Code
  isPublicKey : EndpointId → Bool

/-- The start of the names of a share's downloads: its id and a bar. -/
def downloadStart (id : ShareId) : String := id.text ++ "|"

def downloadKey (id : ShareId) (destDir : String) : String := downloadStart id ++ destDir

/-- `starts_with` -/
def startsWith (text start : String) : Bool := start.toList.isPrefixOf text.toList

namespace Store

variable {StorageKey Key NameKey Code : Type} (S : Sealing StorageKey Key NameKey)
  (F : Formats Code) (sealer : Option (Sealer Key NameKey))

/-- The node's secret key; `generated` is used, and saved, when there is none. -/
def nodeKey (env : ℕ → TxEnv) (db : Database Key NameKey) (generated : List.Vector UInt8 32) :
    Database Key NameKey × Result (List.Vector UInt8 32) :=
  match get S sealer (env 0) db .meta nodeKeyName with
  | .error e => (db, .error e)
  | .ok saved =>
      match saved.bind (toVector 32) with
      | some key => (db, .ok key)
      | none =>
          match put S sealer (env 1) db .meta nodeKeyName generated.toList with
          | (db, .error e) => (db, .error e)
          | (db, .ok ()) => (db, .ok generated)

/-! ## Seeds -/

/-- Save a share; `kinds` says which of its files are in the encrypted store. -/
def rememberSeed (env : ℕ → TxEnv) (db : Database Key NameKey) (id : ShareId)
    (record : SeedRecord) (kinds : List Bool) : Database Key NameKey × Result Unit :=
  match put S sealer (env 0) db .kinds id.text (F.kinds.encode kinds) with
  | (db, .error e) => (db, .error e)
  | (db, .ok ()) => put S sealer (env 1) db .seeds id.text (F.seed.encode record)

/-- The saved location of a share, if we have it. -/
def seedRoot (env : TxEnv) (db : Database Key NameKey) (id : ShareId) : Option String :=
  match get S sealer env db .seeds id.text with
  | .ok (some bytes) => (F.seed.decode bytes).map fun r => r.1.root
  | _ => none

/-- Save who may download a share; the list stands for a set, in any order. -/
def rememberAllowed (env : TxEnv) (db : Database Key NameKey) (id : ShareId)
    (peers : Option (List EndpointId)) : Database Key NameKey × Result Unit :=
  match peers with
  | none => remove S sealer env db [.access] id.text
  | some peers => put S sealer env db .access id.text (F.allowed.encode peers)

def loadAllowed (env : TxEnv) (db : Database Key NameKey) (id : ShareId) :
    Option (Finset EndpointId) :=
  match get S sealer env db .access id.text with
  | .ok (some bytes) =>
      (F.allowed.decode bytes).map fun r => (r.1.filter fun p => F.isPublicKey p).toFinset
  | _ => none

/-- The loop of `forget` over the saved downloads. -/
def forgetDownloads (id : ShareId) : (env : ℕ → TxEnv) → Database Key NameKey →
    List (String × Bytes) → Database Key NameKey × Result Unit
  | _, db, [] => (db, .ok ())
  | env, db, (key, _) :: entries =>
      if startsWith key (downloadStart id) then
        match remove S sealer (env 0) db [.downloads, .progress] key with
        | (db, .error e) => (db, .error e)
        | (db, .ok ()) => forgetDownloads id (fun n => env (n + 1)) db entries
      else forgetDownloads id env db entries

def forget (env : ℕ → TxEnv) (db : Database Key NameKey) (id : ShareId) :
    Database Key NameKey × Result Unit :=
  match remove S sealer (env 0) db [.seeds, .access, .kinds] id.text with
  | (db, .error e) => (db, .error e)
  | (db, .ok ()) =>
      match entries S sealer (env 1) db .downloads with
      | .error e => (db, .error e)
      | .ok listed => forgetDownloads S sealer id (fun n => env (n + 2)) db listed

/-! ## Downloads -/

def rememberDownload (env : TxEnv) (db : Database Key NameKey) (code : Code) (destDir : String) :
    Database Key NameKey × Result Unit :=
  put S sealer env db .downloads (downloadKey (F.codeId code) destDir)
    (F.download.encode ⟨F.codeText code, destDir⟩)

/-- Best effort: a failure is not reported. -/
def saveProgress (env : TxEnv) (db : Database Key NameKey) (id : ShareId) (destDir : String)
    (outboards : List Bytes) : Database Key NameKey :=
  (put S sealer env db .progress (downloadKey id destDir) (F.outboards.encode outboards)).1

def loadProgress (env : TxEnv) (db : Database Key NameKey) (id : ShareId) (destDir : String) :
    Option (List Bytes) :=
  match get S sealer env db .progress (downloadKey id destDir) with
  | .ok (some bytes) => (F.outboards.decode bytes).map Prod.fst
  | _ => none

def markComplete (env : TxEnv) (db : Database Key NameKey) (id : ShareId) (destDir : String) :
    Database Key NameKey × Result Unit :=
  remove S sealer env db [.downloads, .progress] (downloadKey id destDir)

/-! ## Listing what is saved -/

/-- The share a record of the table `seeds` stands for, unless it can't be read. -/
def savedSeed (entry : String × Bytes) : Option (SavedTransfer Code) := do
  let id ← ShareId.parse entry.1
  let (record, _) ← F.seed.decode entry.2
  return .seed id record.root record.secret.isSome

def savedDownload (entry : String × Bytes) : Option (SavedTransfer Code) := do
  let (record, _) ← F.download.decode entry.2
  let code ← F.parseCode record.code
  return .download code record.destDir

def saved (env : ℕ → TxEnv) (db : Database Key NameKey) : Result (List (SavedTransfer Code)) := do
  let seeds ← entries S sealer (env 0) db .seeds
  let downloads ← entries S sealer (env 1) db .downloads
  return seeds.filterMap (savedSeed F) ++ downloads.filterMap (savedDownload F)

end Store

/-! ## Operations as data -/

/-- An operation on an open store. -/
inductive Op (Code : Type) where
  | nodeKey (generated : List.Vector UInt8 32)
  | rememberSeed (id : ShareId) (record : SeedRecord) (kinds : List Bool)
  | seedRoot (id : ShareId)
  | rememberAllowed (id : ShareId) (peers : Option (List EndpointId))
  | loadAllowed (id : ShareId)
  | forget (id : ShareId)
  | rememberDownload (code : Code) (destDir : String)
  | saveProgress (id : ShareId) (destDir : String) (outboards : List Bytes)
  | loadProgress (id : ShareId) (destDir : String)
  | markComplete (id : ShareId) (destDir : String)
  | saved

/-- What an operation returns. -/
inductive Output (Code : Type) where
  | key (key : List.Vector UInt8 32)
  | done
  | root (path : Option String)
  | allowed (peers : Option (Finset EndpointId))
  | progress (outboards : Option (List Bytes))
  | saved (transfers : List (SavedTransfer Code))

section

variable {StorageKey Key NameKey Code : Type} (S : Sealing StorageKey Key NameKey)
  (F : Formats Code) (sealer : Option (Sealer Key NameKey))

/-- Perform an operation. -/
def Op.apply (env : ℕ → TxEnv) (db : Database Key NameKey) :
    Op Code → Database Key NameKey × Result (Output Code)
  | .nodeKey generated =>
      let (db, r) := Store.nodeKey S sealer env db generated
      (db, r.map .key)
  | .rememberSeed id record kinds =>
      let (db, r) := Store.rememberSeed S F sealer env db id record kinds
      (db, r.map fun _ => .done)
  | .seedRoot id => (db, .ok (.root (Store.seedRoot S F sealer (env 0) db id)))
  | .rememberAllowed id peers =>
      let (db, r) := Store.rememberAllowed S F sealer (env 0) db id peers
      (db, r.map fun _ => .done)
  | .loadAllowed id => (db, .ok (.allowed (Store.loadAllowed S F sealer (env 0) db id)))
  | .forget id =>
      let (db, r) := Store.forget S sealer env db id
      (db, r.map fun _ => .done)
  | .rememberDownload code destDir =>
      let (db, r) := Store.rememberDownload S F sealer (env 0) db code destDir
      (db, r.map fun _ => .done)
  | .saveProgress id destDir outboards =>
      (Store.saveProgress S F sealer (env 0) db id destDir outboards, .ok .done)
  | .loadProgress id destDir =>
      (db, .ok (.progress (Store.loadProgress S F sealer (env 0) db id destDir)))
  | .markComplete id destDir =>
      let (db, r) := Store.markComplete S sealer (env 0) db id destDir
      (db, r.map fun _ => .done)
  | .saved => (db, (Store.saved S F sealer env db).map .saved)

end

end Chorrent
