/-
# The database

Saved state lives in six tables of records, bytes under a text (`store.rs`).  With a storage
key the database is sealed: a record is stored under a keyed hash of its table and name, and
holds the encryption of its real name and its value.  Two markers in the table `meta` say
that a database is sealed, and with which key; they are not sealed themselves.

A write is one transaction of the database.  A transaction that `fails` changes nothing; it
fails, too, when the process ends before it commits, and since every function stops at the
first failure, a crash between two transactions is the failure of the second.
-/
import Mathlib.Data.List.Sort
import Chorrent.Lib.Aead
import Chorrent.Lib.Assoc
import Chorrent.Lib.Text
import Chorrent.Storage.Basic

namespace Chorrent

open Lib

/-! ## Tables -/

inductive Table where
  | «meta»
  | seeds
  | downloads
  | progress
  | access
  | kinds
deriving DecidableEq

def Table.name : Table → String
  | .meta => "meta"
  | .seeds => "seeds"
  | .downloads => "downloads"
  | .progress => "progress"
  | .access => "access"
  | .kinds => "kinds"

/-- `RECORD_TABLES` -/
def recordTables : List Table := [.seeds, .downloads, .progress, .access, .kinds]

lemma Table.zero_notMem_name (table : Table) : 0 ∉ utf8 table.name := by
  cases table <;> decide

lemma Table.name_injective : Function.Injective Table.name := by
  intro a b h
  cases a <;> cases b <;> first | rfl | exact absurd h (by decide)

/-- `FORMAT` -/
def formatName : String := "format"

/-- `SEALED_V1`: "sealed-v1" -/
def sealedV1 : Bytes := [115, 101, 97, 108, 101, 100, 45, 118, 49]

/-- `FINGERPRINT` -/
def fingerprintName : String := "storage_key_fingerprint"

def nodeKeyName : String := "node_key"

/-- The records of a table by what they are stored under. -/
abbrev Records := AList fun _ : String => Bytes

/-- All records, in the order of their names. -/
def Records.iter (records : Records) : List (String × Bytes) :=
  (records.entries.map fun e => (e.1, e.2)).insertionSort fun a b => a.1 ≤ b.1

/-- What a transaction meets: whether it fails, and the nonce drawn for a record it seals. -/
structure TxEnv where
  fails : Bool
  nonce : List.Vector UInt8 nonceSize

def storageErr (reason : StorageError) : Stop Error := .fail (.storage reason)

/-! ## Sealing -/

/-- How databases are sealed: the keys derived from the storage key, its fingerprint, the keyed
hash behind record names, the cipher, and the postcard form of a name with a value. -/
structure Sealing (StorageKey Key NameKey : Type) where
  /-- `derive_key("chorrent database values v1", ..)` -/
  valuesKey : StorageKey → Key
  /-- `derive_key("chorrent database names v1", ..)` -/
  namesKey : StorageKey → NameKey
  /-- `derive_key("chorrent storage key fingerprint v1", ..)` -/
  fingerprint : StorageKey → Bytes
  fingerprint_injective : Function.Injective fingerprint
  keyedHash : NameKey → Bytes → Bytes
  keyedHash_injective : ∀ k, Function.Injective (keyedHash k)
  cipher : Aead Key tagSize
  pack : String → Bytes → Bytes
  unpack : Bytes → Option (String × Bytes)
  unpack_pack : ∀ name value, unpack (pack name value) = some (name, value)

variable {StorageKey Key NameKey : Type}

/-- Encrypts values and hides record names for a sealed database. -/
structure Sealer (Key NameKey : Type) where
  cipher : Key
  names : NameKey

section

variable (S : Sealing StorageKey Key NameKey)

def Sealer.new (storageKey : StorageKey) : Sealer Key NameKey where
  cipher := S.valuesKey storageKey
  names := S.namesKey storageKey

/-- What a record is stored under. -/
def Sealer.name (sealer : Sealer Key NameKey) (table : Table) (name : String) : String :=
  hex (S.keyedHash sealer.names (joinZero table.name name))

/-- The nonce and the ciphertext of the real name and the value, bound to the table and the
stored name. -/
def Sealer.seal (sealer : Sealer Key NameKey) (nonce : List.Vector UInt8 nonceSize) (table : Table)
    (storedName name : String) (value : Bytes) : Bytes :=
  nonce.toList ++ S.cipher.encrypt sealer.cipher nonce.toList (joinZero table.name storedName)
    (S.pack name value)

/-- The real name and the value of a sealed record. -/
def Sealer.open (sealer : Sealer Key NameKey) (table : Table) (storedName : String)
    (sealed : Bytes) : Result (String × Bytes) :=
  if sealed.length < nonceSize then .error (storageErr .unreadable)
  else
    let nonce := sealed.take nonceSize
    let aad := joinZero table.name storedName
    match S.cipher.decrypt sealer.cipher nonce aad (sealed.drop nonceSize) with
    | none => .error (storageErr .unreadable)
    | some plain =>
        match S.unpack plain with
        | none => .error (storageErr .unreadable)
        | some r => .ok r

end

/-! ## The tables and their transactions -/

/-- A call of `put`. -/
structure Put (Key NameKey : Type) where
  sealer : Option (Sealer Key NameKey)
  nonce : List.Vector UInt8 nonceSize
  table : Table
  name : String
  value : Bytes

structure Database (Key NameKey : Type) where
  tables : Table → Records
  /-- Every call of `put` so far, committed or not; the program keeps no such list. -/
  puts : List (Put Key NameKey)

namespace Database

/-- A new database. -/
def empty : Database Key NameKey := ⟨fun _ => ∅, []⟩

def rawGet (db : Database Key NameKey) (env : TxEnv) (table : Table) (name : String) :
    Result (Option Bytes) :=
  if env.fails then .error (storageErr .database) else .ok ((db.tables table).lookup name)

def rawPut (db : Database Key NameKey) (env : TxEnv) (table : Table) (name : String)
    (value : Bytes) : Database Key NameKey × Result Unit :=
  if env.fails then (db, .error (storageErr .database))
  else
    ({ db with tables := Function.update db.tables table ((db.tables table).insert name value) },
      .ok ())

/-- Whether anything besides format markers was ever stored. -/
def hasRecords (db : Database Key NameKey) (env : TxEnv) : Result Bool :=
  if env.fails then .error (storageErr .database)
  else if recordTables.any fun table => !(db.tables table).entries.isEmpty then .ok true
  else
    .ok ((db.tables .meta).iter.any fun entry =>
      entry.1 ≠ formatName && entry.1 ≠ fingerprintName)

/-- Make sure the database is sealed exactly when we have a key, and that it's the right key. -/
def checkFormat (S : Sealing StorageKey Key NameKey) (env : ℕ → TxEnv)
    (db : Database Key NameKey) (storageKey : Option StorageKey) :
    Database Key NameKey × Result Unit :=
  match db.rawGet (env 0) .meta formatName with
  | .error e => (db, .error e)
  | .ok format =>
  match db.rawGet (env 1) .meta fingerprintName with
  | .error e => (db, .error e)
  | .ok savedFingerprint =>
  match storageKey with
  | some key =>
      if savedFingerprint.any (· ≠ S.fingerprint key) then
        (db, .error (storageErr .differentKey))
      else
        match format with
        | some format =>
            if format = sealedV1 then (db, .ok ()) else (db, .error (storageErr .newerFormat))
        | none =>
            match db.hasRecords (env 2) with
            | .error e => (db, .error e)
            | .ok true => (db, .error (storageErr .plainRecords))
            | .ok false =>
                match db.rawPut (env 3) .meta fingerprintName (S.fingerprint key) with
                | (db, .error e) => (db, .error e)
                | (db, .ok ()) => db.rawPut (env 4) .meta formatName sealedV1
  | none =>
      if format.isSome || savedFingerprint.isSome then (db, .error (storageErr .needsKey))
      else (db, .ok ())

end Database

/-! ## An open store -/

/-- Open the database of a data dir.  The first transaction creates the tables. -/
def Store.open (S : Sealing StorageKey Key NameKey) (env : ℕ → TxEnv) (db : Database Key NameKey)
    (storageKey : Option StorageKey) :
    Database Key NameKey × Result (Option (Sealer Key NameKey)) :=
  if (env 0).fails then (db, .error (storageErr .database))
  else
    match db.checkFormat S (fun n => env (n + 1)) storageKey with
    | (db, .error e) => (db, .error e)
    | (db, .ok ()) => (db, .ok (storageKey.map (Sealer.new S)))

namespace Store

variable (S : Sealing StorageKey Key NameKey) (sealer : Option (Sealer Key NameKey))

/-- The name a record is stored under (hidden when sealed). -/
def storedName (table : Table) (name : String) : String :=
  match sealer with
  | some sealer => sealer.name S table name
  | none => name

def get (env : TxEnv) (db : Database Key NameKey) (table : Table) (name : String) :
    Result (Option Bytes) :=
  let stored := storedName S sealer table name
  match db.rawGet env table stored with
  | .error e => .error e
  | .ok none => .ok none
  | .ok (some value) =>
      match sealer with
      | none => .ok (some value)
      | some sealer =>
          match sealer.open S table stored value with
          | .error e => .error e
          | .ok (realName, value) =>
              if realName ≠ name then .error (storageErr .misplaced) else .ok (some value)

def put (env : TxEnv) (db : Database Key NameKey) (table : Table) (name : String)
    (value : Bytes) : Database Key NameKey × Result Unit :=
  let stored := storedName S sealer table name
  let db := { db with puts := ⟨sealer, env.nonce, table, name, value⟩ :: db.puts }
  match sealer with
  | none => db.rawPut env table stored value
  | some sealer => db.rawPut env table stored (sealer.seal S env.nonce table stored name value)

/-- Remove the records of a name from some tables, in one transaction. -/
def remove (env : TxEnv) (db : Database Key NameKey) (tables : List Table) (name : String) :
    Database Key NameKey × Result Unit :=
  if env.fails then (db, .error (storageErr .database))
  else
    ({ db with
        tables := fun table =>
          if table ∈ tables then (db.tables table).erase (storedName S sealer table name)
          else db.tables table },
      .ok ())

/-- The real name and the value of a record that is stored. -/
def openEntry (table : Table) (entry : String × Bytes) : Result (String × Bytes) :=
  match sealer with
  | none => .ok entry
  | some sealer => sealer.open S table entry.1 entry.2

/-- Every record in a table, by its real name. -/
def entries (env : TxEnv) (db : Database Key NameKey) (table : Table) :
    Result (List (String × Bytes)) :=
  if env.fails then .error (storageErr .database)
  else (db.tables table).iter.mapM (openEntry S sealer table)

end Store

end Chorrent
