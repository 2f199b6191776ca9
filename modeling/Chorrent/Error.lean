/-
# Errors

Everything that can go wrong (`error.rs`), with the data a caller can tell apart.
-/
import Chorrent.Path

namespace Chorrent

/-- The kinds of I/O errors. -/
inductive IoError where
  | unexpectedEof
  | writeZero
  | invalidInput
  | invalidData
  | notFound
  | permissionDenied
  | alreadyExists
  | isDirectory
  | notDirectory
  /-- Reads that meet this are made again. -/
  | interrupted
  | other
deriving DecidableEq

/-- Why a function did not return a value: it failed, or it panicked (an integer operation
out of range, an index out of bounds). -/
inductive Stop (ε : Type) where
  | fail (e : ε)
  | panic
deriving DecidableEq

/-- The result of an I/O function. -/
abbrev IoResult (α : Type) := Except (Stop IoError) α

/-- A checked operation of the source, panicking when it has no result. -/
def orPanic {ε α : Type} : Option α → Except (Stop ε) α
  | none => .error .panic
  | some a => .ok a

lemma orPanic_bind_eq_ok {ε α β : Type} {o : Option α} {f : α → Except (Stop ε) β} {b : β} :
    (orPanic o >>= f) = .ok b ↔ ∃ a, o = some a ∧ f a = .ok b := by
  cases o <;> simp [orPanic, bind, Except.bind]

lemma orPanic_some_bind {ε α β : Type} (a : α) (f : α → Except (Stop ε) β) :
    (orPanic (some a) >>= f) = f a := rfl

lemma ok_bind {ε α β : Type} (a : α) (f : α → Except ε β) : (Except.ok a >>= f) = f a := rfl

/-- Why a manifest is refused (the texts of `Error::BadManifest`). -/
inductive BadManifest where
  /-- "hash does not match the share code" -/
  | wrongHash
  /-- "empty" -/
  | empty
  /-- "unsupported manifest version {version}" -/
  | unsupportedVersion (version : UInt8)
  /-- The message of the decoder. -/
  | undecodable
  /-- "file outside the share's folder" -/
  | outsideFolder
  /-- "unsafe file name {name:?}: {why}" -/
  | unsafeName (name why : String)
  /-- "duplicate file path" -/
  | duplicatePath
  /-- "it doesn't match the name or size in the share code" -/
  | codeMismatch
  /-- "peer didn't send it" -/
  | notSent
  /-- "{root} changed since it was shared" -/
  | changed
deriving DecidableEq

/-- What is wrong with the saved state (the texts of `Error::Storage`). -/
inductive StorageError where
  /-- A message of the database. -/
  | database
  /-- "this data dir was set up with a different storage key" -/
  | differentKey
  /-- "this data dir was written by a newer chorrent" -/
  | newerFormat
  /-- "this data dir already has records stored without encryption ..." -/
  | plainRecords
  /-- "this data dir is encrypted; open it with its storage key ..." -/
  | needsKey
  /-- "a database record is damaged or was written with another key" -/
  | unreadable
  /-- "a database record doesn't belong where it's stored" -/
  | misplaced
  /-- "this share is in the encrypted store, but no storage key was given" -/
  | noStorageKey
  /-- "with encrypted storage, downloads go into the store; pass no dest_dir" -/
  | destDirGiven
  /-- "seed_reader needs a data_dir" -/
  | noDataDir
  /-- "saved share is incomplete" -/
  | incomplete
  /-- A record that is not in its form. -/
  | undecodable
deriving DecidableEq

/-- What went wrong with the bytes of a file while hashing, encoding or storing pieces. -/
inductive ChunkerError where
  | openFailed (path : Path) (source : IoError)
  | hashFailed (path : Path) (source : IoError)
  | serveFailed (path : Path) (source : IoError)
  | receiveFailed (path : Path) (source : IoError)
deriving DecidableEq

/-- Where a name that is being shared stands: at the shared file or folder or below it, as on
disk, or in the label that was given. -/
inductive SeedPath where
  | below (names : List (List UInt8))
  | label (text : String)
deriving DecidableEq

inductive Error where
  | chunker (e : ChunkerError)
  | io (path : Path) (source : IoError)
  | hashMismatch (path : Path)
  | badManifest (reason : BadManifest)
  /-- `Error::Io`, of a file or folder at or below the one that is being shared. -/
  | seedIo (names : List (List UInt8)) (source : IoError)
  | unsupportedName (path : SeedPath) (reason : String)
  | notAvailable
  | storage (reason : StorageError)
  | dataDirInUse
  /-- "the --join share code is for different content" -/
  | invalidShareCode
  | alreadySharing
deriving DecidableEq

/-- The result of a function of the library. -/
abbrev Result (α : Type) := Except (Stop Error) α

/-- Give an I/O result the error the caller reports. -/
def IoResult.orError {α : Type} (toError : IoError → Error) : IoResult α → Result α
  | .ok a => .ok a
  | .error (.fail e) => .error (.fail (toError e))
  | .error .panic => .error .panic

lemma IoResult.orError_eq_ok {α : Type} {toError : IoError → Error} {r : IoResult α} {a : α} :
    r.orError toError = .ok a ↔ r = .ok a := by
  cases r with
  | ok b => simp [orError]
  | error e => cases e <;> simp [orError]

end Chorrent
