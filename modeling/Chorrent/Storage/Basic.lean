/-
# Where a share's bytes live

A file of a share is an ordinary file or a file of the encrypted store (`storage.rs`):
a header with a salt, then one fixed-size slot for each 64 KiB piece, holding the nonce and
the sealed piece.  The functions here take the contents of the file and return the new ones;
which file that is, is the concern of the share.
-/
import Chorrent.Lib.Aead
import Chorrent.Lib.Checked
import Chorrent.Error
import Chorrent.Path

namespace Chorrent

open Lib

/-- The size of a piece, `BLOCK_SIZE`. -/
def blockSize : ℕ := 65536

/-- `MAGIC`: "CHRENC01" -/
def magic : Bytes := [67, 72, 82, 69, 78, 67, 48, 49]

def saltSize : ℕ := 16

/-- `HEADER`: the magic bytes and the salt. -/
def headerSize : ℕ := 24

/-- `NONCE` -/
def nonceSize : ℕ := 24

/-- `TAG` -/
def tagSize : ℕ := 16

def slotSize : ℕ := nonceSize + blockSize + tagSize

/-- How many pieces `size` bytes make, `size.div_ceil(block())`. -/
def blockCount (size : ℕ) : ℕ := (size + (blockSize - 1)) / blockSize

/-- A random nonce; it is never all zeros. -/
structure Nonce where
  bytes : Bytes
  length_eq : bytes.length = nonceSize
  nonzero : bytes.all (· == 0) = false

/-- What a write of one slot meets: the random nonce drawn for it, and whether the operating
system fails after having written some bytes. -/
structure WriteEnv where
  nonce : Nonce
  fault : Option ℕ

/-! ## Positioned reads and writes of a file -/

/-- `read_exact_at` of an ordinary file. -/
def readExactAt (file : Bytes) (pos n : ℕ) : IoResult Bytes :=
  if n = 0 ∨ pos + n ≤ file.length then .ok (file.slice pos n) else .error (.fail .unexpectedEof)

/-- `write_all_at` of an ordinary file: on a fault, some bytes may have been written. -/
def writeAllAt (file : Bytes) (pos : ℕ) (bs : Bytes) : Option ℕ → Bytes × IoResult Unit
  | none => (file.overwrite pos bs, .ok ())
  | some k => (file.overwrite pos (bs.take k), .error (.fail .other))

/-! ## The encrypted store -/

/-- The keys of the store: each file's key comes from the master key and the file's salt,
and seals the file's pieces. -/
structure StoreKeys (Master Key : Type) where
  fileKey : Master → (salt : Bytes) → Key
  cipher : Aead Key tagSize

/-- An open file of the encrypted store, apart from the bytes of the file. -/
structure Encrypted (Key : Type) where
  key : Key
  size : ℕ
  strict : Bool
  write : Bool

/-- A new store file of its final length: header and unwritten slots.  A file that has a
header is kept. -/
def preallocateEncrypted (salt : Bytes) (size : ℕ) (existing : Option Bytes) :
    IoResult Bytes :=
  match existing with
  | some file =>
      if headerSize ≤ file.length then .ok file else create
  | none => create
where
  create : IoResult Bytes := do
    let slots ← orPanic (checkedMul 64 (blockCount size) slotSize)
    let len ← orPanic (checkedAdd 64 headerSize slots)
    return (magic ++ salt).setLen len

/-- `open_with` on a file of the encrypted store. -/
def openEncrypted {Master Key : Type} (S : StoreKeys Master Key) (master : Master) (size : ℕ)
    (write strict : Bool) (file : Bytes) : IoResult (Encrypted Key) := do
  let header ← readExactAt file 0 headerSize
  if header.take magic.length ≠ magic then throw (.fail .invalidData)
  return { key := S.fileKey master (header.drop magic.length), size, strict, write }

/-- Where slot `index` starts. -/
def slotStart (index : ℕ) : IoResult ℕ := do
  let slots ← orPanic (checkedMul 64 index slotSize)
  orPanic (checkedAdd 64 headerSize slots)

/-- The piece number as associated data. -/
def pieceAad (index : ℕ) : Bytes := leBytes 8 index

namespace Encrypted

variable {Key : Type} (C : Aead Key tagSize) (h : Encrypted Key)

/-- The length of piece `index`; the last piece may be shorter. -/
def blockLen (index : ℕ) : IoResult ℕ := do
  let start ← orPanic (checkedMul 64 index blockSize)
  let rest ← orPanic (checkedSub h.size start)
  return min rest blockSize

/-- The plaintext in slot `index`, if the slot was written and decrypts. -/
def openSlot (file : Bytes) (index : ℕ) : IoResult (Option Bytes) := do
  let len ← h.blockLen index
  let start ← slotStart index
  match readExactAt file start (nonceSize + len + tagSize) with
  | .error _ => return none
  | .ok sealed =>
      let nonce := sealed.take nonceSize
      if nonce.all (· == 0) then return none
      return C.decrypt h.key nonce (pieceAad index) (sealed.drop nonceSize)

/-- Whether piece `index` was actually written and decrypts with our key. -/
def blockWritten (file : Bytes) (index : ℕ) : IoResult Bool := do
  return (← h.openSlot C file index).isSome

/-- The plaintext of one piece.  If it is absent or not authentic: zeros, or an error in
strict mode. -/
def readBlock (file : Bytes) (index : ℕ) : IoResult Bytes := do
  match ← h.openSlot C file index with
  | some plain => return plain
  | none =>
      if h.strict then throw (.fail .invalidData)
      return Bytes.zeros (← h.blockLen index)

/-- Seal a piece and write its slot. -/
def writeBlock (env : WriteEnv) (file : Bytes) (index : ℕ) (plain : Bytes) :
    Bytes × IoResult Unit :=
  if h.write then
    match slotStart index with
    | .error e => (file, .error e)
    | .ok start =>
        let nonce := env.nonce.bytes
        writeAllAt file start (nonce ++ C.encrypt h.key nonce (pieceAad index) plain) env.fault
  else (file, .error (.fail .permissionDenied))

/-- `ReadAt::read_at`: the bytes read, at most up to the end of the piece. -/
def readAt (file : Bytes) (pos n : ℕ) : IoResult Bytes :=
  if pos ≥ h.size ∨ n = 0 then .ok []
  else do
    let plain ← h.readBlock C file (pos / blockSize)
    let within := pos % blockSize
    let rest ← orPanic (checkedSub plain.length within)
    return plain.slice within (min n rest)

/-- `WriteAt::write_at`: how many bytes were written, at most up to the end of the piece. -/
def writeAt (env : WriteEnv) (file : Bytes) (pos : ℕ) (buf : Bytes) :
    Bytes × IoResult ℕ :=
  if pos ≥ h.size ∨ buf = [] then (file, .error (.fail .invalidInput))
  else
    let index := pos / blockSize
    let within := pos % blockSize
    match h.blockLen index with
    | .error e => (file, .error e)
    | .ok len =>
        match checkedSub len within with
        | none => (file, .error .panic)
        | some rest =>
            let n := min buf.length rest
            if within = 0 ∧ n = len then
              let (file, r) := h.writeBlock C env file index (buf.take n)
              (file, r.map fun _ => n)
            else
              -- a partial piece: read, patch, seal again
              match h.readBlock C file index with
              | .error e => (file, .error e)
              | .ok plain =>
                  if within + n ≤ plain.length then
                    let (file, r) :=
                      h.writeBlock C env file index (plain.overwrite within (buf.take n))
                    (file, r.map fun _ => n)
                  else (file, .error .panic)

/-- The loop of `ReadAt::read_exact_at`, with as much fuel as there are bytes to read. -/
def readExactLoop (file : Bytes) : ℕ → ℕ → ℕ → IoResult Bytes
  | _, _, 0 => .ok []
  | 0, _, _ + 1 => .error .panic
  | fuel + 1, pos, n + 1 => do
      let got ← h.readAt C file pos (n + 1)
      if got = [] then throw (.fail .unexpectedEof)
      let rest ← readExactLoop file fuel (pos + got.length) (n + 1 - got.length)
      return got ++ rest

/-- `ReadAt::read_exact_at` -/
def readExactAt (file : Bytes) (pos n : ℕ) : IoResult Bytes := h.readExactLoop C file n pos n

/-- The loop of `WriteAt::write_all_at`; the k-th write meets `env k`. -/
def writeAllLoop : ℕ → (ℕ → WriteEnv) → Bytes → ℕ → Bytes → Bytes × IoResult Unit
  | _, _, file, _, [] => (file, .ok ())
  | 0, _, file, _, _ :: _ => (file, .error .panic)
  | fuel + 1, env, file, pos, b :: buf =>
      match h.writeAt C (env 0) file pos (b :: buf) with
      | (file, .error e) => (file, .error e)
      | (file, .ok n) =>
          if n = 0 then (file, .error (.fail .writeZero))
          else writeAllLoop fuel (fun k => env (k + 1)) file (pos + n) ((b :: buf).drop n)

/-- `WriteAt::write_all_at` -/
def writeAllAt (env : ℕ → WriteEnv) (file : Bytes) (pos : ℕ) (buf : Bytes) :
    Bytes × IoResult Unit :=
  h.writeAllLoop C buf.length env file pos buf

end Encrypted

/-- For a file of the encrypted store: which pieces were actually written and decrypt. -/
def writtenPieces {Key : Type} (C : Aead Key tagSize) (h : Encrypted Key) (file : Bytes) :
    IoResult (List Bool) :=
  (List.range (blockCount h.size)).mapM (h.blockWritten C file)

/-! ## Files of either kind -/

/-- One file's bytes, wherever they live. -/
inductive FileData (Master : Type) where
  | plain (path : Path)
  | encrypted (path : Path) (key : Master) (size : ℕ)

namespace FileData

variable {Master Key : Type}

def path : FileData Master → Path
  | .plain path | .encrypted path _ _ => path

def isEncrypted : FileData Master → Bool
  | .plain _ => false
  | .encrypted _ _ _ => true

end FileData

/-- An open file, plain or encrypted. -/
inductive Handle (Key : Type) where
  | plain
  | encrypted (h : Encrypted Key)

/-- `open_with`, given the bytes of the file if it exists. -/
def FileData.openWith {Master Key : Type} (S : StoreKeys Master Key) (write strict : Bool)
    (data : FileData Master) : Option Bytes → IoResult (Handle Key)
  | none => .error (.fail .notFound)
  | some file =>
      match data with
      | .plain _ => .ok .plain
      | .encrypted _ key size => (openEncrypted S key size write strict file).map .encrypted

namespace Handle

variable {Key : Type} (C : Aead Key tagSize)

/-- `ReadAt::read_at`: the bytes read. -/
def readAt (file : Bytes) (pos n : ℕ) : Handle Key → IoResult Bytes
  | .plain => .ok (file.slice pos n)
  | .encrypted h => h.readAt C file pos n

/-- `ReadAt::read_exact_at` -/
def readExactAt (file : Bytes) (pos n : ℕ) : Handle Key → IoResult Bytes
  | .plain => Chorrent.readExactAt file pos n
  | .encrypted h => h.readExactAt C file pos n

/-- `WriteAt::write_all_at` -/
def writeAllAt (env : ℕ → WriteEnv) (file : Bytes) (pos : ℕ) (buf : Bytes) :
    Handle Key → Bytes × IoResult Unit
  | .plain => Chorrent.writeAllAt file pos buf (env 0).fault
  | .encrypted h => h.writeAllAt C env file pos buf

/-- What `io::copy` gets from a `SequentialReader` at `pos`, limited to `n` bytes, with a
buffer of `cap` bytes: the bytes passed on, and the error that ended it, if any. -/
def copy (h : Handle Key) (file : Bytes) (cap : ℕ) : ℕ → ℕ → ℕ → Bytes × Option (Stop IoError)
  | _, _, 0 => ([], none)
  | 0, _, _ + 1 => ([], some .panic)
  | fuel + 1, pos, n + 1 =>
      match h.readAt C file pos (min cap (n + 1)) with
      | .error e => ([], some e)
      | .ok got =>
          if got = [] then ([], none)
          else
            let (rest, e) := copy h file cap fuel (pos + got.length) (n + 1 - got.length)
            (got ++ rest, e)

end Handle

end Chorrent
