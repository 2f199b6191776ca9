/-
# Hashing, encoding and verifying pieces of a file

`chunker.rs`, on top of the bao-tree crate.  Every file has an outboard, the inner hashes of
its Merkle tree in pre-order.  A downloader starts with zeros and fills in the hashes along
each piece's proof path as verified pieces arrive, which is what it needs to serve those
pieces onward.

The crate is a parameter, with what the code relies on: hashes are injective, the decoder
passes on only verified parents and leaves, an encoding carries the hash pairs above the
range and is validated, and exactly the blocks whose path and bytes check are reported valid.
-/
import Chorrent.Lib.Merkle
import Chorrent.Storage.Flat

namespace Chorrent

open Lib

/-- The inner hashes of a file's Merkle tree that are known, in pre-order; unknown ones are
zero. -/
structure Outboard (Hash : Type) where
  root : Hash
  /-- The size of the file the tree is for. -/
  size : ℕ
  data : List (Hash × Hash)

/-- The tree of a file of this size, with a leaf for each 64 KiB block (`BaoTree::new`). -/
def baoTree (size : ℕ) : Merkle.Tree := Merkle.Tree.balanced (blockCount size)

/-- How many hash pairs an outboard has. -/
def outboardSize (size : ℕ) : ℕ := blockCount size - 1

namespace Outboard

variable {Hash : Type}

def load (o : Outboard Hash) (node : ℕ) : Option (Hash × Hash) := o.data[node]?

def save (o : Outboard Hash) (node : ℕ) (pair : Hash × Hash) : Outboard Hash :=
  { o with data := o.data.set node pair }

end Outboard

/-- What a decoder yields: nodes are named by their place in the pre-order. -/
inductive BaoContentItem (Hash : Type) where
  | parent (node : ℕ) (pair : Hash × Hash)
  | leaf (offset : ℕ) (data : Bytes)

/-- Block `i` of a file. -/
def block (content : Bytes) (i : ℕ) : Bytes := content.slice (i * blockSize) blockSize

/-- The known hash pairs prove that block `i` of the file with this size and root is `d`. -/
def ProvesBlock {Hash : Type} (H : Merkle.Hasher Bytes Hash) (load : ℕ → Option (Hash × Hash))
    (root : Hash) (size i : ℕ) (d : Bytes) : Prop :=
  Merkle.Proves H load (baoTree size) true root i d ∧ d.length = pieceLen size i

/-- The proof of block `i` as a decoder yields it: the pairs above the block, then the
block. -/
def proofItems {Hash : Type} (load : ℕ → Option (Hash × Hash)) (size i : ℕ) (d : Bytes) :
    List (BaoContentItem Hash) :=
  ((baoTree size).path i).filterMap (fun node => (load node).map (.parent node)) ++
    [.leaf (i * blockSize) d]

/-- Where piece `i` of a file ends. -/
def pieceEnd (size i : ℕ) : ℕ := min (i * blockSize + blockSize) size

/-- The functions of the bao-tree crate, on encodings of type `Wire`, and what is relied on. -/
structure Bao (Hash Wire : Type) where
  hasher : Merkle.Hasher Bytes Hash
  /-- The hash that is all zeros. -/
  zero : Hash
  /-- `PreOrderOutboard::create` -/
  create : Bytes → Outboard Hash
  /-- `encode_ranges_validated`, of a range of a file that is read through a function. -/
  encode : Outboard Hash → (read : ℕ → ℕ → IoResult Bytes) → (start stop : ℕ) → IoResult Wire
  /-- The items `decode_ranges` yields, and whether it ends without an error. -/
  decode : (root : Hash) → (size start stop : ℕ) → Wire → List (BaoContentItem Hash) × Bool
  /-- `valid_ranges`, in bytes -/
  validRanges : Outboard Hash → (read : ℕ → ℕ → IoResult Bytes) → IoResult (List (ℕ × ℕ))
  create_size : ∀ content, (create content).size = content.length
  create_root : ∀ content,
    (create content).root = Merkle.hash hasher (block content) (baoTree content.length) true
  create_length : ∀ content, (create content).data.length = outboardSize content.length
  create_proves : ∀ content i, i < blockCount content.length →
    ProvesBlock hasher (create content).load (create content).root content.length i
      (block content i)
  /-- A leaf is passed on only once it is verified. -/
  decode_leaf : ∀ root size i encoded offset d,
    .leaf offset d ∈ (decode root size (i * blockSize) (pieceEnd size i) encoded).1 →
      i < blockCount size → offset = i * blockSize ∧ ∃ load, ProvesBlock hasher load root size i d
  /-- A decoder that ends without an error has passed on a proof of the block. -/
  decode_done : ∀ root size i encoded, i < blockCount size →
    (decode root size (i * blockSize) (pieceEnd size i) encoded).2 = true →
      ∃ load d, ProvesBlock hasher load root size i d ∧
        (decode root size (i * blockSize) (pieceEnd size i) encoded).1 = proofItems load size i d
  /-- Encoding a block needs the pairs above it, and the block. -/
  encode_succeeds : ∀ outboard read i d, i < blockCount outboard.size →
    ProvesBlock hasher outboard.load outboard.root outboard.size i d →
    read (i * blockSize) (pieceLen outboard.size i) = .ok d →
      ∃ encoded, encode outboard read (i * blockSize) (pieceEnd outboard.size i) = .ok encoded
  /-- What is encoded was validated, and decodes to the pairs above the block and the block. -/
  encode_valid : ∀ outboard read i encoded, i < blockCount outboard.size →
    encode outboard read (i * blockSize) (pieceEnd outboard.size i) = .ok encoded →
      ∃ d, read (i * blockSize) (pieceLen outboard.size i) = .ok d ∧
        ProvesBlock hasher outboard.load outboard.root outboard.size i d ∧
        decode outboard.root outboard.size (i * blockSize) (pieceEnd outboard.size i) encoded =
          (proofItems outboard.load outboard.size i d, true)
  /-- Only verified blocks are reported. -/
  valid_sound : ∀ outboard read ranges r i, i < blockCount outboard.size →
    validRanges outboard read = .ok ranges → r ∈ ranges → r.1 ≤ i * blockSize →
    pieceEnd outboard.size i ≤ min r.2 outboard.size →
      ∃ d, read (i * blockSize) (pieceLen outboard.size i) = .ok d ∧
        ProvesBlock hasher outboard.load outboard.root outboard.size i d
  /-- Every block whose path and bytes check lies in one reported range. -/
  valid_complete : ∀ outboard read ranges i d, i < blockCount outboard.size →
    validRanges outboard read = .ok ranges →
    read (i * blockSize) (pieceLen outboard.size i) = .ok d →
    ProvesBlock hasher outboard.load outboard.root outboard.size i d →
      ∃ r ∈ ranges, r.1 ≤ i * blockSize ∧ pieceEnd outboard.size i ≤ r.2

/-- The pairs a decoder has verified. -/
abbrev ProofNodes (Hash : Type) := List (ℕ × (Hash × Hash))

/-! ## Pieces of one file -/

section

variable {Master Key Hash Wire : Type} (B : Bao Hash Wire)

/-- The root hash of a file. -/
def Bao.rootHash (content : Bytes) : Hash :=
  Merkle.hash B.hasher (block content) (baoTree content.length) true

/-- An outboard with no inner hashes known yet. -/
def emptyOutboard (root : Hash) (size : ℕ) : Outboard Hash :=
  ⟨root, size, List.replicate (outboardSize size) (B.zero, B.zero)⟩

/-- The loop of `decode_ranges`: leaves are written where they belong, parents are recorded.
The k-th write of a leaf meets `env k`. -/
def storeItems (C : Aead Key tagSize) (handle : Handle Key) :
    (ℕ → ℕ → WriteEnv) → Bytes → List (BaoContentItem Hash) → Bytes × IoResult (ProofNodes Hash)
  | _, file, [] => (file, .ok [])
  | env, file, .parent node pair :: items =>
      let (file, r) := storeItems C handle env file items
      (file, r.map ((node, pair) :: ·))
  | env, file, .leaf offset d :: items =>
      match handle.writeAllAt C (env 0) file offset d with
      | (file, .error e) => (file, .error e)
      | (file, .ok ()) => storeItems C handle (fun k => env (k + 1)) file items

/-- Verify an encoded range against the root hash and write the data into place.  Returns the
pairs that were verified on the way. -/
def decodeRange (C : Aead Key tagSize) (handle : Handle Key) (env : ℕ → ℕ → WriteEnv)
    (file : Bytes) (root : Hash) (size start stop : ℕ) (encoded : Wire) :
    Bytes × IoResult (ProofNodes Hash) :=
  let (items, done) := B.decode root size start stop encoded
  match storeItems C handle env file items with
  | (file, .error e) => (file, .error e)
  | (file, .ok nodes) => (file, if done then .ok nodes else .error (.fail .invalidData))

def applyProof (outboard : Outboard Hash) (nodes : ProofNodes Hash) : Outboard Hash :=
  nodes.foldl (fun o n => o.save n.1 n.2) outboard

/-- Cut out a range of a file plus the proof needed to verify it. -/
def encodeRange (S : StoreKeys Master Key) (data : FileData Master) (outboard : Outboard Hash)
    (file : Option Bytes) (start stop : ℕ) : IoResult Wire := do
  let handle ← data.openWith S false false file
  B.encode outboard (fun pos n => handle.readExactAt S.cipher (file.getD []) pos n) start stop

/-- Which bytes of a file are present and verified by the outboard. -/
def validByteRanges (S : StoreKeys Master Key) (data : FileData Master) (outboard : Outboard Hash)
    (file : Option Bytes) : IoResult (List (ℕ × ℕ)) := do
  let handle ← data.openWith S false false file
  B.validRanges outboard (fun pos n => handle.readExactAt S.cipher (file.getD []) pos n)

end

/-- The salt of a new store file. -/
structure Salt where
  bytes : Bytes
  length_eq : bytes.length = saltSize

/-- What preparing a file meets: whether an existing file can be hashed, a file created, its
length set; and the salt drawn for it. -/
structure PrepareEnv where
  hashFails : Bool
  createFails : Bool
  resizeFails : Bool
  salt : Salt

/-- Create (or keep) a file at its final length. -/
def preallocate {Master : Type} (env : PrepareEnv) (data : FileData Master) (size : ℕ)
    (file : Option Bytes) : Option Bytes × IoResult Unit :=
  if env.createFails then (file, .error (.fail .other))
  else
    match data with
    | .plain _ =>
        let created := file.getD []
        if env.resizeFails then (some created, .error (.fail .other))
        else (some (created.setLen size), .ok ())
    | .encrypted _ _ size =>
        if file.any (headerSize ≤ ·.length) then (file, .ok ())
        else if env.resizeFails then (some (magic ++ env.salt.bytes), .error (.fail .other))
        else
          match preallocateEncrypted env.salt.bytes size file with
          | .error e => (some (magic ++ env.salt.bytes), .error e)
          | .ok bytes => (some bytes, .ok ())

end Chorrent
