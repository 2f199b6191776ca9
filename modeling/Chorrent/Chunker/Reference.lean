/-
# A reference tree

The simplest functions that do what is relied on of the bao-tree crate: hashes are terms, an
encoding is the list of the pairs above a block with the block, and checking is checking.
-/
import Chorrent.Chunker.Pieces

namespace Chorrent

open Lib

/-- Hashes as terms. -/
inductive Digest where
  | zero
  | leaf (i : ℕ) (isRoot : Bool) (data : Bytes)
  | parent (isRoot : Bool) (left right : Digest)
deriving DecidableEq

namespace Digest

def hasher : Merkle.Hasher Bytes Digest where
  leaf := leaf
  parent := parent
  leaf_injective h := by
    injection h with hi _ hd
    exact ⟨hi, hd⟩
  parent_injective h := by
    injection h with _ hx hy
    exact ⟨hx, hy⟩
  leaf_ne_parent _ _ _ _ _ _ h := by cases h

/-- Whether the known pairs prove that block `i` is `d`. -/
def checkBlock (load : ℕ → Option (Digest × Digest)) (root : Digest) (size i : ℕ) (d : Bytes) :
    Bool :=
  Merkle.check hasher load (baoTree size) true root i d && d.length = pieceLen size i

lemma checkBlock_iff {load : ℕ → Option (Digest × Digest)} {root : Digest} {size i : ℕ}
    {d : Bytes} : checkBlock load root size i d = true ↔ ProvesBlock hasher load root size i d := by
  rw [checkBlock, Bool.and_eq_true, Merkle.check_iff, decide_eq_true_eq]
  rfl

/-- An encoding: the pairs above a block, and the block. -/
abbrev Encoding := ProofNodes Digest × Bytes

def createOutboard (content : Bytes) : Outboard Digest where
  root := Merkle.hash hasher (block content) (baoTree content.length) true
  size := content.length
  data := (List.range (outboardSize content.length)).map fun id =>
    (Merkle.pairs hasher (block content) (baoTree content.length) id).getD (zero, zero)

def encodeBlock (outboard : Outboard Digest) (read : ℕ → ℕ → IoResult Bytes) (start _stop : ℕ) :
    IoResult Encoding := do
  let i := start / blockSize
  let d ← read start (pieceLen outboard.size i)
  if checkBlock outboard.load outboard.root outboard.size i d then
    return (proofNodes outboard.load outboard.size i, d)
  else throw (.fail .invalidData)

def decodeBlock (root : Digest) (size start _stop : ℕ) (encoded : Encoding) :
    List (BaoContentItem Digest) × Bool :=
  let i := start / blockSize
  let load := fun id => encoded.1.lookup id
  if checkBlock load root size i encoded.2 then (proofItems load size i encoded.2, true)
  else ([], false)

/-- Whether block `i` is there and checks. -/
def validBlock (outboard : Outboard Digest) (read : ℕ → ℕ → IoResult Bytes) (i : ℕ) : Bool :=
  match read (i * blockSize) (pieceLen outboard.size i) with
  | .ok d => checkBlock outboard.load outboard.root outboard.size i d
  | .error _ => false

def validBlocks (outboard : Outboard Digest) (read : ℕ → ℕ → IoResult Bytes) :
    IoResult (List (ℕ × ℕ)) :=
  .ok (((List.range (blockCount outboard.size)).filter (validBlock outboard read)).map
    fun i => (i * blockSize, pieceEnd outboard.size i))

/-! ## What is relied on -/

lemma div_start (i : ℕ) : i * blockSize / blockSize = i := Nat.mul_div_cancel i (by decide)

lemma encodeBlock_of_read {outboard : Outboard Digest} {read : ℕ → ℕ → IoResult Bytes} {i : ℕ}
    {d : Bytes} (stop : ℕ) (hread : read (i * blockSize) (pieceLen outboard.size i) = .ok d) :
    encodeBlock outboard read (i * blockSize) stop =
      if checkBlock outboard.load outboard.root outboard.size i d then
        .ok (proofNodes outboard.load outboard.size i, d)
      else .error (.fail .invalidData) := by
  rw [encodeBlock, div_start, hread, ok_bind]
  rfl

lemma load_createOutboard (content : Bytes) {id : ℕ}
    (hid : id ∈ (baoTree content.length).ids) : (createOutboard content).load id =
      Merkle.pairs hasher (block content) (baoTree content.length) id := by
  have hlt : id < outboardSize content.length := by rwa [ids_baoTree, List.mem_range] at hid
  obtain ⟨pair, hpair⟩ :=
    Option.isSome_iff_exists.1 ((Merkle.isSome_pairs (H := hasher) (block content)).2 hid)
  rw [Outboard.load, createOutboard, List.getElem?_map, List.getElem?_range hlt]
  simp [hpair]

lemma provesBlock_createOutboard (content : Bytes) {i : ℕ} (hi : i < blockCount content.length) :
    ProvesBlock hasher (createOutboard content).load (createOutboard content).root content.length i
      (block content i) := by
  refine ⟨(Merkle.proves_pairs (nodup_ids_baoTree _) (mem_leaves_baoTree hi) _).congr
    fun id hid => load_createOutboard content ((baoTree _).path_subset i id hid), ?_⟩
  have hpos := lt_blockCount.1 hi
  rw [block, Bytes.length_slice, pieceLen]
  omega

lemma lookup_known (load : ℕ → Option (Digest × Digest)) (ids : List ℕ) {id : ℕ}
    (hid : id ∈ ids) :
    (ids.filterMap fun node => (load node).map (node, ·)).lookup id = load id := by
  induction ids with
  | nil => cases hid
  | cons node ids ih =>
    by_cases hnode : id = node
    · subst hnode
      cases hload : load id with
      | some pair => simp [hload]
      | none =>
        rw [List.filterMap_cons_none (by rw [hload]; rfl), List.lookup_eq_none_iff]
        intro p hp
        obtain ⟨k, -, hk⟩ := List.mem_filterMap.1 hp
        obtain ⟨pair, hpair, rfl⟩ := Option.map_eq_some_iff.1 hk
        rw [bne_iff_ne]
        rintro rfl
        rw [hload] at hpair
        cases hpair
    · have hrest := ih ((List.mem_cons.1 hid).resolve_left hnode)
      cases hload : load node with
      | none => rwa [List.filterMap_cons_none (by rw [hload]; rfl)]
      | some pair =>
        rw [List.filterMap_cons_some (by rw [hload]; rfl), List.lookup_cons,
          beq_eq_false_iff_ne.2 hnode]
        exact hrest

/-- Encoding and decoding a block whose proof checks. -/
lemma decodeBlock_encode {load : ℕ → Option (Digest × Digest)} {root : Digest} {size i stop : ℕ}
    {d : Bytes} (h : ProvesBlock hasher load root size i d) :
    decodeBlock root size (i * blockSize) stop (proofNodes load size i, d) =
      (proofItems load size i d, true) := by
  have hlookup : ∀ id ∈ (baoTree size).path i, (proofNodes load size i).lookup id = load id :=
    fun id hid => lookup_known load _ hid
  rw [decodeBlock, div_start, if_pos (checkBlock_iff.2 ⟨h.1.congr hlookup, h.2⟩), proofItems,
    proofItems]
  congr 2
  exact List.filterMap_congr fun id hid => by rw [hlookup id hid]

lemma decodeBlock_cases (root : Digest) (size i stop : ℕ) (encoded : Encoding) :
    (∃ load, ProvesBlock hasher load root size i encoded.2 ∧
      decodeBlock root size (i * blockSize) stop encoded =
        (proofItems load size i encoded.2, true)) ∨
    decodeBlock root size (i * blockSize) stop encoded = ([], false) := by
  rw [decodeBlock, div_start]
  split_ifs with h
  · exact Or.inl ⟨_, checkBlock_iff.1 h, rfl⟩
  · exact Or.inr rfl

lemma mem_proofItems_leaf {load : ℕ → Option (Digest × Digest)} {size i offset : ℕ} {d x : Bytes}
    (h : .leaf offset x ∈ proofItems load size i d) : offset = i * blockSize ∧ x = d := by
  rw [proofItems, List.mem_append] at h
  rcases h with h | h
  · obtain ⟨node, -, hnode⟩ := List.mem_filterMap.1 h
    obtain ⟨pair, -, heq⟩ := Option.map_eq_some_iff.1 hnode
    cases heq
  · obtain ⟨rfl, rfl⟩ := BaoContentItem.leaf.inj (List.mem_singleton.1 h)
    exact ⟨rfl, rfl⟩

lemma validBlock_iff {outboard : Outboard Digest} {read : ℕ → ℕ → IoResult Bytes} {i : ℕ} :
    validBlock outboard read i = true ↔
      ∃ d, read (i * blockSize) (pieceLen outboard.size i) = .ok d ∧
        ProvesBlock hasher outboard.load outboard.root outboard.size i d := by
  rw [validBlock]
  cases hread : read (i * blockSize) (pieceLen outboard.size i) with
  | error e => simp
  | ok d => simp [checkBlock_iff]

/-- Blocks are told apart by where they start and end. -/
lemma eq_of_covers {size i k : ℕ} (hi : i * blockSize < size)
    (hstart : k * blockSize ≤ i * blockSize)
    (hend : pieceEnd size i ≤ pieceEnd size k) : k = i := by
  have hpos : 0 < blockSize := by decide
  have hle : k ≤ i := Nat.le_of_mul_le_mul_right hstart hpos
  rcases Nat.lt_or_eq_of_le hle with hlt | heq
  · have hnext : (k + 1) * blockSize ≤ i * blockSize := Nat.mul_le_mul_right _ hlt
    rw [pieceEnd, pieceEnd, Nat.add_mul, Nat.one_mul] at *
    omega
  · exact heq

end Digest

/-- The reference functions. -/
def referenceBao : Bao Digest Digest.Encoding where
  hasher := Digest.hasher
  zero := .zero
  create := Digest.createOutboard
  encode := Digest.encodeBlock
  decode := Digest.decodeBlock
  validRanges := Digest.validBlocks
  create_size _ := rfl
  create_root _ := rfl
  create_length _ := by simp [Digest.createOutboard]
  create_proves content i hi := Digest.provesBlock_createOutboard content hi
  decode_leaf root size i encoded offset d hd _ := by
    rcases Digest.decodeBlock_cases root size i (pieceEnd size i) encoded with
      ⟨load, hproves, hdec⟩ | hdec
    · rw [hdec] at hd
      obtain ⟨rfl, rfl⟩ := Digest.mem_proofItems_leaf hd
      exact ⟨rfl, load, hproves⟩
    · rw [hdec] at hd
      cases hd
  decode_done root size i encoded _ hdone := by
    rcases Digest.decodeBlock_cases root size i (pieceEnd size i) encoded with
      ⟨load, hproves, hdec⟩ | hdec
    · exact ⟨load, encoded.2, hproves, by rw [hdec]⟩
    · rw [hdec] at hdone
      cases hdone
  encode_succeeds outboard read i d _ hproves hread := by
    refine ⟨(proofNodes outboard.load outboard.size i, d), ?_⟩
    rw [Digest.encodeBlock_of_read _ hread, if_pos (Digest.checkBlock_iff.2 hproves)]
  encode_valid outboard read i encoded _ hencode := by
    cases hread : read (i * blockSize) (pieceLen outboard.size i) with
    | error e =>
      rw [Digest.encodeBlock, Digest.div_start, hread] at hencode
      cases hencode
    | ok d =>
      rw [Digest.encodeBlock_of_read _ hread] at hencode
      split_ifs at hencode with hcheck
      · obtain rfl := Except.ok.inj hencode
        have hproves := Digest.checkBlock_iff.1 hcheck
        exact ⟨d, rfl, hproves, Digest.decodeBlock_encode hproves⟩
  valid_sound outboard read ranges r i hi hvalid hr hstart hend := by
    obtain rfl := Except.ok.inj hvalid
    obtain ⟨k, hk, rfl⟩ := List.mem_map.1 hr
    obtain rfl := Digest.eq_of_covers (lt_blockCount.1 hi) hstart
      (hend.trans (min_le_left _ _))
    exact Digest.validBlock_iff.1 (List.mem_filter.1 hk).2
  valid_complete outboard read ranges i d hi hvalid hread hproves := by
    obtain rfl := Except.ok.inj hvalid
    refine ⟨_, List.mem_map.2 ⟨i, List.mem_filter.2 ⟨List.mem_range.2 hi, ?_⟩, rfl⟩, le_rfl, le_rfl⟩
    exact Digest.validBlock_iff.2 ⟨d, hread, hproves⟩

end Chorrent
