/-
# Storing and reading verified pieces

What decoding a piece does to its file and to what is known of its Merkle tree: the other
pieces stay as they are, the piece holds the bytes that were proved, and the pairs that prove
it join the outboard without disturbing the proofs of other pieces.
-/
import Chorrent.Chunker.Basic
import Chorrent.Storage.Pieces

namespace Chorrent

open Lib Bytes

variable {Master Key Hash Wire : Type} {S : StoreKeys Master Key} {B : Bao Hash Wire}
  {data : FileData Master} {handle : Handle Key} {size i : ℕ} {file d : Bytes} {root : Hash}
  {load : ℕ → Option (Hash × Hash)}

/-! ## Known hash pairs -/

lemma mem_leaves_baoTree (hi : i < blockCount size) : i ∈ (baoTree size).leaves :=
  Merkle.Tree.mem_leaves_balanced.2 (Or.inl hi)

lemma ids_baoTree (size : ℕ) : (baoTree size).ids = List.range (outboardSize size) :=
  Merkle.Tree.ids_balanced _

lemma nodup_ids_baoTree (size : ℕ) : (baoTree size).ids.Nodup := by
  rw [ids_baoTree]
  exact List.nodup_range

lemma lt_of_mem_path {node : ℕ} (h : node ∈ (baoTree size).path i) : node < outboardSize size := by
  have := (baoTree size).path_subset i node h
  rwa [ids_baoTree, List.mem_range] at this

/-- The pairs above block `i` that are known. -/
def proofNodes (load : ℕ → Option (Hash × Hash)) (size i : ℕ) : ProofNodes Hash :=
  ((baoTree size).path i).filterMap fun node => (load node).map (node, ·)

@[simp] lemma root_applyProof (o : Outboard Hash) (nodes : ProofNodes Hash) :
    (applyProof o nodes).root = o.root := by
  induction nodes generalizing o with
  | nil => rfl
  | cons n nodes ih => exact ih _

@[simp] lemma size_applyProof (o : Outboard Hash) (nodes : ProofNodes Hash) :
    (applyProof o nodes).size = o.size := by
  induction nodes generalizing o with
  | nil => rfl
  | cons n nodes ih => exact ih _

@[simp] lemma length_applyProof (o : Outboard Hash) (nodes : ProofNodes Hash) :
    (applyProof o nodes).data.length = o.data.length := by
  induction nodes generalizing o with
  | nil => rfl
  | cons n nodes ih => exact (ih _).trans List.length_set

lemma load_save {o : Outboard Hash} {node : ℕ} (h : node < o.data.length) (pair : Hash × Hash)
    (id : ℕ) : (o.save node pair).load id = if id = node then some pair else o.load id := by
  rw [Outboard.load, Outboard.save]
  by_cases hid : id = node
  · rw [if_pos hid, hid, List.getElem?_set_self h]
  · rw [if_neg hid, List.getElem?_set_ne (Ne.symm hid)]
    rfl

variable (load) in
/-- Applying the pairs at some nodes sets those that are known and leaves the others. -/
lemma load_applyProof (ids : List ℕ) : ∀ o : Outboard Hash, (∀ id ∈ ids, id < o.data.length) →
    ∀ id, (applyProof o (ids.filterMap fun node => (load node).map (node, ·))).load id =
      if id ∈ ids ∧ (load id).isSome then load id else o.load id := by
  induction ids with
  | nil => simp [applyProof]
  | cons node ids ih =>
    intro o hlt id
    have hnode := hlt node List.mem_cons_self
    have hrest : ∀ id ∈ ids, id < o.data.length := fun id hid => hlt id (List.mem_cons_of_mem _ hid)
    cases hload : load node with
    | none =>
      rw [List.filterMap_cons_none (by rw [hload]; rfl), ih o hrest id]
      by_cases hid : id = node
      · simp [hid, hload]
      · simp [hid]
    | some pair =>
      rw [List.filterMap_cons_some (by rw [hload]; rfl)]
      show (applyProof (o.save node pair) _).load id = _
      rw [ih (o.save node pair) (by simpa [Outboard.save] using hrest) id, load_save hnode]
      by_cases hid : id = node
      · simp [hid, hload]
      · simp [hid]

/-- What is proved from the root of some content is a block of that content. -/
lemma ProvesBlock.eq_block {content : Bytes} (h : ProvesBlock B.hasher load root size i d)
    (hroot : B.rootHash content = root) : d = block content i := by
  subst hroot
  exact h.1.eq_content

lemma ProvesBlock.unique {load' : ℕ → Option (Hash × Hash)} {e : Bytes}
    (h : ProvesBlock B.hasher load root size i d) (h' : ProvesBlock B.hasher load' root size i e) :
    d = e :=
  h.1.unique h'.1

/-- The proof of a block joins an outboard. -/
lemma ProvesBlock.learn {o : Outboard Hash} {j : ℕ} {e : Bytes}
    (hlen : o.data.length = outboardSize size) (hj : ProvesBlock B.hasher load root size j e) :
    ProvesBlock B.hasher (applyProof o (proofNodes load size j)).load root size j e ∧
      ∀ i d, ProvesBlock B.hasher o.load root size i d →
        ProvesBlock B.hasher (applyProof o (proofNodes load size j)).load root size i d := by
  have hload := load_applyProof load ((baoTree size).path j) o fun id hid => by
    rw [hlen]
    exact lt_of_mem_path hid
  have hsome : ∀ id ∈ (baoTree size).path j, (load id).isSome := fun id hid => hj.1.isSome id hid
  have hnew : ∀ id ∈ (baoTree size).path j,
      (applyProof o (proofNodes load size j)).load id = load id := fun id hid => by
    rw [proofNodes, hload, if_pos ⟨hid, hsome id hid⟩]
  refine ⟨⟨hj.1.congr hnew, hj.2⟩, fun i d hi => ⟨hi.1.learn (nodup_ids_baoTree size) hj.1 hnew ?_,
    hi.2⟩⟩
  intro id _ hnot
  rw [proofNodes, hload, if_neg fun h => hnot h.1]

/-! ## Decoding a piece -/

/-- Writing leaves of one piece keeps the other pieces. -/
lemma storeItems_frame (hsized : data.Sized size) (hsize : size < 2 ^ 64)
    (hi : i * blockSize < size) (items : List (BaoContentItem Hash)) :
    ∀ (env : ℕ → ℕ → WriteEnv) (file : Bytes),
    data.openWith S true false (some file) = .ok handle →
    (∀ offset x, .leaf offset x ∈ items → offset = i * blockSize ∧ x.length = pieceLen size i) →
    data.openWith S true false (some (storeItems S.cipher handle env file items).1) = .ok handle ∧
      ∀ j, j ≠ i → j * blockSize < size → ∀ x, data.pieceAt S size j (some file) = some x →
        data.pieceAt S size j (some (storeItems S.cipher handle env file items).1) = some x := by
  induction items with
  | nil => exact fun env file hopen _ => ⟨hopen, fun _ _ _ _ => id⟩
  | cons item items ih =>
    intro env file hopen hleaves
    have hrest : ∀ offset x, .leaf offset x ∈ items →
        offset = i * blockSize ∧ x.length = pieceLen size i := fun offset x hx =>
      hleaves offset x (List.mem_cons_of_mem _ hx)
    cases item with
    | parent node pair => exact ih env file hopen hrest
    | leaf offset x =>
      obtain ⟨rfl, hx⟩ := hleaves offset x List.mem_cons_self
      have hw := writesPiece hopen hsized hsize hi hx (env 0)
      rw [storeItems]
      generalize handle.writeAllAt S.cipher (env 0) file (i * blockSize) x = w at hw
      obtain ⟨file', r⟩ := w
      cases r with
      | error e => exact ⟨hw.opens, hw.others⟩
      | ok u =>
        obtain ⟨hopen', hothers⟩ := ih (fun k => env (k + 1)) file' hw.opens hrest
        exact ⟨hopen', fun j hij hj x hx => hothers j hij hj x (hw.others j hij hj x hx)⟩

/-- Storing the proof of a block writes the block and records the pairs above it. -/
lemma storeItems_proofItems (C : Aead Key tagSize) (env : ℕ → ℕ → WriteEnv) :
    storeItems C handle env file (proofItems load size i d) =
      ((handle.writeAllAt C (env 0) file (i * blockSize) d).1,
        (handle.writeAllAt C (env 0) file (i * blockSize) d).2.map
          fun _ => proofNodes load size i) := by
  rw [proofItems, proofNodes]
  induction (baoTree size).path i with
  | nil =>
    simp only [List.filterMap_nil, List.nil_append, storeItems]
    generalize handle.writeAllAt C (env 0) file (i * blockSize) d = w
    obtain ⟨file', r⟩ := w
    cases r <;> rfl
  | cons node nodes ih =>
    cases hload : load node with
    | none => simpa [hload] using ih
    | some pair =>
      rw [List.filterMap_cons_some (by rw [hload]; rfl),
        List.filterMap_cons_some (by rw [hload]; rfl), List.cons_append, storeItems, ih]
      generalize handle.writeAllAt C (env 0) file (i * blockSize) d = w
      obtain ⟨file', r⟩ := w
      cases r <;> rfl

/-- What decoding piece `i` does. -/
structure DecodesPiece (S : StoreKeys Master Key) (B : Bao Hash Wire) (data : FileData Master)
    (handle : Handle Key) (root : Hash) (size i : ℕ) (file : Bytes) (env : ℕ → ℕ → WriteEnv)
    (encoded : Wire) (r : Bytes × IoResult (ProofNodes Hash)) : Prop where
  opens : data.openWith S true false (some r.1) = .ok handle
  others : ∀ j, j ≠ i → j * blockSize < size → ∀ x,
    data.pieceAt S size j (some file) = some x → data.pieceAt S size j (some r.1) = some x
  stored : ∀ nodes, r.2 = .ok nodes → ∃ load d, ProvesBlock B.hasher load root size i d ∧
    data.pieceAt S size i (some r.1) = some d ∧ nodes = proofNodes load size i
  /-- A proof of the piece is accepted if it can be written. -/
  accepts : ∀ load d, ProvesBlock B.hasher load root size i d →
    B.decode root size (i * blockSize) (pieceEnd size i) encoded =
      (proofItems load size i d, true) →
    (env 0 0).fault = none → slotPos i < 2 ^ 64 → r.2 = .ok (proofNodes load size i)

lemma decodeRange_spec (hopen : data.openWith S true false (some file) = .ok handle)
    (hsized : data.Sized size) (hsize : size < 2 ^ 64) (hi : i < blockCount size) (root : Hash)
    (env : ℕ → ℕ → WriteEnv) (encoded : Wire) :
    DecodesPiece S B data handle root size i file env encoded
      (decodeRange B S.cipher handle env file root size (i * blockSize) (pieceEnd size i)
        encoded) := by
  have hpos := lt_blockCount.1 hi
  -- whatever the sender does, only bytes of this piece reach the file
  have hleaves : ∀ offset x,
      .leaf offset x ∈ (B.decode root size (i * blockSize) (pieceEnd size i) encoded).1 →
      offset = i * blockSize ∧ x.length = pieceLen size i := by
    intro offset x hx
    obtain ⟨hoffset, load, hproves⟩ := B.decode_leaf root size i encoded offset x hx hi
    exact ⟨hoffset, hproves.2⟩
  obtain ⟨hopen', hothers⟩ := storeItems_frame hsized hsize hpos _ env file hopen hleaves
  have hdone := B.decode_done root size i encoded hi
  obtain ⟨⟨items, done⟩, hdec⟩ :
      ∃ decoded, B.decode root size (i * blockSize) (pieceEnd size i) encoded = decoded := ⟨_, rfl⟩
  rw [hdec] at hopen' hothers hdone
  rw [decodeRange, hdec]
  simp only at hopen' hothers hdone ⊢
  constructor
  · cases hr : storeItems S.cipher handle env file items with
    | mk file' r =>
      rw [hr] at hopen'
      cases r <;> exact hopen'
  · cases hr : storeItems S.cipher handle env file items with
    | mk file' r =>
      rw [hr] at hothers
      cases r <;> exact hothers
  · intro nodes hnodes
    cases hr : storeItems S.cipher handle env file items with
    | mk file' r =>
      rw [hr] at hnodes
      cases r with
      | error e => cases hnodes
      | ok nodes' =>
        simp only at hnodes ⊢
        split_ifs at hnodes with hd
        obtain rfl := Except.ok.inj hnodes
        obtain ⟨load, d, hproves, hitems⟩ := hdone hd
        have hw := writesPiece hopen hsized hsize hpos hproves.2 (env 0)
        rw [hitems, storeItems_proofItems] at hr
        generalize handle.writeAllAt S.cipher (env 0) file (i * blockSize) d = w at hr hw
        obtain ⟨file'', r⟩ := w
        obtain ⟨rfl, hmap⟩ := Prod.mk.inj hr
        cases r with
        | error e => cases hmap
        | ok u => exact ⟨load, d, hproves, hw.stored rfl, (Except.ok.inj hmap).symm⟩
  · intro load d hproves hdecode hcalm hslot
    obtain ⟨rfl, rfl⟩ := Prod.mk.inj (hdec.symm.trans hdecode)
    have hw := (writesPiece hopen hsized hsize hpos hproves.2 (env 0)).succeeds hcalm hslot
    rw [storeItems_proofItems, hw]
    rfl

/-! ## Reading a piece back -/

/-- A stored piece is read by its range. -/
lemma readExactAt_of_pieceAt (hopen : data.openWith S false false (some file) = .ok handle)
    (hsized : data.Sized size) (hi : i * blockSize < size) (hd : d.length = pieceLen size i)
    (hpiece : data.pieceAt S size i (some file) = some d) :
    handle.readExactAt S.cipher file (i * blockSize) (pieceLen size i) = .ok d := by
  cases data with
  | plain path =>
    obtain rfl : Handle.plain = handle := Except.ok.inj hopen
    obtain ⟨hin, rfl⟩ := pieceAt_plain_eq_some.1 hpiece
    exact if_pos (Or.inr hin)
  | encrypted path key declared =>
    obtain rfl : declared = size := hsized
    rw [FileData.pieceAt_eq hopen] at hpiece
    obtain ⟨rfl, -⟩ := openWith_encrypted hopen
    rw [Handle.pieceAt_encrypted_eq_some] at hpiece
    rw [Handle.readExactAt, ← hd]
    refine readExactAt_of_readBlock hi (by rw [hd]; exact pieceLen_pos hi) ?_
    rw [Encrypted.readBlock, hpiece]
    rfl

/-- What is read from the range of a piece is stored there, in the encrypted store provided
that the piece was written. -/
lemma pieceAt_of_readExactAt (hopen : data.openWith S false false (some file) = .ok handle)
    (hsized : data.Sized size) (hsize : size < 2 ^ 64) (hi : i * blockSize < size)
    (hwritten : ∀ h, handle = .encrypted h → h.blockWritten S.cipher file i = .ok true)
    (hread : handle.readExactAt S.cipher file (i * blockSize) (pieceLen size i) = .ok d) :
    data.pieceAt S size i (some file) = some d := by
  have hpos := pieceLen_pos hi
  cases data with
  | plain path =>
    obtain rfl : Handle.plain = handle := Except.ok.inj hopen
    rw [Handle.readExactAt, readExactAt] at hread
    split_ifs at hread with hin
    exact pieceAt_plain_eq_some.2 ⟨hin.resolve_left (by omega), Except.ok.inj hread⟩
  | encrypted path key declared =>
    obtain rfl : declared = size := hsized
    rw [FileData.pieceAt_eq hopen]
    obtain ⟨rfl, -⟩ := openWith_encrypted hopen
    have hw := hwritten _ rfl
    rw [Handle.pieceAt_encrypted_eq_some]
    rw [Encrypted.blockWritten] at hw
    cases hslot : Encrypted.openSlot S.cipher
        ⟨S.fileKey key (headerSalt file), declared, false, false⟩ file i with
    | error e =>
      rw [hslot] at hw
      cases hw
    | ok opened =>
      rw [hslot] at hw
      cases opened with
      | none => cases hw
      | some x =>
        have hx := length_of_openSlot (h := ⟨_, declared, false, false⟩) hsize hi hslot
        have hread' := readExactAt_of_readBlock (C := S.cipher)
          (h := ⟨S.fileKey key (headerSalt file), declared, false, false⟩) hi
          (by rw [hx]; exact pieceLen_pos hi)
          (show Encrypted.readBlock S.cipher _ file i = .ok x by
            rw [Encrypted.readBlock, hslot]
            rfl)
        rw [hx] at hread'
        rw [Handle.readExactAt, hread'] at hread
        rw [Except.ok.inj hread]

end Chorrent
