/-
# The wire protocol

`protocol.rs`: a message is a frame, a little-endian 32-bit length followed by that many bytes
of postcard.  What was written as a frame is read back, as long as it is not larger than a
frame may be.
-/
import Mathlib.Data.Nat.Bitwise
import Chorrent.Ids
import Chorrent.Lib.Codec

namespace Chorrent

open Lib

/-- `MAX_FRAME`: 16 MiB. -/
def maxFrame : ℕ := 16 * 1024 * 1024

/-! ## Messages -/

inductive Request where
  | manifest (share : ShareId) (auth : Option (List.Vector UInt8 32))
  | subscribe (share : ShareId) (auth : Option (List.Vector UInt8 32))
  | piece (share : ShareId) (auth : Option (List.Vector UInt8 32)) (index : UInt32)
deriving DecidableEq

inductive Response where
  | manifest (bytes : Bytes)
  /-- One bit per piece, least significant bit first. -/
  | bitfield (bytes : Bytes)
  | «have» (piece : UInt32)
  | piece (bytes : Bytes)
  | dontHave
  /-- Unknown share, or a peer that is not authorized. -/
  | notFound
  | busy
deriving DecidableEq

/-- How a response is serialized: the number of its variant, then its data. -/
def Response.codec : Codec Response where
  encode
    | .manifest bytes => Codec.varint32.encode 0 ++ Codec.byteString.encode bytes
    | .bitfield bytes => Codec.varint32.encode 1 ++ Codec.byteString.encode bytes
    | .«have» index => Codec.varint32.encode 2 ++ Codec.u32.encode index
    | .piece bytes => Codec.varint32.encode 3 ++ Codec.byteString.encode bytes
    | .dontHave => Codec.varint32.encode 4
    | .notFound => Codec.varint32.encode 5
    | .busy => Codec.varint32.encode 6
  decode bytes := do
    let (variant, bytes) ← Codec.varint32.decode bytes
    match variant with
    | 0 => (Codec.byteString.decode bytes).map fun r => (.manifest r.1, r.2)
    | 1 => (Codec.byteString.decode bytes).map fun r => (.bitfield r.1, r.2)
    | 2 => (Codec.u32.decode bytes).map fun r => (.«have» r.1, r.2)
    | 3 => (Codec.byteString.decode bytes).map fun r => (.piece r.1, r.2)
    | 4 => some (.dontHave, bytes)
    | 5 => some (.notFound, bytes)
    | 6 => some (.busy, bytes)
    | _ => none
  Fits
    | .manifest bytes | .bitfield bytes | .piece bytes => bytes.length < 2 ^ 64
    | .«have» _ | .dontHave | .notFound | .busy => True
  decode_encode response rest hfits := by
    have hbytes : ∀ bytes : Bytes, bytes.length < 2 ^ 64 →
        Codec.byteString.decode (Codec.byteString.encode bytes ++ rest) = some (bytes, rest) :=
      fun bytes hlt => Codec.byteString.decode_encode bytes rest ⟨hlt, fun _ _ => trivial⟩
    have htag : ∀ v < 7, ∀ rest, Codec.varint32.decode (Codec.varint32.encode v ++ rest) =
        some (v, rest) := fun v hv rest =>
      Codec.varint32.decode_encode v rest (show v < 2 ^ 32 by omega)
    cases response with
    | manifest bytes => simp [List.append_assoc, htag, hbytes bytes hfits]
    | bitfield bytes => simp [List.append_assoc, htag, hbytes bytes hfits]
    | piece bytes => simp [List.append_assoc, htag, hbytes bytes hfits]
    | «have» index =>
      have hindex := Codec.u32.decode_encode index rest (UInt32.toNat_lt index)
      simp [List.append_assoc, htag, hindex]
    | dontHave | notFound | busy => simp [htag]

lemma Response.extends_codec : codec.Extends := by
  intro bytes response rest more h
  simp only [codec, Option.bind_eq_bind, Option.bind_eq_some_iff] at h ⊢
  obtain ⟨⟨variant, bytes'⟩, hvariant, h⟩ := h
  refine ⟨_, Codec.extends_varint32 _ _ _ more hvariant, ?_⟩
  simp only at h ⊢
  -- a variant without data leaves the bytes; one with data decodes them
  split at h
  · exact Codec.extends_byteString.map more h
  · exact Codec.extends_byteString.map more h
  · exact Codec.extends_u32.map more h
  · exact Codec.extends_byteString.map more h
  · cases h
    rfl
  · cases h
    rfl
  · cases h
    rfl
  · cases h

/-! ## Frames -/

/-- Why reading a frame fails. -/
inductive ReceiveError where
  /-- The stream ended inside a frame. -/
  | finishedEarly
  /-- "frame of {len} bytes is too large" -/
  | tooLarge (len : ℕ)
  /-- The message of the decoder. -/
  | undecodable
deriving DecidableEq

variable {α : Type}

/-- `write_frame`: the length is cut to 32 bits. -/
def writeFrame (c : Codec α) (msg : α) : Bytes :=
  leBytes 4 ((c.encode msg).length % 2 ^ 32) ++ c.encode msg

/-- `read_frame`, on what is left of a stream: a message and the rest, or nothing if the stream
ends cleanly between frames. -/
def readFrame (c : Codec α) (stream : Bytes) : Except ReceiveError (Option (α × Bytes)) :=
  if stream = [] then .ok none
  else if stream.length < 4 then .error .finishedEarly
  else
    let len := leNat (stream.take 4)
    let stream := stream.drop 4
    if len > maxFrame then .error (.tooLarge len)
    else if stream.length < len then .error .finishedEarly
    else
      match c.decode (stream.take len) with
      | none => .error .undecodable
      | some (msg, _) => .ok (some (msg, stream.drop len))

/-- A message that fits into a frame is received as it was sent. -/
lemma readFrame_writeFrame (c : Codec α) {msg : α} (hfits : c.Fits msg)
    (hlen : (c.encode msg).length ≤ maxFrame) (rest : Bytes) :
    readFrame c (writeFrame c msg ++ rest) = .ok (some (msg, rest)) := by
  have hmax : maxFrame < 2 ^ 32 := by decide
  have hlt : (c.encode msg).length < 256 ^ 4 := by
    have : (256 : ℕ) ^ 4 = 2 ^ 32 := by norm_num
    omega
  have hmod : (c.encode msg).length % 2 ^ 32 = (c.encode msg).length := Nat.mod_eq_of_lt (by omega)
  have hfour : (leBytes 4 (c.encode msg).length).length = 4 := length_leBytes _ _
  have hdecode := c.decode_encode msg [] hfits
  rw [List.append_nil] at hdecode
  rw [readFrame, writeFrame, hmod, List.append_assoc, if_neg (by simp [leBytes]),
    if_neg (by simp), List.take_left' hfour, List.drop_left' hfour, leNat_leBytes hlt]
  simp only [show ¬ (c.encode msg).length > maxFrame by omega, if_false,
    show ¬ (c.encode msg ++ rest).length < (c.encode msg).length by simp, List.take_left',
    List.drop_left', hdecode]

/-- What is received is what was sent, and it fits into a frame. -/
lemma eq_of_readFrame_writeFrame {c : Codec α} (hc : c.Extends) {msg msg' : α} {rest rest' : Bytes}
    (hfits : c.Fits msg)
    (h : readFrame c (writeFrame c msg ++ rest) = .ok (some (msg', rest'))) :
    msg' = msg ∧ rest' = rest ∧ (c.encode msg).length ≤ maxFrame := by
  by_cases hlen : (c.encode msg).length ≤ maxFrame
  · rw [readFrame_writeFrame c hfits hlen] at h
    obtain ⟨rfl, rfl⟩ := Prod.mk.inj (Option.some.inj (Except.ok.inj h))
    exact ⟨rfl, rfl, hlen⟩
  · exfalso
    have hmax : maxFrame < 2 ^ 32 := by decide
    have hlt : (c.encode msg).length % 2 ^ 32 < 256 ^ 4 :=
      Nat.mod_lt _ (by norm_num)
    have hfour : (leBytes 4 ((c.encode msg).length % 2 ^ 32)).length = 4 := length_leBytes _ _
    have hle := Nat.mod_le (c.encode msg).length (2 ^ 32)
    rw [readFrame, writeFrame, List.append_assoc, if_neg (by simp [leBytes]), if_neg (by simp),
      List.take_left' hfour, List.drop_left' hfour, leNat_leBytes hlt] at h
    simp only at h
    split_ifs at h with hlarge hearly
    -- the length was cut, so a part of the message is left to decode
    have hshort : (c.encode msg).length % 2 ^ 32 < (c.encode msg).length := by omega
    rw [List.take_append_of_le_length hle] at h
    cases hdecode : c.decode ((c.encode msg).take ((c.encode msg).length % 2 ^ 32)) with
    | none =>
      rw [hdecode] at h
      cases h
    | some r => exact absurd (hc.decode_take hfits hdecode) (by omega)

/-! ## Bits -/

/-- `unpack_bits`: missing bytes count as zeros. -/
def unpackBits (bytes : List UInt8) (len : ℕ) : List Bool :=
  (List.range len).map fun i =>
    bytes[i / 8]?.any fun b => b &&& (1 <<< UInt8.ofNat (i % 8)) ≠ 0

@[simp] lemma length_unpackBits (bytes : List UInt8) (len : ℕ) :
    (unpackBits bytes len).length = len := by
  simp [unpackBits]

/-- Set the bits with the given numbers. -/
def setBits (out : List UInt8) (indices : List ℕ) : List UInt8 :=
  indices.foldl (fun out i => out.modify (i / 8) (· ||| (1 <<< UInt8.ofNat (i % 8)))) out

/-- `pack_bits`: one bit per piece, least significant bit first. -/
def packBits (held : List Bool) : List UInt8 :=
  setBits (List.replicate ((held.length + 7) / 8) 0)
    ((List.range held.length).filter fun i => held[i]?.getD false)

/-- Whether bit `i` is set. -/
def hasBit (bytes : List UInt8) (i : ℕ) : Bool :=
  bytes[i / 8]?.any fun b => b &&& (1 <<< UInt8.ofNat (i % 8)) ≠ 0

lemma bit_ne_zero (b : UInt8) {k : ℕ} (hk : k < 8) :
    b &&& (1 <<< UInt8.ofNat k) ≠ 0 ↔ b.toNat.testBit k = true := by
  have hshift : (1 <<< UInt8.ofNat k : UInt8).toNat = 2 ^ k := by
    interval_cases k <;> rfl
  rw [ne_eq, ← UInt8.toNat_inj, UInt8.toNat_and, hshift, Nat.and_comm, Nat.two_pow_and]
  cases b.toNat.testBit k <;> simp

lemma testBit_or_bit (b : UInt8) {j k : ℕ} (hj : j < 8) :
    (b ||| (1 <<< UInt8.ofNat j)).toNat.testBit k = (b.toNat.testBit k || decide (j = k)) := by
  have hshift : (1 <<< UInt8.ofNat j : UInt8).toNat = 2 ^ j := by
    interval_cases j <;> rfl
  rw [UInt8.toNat_or, hshift, Nat.testBit_or, Nat.testBit_two_pow]

lemma hasBit_iff {bytes : List UInt8} {i : ℕ} :
    hasBit bytes i = true ↔ ∃ b, bytes[i / 8]? = some b ∧ b.toNat.testBit (i % 8) = true := by
  rw [hasBit, Option.any_eq_true]
  simp only [decide_eq_true_eq, bit_ne_zero _ (Nat.mod_lt i (by decide : 0 < 8))]

lemma hasBit_setBits (indices : List ℕ) : ∀ (out : List UInt8) (i : ℕ), i / 8 < out.length →
    (hasBit (setBits out indices) i = true ↔ i ∈ indices ∨ hasBit out i = true) := by
  induction indices with
  | nil => simp [setBits]
  | cons j indices ih =>
    intro out i hi
    rw [setBits, List.foldl_cons, ← setBits, ih _ i (by simpa using hi), List.mem_cons, hasBit_iff,
      hasBit_iff, List.getElem?_modify, List.getElem?_eq_getElem hi]
    by_cases hij : j / 8 = i / 8
    · have hsame : j % 8 = i % 8 ↔ i = j := by omega
      simp only [hij, if_true, Option.map_eq_map, Option.map_some, Option.some.injEq,
        exists_eq_left', testBit_or_bit _ (Nat.mod_lt j (by decide : 0 < 8)), Bool.or_eq_true,
        decide_eq_true_eq, hsame]
      tauto
    · simp only [hij, if_false, Option.map_eq_map, Option.map_some, Option.some.injEq,
        exists_eq_left']
      have hne : i ≠ j := fun h => hij (by rw [h])
      tauto

lemma length_packBits (held : List Bool) : (packBits held).length = (held.length + 7) / 8 := by
  have hset : ∀ (indices : List ℕ) (out : List UInt8),
      (setBits out indices).length = out.length := by
    intro indices
    induction indices with
    | nil => exact fun _ => rfl
    | cons i indices ih =>
      intro out
      rw [setBits, List.foldl_cons, ← setBits, ih, List.length_modify]
  rw [packBits, hset, List.length_replicate]

/-- What was packed is unpacked. -/
lemma unpackBits_packBits (held : List Bool) : unpackBits (packBits held) held.length = held := by
  refine List.ext_getElem (length_unpackBits _ _) fun i hi hi' => ?_
  have hlt : i / 8 < (List.replicate ((held.length + 7) / 8) (0 : UInt8)).length := by
    rw [List.length_replicate]
    omega
  have hbit := hasBit_setBits ((List.range held.length).filter fun i => held[i]?.getD false) _ i hlt
  have hzero : hasBit (List.replicate ((held.length + 7) / 8) 0) i = false := by
    rw [Bool.eq_false_iff, ne_eq, hasBit_iff]
    rintro ⟨b, hb, htest⟩
    rw [List.eq_of_mem_replicate (List.mem_of_getElem? hb)] at htest
    simp at htest
  rw [hzero] at hbit
  have hunpack : (unpackBits (packBits held) held.length)[i] = hasBit (packBits held) i := by
    simp only [unpackBits, List.getElem_map, List.getElem_range]
    rfl
  rw [hunpack, Bool.eq_iff_iff, packBits, hbit]
  simp [hi']

end Chorrent
