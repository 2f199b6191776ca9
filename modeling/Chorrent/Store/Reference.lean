/-
# A sealing and formats to compute with

The simplest sealing: the keys are the storage key, a name is its own hash, and a name stands
before the value byte by byte.  The formats are those of postcard.
-/
import Chorrent.Store.Records

namespace Chorrent

open Lib

/-! ## The sealing -/

/-- The bytes of a name, each after a 1, and a 0 at the end; then the value. -/
def packName : Bytes → Bytes → Bytes
  | [], value => 0 :: value
  | b :: name, value => 1 :: b :: packName name value

def unpackName : Bytes → Option (Bytes × Bytes)
  | 0 :: value => some ([], value)
  | 1 :: b :: rest => (unpackName rest).map fun r => (b :: r.1, r.2)
  | _ => none

lemma unpackName_packName (name value : Bytes) :
    unpackName (packName name value) = some (name, value) := by
  induction name with
  | nil => rfl
  | cons b name ih => rw [packName, unpackName, ih]; rfl

def referenceSealing : Sealing Bytes Bytes Bytes where
  valuesKey k := k
  namesKey k := k
  fingerprint k := k
  fingerprint_injective _ _ h := h
  keyedHash _ name := name
  keyedHash_injective _ _ _ h := h
  cipher := Aead.tagging
  pack name value := packName (utf8 name) value
  unpack bytes := do
    let (name, value) ← unpackName bytes
    let name ← ofUtf8 name
    return (name, value)
  unpack_pack name value := by simp [unpackName_packName, ofUtf8_utf8]

/-! ## The formats -/

def bytesCodec : Codec Bytes := Codec.list Codec.byte

def seedRecordCodec : Codec SeedRecord :=
  (Codec.string.seq <| (Codec.option (Codec.array 32)).seq <| bytesCodec.seq <|
    (Codec.list (Codec.string.seq (Codec.varint.seq Codec.varint))).seq
      (Codec.list bytesCodec)).convert
    (fun r => (r.root, r.secret, r.manifest, r.files, r.outboards))
    (fun v => some ⟨v.1, v.2.1, v.2.2.1, v.2.2.2.1, v.2.2.2.2⟩) (fun _ => rfl)

def downloadRecordCodec : Codec DownloadRecord :=
  (Codec.string.seq Codec.string).convert (fun r => (r.code, r.destDir))
    (fun v => some ⟨v.1, v.2⟩) (fun _ => rfl)

/-- The formats, with share codes that are just an id. -/
def referenceFormats : Formats ShareId where
  seed := seedRecordCodec
  kinds := Codec.list Codec.bool
  allowed := Codec.list (Codec.array 32)
  outboards := Codec.list bytesCodec
  download := downloadRecordCodec
  codeId := id
  codeText := ShareId.text
  parseCode := ShareId.parse
  isPublicKey _ := true

end Chorrent
