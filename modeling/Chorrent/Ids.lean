/-
# Identifiers

Shares and peers are known by 32 bytes.
-/
import Mathlib.Data.Vector.Basic
import Chorrent.Lib.Text

namespace Chorrent

open Lib

/-- `try_from`: bytes of the given number. -/
def toVector (n : ℕ) (bytes : Bytes) : Option (List.Vector UInt8 n) :=
  if h : bytes.length = n then some ⟨bytes, h⟩ else none

/-- 32 bytes: the hash of a share's manifest. -/
abbrev ShareId := List.Vector UInt8 32

/-- The bytes of a peer's public key. -/
abbrev EndpointId := List.Vector UInt8 32

namespace ShareId

/-- `Display`: the bytes in hexadecimal digits. -/
def text (id : ShareId) : String := hex id.toList

/-- `from_str` -/
def parse (text : String) : Option ShareId := (ofHex text).bind (toVector 32)

end ShareId

end Chorrent
