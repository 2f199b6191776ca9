/-
# Share codes

How a share code is printed and parsed (`share.rs`): a prefix, then the fields one after
another in base64.  The addresses of peers are a type of the iroh crate, which is a parameter
together with how it is serialized.
-/
import Chorrent.Lib.Base64
import Chorrent.Lib.Shortest
import Chorrent.Manifest.Fetch

namespace Chorrent

open Lib

/-- `SHARE_CODE_PREFIX` -/
def shareCodePrefix : List Char := "chr2".toList

/-- All of a share code: beside the content, whom to try first, and the secret of a private
share. -/
structure FullShareCode (Addr : Type) extends ShareCode ShareId where
  peers : List Addr
  secret : Option (List.Vector UInt8 32)
deriving DecidableEq

/-- The texts of `Error::InvalidShareCode`. -/
inductive InvalidShareCode where
  /-- "not a chorrent v2 share code (should start with \"chr2\")" -/
  | notAShareCode
  /-- "not valid base64: {e}" -/
  | notBase64
  /-- "corrupted: {e}" -/
  | corrupted
  /-- "those share codes are for different shares" -/
  | differentShares
deriving DecidableEq

/-- `str::trim` -/
def trim (text : List Char) : List Char := trimEnd (text.dropWhile isWhitespace)

namespace FullShareCode

variable {Addr : Type}

/-- The fields of a code, in the order in which they are serialized. -/
def fields (addr : Codec Addr) :
    Codec (ShareId × String × ℕ × List Addr × Option (List.Vector UInt8 32)) :=
  (Codec.array 32).seq <| Codec.string.seq <| Codec.varint.seq <|
    (Codec.list addr).seq (Codec.option (Codec.array 32))

def codec (addr : Codec Addr) : Codec (FullShareCode Addr) :=
  (fields addr).convert (fun c => (c.id, c.name, c.totalSize, c.peers, c.secret))
    (fun v => if h : v.2.2.1 < 2 ^ 64 then some ⟨⟨v.1, v.2.1, v.2.2.1, h⟩, v.2.2.2.1, v.2.2.2.2⟩
      else none)
    (fun c => dif_pos c.totalSize_lt)

variable (addr : Codec Addr)

/-- `Display` -/
def print (c : FullShareCode Addr) : List Char :=
  shareCodePrefix ++ Base64.encode ((codec addr).encode c)

/-- `from_str` -/
def parse (text : List Char) : Except InvalidShareCode (FullShareCode Addr) :=
  match (trim text).dropPrefix? shareCodePrefix with
  | none => .error .notAShareCode
  | some body =>
      match Base64.decode body with
      | none => .error .notBase64
      | some bytes =>
          match (codec addr).decode bytes with
          | none => .error .corrupted
          | some (c, _) => .ok c

/-- The check that the fields are written as they are printed. -/
def strict {addr : Codec Addr} (s : addr.Strict) : (codec addr).Strict :=
  ((Codec.Strict.array 32).seq <| Codec.Strict.string.seq <| Codec.Strict.varint.seq <|
    s.list.seq (Codec.Strict.array 32).option).convert _ _ _ <| by
      rintro ⟨id, name, total, peers, secret⟩ c h
      dsimp only at h
      split_ifs at h
      cases h
      rfl

/-- The fields are written with no byte more than they need, and nothing follows them. -/
def Plain {addr : Codec Addr} (s : addr.Strict) (text : List Char) : Prop :=
  ∀ body bytes, (trim text).dropPrefix? shareCodePrefix = some body →
    Base64.decode body = some bytes →
      ∀ c rest, (codec addr).decode bytes = some (c, rest) →
        (strict s).shortest bytes = true ∧ rest = []

end FullShareCode

/-! ## Surrounding whitespace -/

lemma trim_surrounded {left text right : List Char} (hleft : ∀ c ∈ left, isWhitespace c = true)
    (hright : ∀ c ∈ right, isWhitespace c = true) (htext : ∀ c ∈ text, isWhitespace c = false) :
    trim (left ++ text ++ right) = text := by
  have hend : trimEnd (text ++ right) = text := by
    have hdrop : trimEnd (text ++ right) = trimEnd text := by
      rw [trimEnd, trimEnd, List.rdropWhile, List.rdropWhile, List.reverse_append,
        List.dropWhile_append_of_pos fun c hc => hright c (List.mem_reverse.1 hc)]
    rw [hdrop, trimEnd, List.rdropWhile_eq_self_iff]
    intro hne
    simp [htext _ (List.getLast_mem hne)]
  rw [trim, List.append_assoc, List.dropWhile_append_of_pos hleft]
  cases text with
  | cons c cs =>
    rw [List.cons_append, List.dropWhile_cons_of_neg (by simp [htext c List.mem_cons_self])]
    exact hend
  | nil =>
    have hnil : right.dropWhile isWhitespace = [] := List.dropWhile_eq_nil_iff.2 hright
    rw [List.nil_append, hnil]
    rfl

lemma trim_eq_self {text : List Char} (htext : ∀ c ∈ text, isWhitespace c = false) :
    trim text = text := by
  have hnone : ∀ c ∈ ([] : List Char), isWhitespace c = true := fun _ hc => by cases hc
  simpa using trim_surrounded hnone hnone htext

namespace FullShareCode

variable {Addr : Type} {addr : Codec Addr}

lemma not_isWhitespace_print (c : FullShareCode Addr) :
    ∀ d ∈ c.print addr, isWhitespace d = false := by
  have hstart : ∀ d ∈ shareCodePrefix, isWhitespace d = false :=
    List.forall_iff_forall_mem.1 (by decide)
  have halphabet : ∀ d ∈ Base64.alphabet, isWhitespace d = false :=
    List.forall_iff_forall_mem.1 (by decide)
  intro d hd
  rcases List.mem_append.1 hd with hd | hd
  · exact hstart d hd
  · exact halphabet d (Base64.mem_alphabet d hd)

lemma trim_print {left right : List Char} (hleft : ∀ c ∈ left, isWhitespace c = true)
    (hright : ∀ c ∈ right, isWhitespace c = true) (c : FullShareCode Addr) :
    trim (left ++ c.print addr ++ right) = c.print addr :=
  trim_surrounded hleft hright c.not_isWhitespace_print

/-! ## What is parsed -/

lemma parse_eq_ok {text : List Char} {c : FullShareCode Addr} : parse addr text = .ok c ↔
    ∃ body bytes rest, (trim text).dropPrefix? shareCodePrefix = some body ∧
      Base64.decode body = some bytes ∧ (codec addr).decode bytes = some (c, rest) := by
  rw [parse]
  constructor
  · intro h
    split at h
    · cases h
    · rename_i body hbody
      split at h
      · cases h
      · rename_i bytes hbytes
        split at h
        · cases h
        · rename_i c' rest hdecode
          cases h
          exact ⟨body, bytes, rest, hbody, hbytes, hdecode⟩
  · rintro ⟨body, bytes, rest, hbody, hbytes, hdecode⟩
    simp only [hbody, hbytes, hdecode]

/-- A code that was printed is parsed, with whitespace around it. -/
lemma parse_print {c : FullShareCode Addr} (hfits : (codec addr).Fits c) {left right : List Char}
    (hleft : ∀ c ∈ left, isWhitespace c = true) (hright : ∀ c ∈ right, isWhitespace c = true) :
    parse addr (left ++ c.print addr ++ right) = .ok c := by
  refine parse_eq_ok.2 ⟨_, (codec addr).encode c, [], ?_, Base64.decode_encode _, ?_⟩
  · rw [trim_print hleft hright, print]
    exact List.dropPrefix?_append_of_beq _ (beq_self_eq_true _)
  · have hdecode := (codec addr).decode_encode c [] hfits
    rwa [List.append_nil] at hdecode

/-- A text that is parsed prints back exactly when it is plain. -/
lemma prints_back_iff (s : addr.Strict) (text : List Char) :
    (∀ c, parse addr text = .ok c → trim text = c.print addr) ↔ Plain s text := by
  -- how the text of a code is made up
  have hbody : ∀ {body bytes}, (trim text).dropPrefix? shareCodePrefix = some body →
      Base64.decode body = some bytes → trim text = shareCodePrefix ++ Base64.encode bytes := by
    intro body bytes hbody hbytes
    obtain ⟨pre, heq, hpre⟩ := List.dropPrefix?_eq_some_iff.1 hbody
    rw [heq, eq_of_beq hpre, Base64.encode_of_decode hbytes]
  constructor
  · intro h body bytes hdrop hbytes c rest hdecode
    have hprint := h c (parse_eq_ok.2 ⟨body, bytes, rest, hdrop, hbytes, hdecode⟩)
    rw [hbody hdrop hbytes, print] at hprint
    have hsame := Base64.decode_encode bytes
    rw [List.append_cancel_left hprint, Base64.decode_encode] at hsame
    cases hsame
    have hagain := (codec addr).decode_encode c [] ((strict s).fits hdecode)
    rw [List.append_nil, hdecode] at hagain
    cases hagain
    exact ⟨((strict s).shortest_iff hdecode).2 (List.append_nil _).symm, rfl⟩
  · intro h c hparse
    obtain ⟨body, bytes, rest, hdrop, hbytes, hdecode⟩ := parse_eq_ok.1 hparse
    obtain ⟨hshortest, rfl⟩ := h body bytes hdrop hbytes c rest hdecode
    rw [hbody hdrop hbytes, ((strict s).shortest_iff hdecode).1 hshortest, List.append_nil, print]

lemma extends_codec (haddr : addr.Extends) : (codec addr).Extends :=
  ((Codec.extends_array 32).seq <| Codec.extends_string.seq <| Codec.extends_varint.seq <|
    haddr.list.seq (Codec.extends_array 32).option).convert _ _ _

/-- A code that is cut short is refused. -/
lemma parse_take (haddr : addr.Extends) {c : FullShareCode Addr} (hfits : (codec addr).Fits c)
    {n : ℕ} (hn : n < (c.print addr).length) (c' : FullShareCode Addr) :
    parse addr ((c.print addr).take n) ≠ .ok c' := by
  intro hparse
  obtain ⟨body, bytes, rest, hdrop, hbytes, hdecode⟩ := parse_eq_ok.1 hparse
  rw [trim_eq_self fun d hd => c.not_isWhitespace_print d (List.mem_of_mem_take hd)] at hdrop
  obtain ⟨pre, htake, hpre⟩ := List.dropPrefix?_eq_some_iff.1 hdrop
  rw [eq_of_beq hpre] at htake
  have hlength := congrArg List.length htake
  rw [List.length_take, min_eq_left hn.le, List.length_append] at hlength
  have hbody : body = (Base64.encode ((codec addr).encode c)).take body.length := by
    rw [print, hlength, List.take_length_add_append] at htake
    exact (List.append_cancel_left htake).symm
  -- the bytes that are left start those of the code, and are all of them if they decode
  have hwhole := Base64.decode_encode ((codec addr).encode c)
  have hstart := hbytes
  rw [hbody] at hstart
  obtain ⟨tail, htail⟩ := Base64.prefix_of_decode hwhole hstart
  have hpart : ((codec addr).encode c).take bytes.length = bytes := by
    rw [← htail, List.take_left]
  rw [← hpart] at hdecode
  have hle := (extends_codec haddr).decode_take hfits hdecode
  rw [List.take_of_length_le hle] at hpart
  have htext := Base64.encode_of_decode hbytes
  rw [print, List.length_append, hpart, htext] at hn
  omega

/-- Share codes are exact: a printed code is parsed, with whitespace around it, and is refused
if it is cut short; and a text that is parsed prints back as itself, exactly if it is plain. -/
theorem share_codes_exact_iff (s : addr.Strict) (haddr : addr.Extends) {c : FullShareCode Addr}
    (hfits : (codec addr).Fits c) {left right : List Char}
    (hleft : ∀ c ∈ left, isWhitespace c = true) (hright : ∀ c ∈ right, isWhitespace c = true)
    (text : List Char) :
    parse addr (left ++ c.print addr ++ right) = .ok c ∧
      (∀ n < (c.print addr).length, ∀ c', parse addr ((c.print addr).take n) ≠ .ok c') ∧
      ((∀ c', parse addr text = .ok c' → trim text = c'.print addr) ↔ Plain s text) :=
  ⟨parse_print hfits hleft hright, fun _ hn => parse_take haddr hfits hn, prints_back_iff s text⟩

/-! ## A code and what is pasted after it -/

/-- A peer of which only the id is known: its id, and no addresses. -/
def peer : Codec EndpointId :=
  ((Codec.array 32).seq Codec.varint).convert (fun id => (id, 0))
    (fun v => if v.2 = 0 then some v.1 else none) (fun _ => rfl)

def strictPeer : peer.Strict :=
  ((Codec.Strict.array 32).seq Codec.Strict.varint).convert _ _ _ fun v id h => by
    split_ifs at h with hzero
    cases h
    exact Prod.ext rfl hzero.symm

lemma extends_peer : peer.Extends :=
  ((Codec.extends_array 32).seq Codec.extends_varint).convert _ _ _

/-- The code of a file `x` of five bytes. -/
def codeOfX : FullShareCode EndpointId where
  id := .replicate 32 7
  name := "x"
  totalSize := 5
  totalSize_lt := FileEntry.five_lt
  peers := [.replicate 32 1]
  secret := none

lemma codeOfX_fits : (codec peer).Fits codeOfX :=
  ⟨trivial, (by decide : (1 : ℕ) < 2 ^ 64), (by decide : 5 < 2 ^ 64),
    ⟨(by decide : (1 : ℕ) < 2 ^ 64), fun _ _ => ⟨trivial, (by decide : 0 < 2 ^ 64)⟩⟩, nofun⟩

/-- The code of `x` with four characters pasted after it is read as the code of `x`. -/
theorem pasted_code_accepted :
    parse peer (codeOfX.print peer ++ "AAAA".toList) = .ok codeOfX ∧
      trim (codeOfX.print peer ++ "AAAA".toList) ≠ codeOfX.print peer := by
  decide +kernel

theorem share_codes_exact_iff_codeOfX :
    parse peer (" ".toList ++ codeOfX.print peer ++ "\n".toList) = .ok codeOfX ∧
      (∀ n < (codeOfX.print peer).length, ∀ c', parse peer ((codeOfX.print peer).take n) ≠ .ok c') ∧
      ((∀ c', parse peer (codeOfX.print peer) = .ok c' →
          trim (codeOfX.print peer) = c'.print peer) ↔
        Plain strictPeer (codeOfX.print peer)) :=
  share_codes_exact_iff strictPeer extends_peer codeOfX_fits
    (List.forall_iff_forall_mem.1 (by decide)) (List.forall_iff_forall_mem.1 (by decide)) _

end FullShareCode

end Chorrent
