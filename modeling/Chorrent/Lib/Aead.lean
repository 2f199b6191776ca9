/-
# Authenticated encryption with associated data

The interface of a deterministic cipher: what `encrypt` gives under a key, a nonce and some
associated data is what `decrypt` accepts, and nothing else.
-/
import Chorrent.Lib.Bytes

namespace Chorrent.Lib

/-- An AEAD cipher whose sealed texts are `tag` bytes longer than the plain ones. -/
structure Aead (Key : Type) (tag : ℕ) where
  encrypt : Key → (nonce aad plain : Bytes) → Bytes
  decrypt : Key → (nonce aad sealed : Bytes) → Option Bytes
  decrypt_eq_some : ∀ k n a c p, decrypt k n a c = some p ↔ c = encrypt k n a p
  length_encrypt : ∀ k n a p, (encrypt k n a p).length = p.length + tag

namespace Aead

variable {Key : Type} {tag : ℕ}

lemma decrypt_encrypt (C : Aead Key tag) (k : Key) (n a p : Bytes) :
    C.decrypt k n a (C.encrypt k n a p) = some p :=
  (C.decrypt_eq_some k n a _ p).2 rfl

lemma length_of_decrypt (C : Aead Key tag) {k : Key} {n a c p : Bytes}
    (h : C.decrypt k n a c = some p) : c.length = p.length + tag := by
  rw [(C.decrypt_eq_some k n a c p).1 h, C.length_encrypt]

/-- A cipher that puts a tag of 16 bytes after the text, whatever the nonce. -/
def ofTag (tagOf : Key → Bytes → Bytes) (hlen : ∀ k a, (tagOf k a).length = 16) : Aead Key 16 where
  encrypt k _ a p := p ++ tagOf k a
  decrypt k _ a c :=
    if c.drop (c.length - 16) = tagOf k a then some (c.take (c.length - 16)) else none
  decrypt_eq_some k n a c p := by
    constructor
    · intro h
      split_ifs at h with htag
      rw [← Option.some.inj h, ← htag, List.take_append_drop]
    · rintro rfl
      have hdrop : (p ++ tagOf k a).length - 16 = p.length := by
        rw [List.length_append, hlen]
        omega
      rw [hdrop, List.drop_left, if_pos rfl, List.take_left]
  length_encrypt k n a p := by simp [hlen]

/-- The simplest cipher of the kind: the tag names the key and the associated data. -/
def tagging : Aead Bytes 16 :=
  ofTag (fun k a => Bytes.setLen k 8 ++ Bytes.setLen a 8) fun k a => by simp

end Aead

end Chorrent.Lib
