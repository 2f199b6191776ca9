/-
# Streams of frames

What one side of a stream writes with `write_frame`, the other reads with `read_frame`, in
whatever splits the bytes arrive.  The reader refuses frames of more than 16 MiB and the
writer does not look, so this holds exactly for messages that are not larger.
-/
import Chorrent.Protocol.Basic

namespace Chorrent

open Lib

/-! ## Requests -/

/-- Who asks for which share. -/
def Request.target : Codec (ShareId × Option (List.Vector UInt8 32)) :=
  Codec.seq (Codec.array 32) (Codec.option (Codec.array 32))

/-- How a request is serialized: the number of its variant, then its data. -/
def Request.codec : Codec Request where
  encode
    | .manifest share auth => Codec.varint32.encode 0 ++ target.encode (share, auth)
    | .subscribe share auth => Codec.varint32.encode 1 ++ target.encode (share, auth)
    | .piece share auth index =>
        Codec.varint32.encode 2 ++ (target.seq Codec.u32).encode ((share, auth), index)
  decode bytes := do
    let (variant, bytes) ← Codec.varint32.decode bytes
    match variant with
    | 0 => (target.decode bytes).map fun r => (.manifest r.1.1 r.1.2, r.2)
    | 1 => (target.decode bytes).map fun r => (.subscribe r.1.1 r.1.2, r.2)
    | 2 => ((target.seq Codec.u32).decode bytes).map fun r => (.piece r.1.1.1 r.1.1.2 r.1.2, r.2)
    | _ => none
  Fits _ := True
  decode_encode request rest _ := by
    have htag : ∀ v < 3, ∀ rest, Codec.varint32.decode (Codec.varint32.encode v ++ rest) =
        some (v, rest) := fun v hv rest =>
      Codec.varint32.decode_encode v rest (show v < 2 ^ 32 by omega)
    have htarget : ∀ x, target.Fits x := fun x => ⟨trivial, fun _ _ => trivial⟩
    cases request with
    | manifest share auth =>
      simp [List.append_assoc, htag, target.decode_encode (share, auth) rest (htarget _)]
    | subscribe share auth =>
      simp [List.append_assoc, htag, target.decode_encode (share, auth) rest (htarget _)]
    | piece share auth index =>
      have hpiece := (target.seq Codec.u32).decode_encode ((share, auth), index) rest
        ⟨htarget _, UInt32.toNat_lt index⟩
      simp [List.append_assoc, htag, hpiece]

/-! ## Bytes in splits -/

/-- `read_exact` on a stream that is delivered in these splits: `n` bytes and what is left, or
how many bytes there were. -/
def readExact : List Bytes → ℕ → Except ℕ (Bytes × List Bytes)
  | [], n => if n = 0 then .ok ([], []) else .error 0
  | chunk :: chunks, n =>
      if n ≤ chunk.length then .ok (chunk.take n, chunk.drop n :: chunks)
      else
        match readExact chunks (n - chunk.length) with
        | .error k => .error (chunk.length + k)
        | .ok (bytes, rest) => .ok (chunk ++ bytes, rest)

variable {α : Type} {c : Codec α}

/-- `read_frame` on a stream that is delivered in these splits. -/
def receiveFrame (c : Codec α) (chunks : List Bytes) :
    Except ReceiveError (Option (α × List Bytes)) :=
  match readExact chunks 4 with
  | .error 0 => .ok none
  | .error _ => .error .finishedEarly
  | .ok (len, chunks) =>
      let len := leNat len
      if len > maxFrame then .error (.tooLarge len)
      else
        match readExact chunks len with
        | .error _ => .error .finishedEarly
        | .ok (body, chunks) =>
            match c.decode body with
            | none => .error .undecodable
            | some (msg, _) => .ok (some (msg, chunks))

/-- The splits do not matter. -/
lemma readExact_flatten (chunks : List Bytes) (n : ℕ) :
    (n ≤ chunks.flatten.length ∧ ∃ rest, readExact chunks n = .ok (chunks.flatten.take n, rest) ∧
      rest.flatten = chunks.flatten.drop n) ∨
    (chunks.flatten.length < n ∧ readExact chunks n = .error chunks.flatten.length) := by
  induction chunks generalizing n with
  | nil =>
    rw [readExact]
    split_ifs with hn
    · exact .inl ⟨by simp [hn], [], by simp [hn], by simp⟩
    · exact .inr ⟨by simpa using Nat.pos_of_ne_zero hn, rfl⟩
  | cons chunk chunks ih =>
    rw [readExact, List.flatten_cons, List.length_append]
    split_ifs with hn
    · refine .inl ⟨by omega, _, by rw [List.take_append_of_le_length hn], ?_⟩
      rw [List.flatten_cons, List.drop_append_of_le_length hn]
    · have hlt : chunk.length < n := not_le.1 hn
      rcases ih (n - chunk.length) with ⟨hle, rest, hread, hrest⟩ | ⟨hlt', hread⟩
      · refine .inl ⟨by omega, rest, ?_, ?_⟩
        · rw [hread, List.take_append, List.take_of_length_le hlt.le]
        · rw [hrest, List.drop_append, List.drop_of_length_le hlt.le, List.nil_append]
      · exact .inr ⟨by omega, by rw [hread]⟩

/-- Reading a frame from any splits is reading it from the bytes. -/
lemma receiveFrame_flatten (c : Codec α) (chunks : List Bytes) :
    (receiveFrame c chunks).map (Option.map (Prod.map id List.flatten)) =
      readFrame c chunks.flatten := by
  rw [receiveFrame, readFrame]
  rcases readExact_flatten chunks 4 with ⟨hle, rest, hread, hrest⟩ | ⟨hlt, hread⟩
  · have hne : chunks.flatten ≠ [] := by
      rintro hnil
      rw [hnil] at hle
      exact absurd hle (by decide)
    rw [hread, if_neg hne, if_neg (not_lt.2 hle)]
    dsimp only
    split_ifs with hlarge hearly
    · rfl
    · rcases readExact_flatten rest (leNat (chunks.flatten.take 4)) with ⟨hle', -⟩ | ⟨-, hread'⟩
      · rw [hrest] at hle'
        exact absurd hearly (not_lt.2 hle')
      · rw [hread']
        rfl
    · rcases readExact_flatten rest (leNat (chunks.flatten.take 4)) with
        ⟨-, rest', hread', hrest'⟩ | ⟨hlt', -⟩
      · rw [hread', hrest]
        dsimp only
        cases hdecode : c.decode ((chunks.flatten.drop 4).take (leNat (chunks.flatten.take 4))) with
        | none => rfl
        | some r =>
          rw [hrest] at hrest'
          simp only [Except.map, Option.map_some, Prod.map, id_eq, hrest']
      · rw [hrest] at hlt'
        exact absurd hlt' hearly
  · rw [hread]
    cases hlen : chunks.flatten.length with
    | zero =>
      rw [if_pos (List.length_eq_zero_iff.1 hlen)]
      rfl
    | succ n =>
      have hne : chunks.flatten ≠ [] := by
        rintro hnil
        rw [hnil] at hlen
        cases hlen
      rw [if_neg hne, if_pos (by omega)]
      rfl

lemma receiveFrame_of_none {chunks : List Bytes} (h : readFrame c chunks.flatten = .ok none) :
    receiveFrame c chunks = .ok none := by
  have hmap := receiveFrame_flatten c chunks
  rw [h] at hmap
  rcases hrec : receiveFrame c chunks with e | _ | r
  · rw [hrec] at hmap
    cases hmap
  · rfl
  · rw [hrec] at hmap
    cases hmap

lemma receiveFrame_of_error {chunks : List Bytes} {e : ReceiveError}
    (h : readFrame c chunks.flatten = .error e) : receiveFrame c chunks = .error e := by
  have hmap := receiveFrame_flatten c chunks
  rw [h] at hmap
  rcases hrec : receiveFrame c chunks with e' | r
  · rw [hrec] at hmap
    cases hmap
    rfl
  · rw [hrec] at hmap
    cases hmap

lemma receiveFrame_of_some {chunks : List Bytes} {msg : α} {rest : Bytes}
    (h : readFrame c chunks.flatten = .ok (some (msg, rest))) :
    ∃ chunks', receiveFrame c chunks = .ok (some (msg, chunks')) ∧ chunks'.flatten = rest := by
  have hmap := receiveFrame_flatten c chunks
  rw [h] at hmap
  rcases hrec : receiveFrame c chunks with e | _ | ⟨msg', chunks'⟩
  · rw [hrec] at hmap
    cases hmap
  · rw [hrec] at hmap
    cases hmap
  · rw [hrec] at hmap
    cases hmap
    exact ⟨chunks', rfl, rfl⟩

/-! ## Reading again and again -/

/-- Calling `read_frame` repeatedly returns these messages, and then no message or an error. -/
inductive Receives (c : Codec α) : List Bytes → List α → Option ReceiveError → Prop
  | ended {chunks} (h : receiveFrame c chunks = .ok none) : Receives c chunks [] none
  | failed {chunks e} (h : receiveFrame c chunks = .error e) : Receives c chunks [] (some e)
  | next {chunks msg rest msgs stop} (h : receiveFrame c chunks = .ok (some (msg, rest)))
      (hrest : Receives c rest msgs stop) : Receives c chunks (msg :: msgs) stop

lemma Receives.unique {chunks : List Bytes} {msgs msgs' : List α} {stop stop' : Option ReceiveError}
    (h : Receives c chunks msgs stop) (h' : Receives c chunks msgs' stop') :
    msgs' = msgs ∧ stop' = stop := by
  induction h generalizing msgs' stop' with
  | ended h =>
    cases h' with
    | ended => exact ⟨rfl, rfl⟩
    | failed h' => cases h.symm.trans h'
    | next h' => cases h.symm.trans h'
  | failed h =>
    cases h' with
    | ended h' => cases h.symm.trans h'
    | failed h' =>
      cases h.symm.trans h'
      exact ⟨rfl, rfl⟩
    | next h' => cases h.symm.trans h'
  | next h _ ih =>
    cases h' with
    | ended h' => cases h.symm.trans h'
    | failed h' => cases h.symm.trans h'
    | next h' hrest' =>
      cases h.symm.trans h'
      obtain ⟨rfl, rfl⟩ := ih hrest'
      exact ⟨rfl, rfl⟩

/-- The bytes of these messages on a stream. -/
def writeFrames (c : Codec α) (msgs : List α) : Bytes := msgs.flatMap (writeFrame c)

/-- Messages in front of bytes that read as `stop` are received. -/
lemma receives_append {msgs : List α} (hfits : ∀ msg ∈ msgs, c.Fits msg)
    (hlen : ∀ msg ∈ msgs, (c.encode msg).length ≤ maxFrame) (rest : Bytes)
    {stop : Option ReceiveError}
    (hrest : ∀ chunks, chunks.flatten = rest → Receives c chunks [] stop) :
    ∀ chunks, chunks.flatten = writeFrames c msgs ++ rest → Receives c chunks msgs stop := by
  induction msgs with
  | nil => exact hrest
  | cons msg msgs ih =>
    intro chunks hchunks
    rw [writeFrames, List.flatMap_cons, List.append_assoc] at hchunks
    have hframe := readFrame_writeFrame c (hfits msg List.mem_cons_self)
      (hlen msg List.mem_cons_self) (writeFrames c msgs ++ rest)
    rw [writeFrames, ← hchunks] at hframe
    obtain ⟨chunks', hread, hchunks'⟩ := receiveFrame_of_some hframe
    exact .next hread (ih (fun m hm => hfits m (List.mem_cons_of_mem _ hm))
      (fun m hm => hlen m (List.mem_cons_of_mem _ hm)) chunks' hchunks')

/-- A part of a frame is not read as a message. -/
lemma readFrame_part {msg : α} (hlen : (c.encode msg).length ≤ maxFrame) {part more : Bytes}
    (hpart : part ≠ []) (hmore : more ≠ []) (h : writeFrame c msg = part ++ more) :
    readFrame c part = .error .finishedEarly := by
  have hlt : (c.encode msg).length < 2 ^ 32 := hlen.trans_lt (by decide)
  have hfour : (leBytes 4 (c.encode msg).length).length = 4 := length_leBytes _ _
  rw [writeFrame, Nat.mod_eq_of_lt hlt] at h
  rw [readFrame, if_neg hpart]
  split_ifs with hshort
  · rfl
  · -- the length is complete, so that the body is not
    have htake : part.take 4 = leBytes 4 (c.encode msg).length := by
      have := congrArg (List.take 4) h
      rw [List.take_left' hfour, List.take_append_of_le_length (not_lt.1 hshort)] at this
      exact this.symm
    have hlength := congrArg List.length h
    rw [List.length_append, List.length_append, hfour] at hlength
    have hpos := List.length_pos_iff.2 hmore
    have hbody : (part.drop 4).length < (c.encode msg).length := by
      rw [List.length_drop]
      omega
    rw [htake, leNat_leBytes (by norm_num at hlt ⊢; exact hlt)]
    simp only [not_lt.2 hlen, if_false, hbody, if_true]

/-- What is written is what is received: the messages and then the end, and where the bytes end
inside a frame, the messages before it and then an error; in whatever splits. -/
structure Delivers (c : Codec α) (msgs : List α) : Prop where
  whole : ∀ pre, pre <+: msgs → ∀ chunks : List Bytes, chunks.flatten = writeFrames c pre →
    ∀ got stop, Receives c chunks got stop ↔ got = pre ∧ stop = none
  cut : ∀ pre msg post part more, msgs = pre ++ msg :: post → part ≠ [] → more ≠ [] →
    writeFrame c msg = part ++ more → ∃ e, ∀ chunks : List Bytes,
      chunks.flatten = writeFrames c pre ++ part →
        ∀ got stop, Receives c chunks got stop ↔ got = pre ∧ stop = some e

lemma receives_iff {chunks : List Bytes} {msgs : List α} {stop : Option ReceiveError}
    (h : Receives c chunks msgs stop) (got : List α) (stop' : Option ReceiveError) :
    Receives c chunks got stop' ↔ got = msgs ∧ stop' = stop := by
  refine ⟨h.unique, ?_⟩
  rintro ⟨rfl, rfl⟩
  exact h

lemma delivers_of_le {msgs : List α} (hfits : ∀ msg ∈ msgs, c.Fits msg)
    (hlen : ∀ msg ∈ msgs, (c.encode msg).length ≤ maxFrame) : Delivers c msgs where
  whole pre hpre chunks hchunks := by
    refine receives_iff (receives_append (fun m hm => hfits m (hpre.subset hm))
      (fun m hm => hlen m (hpre.subset hm)) [] (fun chunks hnil => ?_) chunks
      (by rw [hchunks, List.append_nil]))
    exact .ended (receiveFrame_of_none (by rw [hnil]; rfl))
  cut pre msg post part more hmsgs hpart hmore hframe := by
    subst hmsgs
    refine ⟨.finishedEarly, fun chunks hchunks => receives_iff (receives_append
      (fun m hm => hfits m (List.mem_append_left _ hm))
      (fun m hm => hlen m (List.mem_append_left _ hm)) part (fun chunks heq => ?_) chunks
      hchunks)⟩
    exact .failed (receiveFrame_of_error (by
      rw [heq]
      exact readFrame_part (hlen msg (by simp)) hpart hmore hframe))

/-- Messages that are received fit into their frames. -/
lemma le_of_receives (hc : c.Extends) {msgs : List α} (hfits : ∀ msg ∈ msgs, c.Fits msg) :
    ∀ chunks : List Bytes, chunks.flatten = writeFrames c msgs → Receives c chunks msgs none →
      ∀ msg ∈ msgs, (c.encode msg).length ≤ maxFrame := by
  induction msgs with
  | nil => exact fun _ _ _ msg hmsg => absurd hmsg List.not_mem_nil
  | cons msg msgs ih =>
    intro chunks hchunks hreceives
    cases hreceives with
    | @next _ _ rest _ _ hread hrest =>
      have hmap := receiveFrame_flatten c chunks
      rw [hread, hchunks, writeFrames, List.flatMap_cons] at hmap
      obtain ⟨-, heq, hle⟩ := eq_of_readFrame_writeFrame hc (hfits msg List.mem_cons_self) hmap.symm
      intro m hm
      rcases List.mem_cons.1 hm with rfl | hm
      · exact hle
      · exact ih (fun m hm => hfits m (List.mem_cons_of_mem _ hm)) rest heq hrest m hm

lemma delivers_iff (hc : c.Extends) {msgs : List α} (hfits : ∀ msg ∈ msgs, c.Fits msg) :
    Delivers c msgs ↔ ∀ msg ∈ msgs, (c.encode msg).length ≤ maxFrame := by
  refine ⟨fun h => ?_, delivers_of_le hfits⟩
  have hflat : [writeFrames c msgs].flatten = writeFrames c msgs := by simp
  exact le_of_receives hc hfits _ hflat ((h.whole msgs List.prefix_rfl _ hflat _ _).2 ⟨rfl, rfl⟩)

/-! ## The messages of the program -/

/-- A length takes at most ten bytes. -/
lemma varintLength_le (k n : ℕ) : Codec.varintLength k n ≤ k := by
  induction k generalizing n with
  | zero => exact le_rfl
  | succ k ih =>
    rw [Codec.varintLength]
    split_ifs
    · omega
    · exact Nat.succ_le_succ (ih _)

lemma length_byteString (bytes : Bytes) : (Codec.byteString.encode bytes).length =
    Codec.varintLength 10 bytes.length + bytes.length := by
  have hflat : bytes.flatMap Codec.byte.encode = bytes := List.flatMap_singleton' bytes
  rw [Codec.byteString, Codec.list, List.length_append, hflat]
  exact congrArg (· + _) (Codec.length_putVarint 10 bytes.length)

/-- A request is a few bytes. -/
lemma length_request (request : Request) : (Request.codec.encode request).length ≤ 71 := by
  have htarget : ∀ share auth, (Request.target.encode (share, auth)).length ≤ 65 := by
    intro share auth
    have hshare : share.toList.length = 32 := share.toList_length
    have hauth : ((Codec.option (Codec.array 32)).encode auth).length ≤ 33 := by
      cases auth with
      | none => exact Nat.le_of_ble_eq_true rfl
      | some token =>
        have htoken : token.toList.length = 32 := token.toList_length
        simp [Codec.option, Codec.array, htoken]
    rw [Request.target, Codec.seq, List.length_append]
    exact Nat.add_le_add hshare.le hauth
  cases request with
  | manifest share auth =>
    rw [Request.codec, List.length_append]
    exact (Nat.add_le_add (le_refl 1) (htarget share auth)).trans (by decide)
  | subscribe share auth =>
    rw [Request.codec, List.length_append]
    exact (Nat.add_le_add (le_refl 1) (htarget share auth)).trans (by decide)
  | piece share auth index =>
    have hindex : (Codec.u32.encode index).length ≤ 5 := by
      rw [Codec.u32, Codec.convert, Codec.varint32, Codec.length_putVarint]
      exact varintLength_le _ _
    rw [Request.codec, List.length_append, Codec.seq, List.length_append]
    exact Nat.add_le_add (le_refl 1) (Nat.add_le_add (htarget share auth) hindex)

/-- How many bytes of data a response carries. -/
def Response.dataLength : Response → ℕ
  | .manifest bytes | .bitfield bytes | .piece bytes => bytes.length
  | .«have» _ | .dontHave | .notFound | .busy => 0

/-- The data that a frame has room for, beside the number of the variant and a length. -/
def maxData : ℕ := maxFrame - 5

/-- The data of a response after the number of its variant. -/
lemma length_data_le (bytes : Bytes) : 1 + (Codec.byteString.encode bytes).length ≤ maxFrame ↔
    bytes.length ≤ maxData := by
  rw [length_byteString, maxData, maxFrame]
  by_cases hsmall : bytes.length < 2 ^ 21
  · have hlen : Codec.varintLength 10 bytes.length ≤ 10 := varintLength_le _ _
    omega
  · by_cases hlarge : bytes.length < 2 ^ 28
    · have hlen : Codec.varintLength 10 bytes.length = 4 := by
        simp only [Codec.varintLength]
        rw [if_neg (by omega), if_neg (by omega), if_neg (by omega), if_pos (by omega)]
      omega
    · omega

lemma length_response_le (response : Response) :
    (Response.codec.encode response).length ≤ maxFrame ↔ response.dataLength ≤ maxData := by
  cases response with
  | manifest bytes =>
    rw [Response.codec, List.length_append]
    exact length_data_le bytes
  | bitfield bytes =>
    rw [Response.codec, List.length_append]
    exact length_data_le bytes
  | piece bytes =>
    rw [Response.codec, List.length_append]
    exact length_data_le bytes
  | «have» index =>
    have hindex : (Codec.u32.encode index).length ≤ 5 := by
      rw [Codec.u32, Codec.convert, Codec.varint32, Codec.length_putVarint]
      exact varintLength_le _ _
    rw [Response.codec, List.length_append]
    refine iff_of_true ?_ (Nat.zero_le _)
    exact (Nat.add_le_add (le_refl 1) hindex).trans (by decide)
  | dontHave => exact iff_of_true (by decide) (Nat.zero_le _)
  | notFound => exact iff_of_true (by decide) (Nat.zero_le _)
  | busy => exact iff_of_true (by decide) (Nat.zero_le _)

/-- What is written is received, exactly as long as no response carries more data than a frame
has room for; requests never do.  A bitfield has a byte for every eight pieces of the share, a
manifest some forty bytes for every file. -/
theorem frames_delivered (requests : List Request) (responses : List Response)
    (hfits : ∀ msg ∈ responses, Response.codec.Fits msg) :
    Delivers Request.codec requests ∧
      (Delivers Response.codec responses ↔ ∀ msg ∈ responses, msg.dataLength ≤ maxData) := by
  refine ⟨delivers_of_le (fun _ _ => trivial) fun msg _ =>
    (length_request msg).trans (by decide), ?_⟩
  rw [delivers_iff Response.extends_codec hfits]
  exact forall₂_congr fun msg _ => length_response_le msg

/-- A bitfield and what follows it. -/
theorem frames_delivered_bitfield : Delivers Response.codec [.bitfield [1], .«have» 1] := by
  refine (frames_delivered [] _ fun msg hmsg => ?_).2.2 fun msg hmsg => ?_
  · rcases List.mem_pair.1 hmsg with rfl | rfl
    · exact (by decide : (1 : ℕ) < 2 ^ 64)
    · trivial
  · rcases List.mem_pair.1 hmsg with rfl | rfl
    · exact (by decide : (1 : ℕ) ≤ maxData)
    · exact Nat.zero_le _

/-- The bitfield of a share of 134217689 pieces is written and not received. -/
theorem bitfield_too_large : ¬ Delivers Response.codec
    [.bitfield (packBits (List.replicate 134217689 true))] := by
  have hlength : (packBits (List.replicate 134217689 true)).length = 16777212 := by
    rw [length_packBits, List.length_replicate]
  have hfits : (packBits (List.replicate 134217689 true)).length < 2 ^ 64 := by
    rw [hlength]
    decide
  rw [delivers_iff Response.extends_codec]
  swap
  · rintro msg hmsg
    rw [List.mem_singleton.1 hmsg]
    exact hfits
  intro h
  have hle := (length_response_le _).1 (h _ List.mem_cons_self)
  rw [Response.dataLength, hlength] at hle
  exact absurd hle (by decide)

end Chorrent
