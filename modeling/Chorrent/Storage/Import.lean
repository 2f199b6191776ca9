/-
# Copying while reading

A reader that stores what is read through it (`ImportingReader` of `storage.rs`).  It writes
whole pieces; what does not fill a piece yet is kept until more comes.  A source gives its bytes
in reads of any sizes, and reads may be interrupted or fail.
-/
import Chorrent.Storage.Runs

namespace Chorrent

open Lib Bytes

/-! ## Sources -/

/-- What a read of a source finds. -/
inductive ReadEvent where
  /-- These bytes, or as many of them as the reader has room for. -/
  | got (bytes : Bytes)
  | failed (e : IoError)

/-- What the reads of a source find one after another. -/
abbrev Source := List ReadEvent

namespace Source

/-- `Read::read`, with room for `n` bytes. -/
def read (n : ℕ) : Source → Source × IoResult Bytes
  | [] => ([], .ok [])
  | .failed e :: rest => (rest, .error (.fail e))
  | .got bytes :: rest =>
      (if bytes.length ≤ n then rest else .got (bytes.drop n) :: rest, .ok (bytes.take n))

/-- The bytes that come before the end, or before a read that fails for good. -/
def available : Source → Bytes
  | [] => []
  | .failed e :: rest => if e = .interrupted then available rest else []
  | .got bytes :: rest => if bytes = [] then [] else bytes ++ available rest

end Source

/-! ## The reader -/

/-- A write to the destination, and whether it failed. -/
structure DestWrite where
  pos : ℕ
  bytes : Bytes
  failed : Bool

/-- `ImportingReader`, with the bytes of the destination and the writes that were made. -/
structure ImportingReader where
  source : Source
  dest : Bytes
  pending : Bytes
  written : ℕ
  writes : List DestWrite

namespace ImportingReader

variable {Key : Type} (C : Aead Key tagSize) (env : ℕ → ℕ → WriteEnv) (handle : Handle Key)

/-- `self.dest.write_all_at`, behind what is written. -/
def writeDest (r : ImportingReader) (bytes : Bytes) : ImportingReader × IoResult Unit :=
  let (dest, result) :=
    handle.writeAllAt C (env r.writes.length) r.dest r.written bytes
  ({ r with
      dest
      writes := r.writes ++ [⟨r.written, bytes, !result.isOk⟩] }, result)

/-- `read`, with room for `n` bytes. -/
def read (r : ImportingReader) (n : ℕ) : ImportingReader × IoResult Bytes :=
  let (source, got) := r.source.read n
  let r := { r with source }
  match got with
  | .error e => (r, .error e)
  | .ok bytes =>
      let pending := r.pending ++ bytes
      let whole := pending.length / blockSize * blockSize
      if 0 < whole then
        match writeDest C env handle { r with pending := pending.drop whole }
          (pending.take whole) with
        | (r, .error e) => (r, .error e)
        | (r, .ok ()) => ({ r with written := r.written + whole }, .ok bytes)
      else ({ r with pending }, .ok bytes)

/-- `finish` -/
def finish (r : ImportingReader) : ImportingReader × IoResult ℕ :=
  if r.pending = [] then (r, .ok r.written)
  else
    match writeDest C env handle r r.pending with
    | (r, .error e) => (r, .error e)
    | (r, .ok ()) =>
        let r := { r with written := r.written + r.pending.length }
        (r, .ok r.written)

/-- `Read::read_exact`: reads that are interrupted are made again. -/
def readExact : ℕ → ImportingReader → ℕ → ImportingReader × IoResult Bytes
  | _, r, 0 => (r, .ok [])
  | 0, r, _ + 1 => (r, .error .panic)
  | fuel + 1, r, n + 1 =>
      match read C env handle r (n + 1) with
      | (r, .error (.fail .interrupted)) => readExact fuel r (n + 1)
      | (r, .error e) => (r, .error e)
      | (r, .ok bytes) =>
          if bytes = [] then (r, .error (.fail .unexpectedEof))
          else
            let (r, rest) := readExact fuel r (n + 1 - bytes.length)
            (r, rest.map (bytes ++ ·))

/-- The bytes that `create_sized` gets to see. -/
def readParts (r : ImportingReader) : List ℕ → ImportingReader × IoResult Bytes
  | [] => (r, .ok [])
  | n :: ns =>
      match readExact C env handle (r.source.length + 1) r n with
      | (r, .error e) => (r, .error e)
      | (r, .ok bytes) =>
          let (r, rest) := readParts r ns
          (r, rest.map (bytes ++ ·))

end ImportingReader

/-! ## What a source gives -/

namespace Source

/-- A read that fails takes one event; for good unless it was interrupted. -/
lemma read_error (source : Source) (n : ℕ) {e : Stop IoError} (h : (source.read n).2 = .error e) :
    (source.read n).1.length < source.length ∧
      (e = .fail .interrupted → (source.read n).1.available = source.available) ∧
      (e ≠ .fail .interrupted → source.available = []) ∧ e ≠ .panic := by
  match source, h with
  | .failed e :: rest, h =>
    cases h
    refine ⟨Nat.lt_succ_self _, fun he => ?_, fun he => ?_, nofun⟩
    · cases he
      rfl
    · rw [available, if_neg fun heq => he (congrArg Stop.fail heq)]

/-- A read takes bytes off what is available: a whole event, or as many as there is room for. -/
lemma read_some (source : Source) (n : ℕ) {bytes : Bytes} (hne : bytes ≠ [])
    (h : (source.read n).2 = .ok bytes) :
    source.available = bytes ++ (source.read n).1.available ∧ bytes.length ≤ n ∧
      ((source.read n).1.length < source.length ∨ bytes.length = n) := by
  match source, h with
  | [], h => exact absurd (Except.ok.inj h).symm hne
  | .got all :: rest, h =>
    obtain rfl : all.take n = bytes := Except.ok.inj h
    have hall : all ≠ [] := by
      rintro rfl
      exact hne List.take_nil
    rw [available, if_neg hall, read]
    split_ifs with hfits
    · refine ⟨?_, by simp, Or.inl (Nat.lt_succ_self _)⟩
      rw [List.take_of_length_le hfits]
    · have hdrop : all.drop n ≠ [] := by
        rw [ne_eq, List.drop_eq_nil_iff]
        exact hfits
      refine ⟨?_, by simp, Or.inr (by simp; omega)⟩
      rw [available, if_neg hdrop, ← List.append_assoc, List.take_append_drop]

end Source

/-! ## Reading through the importer -/

namespace ImportingReader

variable {Master Key : Type} {S : StoreKeys Master Key} {data : FileData Master} {size : ℕ}
  {existing seen bytes : Bytes} {handle : Handle Key} {env : ℕ → ℕ → WriteEnv} {r : ImportingReader}

/-- The writes hold these bytes one after another, none failed, and each is of whole pieces. -/
structure Whole (writes : List DestWrite) (bytes : Bytes) : Prop where
  bytes_eq : writes.flatMap (·.bytes) = bytes
  pos_eq : ∀ k w, writes[k]? = some w → w.pos = ((writes.take k).flatMap (·.bytes)).length
  succeeded : ∀ w ∈ writes, w.failed = false
  whole : ∀ w ∈ writes, blockSize ∣ w.bytes.length

/-- The bytes that were passed through are in the destination, up to less than a piece that is
kept for later. -/
structure Holding (S : StoreKeys Master Key) (data : FileData Master) (size : ℕ)
    (existing : Bytes) (handle : Handle Key) (r : ImportingReader) (seen : Bytes) : Prop where
  opens : data.openWith S true false (some r.dest) = .ok handle
  starts : data.Starts S size existing r.dest (seen.take r.written)
  dvd_written : blockSize ∣ r.written
  written_le : r.written ≤ seen.length
  pending_eq : r.pending = seen.drop r.written
  pending_lt : r.pending.length < blockSize
  writes : Whole r.writes (seen.take r.written)

/-- The position of a write that is made behind others. -/
lemma pos_eq_append {writes : List DestWrite} {w : DestWrite}
    (h : ∀ k w, writes[k]? = some w → w.pos = ((writes.take k).flatMap (·.bytes)).length)
    (hw : w.pos = (writes.flatMap (·.bytes)).length) (k : ℕ) (w' : DestWrite)
    (hk : (writes ++ [w])[k]? = some w') :
    w'.pos = (((writes ++ [w]).take k).flatMap (·.bytes)).length := by
  rcases lt_trichotomy k writes.length with hlt | rfl | hgt
  · rw [List.getElem?_append_left hlt] at hk
    rw [List.take_append_of_le_length hlt.le]
    exact h k w' hk
  · rw [List.getElem?_concat_length] at hk
    cases hk
    rw [List.take_left]
    exact hw
  · rw [List.getElem?_eq_none (by simp; omega)] at hk
    cases hk

/-- What a write of whole pieces, or of the last ones, does. -/
lemma Holding.writeDest (hsized : data.Sized size) (hsize : size < 2 ^ 64)
    (h : Holding S data size existing handle r seen) (env : ℕ → ℕ → WriteEnv) (chunk : Bytes)
    (hin : r.written + chunk.length ≤ size)
    (hrun : blockSize ∣ chunk.length ∨ r.written + chunk.length = size) (pending : Bytes)
    (source : Source) :
    ∃ dest result, writeDest S.cipher env handle { r with source, pending } chunk =
        ({ r with
            source, pending, dest
            writes := r.writes ++ [⟨r.written, chunk, !result.isOk⟩] }, result) ∧
      Refused (data.isEncrypted = true → FitsStore size) result ∧
      (result = .ok () → data.openWith S true false (some dest) = .ok handle ∧
        data.Starts S size existing dest (seen.take r.written ++ chunk)) := by
  have hlen : (seen.take r.written).length = r.written := List.length_take_of_le h.written_le
  have hwrite := starts_writeAllAt hsized hsize h.opens h.starts
    (hlen.symm ▸ h.dvd_written) chunk (hlen.symm ▸ hin) (hlen.symm ▸ hrun) (env r.writes.length)
  rw [hlen] at hwrite
  exact ⟨_, _, rfl, hwrite.2.2, fun hok => ⟨hwrite.1, hwrite.2.1 hok⟩⟩

/-- Writes that go on with a run of whole pieces. -/
lemma Whole.append {writes : List DestWrite} (h : Whole writes bytes) (chunk : Bytes)
    (hdvd : blockSize ∣ chunk.length) :
    Whole (writes ++ [⟨bytes.length, chunk, false⟩]) (bytes ++ chunk) where
  bytes_eq := by
    rw [List.flatMap_append, h.bytes_eq, List.flatMap_singleton]
  pos_eq := pos_eq_append h.pos_eq (by rw [h.bytes_eq])
  succeeded w hw := by
    rcases List.mem_append.1 hw with hw | hw
    · exact h.succeeded w hw
    · rw [List.mem_singleton.1 hw]
  whole w hw := by
    rcases List.mem_append.1 hw with hw | hw
    · exact h.whole w hw
    · rw [List.mem_singleton.1 hw]
      exact hdvd

/-- A read that fails without being interrupted fails the import; one that was interrupted took
nothing. -/
structure ReadFails (S : StoreKeys Master Key) (data : FileData Master) (size : ℕ)
    (existing : Bytes) (handle : Handle Key) (r r' : ImportingReader) (seen : Bytes)
    (e : Stop IoError) : Prop where
  again : e = .fail .interrupted → Holding S data size existing handle r' seen ∧
    r'.source.available = r.source.available ∧ r'.source.length < r.source.length
  no_panic : (data.isEncrypted = true → FitsStore size) → e ≠ .panic

/-- A read that succeeds passes on what is available, or nothing at the end. -/
structure ReadGives (S : StoreKeys Master Key) (data : FileData Master) (size : ℕ)
    (existing : Bytes) (handle : Handle Key) (r r' : ImportingReader) (seen bytes : Bytes)
    (n : ℕ) : Prop where
  holding : Holding S data size existing handle r' (seen ++ bytes)
  available_eq : bytes ≠ [] → r.source.available = bytes ++ r'.source.available
  length_le : bytes.length ≤ n
  progress : bytes ≠ [] → r'.source.length < r.source.length ∨ bytes.length = n

/-- What one read does. -/
lemma Holding.read (env : ℕ → ℕ → WriteEnv) (hsized : data.Sized size) (hsize : size < 2 ^ 64)
    (h : Holding S data size existing handle r seen) {n : ℕ} (hin : seen.length + n ≤ size) :
    (∃ r' e, r.read S.cipher env handle n = (r', .error e) ∧
        ReadFails S data size existing handle r r' seen e) ∨
      ∃ r' bytes, r.read S.cipher env handle n = (r', .ok bytes) ∧
        ReadGives S data size existing handle r r' seen bytes n := by
  rw [ImportingReader.read]
  have herror := fun e => Source.read_error r.source n (e := e)
  have hsome := fun bytes => @Source.read_some r.source n bytes
  have hlength : ∀ bytes, (r.source.read n).2 = .ok bytes → bytes.length ≤ n := by
    intro bytes hbytes
    by_cases hne : bytes = []
    · simp [hne]
    · exact (hsome bytes hne hbytes).2.1
  generalize r.source.read n = got at herror hsome hlength
  obtain ⟨source, result⟩ := got
  cases result with
  | error e =>
    obtain ⟨hlt, hagain, -, hpanic⟩ := herror e rfl
    refine Or.inl ⟨_, e, rfl, fun he => ⟨?_, hagain he, hlt⟩, fun _ => hpanic⟩
    exact ⟨h.opens, h.starts, h.dvd_written, h.written_le, h.pending_eq, h.pending_lt, h.writes⟩
  | ok bytes =>
    have hn := hlength bytes rfl
    have hpending : r.pending ++ bytes = (seen ++ bytes).drop r.written := by
      rw [List.drop_append_of_le_length h.written_le, h.pending_eq]
    have htake : (seen ++ bytes).take r.written = seen.take r.written :=
      List.take_append_of_le_length h.written_le
    have hpendinglen : (r.pending ++ bytes).length = seen.length + bytes.length - r.written := by
      rw [hpending, List.length_drop, List.length_append]
    obtain ⟨whole, hwhole⟩ : ∃ whole, whole = (r.pending ++ bytes).length / blockSize * blockSize :=
      ⟨_, rfl⟩
    have hwholele : whole ≤ (r.pending ++ bytes).length := hwhole ▸ Nat.div_mul_le_self _ _
    have hdvd : blockSize ∣ whole := hwhole ▸ Nat.dvd_mul_left _ _
    have hmod : (r.pending ++ bytes).length - whole < blockSize := by
      have := Nat.div_add_mod' (r.pending ++ bytes).length blockSize
      have := Nat.mod_lt (r.pending ++ bytes).length (show blockSize > 0 by decide)
      omega
    have hle := h.written_le
    simp only [← hwhole]
    by_cases hpos : 0 < whole
    · -- the whole pieces are written, and the rest is kept
      rw [if_pos hpos]
      have hchunk : ((r.pending ++ bytes).take whole).length = whole :=
        List.length_take_of_le hwholele
      obtain ⟨dest, result, hwrite, hrefused, hok⟩ := h.writeDest hsized hsize env
        ((r.pending ++ bytes).take whole) (by omega) (Or.inl (hchunk.symm ▸ hdvd))
        ((r.pending ++ bytes).drop whole) source
      rw [hwrite]
      cases result with
      | error e =>
        exact Or.inl ⟨_, e, rfl, fun he => absurd he (hrefused e rfl).1, (hrefused e rfl).2⟩
      | ok u =>
        obtain ⟨hopens, hstarts⟩ := hok rfl
        have hbytes : seen.take r.written ++ (r.pending ++ bytes).take whole =
            (seen ++ bytes).take (r.written + whole) := by
          rw [List.take_add, htake, hpending]
        rw [hbytes] at hstarts
        have hwrites := h.writes.append ((r.pending ++ bytes).take whole)
          (hchunk.symm ▸ hdvd)
        rw [hbytes, List.length_take_of_le h.written_le] at hwrites
        refine Or.inr ⟨_, bytes, rfl, ⟨hopens, hstarts, Nat.dvd_add h.dvd_written hdvd, ?_, ?_, ?_,
          hwrites⟩, fun hne => (hsome bytes hne rfl).1, hn, fun hne => (hsome bytes hne rfl).2.2⟩
        · rw [List.length_append]
          show r.written + whole ≤ _
          omega
        · show (r.pending ++ bytes).drop whole = _
          rw [hpending, List.drop_drop]
        · show ((r.pending ++ bytes).drop whole).length < _
          rw [List.length_drop]
          exact hmod
    · rw [if_neg hpos]
      refine Or.inr ⟨_, bytes, rfl, ⟨h.opens, ?_, h.dvd_written, ?_, hpending, ?_, ?_⟩,
        fun hne => (hsome bytes hne rfl).1, hn, fun hne => (hsome bytes hne rfl).2.2⟩
      · show data.Starts S size existing r.dest ((seen ++ bytes).take r.written)
        rw [htake]
        exact h.starts
      · rw [List.length_append]
        exact hle.trans (Nat.le_add_right _ _)
      · show (r.pending ++ bytes).length < _
        omega
      · show Whole r.writes ((seen ++ bytes).take r.written)
        rw [htake]
        exact h.writes

/-- What `read_exact` does: reads go on until the bytes are there or one fails for good. -/
lemma Holding.readExact (env : ℕ → ℕ → WriteEnv) (hsized : data.Sized size)
    (hsize : size < 2 ^ 64) :
    ∀ fuel (r : ImportingReader) (seen : Bytes) n, Holding S data size existing handle r seen →
      seen.length + n ≤ size → n = 0 ∨ r.source.length < fuel →
      (∃ r' e, r.readExact S.cipher env handle fuel n = (r', .error e) ∧
          ((data.isEncrypted = true → FitsStore size) → e ≠ .panic)) ∨
        ∃ r' bytes, r.readExact S.cipher env handle fuel n = (r', .ok bytes) ∧
          Holding S data size existing handle r' (seen ++ bytes) ∧ bytes.length = n ∧
          r.source.available = bytes ++ r'.source.available := by
  intro fuel
  induction fuel with
  | zero =>
    intro r seen n h _ hfuel
    obtain rfl : n = 0 := by omega
    refine Or.inr ⟨r, [], rfl, ?_, rfl, rfl⟩
    rwa [List.append_nil]
  | succ fuel ih =>
    intro r seen n h hin hfuel
    rcases n with _ | n
    · refine Or.inr ⟨r, [], rfl, ?_, rfl, rfl⟩
      rwa [List.append_nil]
    rw [ImportingReader.readExact]
    rcases h.read env hsized hsize hin with ⟨r', e, hread, hfails⟩ | ⟨r', bytes, hread, hgives⟩
    · -- an interrupted read is tried again with as many bytes to go
      by_cases hagain : e = .fail .interrupted
      · subst hagain
        obtain ⟨hholding, havailable, hlt⟩ := hfails.again rfl
        rw [hread]
        simp only
        rw [← havailable]
        exact ih r' seen (n + 1) hholding hin (Or.inr (by omega))
      · refine Or.inl ⟨r', e, ?_, hfails.no_panic⟩
        rw [hread]
        split
        · rename_i heq
          cases heq
          exact absurd rfl hagain
        · rename_i heq
          cases heq
          rfl
        · rename_i heq
          cases heq
    · rw [hread]
      simp only
      by_cases hempty : bytes = []
      · rw [if_pos hempty]
        exact Or.inl ⟨r', _, rfl, nofun⟩
      · rw [if_neg hempty]
        have hle := hgives.length_le
        have hprogress := hgives.progress hempty
        rcases ih r' (seen ++ bytes) (n + 1 - bytes.length) hgives.holding
            (by rw [List.length_append]; omega) (by omega) with
          ⟨r'', e, hrest, hpanic⟩ | ⟨r'', rest, hrest, hholding, hlen, havailable⟩
        · rw [hrest]
          exact Or.inl ⟨r'', e, rfl, hpanic⟩
        · rw [hrest]
          refine Or.inr ⟨r'', bytes ++ rest, rfl, ?_, ?_, ?_⟩
          · rwa [← List.append_assoc]
          · rw [List.length_append]
            omega
          · rw [hgives.available_eq hempty, havailable, List.append_assoc]

/-- What `create_sized` gets: as many bytes as it asks for, unless a read fails for good. -/
lemma Holding.readParts (env : ℕ → ℕ → WriteEnv) (hsized : data.Sized size)
    (hsize : size < 2 ^ 64) :
    ∀ (ns : List ℕ) (r : ImportingReader) (seen : Bytes),
      Holding S data size existing handle r seen → seen.length + ns.sum ≤ size →
      (∃ r' e, r.readParts S.cipher env handle ns = (r', .error e) ∧
          ((data.isEncrypted = true → FitsStore size) → e ≠ .panic)) ∨
        ∃ r' bytes, r.readParts S.cipher env handle ns = (r', .ok bytes) ∧
          Holding S data size existing handle r' (seen ++ bytes) ∧ bytes.length = ns.sum ∧
          r.source.available = bytes ++ r'.source.available := by
  intro ns
  induction ns with
  | nil =>
    intro r seen h _
    refine Or.inr ⟨r, [], rfl, ?_, rfl, rfl⟩
    rwa [List.append_nil]
  | cons n ns ih =>
    intro r seen h hin
    rw [List.sum_cons] at hin ⊢
    rw [ImportingReader.readParts]
    rcases Holding.readExact env hsized hsize (r.source.length + 1) r seen n h (by omega)
        (Or.inr (Nat.lt_succ_self _)) with
          ⟨r', e, hread, hpanic⟩ | ⟨r', bytes, hread, hr', hlen, havail⟩
    · rw [hread]
      exact Or.inl ⟨r', e, rfl, hpanic⟩
    · rw [hread]
      simp only
      rcases ih r' (seen ++ bytes) hr' (by rw [List.length_append]; omega) with
        ⟨r'', e, hrest, hpanic⟩ | ⟨r'', rest, hrest, hholding, hlen', havail'⟩
      · rw [hrest]
        exact Or.inl ⟨r'', e, rfl, hpanic⟩
      · rw [hrest]
        refine Or.inr ⟨r'', bytes ++ rest, rfl, ?_, ?_, ?_⟩
        · rwa [← List.append_assoc]
        · rw [List.length_append]
          omega
        · rw [havail, havail', List.append_assoc]

/-- The writes hold the bytes one after another from an aligned place each, none failed, and all
but the last are of whole pieces. -/
structure Writes (writes : List DestWrite) (bytes : Bytes) : Prop where
  bytes_eq : writes.flatMap (·.bytes) = bytes
  pos_eq : ∀ k w, writes[k]? = some w → w.pos = ((writes.take k).flatMap (·.bytes)).length
  succeeded : ∀ w ∈ writes, w.failed = false
  aligned : ∀ w ∈ writes, blockSize ∣ w.pos
  whole : ∀ w ∈ writes.dropLast, blockSize ∣ w.bytes.length

lemma dvd_length_flatMap {writes : List DestWrite} (h : ∀ w ∈ writes, blockSize ∣ w.bytes.length) :
    blockSize ∣ (writes.flatMap (·.bytes)).length := by
  induction writes with
  | nil => exact dvd_zero _
  | cons w writes ih =>
    obtain ⟨hw, hrest⟩ := List.forall_mem_cons.1 h
    rw [List.flatMap_cons, List.length_append]
    exact Nat.dvd_add hw (ih hrest)

lemma Whole.toWrites {writes : List DestWrite} (h : Whole writes bytes) : Writes writes bytes where
  bytes_eq := h.bytes_eq
  pos_eq := h.pos_eq
  succeeded := h.succeeded
  aligned w hw := by
    obtain ⟨k, hk⟩ := List.mem_iff_getElem?.1 hw
    rw [h.pos_eq k w hk]
    exact dvd_length_flatMap fun w' hw' => h.whole w' (List.mem_of_mem_take hw')
  whole w hw := h.whole w (List.mem_of_mem_dropLast hw)

/-- Writes that end with one of any length. -/
lemma Whole.toWrites_append {writes : List DestWrite} (h : Whole writes bytes) (chunk : Bytes) :
    Writes (writes ++ [⟨bytes.length, chunk, false⟩]) (bytes ++ chunk) where
  bytes_eq := by
    rw [List.flatMap_append, h.bytes_eq, List.flatMap_singleton]
  pos_eq := pos_eq_append h.pos_eq (by rw [h.bytes_eq])
  succeeded w hw := by
    rcases List.mem_append.1 hw with hw | hw
    · exact h.succeeded w hw
    · rw [List.mem_singleton.1 hw]
  aligned w hw := by
    rcases List.mem_append.1 hw with hw | hw
    · exact h.toWrites.aligned w hw
    · rw [List.mem_singleton.1 hw, ← h.bytes_eq]
      exact dvd_length_flatMap h.whole
  whole w hw := by
    rw [List.dropLast_concat] at hw
    exact h.whole w hw

/-- What `finish` does once all bytes were passed through. -/
lemma Holding.finish (env : ℕ → ℕ → WriteEnv) (hsized : data.Sized size) (hsize : size < 2 ^ 64)
    (h : Holding S data size existing handle r seen) (hseen : seen.length = size) :
    (∃ r' e, r.finish S.cipher env handle = (r', .error e) ∧
        ((data.isEncrypted = true → FitsStore size) → e ≠ .panic)) ∨
      ∃ r', r.finish S.cipher env handle = (r', .ok size) ∧
        data.openWith S true false (some r'.dest) = .ok handle ∧
        data.Starts S size existing r'.dest seen ∧ Writes r'.writes seen := by
  have hle := h.written_le
  have hlen : r.pending.length = seen.length - r.written := by
    rw [h.pending_eq, List.length_drop]
  rw [ImportingReader.finish]
  by_cases hempty : r.pending = []
  · rw [if_pos hempty]
    rw [hempty, List.length_nil] at hlen
    have hwritten : r.written = seen.length := by omega
    have hall : seen.take r.written = seen := by rw [hwritten, List.take_length]
    refine Or.inr ⟨r, by rw [hwritten, hseen], h.opens, ?_, ?_⟩
    · exact hall ▸ h.starts
    · exact hall ▸ h.writes.toWrites
  · rw [if_neg hempty]
    obtain ⟨dest, result, hwrite, hrefused, hok⟩ := h.writeDest hsized hsize env
      r.pending (by omega) (Or.inr (by omega)) r.pending r.source
    have hself : { r with source := r.source, pending := r.pending } = r := rfl
    rw [hself] at hwrite
    rw [hwrite]
    cases result with
    | error e => exact Or.inl ⟨_, e, rfl, (hrefused e rfl).2⟩
    | ok u =>
      obtain ⟨hopens, hstarts⟩ := hok rfl
      have hall : seen.take r.written ++ r.pending = seen := by
        rw [h.pending_eq, List.take_append_drop]
      have hwrites := h.writes.toWrites_append r.pending
      rw [hall] at hstarts hwrites
      rw [List.length_take_of_le hle] at hwrites
      have hsum : r.written + r.pending.length = size := by omega
      exact Or.inr ⟨_, Prod.ext rfl (congrArg Except.ok hsum), hopens, hstarts, hwrites⟩

end ImportingReader

end Chorrent
