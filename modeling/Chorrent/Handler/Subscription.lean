/-
# Subscriptions

One run of `serve_subscription` (`handler.rs`) beside any number of tasks that store pieces,
and the peer at the other end of the stream (`drive_peer` of `download.rs`).  A task marks a
piece and only then sends it on the channel; the server subscribes to the channel and only
then takes a snapshot.
-/
import Chorrent.Lib.Broadcast
import Chorrent.Lib.Run
import Chorrent.Protocol.Basic

namespace Chorrent

open Lib

/-- How many pieces `have_tx` keeps. -/
def haveCapacity : ℕ := 4096

/-- Where `serve_subscription` is. -/
inductive ServePhase where
  /-- Not yet subscribed to the channel. -/
  | starting
  /-- About to take a snapshot of the pieces. -/
  | snapshot
  | writing (msg : Response)
  /-- In the `select`. -/
  | waiting
  | ended
deriving DecidableEq

/-- The message that is being written. -/
def ServePhase.pending : ServePhase → List Response
  | .writing msg => [msg]
  | _ => []

/-- A share, the server of one subscription to it, and the subscriber. -/
structure Subscription where
  held : List Bool
  /-- Pieces that were marked by tasks that have yet to send them. -/
  unsent : List ℕ
  /-- What was sent on the channel. -/
  sent : List UInt32
  /-- The server's place in the channel. -/
  next : ℕ
  phase : ServePhase
  /-- The stream: what was written and not read yet. -/
  wire : Bytes
  /-- The pieces the subscriber knows of, once there was a first frame. -/
  view : Option (List Bool)
  /-- The subscriber does not read on. -/
  stopped : Bool

inductive SubscriptionAction where
  /-- The first half of `mark_have`. -/
  | mark (piece : ℕ)
  /-- The second half. -/
  | send (piece : ℕ)
  | subscribe
  | snapshot
  | write
  /-- The stream is broken; part of a frame is never read. -/
  | writeFails
  | receive
  | tick (registered : Bool)
  /-- The subscriber reads a frame. -/
  | read
deriving DecidableEq

namespace Subscription

def new (held : List Bool) : Subscription :=
  { held, unsent := [], sent := [], next := 0, phase := .starting, wire := [], view := none,
    stopped := false }

/-- What a frame makes of the subscriber's view; before the first one only a bitfield will
do. -/
def applyFrame (total : ℕ) : Option (List Bool) → Response → Option (List Bool)
  | _, .bitfield bytes => some (unpackBits bytes total)
  | some view, .«have» piece => some (view.set piece.toNat true)
  | view, _ => view

/-- Reading a frame. -/
def readFrame (s : Subscription) : Option Subscription :=
  if s.stopped ∨ s.wire = [] then none
  else
    match Chorrent.readFrame Response.codec s.wire with
    | .ok (some (msg, wire)) =>
        match applyFrame s.held.length s.view msg with
        | some view => some { s with wire, view := some view }
        | none => some { s with stopped := true }
    | _ => some { s with stopped := true }

def step (s : Subscription) : SubscriptionAction → Option Subscription
  | .mark piece =>
      match s.held[piece]? with
      | none => none
      | some true => some s
      | some false =>
          some { s with held := s.held.set piece true, unsent := s.unsent ++ [piece] }
  | .send piece =>
      if piece ∈ s.unsent then
        some { s with unsent := s.unsent.erase piece, sent := s.sent ++ [UInt32.ofNat piece] }
      else none
  | .subscribe =>
      if s.phase = .starting then some { s with next := s.sent.length, phase := .snapshot }
      else none
  | .snapshot =>
      if s.phase = .snapshot then some { s with phase := .writing (.bitfield (packBits s.held)) }
      else none
  | .write =>
      match s.phase with
      | .writing msg =>
          some { s with wire := s.wire ++ writeFrame Response.codec msg, phase := .waiting }
      | _ => none
  | .writeFails =>
      match s.phase with
      | .writing _ => some { s with phase := .ended }
      | _ => none
  | .receive =>
      if s.phase = .waiting then
        match Broadcast.recv haveCapacity s.sent s.next with
        | none => none
        | some (.value piece) =>
            some { s with next := s.next + 1, phase := .writing (.«have» piece) }
        -- fell behind: resend everything instead of individual pieces
        | some (.lagged next) => some { s with next, phase := .snapshot }
      else none
  | .tick registered =>
      if s.phase = .waiting then some { s with phase := if registered then .waiting else .ended }
      else none
  | .read => s.readFrame

/-- One step of the share's tasks, the server or the subscriber. -/
def Step (s : Subscription) (a : SubscriptionAction) (s' : Subscription) : Prop :=
  s.step a = some s'

/-- Every update made so far has been sent, received, written and read. -/
structure Settled (s : Subscription) : Prop where
  unsent : s.unsent = []
  drained : Broadcast.recv haveCapacity s.sent s.next = none
  phase : s.phase = .waiting
  wire : s.wire = []

/-! ## What is on the way -/

/-- The first list of pieces is part of the second. -/
structure Below (v held : List Bool) : Prop where
  length_eq : v.length = held.length
  has : ∀ p : ℕ, v[p]? = some true → held[p]? = some true

lemma Below.refl (held : List Bool) : Below held held := ⟨rfl, fun _ => id⟩

lemma Below.trans {u v w : List Bool} (h : Below u v) (h' : Below v w) : Below u w :=
  ⟨h.length_eq.trans h'.length_eq, fun p hp => h'.has p (h.has p hp)⟩

lemma Below.set {v held : List Bool} (h : Below v held) {p : ℕ} (hp : held[p]? = some true) :
    Below (v.set p true) held := by
  refine ⟨by rw [List.length_set, h.length_eq], fun q hq => ?_⟩
  rw [List.getElem?_set] at hq
  split_ifs at hq with heq
  · rwa [← heq]
  · exact h.has q hq

lemma set_keeps {v : List Bool} {p q : ℕ} (hp : v[p]? = some true) :
    (v.set q true)[p]? = some true := by
  by_cases hqp : q = p
  · rw [hqp, List.getElem?_set_self (List.getElem?_eq_some_iff.1 hp).1]
  · rwa [List.getElem?_set_ne hqp]

lemma below_set (held : List Bool) (p : ℕ) : Below held (held.set p true) :=
  ⟨(List.length_set).symm, fun _ => set_keeps⟩

/-- A number of pieces for which a piece number is a 32-bit word. -/
def Numbered (held : List Bool) : Prop := held.length ≤ 2 ^ 32

/-- A message tells of pieces that are held only. -/
def Sound (held : List Bool) : Response → Prop
  | .bitfield bytes => ∃ earlier, bytes = packBits earlier ∧ Below earlier held
  | .«have» piece => Numbered held → held[piece.toNat]? = some true
  | _ => False

lemma Sound.mono {held held' : List Bool} {msg : Response} (h : Sound held msg)
    (hle : Below held held') : Sound held' msg := by
  cases msg with
  | bitfield bytes =>
    obtain ⟨earlier, hbytes, hbelow⟩ := h
    exact ⟨earlier, hbytes, hbelow.trans hle⟩
  | «have» piece =>
    intro hnumbered
    rw [Numbered, ← hle.length_eq] at hnumbered
    exact hle.has _ (h hnumbered)
  | _ => exact h

/-- What the subscriber will know once it has read these messages. -/
def eventual (total : ℕ) (view : Option (List Bool)) (msgs : List Response) : Option (List Bool) :=
  msgs.foldl (applyFrame total) view

/-- What the pieces, the channel, the stream and the subscriber's view have to do with each
other; `msgs` are the frames on the stream. -/
structure Inv (s : Subscription) (msgs : List Response) : Prop where
  wire_eq : s.wire = msgs.flatMap (writeFrame Response.codec)
  sound : ∀ msg ∈ msgs ++ s.phase.pending, Sound s.held msg
  sent : ∀ piece ∈ s.sent, Numbered s.held → s.held[piece.toNat]? = some true
  unsent : ∀ p ∈ s.unsent, s.held[p]? = some true
  next_le : s.next ≤ s.sent.length
  view : ∀ v, s.view = some v → Numbered s.held ∧ Below v s.held
  /-- Unless a snapshot is yet to be taken, the subscriber will know of every piece that is
  held and not on its way to the server. -/
  complete : s.phase ∈ [.starting, .snapshot, .ended] ∨
    ∃ v, eventual s.held.length s.view (msgs ++ s.phase.pending) = some v ∧
      v.length = s.held.length ∧ (Numbered s.held → ∀ p, s.held[p]? = some true →
        p ∈ s.unsent ∨ (∃ k, s.next ≤ k ∧ s.sent[k]? = some (UInt32.ofNat p)) ∨ v[p]? = some true)

lemma new_inv (held : List Bool) : (new held).Inv [] where
  wire_eq := rfl
  sound := by simp [new, ServePhase.pending]
  sent := by simp [new]
  unsent := by simp [new]
  next_le := le_rfl
  view := by simp [new]
  complete := Or.inl (by simp [new])

variable {s s' : Subscription} {msgs : List Response}

/-! ## Each step keeps it -/

lemma Inv.mark {p : ℕ} (h : s.Inv msgs) (hp : s.held[p]? = some false) :
    Inv { s with held := s.held.set p true, unsent := s.unsent ++ [p] } msgs := by
  have hlt : p < s.held.length := (List.getElem?_eq_some_iff.1 hp).1
  have hbelow := below_set s.held p
  have hlen : (s.held.set p true).length = s.held.length := List.length_set
  have hnumbered : Numbered (s.held.set p true) ↔ Numbered s.held := by
    rw [Numbered, Numbered, hlen]
  refine ⟨h.wire_eq, fun msg hmsg => (h.sound msg hmsg).mono hbelow, fun piece hpiece hn => ?_,
    fun q hq => ?_, h.next_le, fun v hv => ?_, ?_⟩
  · exact hbelow.has _ (h.sent piece hpiece (hnumbered.1 hn))
  · rcases List.mem_append.1 hq with hq | hq
    · exact hbelow.has _ (h.unsent q hq)
    · rw [List.mem_singleton.1 hq, List.getElem?_set_self hlt]
  · obtain ⟨hn, hv⟩ := h.view v hv
    exact ⟨hnumbered.2 hn, hv.trans hbelow⟩
  · refine h.complete.imp_right fun ⟨v, hv, hvlen, hall⟩ => ?_
    refine ⟨v, by rw [hlen]; exact hv, hvlen.trans hlen.symm, fun hn q hq => ?_⟩
    by_cases hqp : q = p
    · exact Or.inl (List.mem_append_right _ (List.mem_singleton.2 hqp))
    · rw [List.getElem?_set_ne (Ne.symm hqp)] at hq
      exact (hall (hnumbered.1 hn) q hq).imp_left (List.mem_append_left _)

lemma Inv.send {p : ℕ} (h : s.Inv msgs) (hp : p ∈ s.unsent) :
    Inv { s with unsent := s.unsent.erase p, sent := s.sent ++ [UInt32.ofNat p] } msgs := by
  refine ⟨h.wire_eq, h.sound, fun piece hpiece hn => ?_,
    fun q hq => h.unsent q (List.mem_of_mem_erase hq), ?_, h.view, ?_⟩
  · rcases List.mem_append.1 hpiece with hpiece | hpiece
    · exact h.sent piece hpiece hn
    · have hheld := h.unsent p hp
      have hlt : p < s.held.length := (List.getElem?_eq_some_iff.1 hheld).1
      rw [List.mem_singleton.1 hpiece, UInt32.toNat_ofNat', Nat.mod_eq_of_lt (hlt.trans_le hn)]
      exact hheld
  · rw [List.length_append]
    exact h.next_le.trans (Nat.le_add_right _ _)
  · refine h.complete.imp_right fun ⟨v, hv, hvlen, hall⟩ => ⟨v, hv, hvlen, fun hn q hq => ?_⟩
    rcases hall hn q hq with hq | ⟨k, hk, hsent⟩ | hview
    · by_cases hqp : q = p
      · refine Or.inr (Or.inl ⟨s.sent.length, h.next_le, ?_⟩)
        rw [hqp, List.getElem?_append_right le_rfl, Nat.sub_self]
        rfl
      · exact Or.inl ((List.mem_erase_of_ne hqp).2 hq)
    · refine Or.inr (Or.inl ⟨k, hk, ?_⟩)
      rw [List.getElem?_append_left (List.getElem?_eq_some_iff.1 hsent).1, hsent]
    · exact Or.inr (Or.inr hview)

/-- The server moves on without a message. -/
lemma Inv.moves {phase : ServePhase} {next : ℕ} (h : s.Inv msgs) (hphase : phase.pending = [])
    (hnext : next ≤ s.sent.length)
    (hcomplete : phase ∈ [.starting, .snapshot, .ended] ∨
      (s.phase = .waiting ∧ phase = .waiting ∧ next = s.next)) :
    Inv { s with phase, next } msgs := by
  refine ⟨h.wire_eq, fun msg hmsg => h.sound msg ?_, h.sent, h.unsent, hnext, h.view, ?_⟩
  · simp only [hphase, List.append_nil] at hmsg
    exact List.mem_append_left _ hmsg
  · rcases hcomplete with hearly | ⟨hwaiting, rfl, rfl⟩
    · exact Or.inl hearly
    · have hsame := h.complete
      rw [hwaiting] at hsame
      exact hsame

lemma Inv.snapshot (h : s.Inv msgs) :
    Inv { s with phase := .writing (.bitfield (packBits s.held)) } msgs := by
  refine ⟨h.wire_eq, fun msg hmsg => ?_, h.sent, h.unsent, h.next_le, h.view, Or.inr ?_⟩
  · rcases List.mem_append.1 hmsg with hmsg | hmsg
    · exact h.sound msg (List.mem_append_left _ hmsg)
    · rw [List.mem_singleton.1 hmsg]
      exact ⟨s.held, rfl, .refl _⟩
  · refine ⟨s.held, ?_, rfl, fun _ p hp => Or.inr (Or.inr hp)⟩
    rw [eventual, List.foldl_append]
    simp only [ServePhase.pending, List.foldl_cons, List.foldl_nil, applyFrame,
      unpackBits_packBits]

lemma Inv.write {msg : Response} (h : s.Inv msgs) (hphase : s.phase = .writing msg) :
    Inv { s with wire := s.wire ++ writeFrame Response.codec msg, phase := .waiting }
      (msgs ++ [msg]) := by
  have hpending : s.phase.pending = [msg] := by rw [hphase]; rfl
  refine ⟨?_, fun m hm => h.sound m ?_, h.sent, h.unsent, h.next_le, h.view, ?_⟩
  · rw [List.flatMap_append, List.flatMap_singleton, h.wire_eq]
  · rw [hpending]
    simpa only [ServePhase.pending, List.append_nil] using hm
  · have hsame := h.complete
    rw [hpending, hphase] at hsame
    refine Or.inr ((hsame.resolve_left (by simp)).imp fun v hv => ?_)
    simp only [ServePhase.pending, List.append_nil]
    exact hv

/-- A piece is taken from the channel. -/
lemma Inv.receive {piece : UInt32} (h : s.Inv msgs) (hphase : s.phase = .waiting)
    (hpiece : s.sent[s.next]? = some piece) :
    Inv { s with next := s.next + 1, phase := .writing (.«have» piece) } msgs := by
  have hlt : s.next < s.sent.length := (List.getElem?_eq_some_iff.1 hpiece).1
  refine ⟨h.wire_eq, fun msg hmsg => ?_, h.sent, h.unsent, hlt, h.view, Or.inr ?_⟩
  · rcases List.mem_append.1 hmsg with hmsg | hmsg
    · exact h.sound msg (List.mem_append_left _ hmsg)
    · rw [List.mem_singleton.1 hmsg]
      exact h.sent piece (List.mem_of_getElem? hpiece)
  · have hsame := h.complete
    rw [hphase] at hsame
    obtain ⟨v, hv, hvlen, hall⟩ := hsame.resolve_left (by simp)
    simp only [ServePhase.pending, List.append_nil] at hv
    refine ⟨v.set piece.toNat true, ?_, by rw [List.length_set, hvlen], fun hn p hp => ?_⟩
    · simp only [eventual] at hv
      simp only [eventual, ServePhase.pending, List.foldl_append, hv, List.foldl_cons,
        List.foldl_nil, applyFrame]
    · rcases hall hn p hp with hunsent | ⟨k, hk, hsent⟩ | hview
      · exact Or.inl hunsent
      · rcases Nat.eq_or_lt_of_le hk with rfl | hk
        · -- this is the piece that was taken
          have hplt : p < s.held.length := (List.getElem?_eq_some_iff.1 hp).1
          have hnum : piece.toNat = p := by
            rw [Option.some.inj (hpiece.symm.trans hsent), UInt32.toNat_ofNat',
              Nat.mod_eq_of_lt (hplt.trans_le hn)]
          refine Or.inr (Or.inr ?_)
          rw [hnum, List.getElem?_set_self (hvlen ▸ hplt)]
        · exact Or.inr (Or.inl ⟨k, hk, hsent⟩)
      · exact Or.inr (Or.inr (set_keeps hview))

lemma fits_of_sound {msg : Response} (hlen : s.held.length < 2 ^ 64) (h : Sound s.held msg) :
    Response.codec.Fits msg := by
  cases msg with
  | bitfield bytes =>
    obtain ⟨earlier, rfl, hbelow⟩ := h
    show (packBits earlier).length < 2 ^ 64
    rw [length_packBits, hbelow.length_eq]
    omega
  | «have» piece => trivial
  | _ => exact h.elim

/-- A bitfield that fits into a frame is one of few pieces. -/
lemma numbered_of_bitfield {earlier : List Bool} (hbelow : Below earlier s.held)
    (h : (Response.codec.encode (.bitfield (packBits earlier))).length ≤ maxFrame) :
    Numbered s.held := by
  have hle : (packBits earlier).length ≤
      (Response.codec.encode (.bitfield (packBits earlier))).length := by
    show (packBits earlier).length ≤ (Codec.varint32.encode 1 ++
      (Codec.varint.encode _ ++ (packBits earlier).flatMap Codec.byte.encode)).length
    have hbytes : ((packBits earlier).flatMap Codec.byte.encode).length =
        (packBits earlier).length := by simp [Codec.byte]
    rw [List.length_append, List.length_append, hbytes]
    omega
  rw [length_packBits, hbelow.length_eq] at hle
  have hmax : maxFrame = 16777216 := rfl
  rw [Numbered]
  omega

/-- Reading the first frame on the stream. -/
lemma Inv.applyFrame {msg : Response} {v : List Bool} (h : s.Inv (msg :: msgs))
    (hframe : (Response.codec.encode msg).length ≤ maxFrame)
    (hv : applyFrame s.held.length s.view msg = some v) :
    Inv { s with wire := msgs.flatMap (writeFrame Response.codec), view := some v } msgs := by
  have hsound := h.sound msg List.mem_cons_self
  refine ⟨rfl, fun m hm => h.sound m (List.mem_cons_of_mem _ hm), h.sent, h.unsent, h.next_le,
    fun w hw => ?_, ?_⟩
  · obtain rfl := Option.some.inj hw
    cases msg with
    | bitfield bytes =>
      obtain ⟨earlier, rfl, hbelow⟩ := hsound
      rw [Subscription.applyFrame, ← hbelow.length_eq, unpackBits_packBits] at hv
      rw [← Option.some.inj hv]
      exact ⟨numbered_of_bitfield hbelow hframe, hbelow⟩
    | «have» piece =>
      cases hview : s.view with
      | none =>
        rw [hview] at hv
        cases hv
      | some view =>
        rw [hview] at hv
        obtain ⟨hn, hbelow⟩ := h.view view hview
        rw [← Option.some.inj hv]
        exact ⟨hn, hbelow.set (hsound hn)⟩
    | _ => exact hsound.elim
  · refine h.complete.imp_right fun ⟨u, hu, hrest⟩ => ⟨u, ?_, hrest⟩
    rw [eventual, List.cons_append, List.foldl_cons, hv] at hu
    exact hu

lemma Inv.read (hlen : s.held.length < 2 ^ 64) (h : s.Inv msgs) (hstep : s.readFrame = some s') :
    s'.held.length = s.held.length ∧ ∃ msgs', s'.Inv msgs' := by
  have hstop : Inv { s with stopped := true } msgs :=
    ⟨h.wire_eq, h.sound, h.sent, h.unsent, h.next_le, h.view, h.complete⟩
  rw [readFrame] at hstep
  split_ifs at hstep with hgoes
  split at hstep
  · rename_i msg wire hread
    cases msgs with
    | nil => exact absurd (Or.inr h.wire_eq) hgoes
    | cons first msgs =>
      rw [h.wire_eq, List.flatMap_cons] at hread
      have hfits := fits_of_sound hlen (h.sound first List.mem_cons_self)
      obtain ⟨rfl, rfl, hframe⟩ := eq_of_readFrame_writeFrame Response.extends_codec hfits hread
      split at hstep
      · rename_i v hv
        obtain rfl := Option.some.inj hstep
        exact ⟨rfl, msgs, h.applyFrame hframe hv⟩
      · obtain rfl := Option.some.inj hstep
        exact ⟨rfl, _, hstop⟩
  · obtain rfl := Option.some.inj hstep
    exact ⟨rfl, _, hstop⟩

lemma Inv.step {a : SubscriptionAction} (hlen : s.held.length < 2 ^ 64) (h : s.Inv msgs)
    (hstep : s.Step a s') : s'.held.length = s.held.length ∧ ∃ msgs', s'.Inv msgs' := by
  rw [Step] at hstep
  cases a with
  | mark piece =>
    rw [Subscription.step] at hstep
    split at hstep
    · cases hstep
    · obtain rfl := Option.some.inj hstep
      exact ⟨rfl, msgs, h⟩
    · rename_i hpiece
      obtain rfl := Option.some.inj hstep
      exact ⟨List.length_set, msgs, h.mark hpiece⟩
  | send piece =>
    rw [Subscription.step] at hstep
    split_ifs at hstep with hmem
    obtain rfl := Option.some.inj hstep
    exact ⟨rfl, msgs, h.send hmem⟩
  | subscribe =>
    rw [Subscription.step] at hstep
    split_ifs at hstep
    obtain rfl := Option.some.inj hstep
    exact ⟨rfl, msgs, h.moves rfl le_rfl (Or.inl (by simp))⟩
  | snapshot =>
    rw [Subscription.step] at hstep
    split_ifs at hstep
    obtain rfl := Option.some.inj hstep
    exact ⟨rfl, msgs, h.snapshot⟩
  | write =>
    rw [Subscription.step] at hstep
    split at hstep
    · rename_i msg hphase
      obtain rfl := Option.some.inj hstep
      exact ⟨rfl, _, h.write hphase⟩
    · cases hstep
  | writeFails =>
    rw [Subscription.step] at hstep
    split at hstep
    · obtain rfl := Option.some.inj hstep
      exact ⟨rfl, msgs, h.moves rfl h.next_le (Or.inl (by simp))⟩
    · cases hstep
  | receive =>
    rw [Subscription.step] at hstep
    split_ifs at hstep with hphase
    split at hstep
    · cases hstep
    · rename_i piece hrecv
      obtain rfl := Option.some.inj hstep
      exact ⟨rfl, msgs, h.receive hphase (Broadcast.recv_eq_value hrecv)⟩
    · rename_i next hrecv
      -- the missed numbers are skipped; the snapshot that follows makes up for them
      obtain rfl := Option.some.inj hstep
      have hnext := (Broadcast.recv_eq_lagged hrecv).2
      have hle : next ≤ s.sent.length := hnext.trans_le (Nat.sub_le _ _)
      exact ⟨rfl, msgs, h.moves rfl hle (Or.inl (by simp))⟩
  | tick registered =>
    rw [Subscription.step] at hstep
    split_ifs at hstep with hphase hregistered
    · obtain rfl := Option.some.inj hstep
      exact ⟨rfl, msgs, h.moves rfl h.next_le (Or.inr ⟨hphase, rfl, rfl⟩)⟩
    · obtain rfl := Option.some.inj hstep
      exact ⟨rfl, msgs, h.moves rfl h.next_le (Or.inl (by simp))⟩
  | read => exact h.read hlen hstep

lemma inv_of_run {held : List Bool} {actions : List SubscriptionAction}
    (hlen : held.length < 2 ^ 64) (hrun : Run Step (new held) actions s) :
    s.held.length = held.length ∧ ∃ msgs, s.Inv msgs := by
  have hinv := hrun.invariant
    (P := fun s => s.held.length = held.length ∧ ∃ msgs, s.Inv msgs)
    (fun s a s' ⟨hsame, msgs, h⟩ hstep => by
      obtain ⟨hkeep, hnext⟩ := h.step (by rwa [hsame]) hstep
      exact ⟨hkeep.trans hsame, hnext⟩)
  exact hinv ⟨rfl, [], new_inv held⟩

/-- A subscription loses no update.  At every moment of every run, the subscriber knows of
pieces that the server holds only; and once every update made so far has been sent, received,
written and read, it knows of exactly these. -/
theorem loses_nothing {held : List Bool} {actions : List SubscriptionAction}
    (hlen : held.length < 2 ^ 64) (hrun : Run Step (new held) actions s) :
    (∀ v, s.view = some v → v.length = s.held.length ∧
      ∀ p : ℕ, v[p]? = some true → s.held[p]? = some true) ∧
      (s.Settled → s.view = some s.held) := by
  obtain ⟨-, msgs, h⟩ := inv_of_run hlen hrun
  refine ⟨fun v hv => ⟨(h.view v hv).2.length_eq, (h.view v hv).2.has⟩, fun hsettled => ?_⟩
  have hmsgs : msgs = [] := by
    cases msgs with
    | nil => rfl
    | cons msg msgs =>
      have hwire := h.wire_eq
      rw [hsettled.wire, List.flatMap_cons] at hwire
      have := congrArg List.length hwire
      simp [writeFrame, leBytes] at this
  subst hmsgs
  have hcomplete := h.complete
  rw [hsettled.phase] at hcomplete
  obtain ⟨v, hv, -, hall⟩ := hcomplete.resolve_left (by simp)
  have hview : s.view = some v := hv
  obtain ⟨hn, hbelow⟩ := h.view v hview
  rw [hview]
  refine congrArg some (List.ext_getElem? fun p => ?_)
  have hdrained := Broadcast.recv_eq_none.1 hsettled.drained
  -- a piece that is held was neither unsent nor is it on the channel
  have hheld : s.held[p]? = some true → v[p]? = some true := by
    intro hp
    rcases hall hn p hp with hunsent | ⟨k, hk, hsent⟩ | hview
    · rw [hsettled.unsent] at hunsent
      cases hunsent
    · have := (List.getElem?_eq_some_iff.1 hsent).1
      omega
    · exact hview
  by_cases hp : p < s.held.length
  · have hp' : p < v.length := by rwa [hbelow.length_eq]
    have hhas := hbelow.has p
    rw [List.getElem?_eq_getElem hp, List.getElem?_eq_getElem hp'] at *
    cases hb : s.held[p] <;> cases hb' : v[p] <;> simp_all
  · rw [List.getElem?_eq_none (not_lt.1 hp),
      List.getElem?_eq_none (by rw [hbelow.length_eq]; omega)]

/-- Piece 0 is marked before the snapshot and sent after it, piece 1 arrives later. -/
def twoPieces : List SubscriptionAction :=
  [.subscribe, .mark 0, .snapshot, .send 0, .write, .read, .receive, .write, .mark 1, .send 1,
    .receive, .write, .read, .read]

/-- In the end the subscriber knows of both. -/
theorem loses_nothing_two_pieces : ∃ s, Run Step (new [false, false]) twoPieces s ∧
    s.view = some [true, true] ∧ s.view = some s.held := by
  have hrun : ∃ s, Run Step (new [false, false]) twoPieces s ∧ s.Settled ∧
      s.view = some [true, true] := by
    refine ⟨⟨[true, true], [], [0, 1], 2, .waiting, [], some [true, true], false⟩, ?_, ?_, rfl⟩
    · repeat' first
        | exact .nil _
        | refine .cons rfl ?_
    · exact ⟨rfl, rfl, rfl, rfl⟩
  obtain ⟨s, hrun, hsettled, hview⟩ := hrun
  exact ⟨s, hrun, hview, (loses_nothing (by decide) hrun).2 hsettled⟩

end Subscription

end Chorrent
