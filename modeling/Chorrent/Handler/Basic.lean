/-
# Answering other peers

`handler.rs` and `registration.rs`: a node's registry, the shares it knows and the streams
other peers opened, as one step relation.  A task holds its share by reference (`Arc`), so a
share is a number here and outlives its entry in the registry.  What a task does between two
waits is one step; a frame is *started* in a step of its own.
-/
import Mathlib.Data.List.AList
import Chorrent.Handler.Subscription

namespace Chorrent

open Lib

/-! ## Shares -/

/-- What the handler reads of a `LocalShare`. -/
structure SharedShare where
  id : ShareId
  manifestBytes : Bytes
  secret : Option (List.Vector UInt8 32)
  /-- Who may download; anyone if there is no list. -/
  allowed : Option (Finset EndpointId)
  held : List Bool
  /-- Pieces that were marked by tasks that have yet to send them. -/
  unsent : List ℕ
  /-- What was sent on `have_tx`. -/
  sent : List UInt32
deriving DecidableEq

namespace SharedShare

def new (id : ShareId) (manifestBytes : Bytes) (secret : Option (List.Vector UInt8 32))
    (held : List Bool) : SharedShare :=
  { id, manifestBytes, secret, allowed := none, held, unsent := [], sent := [] }

def totalPieces (s : SharedShare) : ℕ := s.held.length

def has (s : SharedShare) (piece : ℕ) : Bool := s.held[piece]?.getD false

/-- Whether `requester` may see this share: on the allowlist (if there is one), and holding
the secret (if the share is private). -/
def authorized (accessToken : List.Vector UInt8 32 → EndpointId → List.Vector UInt8 32)
    (s : SharedShare) (requester : EndpointId) (token : Option (List.Vector UInt8 32)) : Bool :=
  if s.allowed.any (requester ∉ ·) then false
  else
    match s.secret with
    | none => true
    | some secret => token = some (accessToken secret requester)

/-- The first half of `mark_have`. -/
def mark (s : SharedShare) (piece : ℕ) : Option SharedShare :=
  match s.held[piece]? with
  | none => none
  | some true => some s
  | some false => some { s with held := s.held.set piece true, unsent := s.unsent ++ [piece] }

/-- The second half. -/
def send (s : SharedShare) (piece : ℕ) : Option SharedShare :=
  if piece ∈ s.unsent then
    some { s with unsent := s.unsent.erase piece, sent := s.sent ++ [UInt32.ofNat piece] }
  else none

end SharedShare

/-! ## Streams -/

/-- Frames that carry something of a share. -/
def Response.isContent : Response → Bool
  | .manifest _ | .bitfield _ | .«have» _ | .piece _ => true
  | .dontHave | .notFound | .busy => false

/-- Where `serve_stream` is; shares are given by their numbers. -/
inductive StreamStage where
  | requested (request : Request)
  /-- At the start of `serve_piece`. -/
  | checking (share index : ℕ)
  /-- Waits for a free upload slot. -/
  | waiting (share index : ℕ)
  /-- Holds a slot; waits for the limiter, then for `encode_piece`. -/
  | encoding (share index : ℕ)
  /-- About to write the response to a request; with the share it was found in. -/
  | answering (share : Option ℕ) (response : Response)
  /-- At the start of `serve_subscription`. -/
  | subscribing (share : ℕ)
  /-- About to take a snapshot of the pieces. -/
  | snapshot (share next : ℕ)
  /-- About to write a frame of a subscription. -/
  | updating (share next : ℕ) (msg : Response)
  | writing (share next : ℕ)
  /-- In the `select`. -/
  | listening (share next : ℕ)
  | ended
deriving DecidableEq

structure Stream where
  remote : EndpointId
  stage : StreamStage
deriving DecidableEq

inductive StreamAction where
  | lookup
  | check
  | slot
  | slotTimeout
  /-- What `encode_piece` returned. -/
  | encoded (bytes : Option Bytes)
  | subscribe
  | snapshot
  | receive
  | tick
  /-- A frame is started. -/
  | start
  /-- A frame of a subscription is finished, or the stream is broken. -/
  | written (ok : Bool)
  /-- The connection ended. -/
  | abort
deriving DecidableEq

/-- The frame that the next `start` begins, and the share it was found in. -/
def StreamStage.pending : StreamStage → Option (Option ℕ × Response)
  | .answering share response => some (share, response)
  | .updating share _ msg => some (some share, msg)
  | _ => none

def StreamStage.holdsSlot : StreamStage → Bool
  | .encoding _ _ => true
  | _ => false

/-! ## The node -/

structure Handler where
  /-- The shares of this node, by number. -/
  shares : List SharedShare
  /-- Every share this node is currently serving, by id. -/
  registry : AList fun _ : ShareId => ℕ
  /-- The shares of the `Registration`s that were not dropped. -/
  registrations : List ℕ
  streams : List Stream
  uploadSlots : ℕ

inductive HandlerAction where
  | create (id : ShareId) (manifestBytes : Bytes) (secret : Option (List.Vector UInt8 32))
      (held : List Bool)
  /-- `Registration::new` -/
  | register (share : ℕ)
  /-- A `Registration` is dropped. -/
  | drop (share : ℕ)
  /-- The first step of `Client::remove`. -/
  | remove (id : ShareId)
  | setAllowed (share : ℕ) (peers : Option (Finset EndpointId))
  | mark (share piece : ℕ)
  | send (share piece : ℕ)
  /-- A peer opens a stream with a request. -/
  | accept (remote : EndpointId) (request : Request)
  | stream (number : ℕ) (action : StreamAction)

namespace Handler

def new (uploadSlots : ℕ) : Handler :=
  { shares := [], registry := ∅, registrations := [], streams := [], uploadSlots }

/-- Slots that are free. -/
def freeSlots (h : Handler) : ℕ := h.uploadSlots - h.streams.countP (·.stage.holdsSlot)

section Serve

variable (accessToken : List.Vector UInt8 32 → EndpointId → List.Vector UInt8 32) (h : Handler)

def lookup (share : ShareId) (remote : EndpointId) (auth : Option (List.Vector UInt8 32)) :
    Option (ℕ × SharedShare) := do
  let o ← h.registry.lookup share
  let s ← h.shares[o]?
  if s.authorized accessToken remote auth then some (o, s) else none

def stillRegistered (o : ℕ) : Bool :=
  match h.shares[o]? with
  | none => false
  | some s => h.registry.lookup s.id = some o

/-- The `match` of `serve_stream`. -/
def lookupRequest (remote : EndpointId) : Request → StreamStage
  | .manifest share auth =>
      match h.lookup accessToken share remote auth with
      | some (o, s) => .answering (some o) (.manifest s.manifestBytes)
      | none => .answering none .notFound
  | .subscribe share auth =>
      match h.lookup accessToken share remote auth with
      | some (o, _) => .subscribing o
      | none => .answering none .notFound
  | .piece share auth index =>
      match h.lookup accessToken share remote auth with
      | some (o, _) => .checking o index.toNat
      | none => .answering none .notFound

/-- What a stream does next. -/
def serve (remote : EndpointId) : StreamStage → StreamAction → Option StreamStage
  | .requested request, .lookup => some (h.lookupRequest accessToken remote request)
  | .checking o index, .check => do
      let s ← h.shares[o]?
      if index ≥ s.totalPieces ∨ ¬ s.has index then some (.answering (some o) .dontHave)
      else some (.waiting o index)
  | .waiting o index, .slot => if 0 < h.freeSlots then some (.encoding o index) else none
  -- a slot that becomes free goes to a stream that waits, so that a wait ends without one only
  -- while all are held
  | .waiting o _, .slotTimeout =>
      if h.freeSlots = 0 then some (.answering (some o) .busy) else none
  | .encoding o _, .encoded (some bytes) => some (.answering (some o) (.piece bytes))
  | .encoding o _, .encoded none => some (.answering (some o) .dontHave)
  | .answering _ _, .start => some .ended
  | .subscribing o, .subscribe => do
      let s ← h.shares[o]?
      some (.snapshot o s.sent.length)
  | .snapshot o next, .snapshot => do
      let s ← h.shares[o]?
      some (.updating o next (.bitfield (packBits s.held)))
  | .updating o next _, .start => some (.writing o next)
  | .writing o next, .written ok => some (if ok then .listening o next else .ended)
  | .listening o next, .receive => do
      let s ← h.shares[o]?
      match ← Broadcast.recv haveCapacity s.sent next with
      | .value piece => some (.updating o (next + 1) (.«have» piece))
      | .lagged next => some (.snapshot o next)
  | .listening o next, .tick => some (if h.stillRegistered o then .listening o next else .ended)
  | _, .abort => some .ended
  | _, _ => none

end Serve

/-- Replace a share. -/
def setShare (h : Handler) (o : ℕ) (s : SharedShare) : Handler :=
  { h with shares := h.shares.set o s }

def step (accessToken : List.Vector UInt8 32 → EndpointId → List.Vector UInt8 32) (h : Handler) :
    HandlerAction → Option Handler
  | .create id manifestBytes secret held =>
      some { h with shares := h.shares ++ [.new id manifestBytes secret held] }
  | .register o => do
      let s ← h.shares[o]?
      -- already shared: the registry stays as it is
      if (h.registry.lookup s.id).isSome then some h
      else
        some { h with
          registry := h.registry.insert s.id o, registrations := h.registrations ++ [o] }
  | .drop o => do
      let s ← h.shares[o]?
      if o ∈ h.registrations then
        some { h with
          registrations := h.registrations.erase o
          registry := if h.stillRegistered o then h.registry.erase s.id else h.registry }
      else none
  | .remove id => some { h with registry := h.registry.erase id }
  | .setAllowed o peers => do
      let s ← h.shares[o]?
      some (h.setShare o { s with allowed := peers })
  | .mark o piece => do
      let s ← h.shares[o]?
      (s.mark piece).map (h.setShare o)
  | .send o piece => do
      let s ← h.shares[o]?
      (s.send piece).map (h.setShare o)
  | .accept remote request =>
      some { h with streams := h.streams ++ [⟨remote, .requested request⟩] }
  | .stream k action => do
      let st ← h.streams[k]?
      (h.serve accessToken st.remote st.stage action).map fun stage =>
        { h with streams := h.streams.set k { st with stage } }

/-! ## How a stream goes on -/

section Goes

variable (accessToken : List.Vector UInt8 32 → EndpointId → List.Vector UInt8 32) (h : Handler)
  (remote : EndpointId)

/-- The steps of a stream, case by case. -/
inductive Goes : StreamStage → StreamAction → StreamStage → Prop
  | lookup (request : Request) :
      Goes (.requested request) .lookup (h.lookupRequest accessToken remote request)
  | lacks {o index : ℕ} {s : SharedShare} (hs : h.shares[o]? = some s)
      (hlacks : index ≥ s.totalPieces ∨ ¬ s.has index) :
      Goes (.checking o index) .check (.answering (some o) .dontHave)
  | has {o index : ℕ} {s : SharedShare} (hs : h.shares[o]? = some s)
      (hlt : index < s.totalPieces) (hhas : s.has index = true) :
      Goes (.checking o index) .check (.waiting o index)
  | slot {o index : ℕ} (hfree : 0 < h.freeSlots) :
      Goes (.waiting o index) .slot (.encoding o index)
  | busy {o index : ℕ} (hfull : h.freeSlots = 0) :
      Goes (.waiting o index) .slotTimeout (.answering (some o) .busy)
  | encoded {o index : ℕ} (bytes : Bytes) :
      Goes (.encoding o index) (.encoded (some bytes)) (.answering (some o) (.piece bytes))
  | notEncoded {o index : ℕ} :
      Goes (.encoding o index) (.encoded none) (.answering (some o) .dontHave)
  | answer {o : Option ℕ} {response : Response} : Goes (.answering o response) .start .ended
  | subscribe {o : ℕ} {s : SharedShare} (hs : h.shares[o]? = some s) :
      Goes (.subscribing o) .subscribe (.snapshot o s.sent.length)
  | snapshot {o next : ℕ} {s : SharedShare} (hs : h.shares[o]? = some s) :
      Goes (.snapshot o next) .snapshot (.updating o next (.bitfield (packBits s.held)))
  | update {o next : ℕ} {msg : Response} : Goes (.updating o next msg) .start (.writing o next)
  | written {o next : ℕ} : Goes (.writing o next) (.written true) (.listening o next)
  | broken {o next : ℕ} : Goes (.writing o next) (.written false) .ended
  | receive {o next : ℕ} {s : SharedShare} {piece : UInt32} (hs : h.shares[o]? = some s)
      (hrecv : Broadcast.recv haveCapacity s.sent next = some (.value piece)) :
      Goes (.listening o next) .receive (.updating o (next + 1) (.«have» piece))
  | lagged {o next next' : ℕ} {s : SharedShare} (hs : h.shares[o]? = some s)
      (hrecv : Broadcast.recv haveCapacity s.sent next = some (.lagged next')) :
      Goes (.listening o next) .receive (.snapshot o next')
  | still {o next : ℕ} (hstill : h.stillRegistered o = true) :
      Goes (.listening o next) .tick (.listening o next)
  | gone {o next : ℕ} (hgone : h.stillRegistered o = false) :
      Goes (.listening o next) .tick .ended
  | abort {stage : StreamStage} : Goes stage .abort .ended

end Goes

variable {accessToken : List.Vector UInt8 32 → EndpointId → List.Vector UInt8 32} {h : Handler}
  {remote : EndpointId} {stage stage' : StreamStage} {action : StreamAction}

lemma goes_of_serve (hserve : h.serve accessToken remote stage action = some stage') :
    h.Goes accessToken remote stage action stage' := by
  unfold serve at hserve
  split at hserve
  case h_1 =>
    cases hserve
    exact .lookup _
  case h_2 =>
    obtain ⟨s, hs, hif⟩ := Option.bind_eq_some_iff.1 hserve
    split_ifs at hif with hlacks
    · cases hif
      exact .lacks hs hlacks
    · cases hif
      rw [not_or, not_not, ge_iff_le, not_le] at hlacks
      exact .has hs hlacks.1 hlacks.2
  case h_3 =>
    split_ifs at hserve with hfree
    cases hserve
    exact .slot hfree
  case h_4 =>
    split_ifs at hserve with hfull
    cases hserve
    exact .busy hfull
  case h_5 | h_6 | h_7 | h_10 | h_14 =>
    cases hserve
    constructor
  case h_8 | h_9 =>
    obtain ⟨s, hs, heq⟩ := Option.bind_eq_some_iff.1 hserve
    cases heq
    constructor
    exact hs
  case h_11 ok =>
    cases hserve
    cases ok with
    | true => exact .written
    | false => exact .broken
  case h_12 =>
    obtain ⟨s, hs, hrecv⟩ := Option.bind_eq_some_iff.1 hserve
    obtain ⟨received, hreceived, heq⟩ := Option.bind_eq_some_iff.1 hrecv
    cases received with
    | value piece =>
      cases heq
      exact .receive hs hreceived
    | lagged next =>
      cases heq
      exact .lagged hs hreceived
  case h_13 =>
    cases hserve
    split_ifs with hstill
    · exact .still hstill
    · exact .gone (Bool.eq_false_iff.2 hstill)
  case h_15 => cases hserve

lemma Goes.serve_eq (hgoes : h.Goes accessToken remote stage action stage') :
    h.serve accessToken remote stage action = some stage' := by
  cases hgoes with
  | lookup | encoded | notEncoded | answer | update | written | broken => rfl
  | lacks hs hlacks => rw [serve, hs, Option.bind_eq_bind, Option.bind_some, if_pos hlacks]
  | has hs hlt hhas =>
    rw [serve, hs, Option.bind_eq_bind, Option.bind_some, if_neg]
    exact not_or.2 ⟨not_le.2 hlt, not_not.2 hhas⟩
  | slot hfree => exact if_pos hfree
  | busy hfull => exact if_pos hfull
  | subscribe hs | snapshot hs => rw [serve, hs, Option.bind_eq_bind, Option.bind_some]
  | receive hs hrecv | lagged hs hrecv =>
    rw [serve, hs, Option.bind_eq_bind, Option.bind_some, hrecv]
    rfl
  | still hstill => rw [serve, if_pos hstill]
  | gone hgone => rw [serve, if_neg (Bool.eq_false_iff.1 hgone)]
  | abort => cases stage <;> rfl

end Handler

end Chorrent
