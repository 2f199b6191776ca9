/-
# What a stream answers

The frames that a node starts on a stream answer the request that the stream was opened with, from
the one share that its lookup found in the registry, for which the peer was authorized then, and
truthfully, whatever other streams, shares and lists do meanwhile; and no more streams than there
are upload slots read pieces from disk.
-/
import Chorrent.Handler.Probe
import Chorrent.Handler.Registry
import Chorrent.Lib.Potential

namespace Chorrent

open Lib Subscription

/-! ## Answers -/

/-- What is noted of a stream. -/
inductive Said where
  | asked (remote : EndpointId) (request : Request)
  /-- The share that the registry has for the request, if the peer is authorized for it. -/
  | found (share : Option (ℕ × SharedShare))
  | started (frame : Response)

/-- The request is for this piece. -/
def Request.AsksPiece (request : Request) (index : ℕ) : Prop :=
  ∃ share auth i, request = .piece share auth i ∧ i.toNat = index

namespace SharedShare

/-- What the share gives to a request: its manifest, an encoding of a piece it has, or which
pieces it has; a piece may also be refused. -/
def Gives (encodes : ℕ → Bytes → Prop) (s : SharedShare) : Request → List Response → Prop
  | .manifest _ _, frames => frames = [.manifest s.manifestBytes]
  | .piece _ _ index, frames => frames = [.dontHave] ∨ frames = [.busy] ∨
      s.has index.toNat = true ∧ ∃ bytes, encodes index.toNat bytes ∧ frames = [.piece bytes]
  | .subscribe _ _, frames =>
      (∃ bits rest, frames = .bitfield bits :: rest) ∧ ∀ frame ∈ frames, Sound s.held frame

/-- These frames of a subscription tell of pieces the share has. -/
structure Tells (s : SharedShare) (request : Request) (frames : List Response) : Prop where
  request_eq : ∃ share auth, request = .subscribe share auth
  sound : ∀ frame ∈ frames, Sound s.held frame
  head : ∀ frame, frames.head? = some frame → ∃ bits, frame = .bitfield bits

/-- Where a stream is that found this share, whose number is `o`, once these frames were started
on it. -/
def Serves (encodes : ℕ → Bytes → Prop) (s : SharedShare) (o : ℕ) (request : Request)
    (frames : List Response) : StreamStage → Prop
  | .requested _ => False
  | .checking o' index => o' = o ∧ frames = [] ∧ request.AsksPiece index
  | .waiting o' index | .encoding o' index =>
      o' = o ∧ frames = [] ∧ request.AsksPiece index ∧ s.has index = true
  | .answering o' response => o' = some o ∧ frames = [] ∧ s.Gives encodes request [response]
  | .subscribing o' => o' = o ∧ frames = [] ∧ s.Tells request []
  | .snapshot o' _ => o' = o ∧ s.Tells request frames
  | .updating o' _ msg => o' = o ∧ s.Tells request (frames ++ [msg])
  | .writing o' _ | .listening o' _ => o' = o ∧ s.Tells request frames ∧ frames ≠ []
  | .ended => frames = [] ∨ s.Gives encodes request frames

/-- The share as it is later. -/
structure Grows (s s' : SharedShare) : Prop where
  id_eq : s'.id = s.id
  manifestBytes_eq : s'.manifestBytes = s.manifestBytes
  below : Below s.held s'.held

/-- Pieces are told of once they are marked. -/
structure Truthful (s : SharedShare) : Prop where
  unsent : ∀ piece ∈ s.unsent, s.held[piece]? = some true
  sent : ∀ piece ∈ s.sent, Sound s.held (.«have» piece)

lemma Grows.refl (s : SharedShare) : s.Grows s := ⟨rfl, rfl, .refl _⟩

lemma Grows.trans {s s' s'' : SharedShare} (h : s.Grows s') (h' : s'.Grows s'') : s.Grows s'' :=
  ⟨h'.id_eq.trans h.id_eq, h'.manifestBytes_eq.trans h.manifestBytes_eq, h.below.trans h'.below⟩

lemma Grows.has {s s' : SharedShare} (h : s.Grows s') {piece : ℕ} (hhas : s.has piece = true) :
    s'.has piece = true := by
  rw [SharedShare.has] at hhas ⊢
  have hmarked : s.held[piece]? = some true := by
    cases hget : s.held[piece]? with
    | none =>
      rw [hget] at hhas
      cases hhas
    | some b =>
      rw [hget] at hhas
      exact congrArg some hhas
  rw [h.below.has piece hmarked]
  rfl

variable {encodes : ℕ → Bytes → Prop} {s s' : SharedShare} {o piece : ℕ} {request : Request}
  {frames : List Response}

lemma Gives.mono (hle : s.Grows s') (h : s.Gives encodes request frames) :
    s'.Gives encodes request frames := by
  cases request with
  | manifest share auth =>
    rw [Gives, hle.manifestBytes_eq]
    exact h
  | piece share auth index => exact h.imp_right fun h => h.imp_right (And.imp_left hle.has)
  | subscribe share auth => exact ⟨h.1, fun frame hframe => (h.2 frame hframe).mono hle.below⟩

lemma Tells.mono (hle : s.Grows s') (h : s.Tells request frames) : s'.Tells request frames :=
  ⟨h.request_eq, fun frame hframe => (h.sound frame hframe).mono hle.below, h.head⟩

lemma Serves.mono (hle : s.Grows s') {stage : StreamStage}
    (h : s.Serves encodes o request frames stage) : s'.Serves encodes o request frames stage := by
  cases stage with
  | requested request' | checking o' index => exact h
  | waiting o' index | encoding o' index => exact ⟨h.1, h.2.1, h.2.2.1, hle.has h.2.2.2⟩
  | answering o' response => exact ⟨h.1, h.2.1, h.2.2.mono hle⟩
  | subscribing o' => exact ⟨h.1, h.2.1, h.2.2.mono hle⟩
  | snapshot o' next | updating o' next msg => exact ⟨h.1, h.2.mono hle⟩
  | writing o' next | listening o' next => exact ⟨h.1, h.2.1.mono hle, h.2.2⟩
  | ended => exact h.imp_right (·.mono hle)

/-- A subscription may end after any frame. -/
lemma Tells.gives (h : s.Tells request frames) : frames = [] ∨ s.Gives encodes request frames := by
  obtain ⟨⟨share, auth, rfl⟩, hsound, hhead⟩ := h
  rcases frames with _ | ⟨frame, rest⟩
  · exact .inl rfl
  · obtain ⟨bits, rfl⟩ := hhead frame rfl
    exact .inr ⟨⟨bits, rest, rfl⟩, hsound⟩

/-- One more frame of a subscription. -/
lemma Tells.snoc {msg : Response} (h : s.Tells request frames) (hmsg : Sound s.held msg)
    (hfirst : frames = [] → ∃ bits, msg = .bitfield bits) : s.Tells request (frames ++ [msg]) := by
  refine ⟨h.request_eq, fun frame hframe => ?_, fun frame hframe => ?_⟩
  · rcases List.mem_append.1 hframe with hframe | hframe
    · exact h.sound frame hframe
    · rw [List.mem_singleton.1 hframe]
      exact hmsg
  · rcases frames with _ | ⟨first, rest⟩
    · obtain rfl := Option.some.inj hframe
      exact hfirst rfl
    · exact h.head frame hframe

/-- A stream may end at any point. -/
lemma Serves.gives {stage : StreamStage} (h : s.Serves encodes o request frames stage) :
    frames = [] ∨ s.Gives encodes request frames := by
  cases stage with
  | requested request' => exact h.elim
  | checking o' index | waiting o' index | encoding o' index | answering o' response
  | subscribing o' => exact .inl h.2.1
  | snapshot o' next => exact h.2.gives
  | updating o' next msg =>
    -- the frame that was to be started is left out
    obtain ⟨hrequest, hsound, hhead⟩ := h.2
    refine Tells.gives ⟨hrequest, fun frame hframe => hsound frame (List.mem_append_left _ hframe),
      fun frame hframe => hhead frame ?_⟩
    rw [List.head?_append, hframe]
    rfl
  | writing o' next | listening o' next => exact h.2.1.gives
  | ended => exact h

lemma mark_spec (h : s.mark piece = some s') (htrue : s.Truthful) : s.Grows s' ∧ s'.Truthful := by
  rw [mark] at h
  split at h
  · cases h
  · cases h
    exact ⟨.refl s, htrue⟩
  · rename_i hget
    cases h
    have hbelow := below_set s.held piece
    refine ⟨⟨rfl, rfl, hbelow⟩, fun p hp => ?_, fun p hp => (htrue.sent p hp).mono hbelow⟩
    rcases List.mem_append.1 hp with hp | hp
    · exact hbelow.has p (htrue.unsent p hp)
    · rw [List.mem_singleton.1 hp]
      exact List.getElem?_set_self (List.getElem?_eq_some_iff.1 hget).1

lemma send_spec (h : s.send piece = some s') (htrue : s.Truthful) : s.Grows s' ∧ s'.Truthful := by
  rw [send] at h
  split_ifs at h with hmem
  cases h
  have hheld := htrue.unsent piece hmem
  refine ⟨⟨rfl, rfl, .refl _⟩, fun p hp => htrue.unsent p (List.mem_of_mem_erase hp),
    fun p hp => ?_⟩
  rcases List.mem_append.1 hp with hp | hp
  · exact htrue.sent p hp
  · intro hnumbered
    have hlt := (List.getElem?_eq_some_iff.1 hheld).1
    have hsmall : piece < 2 ^ 32 := hlt.trans_le hnumbered
    rw [List.mem_singleton.1 hp, UInt32.toNat_ofNat', Nat.mod_eq_of_lt hsmall]
    exact hheld

end SharedShare

namespace Handler

variable {accessToken : List.Vector UInt8 32 → EndpointId → List.Vector UInt8 32}
  {encoding : ℕ → ℕ → Bytes → Prop} {h h' : Handler} {request : Request} {frames : List Response}

/-- What `encode_piece` returns to a stream encodes the piece of the share. -/
def Encoded (encoding : ℕ → ℕ → Bytes → Prop) (h : Handler) : HandlerAction → Prop
  | .stream k (.encoded (some bytes)) => ∀ remote o index,
      h.streams[k]? = some ⟨remote, .encoding o index⟩ → encoding o index bytes
  | _ => True

/-- The frame that a stream starts in a step. -/
def started (stage : StreamStage) (action : StreamAction) : List Response :=
  (if action = .start then stage.pending.map Prod.snd else none).toList

/-- Where a stream is whose lookup found nothing. -/
def Refuses (frames : List Response) : StreamStage → Prop
  | .answering o response => o = none ∧ response = .notFound ∧ frames = []
  | .ended => frames = [] ∨ frames = [.notFound]
  | _ => False

/-- Shares stay, and grow. -/
def SharesGrow (h h' : Handler) : Prop :=
  ∀ (o : ℕ) (s : SharedShare), h.shares[o]? = some s → ∃ s', h'.shares[o]? = some s' ∧ s.Grows s'

lemma SharesGrow.of_eq (heq : h'.shares = h.shares) : h.SharesGrow h' :=
  fun o s hs => ⟨s, by rw [heq, hs], .refl s⟩

/-! ## One step of a stream -/

variable (accessToken encoding h) in
/-- A lookup finds nothing, or a share that goes on to serve the request. -/
lemma serves_lookupRequest (remote : EndpointId) (request : Request) :
    (h.lookup accessToken request.share remote request.auth = none ∧
      Refuses [] (h.lookupRequest accessToken remote request)) ∨
    ∃ o s, h.lookup accessToken request.share remote request.auth = some (o, s) ∧
      s.Serves (encoding o) o request [] (h.lookupRequest accessToken remote request) := by
  cases hfound : h.lookup accessToken request.share remote request.auth with
  | none =>
    refine .inl ⟨rfl, ?_⟩
    cases request <;>
      (simp only [Request.share, Request.auth] at hfound
       simp only [lookupRequest, hfound]
       exact ⟨rfl, rfl, rfl⟩)
  | some found =>
    obtain ⟨o, s⟩ := found
    refine .inr ⟨o, s, rfl, ?_⟩
    cases request with
    | manifest share auth =>
      simp only [Request.share, Request.auth] at hfound
      simp only [lookupRequest, hfound]
      exact ⟨rfl, rfl, rfl⟩
    | subscribe share auth =>
      simp only [Request.share, Request.auth] at hfound
      simp only [lookupRequest, hfound]
      refine ⟨rfl, rfl, ⟨share, auth, rfl⟩, ?_, ?_⟩
      · rintro _ ⟨⟩
      · rintro _ ⟨⟩
    | piece share auth index =>
      simp only [Request.share, Request.auth] at hfound
      simp only [lookupRequest, hfound]
      exact ⟨rfl, rfl, share, auth, index, rfl, rfl⟩

lemma Refuses.step {remote : EndpointId} {stage stage' : StreamStage} {action : StreamAction}
    (hrefuses : Refuses frames stage)
    (hserve : h.serve accessToken remote stage action = some stage') :
    Refuses (frames ++ started stage action) stage' := by
  cases stage with
  | answering o response =>
    obtain ⟨rfl, rfl, rfl⟩ := hrefuses
    cases goes_of_serve hserve with
    | answer => exact .inr rfl
    | abort => exact .inl rfl
  | ended =>
    obtain ⟨rfl, rfl⟩ := serve_ended hserve
    rw [started, if_neg (by simp), Option.toList_none, List.append_nil]
    exact hrefuses
  | _ => exact hrefuses.elim

/-- A stream that serves a share goes on with it. -/
lemma Serves.step {remote : EndpointId} {stage stage' : StreamStage} {action : StreamAction}
    {o : ℕ} {s : SharedShare} (hs : h.shares[o]? = some s) (htrue : s.Truthful)
    (hencoded : ∀ index bytes, stage = .encoding o index → action = .encoded (some bytes) →
      encoding o index bytes)
    (hserves : s.Serves (encoding o) o request frames stage)
    (hserve : h.serve accessToken remote stage action = some stage') :
    s.Serves (encoding o) o request (frames ++ started stage action) stage' := by
  have hnil : frames ++ [] = frames := List.append_nil frames
  cases goes_of_serve hserve with
  | lookup => exact hserves.elim
  | lacks =>
    obtain ⟨rfl, rfl, share, auth, i, rfl, -⟩ := hserves
    exact ⟨rfl, rfl, .inl rfl⟩
  | has hs' _ hhas =>
    obtain ⟨rfl, rfl, hasks⟩ := hserves
    obtain rfl := Option.some.inj (hs'.symm.trans hs)
    exact ⟨rfl, rfl, hasks, hhas⟩
  | slot => exact hnil.symm ▸ hserves
  | busy =>
    obtain ⟨rfl, rfl, ⟨share, auth, i, rfl, -⟩, -⟩ := hserves
    exact ⟨rfl, rfl, .inr (.inl rfl)⟩
  | encoded bytes =>
    obtain ⟨rfl, rfl, ⟨share, auth, i, rfl, rfl⟩, hhas⟩ := hserves
    exact ⟨rfl, rfl, .inr (.inr ⟨hhas, bytes, hencoded _ _ rfl rfl, rfl⟩)⟩
  | notEncoded =>
    obtain ⟨rfl, rfl, ⟨share, auth, i, rfl, -⟩, -⟩ := hserves
    exact ⟨rfl, rfl, .inl rfl⟩
  | answer =>
    obtain ⟨-, rfl, hgives⟩ := hserves
    exact .inr hgives
  | subscribe =>
    obtain ⟨rfl, rfl, htells⟩ := hserves
    exact ⟨rfl, htells⟩
  | snapshot hs' =>
    obtain ⟨rfl, htells⟩ := hserves
    obtain rfl := Option.some.inj (hs'.symm.trans hs)
    show _ ∧ SharedShare.Tells _ request (frames ++ [] ++ [_])
    rw [hnil]
    exact ⟨rfl, htells.snoc ⟨_, rfl, .refl _⟩ fun _ => ⟨_, rfl⟩⟩
  | update =>
    exact ⟨hserves.1, hserves.2, List.append_ne_nil_of_right_ne_nil _ (List.cons_ne_nil _ _)⟩
  | written => exact hnil.symm ▸ hserves
  | broken => exact hnil.symm ▸ hserves.2.1.gives
  | receive hs' hrecv =>
    obtain ⟨rfl, htells, hne⟩ := hserves
    obtain rfl := Option.some.inj (hs'.symm.trans hs)
    have hmsg := htrue.sent _ (List.mem_of_getElem? (Broadcast.recv_eq_value hrecv))
    show _ ∧ SharedShare.Tells _ request (frames ++ [] ++ [_])
    rw [hnil]
    exact ⟨rfl, htells.snoc hmsg fun hempty => absurd hempty hne⟩
  | lagged =>
    obtain ⟨rfl, htells, -⟩ := hserves
    exact ⟨rfl, hnil.symm ▸ htells⟩
  | still => exact hnil.symm ▸ hserves
  | gone => exact hnil.symm ▸ hserves.2.1.gives
  | abort => exact hnil.symm ▸ hserves.gives

/-! ## What every step keeps -/

/-- What a node keeps whatever happens: ids are registered for shares that have them, pieces are
told of once they are marked, and no more streams hold a slot than there are. -/
structure Orderly (h : Handler) : Prop where
  registered : ∀ id o, h.registry.lookup id = some o →
    ∃ s : SharedShare, h.shares[o]? = some s ∧ s.id = id
  truthful : ∀ s ∈ h.shares, SharedShare.Truthful s
  slots : h.streams.countP (·.stage.holdsSlot) ≤ h.uploadSlots

lemma Orderly.id_eq (h₀ : h.Orderly) (id : ShareId) (o : ℕ) (ho : h.registry.lookup id = some o)
    (s : SharedShare) (hs : h.shares[o]? = some s) : s.id = id := by
  obtain ⟨s', hs', hid⟩ := h₀.registered id o ho
  obtain rfl := Option.some.inj (hs.symm.trans hs')
  exact hid

/-- A share is replaced by what becomes of it. -/
lemma shares_setShare {o : ℕ} {s s' : SharedShare} (hs : h.shares[o]? = some s)
    (hgrows : s.Grows s') (htrue' : s'.Truthful) (htrue : ∀ s ∈ h.shares, SharedShare.Truthful s) :
    h.SharesGrow (h.setShare o s') ∧ ∀ s ∈ (h.setShare o s').shares, SharedShare.Truthful s := by
  have hlt := (List.getElem?_eq_some_iff.1 hs).1
  refine ⟨fun o' s₁ hs₁ => ?_, fun s₁ hs₁ => ?_⟩
  · by_cases ho : o' = o
    · subst ho
      obtain rfl := Option.some.inj (hs.symm.trans hs₁)
      exact ⟨s', List.getElem?_set_self hlt, hgrows⟩
    · exact ⟨s₁, (List.getElem?_set_ne (Ne.symm ho)).trans hs₁, .refl s₁⟩
  · rcases List.mem_or_eq_of_mem_set hs₁ with hmem | rfl
    · exact htrue s₁ hmem
    · exact htrue'

lemma shares_step {a : HandlerAction} (hstep : h.step accessToken a = some h')
    (htrue : ∀ s ∈ h.shares, SharedShare.Truthful s) :
    h.SharesGrow h' ∧ ∀ s ∈ h'.shares, SharedShare.Truthful s := by
  have hsame : h'.shares = h.shares → h.SharesGrow h' ∧ ∀ s ∈ h'.shares, SharedShare.Truthful s :=
    fun heq => ⟨.of_eq heq, by rwa [heq]⟩
  cases a with
  | create id manifestBytes secret held =>
    cases hstep
    refine ⟨fun o s hs => ⟨s, ?_, .refl s⟩, fun s hs => ?_⟩
    · exact (List.getElem?_append_left (List.getElem?_eq_some_iff.1 hs).1).trans hs
    · rcases List.mem_append.1 hs with hs | hs
      · exact htrue s hs
      · rw [List.mem_singleton.1 hs]
        exact ⟨(fun _ hp => nomatch hp), fun _ hp => nomatch hp⟩
  | register o | drop o =>
    obtain ⟨s, hs, hif⟩ := Option.bind_eq_some_iff.1 hstep
    split_ifs at hif <;> (cases hif; exact hsame rfl)
  | remove id | accept remote request =>
    cases hstep
    exact hsame rfl
  | setAllowed o peers =>
    obtain ⟨s, hs, heq⟩ := Option.bind_eq_some_iff.1 hstep
    cases heq
    have hs_true := htrue s (List.mem_of_getElem? hs)
    exact shares_setShare hs ⟨rfl, rfl, .refl _⟩ ⟨hs_true.unsent, hs_true.sent⟩ htrue
  | mark o piece =>
    obtain ⟨s, hs, hmap⟩ := Option.bind_eq_some_iff.1 hstep
    obtain ⟨s', hmark, rfl⟩ := Option.map_eq_some_iff.1 hmap
    obtain ⟨hgrows, htrue'⟩ := SharedShare.mark_spec hmark (htrue s (List.mem_of_getElem? hs))
    exact shares_setShare hs hgrows htrue' htrue
  | send o piece =>
    obtain ⟨s, hs, hmap⟩ := Option.bind_eq_some_iff.1 hstep
    obtain ⟨s', hsend, rfl⟩ := Option.map_eq_some_iff.1 hmap
    obtain ⟨hgrows, htrue'⟩ := SharedShare.send_spec hsend (htrue s (List.mem_of_getElem? hs))
    exact shares_setShare hs hgrows htrue' htrue
  | stream k action =>
    obtain ⟨st, hst, hmap⟩ := Option.bind_eq_some_iff.1 hstep
    obtain ⟨stage, hserve, rfl⟩ := Option.map_eq_some_iff.1 hmap
    exact hsame rfl

lemma holdsSlot_lookupRequest (remote : EndpointId) (request : Request) :
    (h.lookupRequest accessToken remote request).holdsSlot = false := by
  cases request with
  | manifest share auth | subscribe share auth | piece share auth index =>
    rw [lookupRequest]
    split <;> rfl

/-- A slot is taken when one is free. -/
lemma free_of_holdsSlot {remote : EndpointId} {stage stage' : StreamStage} {action : StreamAction}
    (hserve : h.serve accessToken remote stage action = some stage')
    (hholds : stage'.holdsSlot = true) : 0 < h.freeSlots := by
  cases goes_of_serve hserve with
  | lookup request =>
    rw [holdsSlot_lookupRequest] at hholds
    cases hholds
  | slot hfree => exact hfree
  | _ => cases hholds

/-- Only a new stream and the steps of streams change the streams. -/
lemma streams_eq {a : HandlerAction} (hstep : h.step accessToken a = some h')
    (haccept : ∀ remote request, a ≠ .accept remote request)
    (hstream : ∀ k action, a ≠ .stream k action) :
    h'.streams = h.streams ∧ h'.uploadSlots = h.uploadSlots := by
  cases a with
  | accept remote request => exact absurd rfl (haccept remote request)
  | stream k action => exact absurd rfl (hstream k action)
  | create | remove =>
    cases hstep
    exact ⟨rfl, rfl⟩
  | register o | drop o =>
    obtain ⟨s, hs, hif⟩ := Option.bind_eq_some_iff.1 hstep
    split_ifs at hif <;> (cases hif; exact ⟨rfl, rfl⟩)
  | setAllowed =>
    obtain ⟨s, hs, heq⟩ := Option.bind_eq_some_iff.1 hstep
    cases heq
    exact ⟨rfl, rfl⟩
  | mark | send =>
    obtain ⟨s, hs, hmap⟩ := Option.bind_eq_some_iff.1 hstep
    obtain ⟨s', -, rfl⟩ := Option.map_eq_some_iff.1 hmap
    exact ⟨rfl, rfl⟩

lemma slots_step {a : HandlerAction} (hstep : h.step accessToken a = some h')
    (hslots : h.streams.countP (·.stage.holdsSlot) ≤ h.uploadSlots) :
    h'.uploadSlots = h.uploadSlots ∧ h'.streams.countP (·.stage.holdsSlot) ≤ h.uploadSlots := by
  cases a with
  | accept remote request =>
    cases hstep
    refine ⟨rfl, ?_⟩
    rw [List.countP_append, List.countP_singleton]
    exact hslots
  | stream k action =>
    obtain ⟨st, hst, hmap⟩ := Option.bind_eq_some_iff.1 hstep
    obtain ⟨stage, hserve, rfl⟩ := Option.map_eq_some_iff.1 hmap
    obtain ⟨hlt, heq⟩ := List.getElem?_eq_some_iff.1 hst
    refine ⟨rfl, ?_⟩
    rw [List.countP_set hlt]
    have hfree : stage.holdsSlot = true → 0 < h.freeSlots := free_of_holdsSlot hserve
    rw [freeSlots] at hfree
    show _ - _ + (if stage.holdsSlot = true then 1 else 0) ≤ _
    by_cases hafter : stage.holdsSlot = true
    · have := hfree hafter
      rw [if_pos hafter]
      omega
    · rw [if_neg hafter]
      omega
  | _ =>
    obtain ⟨hstreams, hsame⟩ := streams_eq hstep (by simp) (by simp)
    exact ⟨hsame, hstreams ▸ hslots⟩

lemma Orderly.step {a : HandlerAction} (h₀ : h.Orderly) (hstep : h.step accessToken a = some h') :
    h'.Orderly := by
  obtain ⟨hsame, hslots⟩ := slots_step hstep h₀.slots
  exact ⟨entry_step h₀.registered hstep, (shares_step hstep h₀.truthful).2, hsame ▸ hslots⟩

lemma new_orderly (uploadSlots : ℕ) : (new uploadSlots).Orderly where
  registered id o ho := by simp [new] at ho
  truthful s hs := nomatch hs
  slots := Nat.zero_le _

/-! ## A whole conversation -/

/-- What is noted of stream `k` in a step. -/
def said (accessToken : List.Vector UInt8 32 → EndpointId → List.Vector UInt8 32) (k : ℕ)
    (h : Handler) : HandlerAction → List Said
  | .accept remote request => if h.streams.length = k then [.asked remote request] else []
  | .stream k' action =>
      if k' = k then
        match h.streams[k]? with
        | none => []
        | some ⟨remote, .requested request⟩ =>
            if action = .lookup then
              [.found (h.lookup accessToken request.share remote request.auth)]
            else []
        | some ⟨_, stage⟩ => (started stage action).map .started
      else []
  | _ => []

/-- The frames that were started, after the lookup found this. -/
def Answers (encoding : ℕ → ℕ → Bytes → Prop) (h : Handler) (request : Request)
    (frames : List Response) : Option (ℕ × SharedShare) → Prop
  | none => frames = [] ∨ frames = [.notFound]
  | some (o, s) => ∃ s', h.shares[o]? = some s' ∧ s.Grows s' ∧
      (frames = [] ∨ s'.Gives (encoding o) request frames)

/-- Where stream `k` is, after what was noted of it. -/
inductive Converses
    (accessToken : List.Vector UInt8 32 → EndpointId → List.Vector UInt8 32)
    (encoding : ℕ → ℕ → Bytes → Prop) (h : Handler) (k : ℕ) : List Said → Prop
  | unopened (hnone : h.streams.length ≤ k) : Converses accessToken encoding h k []
  | opened {remote : EndpointId} {request : Request} {stage : StreamStage}
      (hst : h.streams[k]? = some ⟨remote, stage⟩)
      (hstage : stage = .requested request ∨ stage = .ended) :
      Converses accessToken encoding h k [.asked remote request]
  | refused {remote : EndpointId} {request : Request} {stage : StreamStage}
      {frames : List Response} (hst : h.streams[k]? = some ⟨remote, stage⟩)
      (hrefuses : Refuses frames stage) :
      Converses accessToken encoding h k
        (.asked remote request :: .found none :: frames.map .started)
  | served {remote : EndpointId} {request : Request} {stage : StreamStage}
      {frames : List Response} {o : ℕ} {s s' : SharedShare}
      (hst : h.streams[k]? = some ⟨remote, stage⟩) (hs : h.shares[o]? = some s')
      (hid : s.id = request.share) (hauth : s.authorized accessToken remote request.auth = true)
      (hgrows : s.Grows s') (hserves : s'.Serves (encoding o) o request frames stage) :
      Converses accessToken encoding h k
        (.asked remote request :: .found (some (o, s)) :: frames.map .started)

variable {k : ℕ} {noted : List Said}

/-- Nothing happens on the stream. -/
lemma Converses.keep (hconv : h.Converses accessToken encoding k noted) (hgrow : h.SharesGrow h')
    (hlen : h.streams.length ≤ k → h'.streams.length ≤ k)
    (hsame : ∀ st, h.streams[k]? = some st → h'.streams[k]? = some st) :
    h'.Converses accessToken encoding k noted := by
  cases hconv with
  | unopened hnone => exact .unopened (hlen hnone)
  | opened hst hstage => exact .opened (hsame _ hst) hstage
  | refused hst hrefuses => exact .refused (hsame _ hst) hrefuses
  | served hst hs hid hauth hgrows hserves =>
    obtain ⟨s'', hs'', hgrows'⟩ := hgrow _ _ hs
    exact .served (hsame _ hst) hs'' hid hauth (hgrows.trans hgrows') (hserves.mono hgrows')

/-- The stream takes a step. -/
lemma Converses.stream {action : StreamAction} (h₀ : h.Orderly)
    (hencoded : h.Encoded encoding (.stream k action))
    (hstep : h.step accessToken (.stream k action) = some h')
    (hconv : h.Converses accessToken encoding k noted) :
    h'.Converses accessToken encoding k (noted ++ h.said accessToken k (.stream k action)) := by
  obtain ⟨st, hst, hmap⟩ := Option.bind_eq_some_iff.1 hstep
  obtain ⟨stage', hserve, rfl⟩ := Option.map_eq_some_iff.1 hmap
  have hset : ∀ st' : Stream, (h.streams.set k st')[k]? = some st' := fun st' =>
    List.getElem?_set_self (List.getElem?_eq_some_iff.1 hst).1
  have hsaid : ∀ {remote stage}, h.streams[k]? = some ⟨remote, stage⟩ →
      (∀ request, stage ≠ .requested request) →
      h.said accessToken k (.stream k action) = (started stage action).map .started := by
    intro remote stage hst hne
    rw [said, if_pos rfl, hst]
    cases stage with
    | requested request => exact absurd rfl (hne request)
    | _ => rfl
  cases hconv with
  | unopened hnone => exact absurd (List.getElem?_eq_some_iff.1 hst).1 (Nat.not_lt.2 hnone)
  | @opened remote request stage hst₁ hstage =>
    obtain rfl := Option.some.inj (hst₁.symm.trans hst)
    rcases hstage with rfl | rfl
    · cases goes_of_serve hserve with
      | lookup =>
        have hfound : h.said accessToken k (.stream k .lookup) =
            [.found (h.lookup accessToken request.share remote request.auth)] := by
          rw [said, if_pos rfl, hst₁]
          rfl
        rw [hfound]
        rcases serves_lookupRequest accessToken encoding h remote request with
          ⟨hnone, hrefuses⟩ | ⟨o, s, hsome, hserves⟩
        · rw [hnone]
          show Converses _ _ _ _ (_ :: _ :: List.map .started [])
          exact .refused (hset _) hrefuses
        · rw [hsome]
          obtain ⟨hlisted, hs, hauth⟩ := lookup_eq_some.1 hsome
          show Converses _ _ _ _ (_ :: _ :: List.map .started [])
          exact .served (hset _) hs (h₀.id_eq _ _ hlisted _ hs) hauth (.refl s) hserves
      | abort =>
        have hnothing : h.said accessToken k (.stream k .abort) = [] := by
          rw [said, if_pos rfl, hst₁]
          rfl
        rw [hnothing, List.append_nil]
        exact .opened (hset _) (.inr rfl)
    · obtain ⟨rfl, rfl⟩ := serve_ended hserve
      rw [hsaid hst₁ (by simp)]
      exact .opened (hset _) (.inr rfl)
  | @refused remote request stage frames hst₁ hrefuses =>
    obtain rfl := Option.some.inj (hst₁.symm.trans hst)
    have hne : ∀ request, stage ≠ .requested request := by
      rintro request rfl
      exact hrefuses
    rw [hsaid hst₁ hne, List.cons_append, List.cons_append, ← List.map_append]
    exact .refused (hset _) (hrefuses.step hserve)
  | @served remote request stage frames o s s' hst₁ hs hid hauth hgrows hserves =>
    obtain rfl := Option.some.inj (hst₁.symm.trans hst)
    have hne : ∀ request, stage ≠ .requested request := by
      rintro request rfl
      exact hserves
    rw [hsaid hst₁ hne, List.cons_append, List.cons_append, ← List.map_append]
    refine .served (hset _) hs hid hauth hgrows
      (Serves.step hs (h₀.truthful _ (List.mem_of_getElem? hs)) ?_ hserves hserve)
    rintro index bytes rfl rfl
    exact hencoded remote o index hst₁

lemma Converses.step {a : HandlerAction} (h₀ : h.Orderly) (hencoded : h.Encoded encoding a)
    (hstep : h.step accessToken a = some h')
    (hconv : h.Converses accessToken encoding k noted) :
    h'.Converses accessToken encoding k (noted ++ h.said accessToken k a) := by
  obtain ⟨hgrow, -⟩ := shares_step hstep h₀.truthful
  -- nothing is noted of a step elsewhere
  have hother : h.said accessToken k a = [] → (h.streams.length ≤ k → h'.streams.length ≤ k) →
      (∀ st, h.streams[k]? = some st → h'.streams[k]? = some st) →
      h'.Converses accessToken encoding k (noted ++ h.said accessToken k a) :=
    fun hnothing hlen hsame => by
      rw [hnothing, List.append_nil]
      exact hconv.keep hgrow hlen hsame
  cases a with
  | accept remote request =>
    cases hstep
    by_cases hk : h.streams.length = k
    · subst hk
      have hopens : h.said accessToken h.streams.length (.accept remote request) =
          [.asked remote request] := if_pos rfl
      rw [hopens]
      cases hconv with
      | unopened hnone =>
        refine .opened ?_ (.inl rfl)
        exact List.getElem?_concat_length
      | opened hst | refused hst | served hst =>
        exact absurd (List.getElem?_eq_some_iff.1 hst).1 (Nat.lt_irrefl _)
    · refine hother (if_neg hk) (fun hle => ?_) fun st hst => ?_
      · rw [List.length_append, List.length_singleton]
        omega
      · exact (List.getElem?_append_left (List.getElem?_eq_some_iff.1 hst).1).trans hst
  | stream k' action =>
    by_cases hk : k' = k
    · subst hk
      exact hconv.stream h₀ hencoded hstep
    · obtain ⟨st', hst', hmap⟩ := Option.bind_eq_some_iff.1 hstep
      obtain ⟨stage, -, rfl⟩ := Option.map_eq_some_iff.1 hmap
      exact hother (if_neg hk) (fun hle => by rwa [List.length_set])
        fun st hst => (List.getElem?_set_ne hk).trans hst
  | _ =>
    obtain ⟨hstreams, -⟩ := streams_eq hstep (by simp) (by simp)
    exact hother rfl (hstreams ▸ id) fun _ hst => hstreams ▸ hst

lemma Converses.observed {seen : List Said}
    (hobs : Observed (fun h a h' => h.step accessToken a = some h' ∧ h.Encoded encoding a)
      (said accessToken k) h seen h') :
    ∀ {noted : List Said}, h.Orderly → h.Converses accessToken encoding k noted →
      h'.Converses accessToken encoding k (noted ++ seen) := by
  induction hobs with
  | nil h =>
    intro noted _ hconv
    rwa [List.append_nil]
  | cons hstep _ ih =>
    intro noted h₀ hconv
    rw [← List.append_assoc]
    exact ih (h₀.step hstep.1) (hconv.step h₀ hstep.2 hstep.1)

/-- Every stream is a conversation of its own.  Whatever peers ask, whatever shares are created,
registered and dropped and whatever lists are set: once a stream was looked up, all that is
started on it is `NotFound` if the registry had no share under the id or the peer was not
authorized for it, and else comes from the share that was found.  For a manifest that is its
bytes, for a piece a refusal or an encoding of that very piece, which it has, and for a
subscription its pieces, and then frames that tell of pieces it has.  At no time are there more
streams that hold an upload slot than there are slots. -/
theorem streams_conform
    (accessToken : List.Vector UInt8 32 → EndpointId → List.Vector UInt8 32) (uploadSlots k : ℕ)
    (encoding : ℕ → ℕ → Bytes → Prop) {noted : List Said} {h : Handler}
    (hobs : Observed (fun h a h' => h.step accessToken a = some h' ∧ h.Encoded encoding a)
      (said accessToken k) (new uploadSlots) noted h) :
    (noted = [] ∨ (∃ remote request, noted = [.asked remote request]) ∨
      ∃ remote request found frames,
        noted = .asked remote request :: .found found :: List.map .started frames ∧
        h.Answers encoding request frames found ∧ ∀ o s, found = some (o, s) →
          s.id = request.share ∧ s.authorized accessToken remote request.auth = true) ∧
    h.streams.countP (·.stage.holdsSlot) ≤ uploadSlots := by
  have h₀ := hobs.invariant (P := fun h => h.Orderly ∧ h.uploadSlots = uploadSlots)
    (fun _ _ _ h₀ hstep => ⟨h₀.1.step hstep.1, (slots_step hstep.1 h₀.1.slots).1.trans h₀.2⟩)
    ⟨new_orderly _, rfl⟩
  refine ⟨?_, h₀.2 ▸ h₀.1.slots⟩
  have hconv := Converses.observed hobs (new_orderly _) (.unopened (Nat.zero_le _))
  rw [List.nil_append] at hconv
  cases hconv with
  | unopened => exact .inl rfl
  | opened => exact .inr (.inl ⟨_, _, rfl⟩)
  | @refused remote request stage frames _ hrefuses =>
    refine .inr (.inr ⟨remote, request, none, frames, rfl, ?_, by simp⟩)
    cases stage with
    | answering o response => exact .inl hrefuses.2.2
    | ended => exact hrefuses
    | _ => exact hrefuses.elim
  | served _ hs hid hauth hgrows hserves =>
    refine .inr (.inr ⟨_, _, _, _, rfl, ⟨_, hs, hgrows, hserves.gives⟩, ?_⟩)
    rintro o s ⟨⟩
    exact ⟨hid, hauth⟩

/-- A subscriber with the token is told of the pieces there are, and of one more. -/
theorem streams_conform_subscription : ∃ (h : Handler) (s : SharedShare),
    h.Answers (fun _ _ _ => False) (.subscribe (sameBytes 1) (some (sameBytes 2)))
      [.bitfield (packBits [true, false]), .«have» 1] (some (0, s)) ∧
    s.authorized (fun secret _ => secret) (sameBytes 3) (some (sameBytes 2)) = true := by
  let s₀ := SharedShare.new (sameBytes 1) [] (some (sameBytes 2)) [true, false]
  have hobs : ∃ h : Handler, Observed (fun h a h' => h.step (fun secret _ => secret) a = some h' ∧
      h.Encoded (fun _ _ _ => False) a) (said (fun secret _ => secret) 0) (new 1)
      [.asked (sameBytes 3) (.subscribe (sameBytes 1) (some (sameBytes 2))), .found (some (0, s₀)),
        .started (.bitfield (packBits [true, false])), .started (.«have» 1)] h :=
    ⟨_, .cons (l := HandlerAction.create (sameBytes 1) [] (some (sameBytes 2)) [true, false])
        ⟨rfl, trivial⟩ <|
      .cons (l := HandlerAction.register 0) ⟨rfl, trivial⟩ <|
      .cons (l := HandlerAction.accept (sameBytes 3)
        (.subscribe (sameBytes 1) (some (sameBytes 2)))) ⟨rfl, trivial⟩ <|
      .cons (l := HandlerAction.stream 0 .lookup) ⟨rfl, trivial⟩ <|
      .cons (l := HandlerAction.stream 0 .subscribe) ⟨rfl, trivial⟩ <|
      .cons (l := HandlerAction.stream 0 .snapshot) ⟨rfl, trivial⟩ <|
      .cons (l := HandlerAction.stream 0 .start) ⟨rfl, trivial⟩ <|
      .cons (l := HandlerAction.mark 0 1) ⟨rfl, trivial⟩ <|
      .cons (l := HandlerAction.send 0 1) ⟨rfl, trivial⟩ <|
      .cons (l := HandlerAction.stream 0 (.written true)) ⟨rfl, trivial⟩ <|
      .cons (l := HandlerAction.stream 0 .receive) ⟨rfl, trivial⟩ <|
      .cons (l := HandlerAction.stream 0 .start) ⟨rfl, trivial⟩ <| .nil _⟩
  obtain ⟨h, hobs⟩ := hobs
  rcases (streams_conform (fun secret _ => secret) 1 0 _ hobs).1 with
    hnil | ⟨remote, request, heq⟩ | ⟨remote, request, found, frames, heq, hanswers, hshare⟩
  · cases hnil
  · cases heq
  · obtain ⟨hasked, hrest⟩ := List.cons.inj heq
    obtain ⟨hfound, hframes⟩ := List.cons.inj hrest
    cases hasked
    cases hfound
    obtain rfl : frames = [.bitfield (packBits [true, false]), .«have» 1] :=
      List.map_injective_iff.2 (fun _ _ h => Said.started.inj h) hframes.symm
    exact ⟨h, s₀, hanswers, (hshare 0 s₀ rfl).2⟩

end Handler

end Chorrent
