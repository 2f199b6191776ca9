/-
# Revoked peers

A request is checked against the allowlist once, when its share is looked up; after that a
piece request may wait for an upload slot, and a subscription stays open.  What
`set_allowed_peers` forbids is therefore kept exactly when no peer it leaves out has a stream
of the share on which a frame may still be started.
-/
import Chorrent.Handler.Basic

namespace Chorrent

open Lib

variable {accessToken : List.Vector UInt8 32 → EndpointId → List.Vector UInt8 32}

/-! ## Streams on which a frame may still be started -/

/-- No update is left for a subscriber at this place in the channel, nor will there be. -/
def SharedShare.Quiet (s : SharedShare) (next : ℕ) : Prop :=
  s.sent.length ≤ next ∧ s.unsent = [] ∧ false ∉ s.held

instance (s : SharedShare) (next : ℕ) : Decidable (s.Quiet next) :=
  inferInstanceAs (Decidable (_ ∧ _ ∧ _))

/-- A frame of the share `s`, whose number is `o`, may still be started at this stage. -/
def StreamStage.MayServe (slots o : ℕ) (s : SharedShare) : StreamStage → Prop
  | .requested _ | .ended => False
  | .checking o' index => o' = o ∧ 0 < slots ∧ index < s.totalPieces
  | .waiting o' _ => o' = o ∧ 0 < slots
  | .answering o' response => o' = some o ∧ response.isContent = true
  | .encoding o' _ | .subscribing o' | .snapshot o' _ | .updating o' _ _ => o' = o
  | .writing o' next | .listening o' next => o' = o ∧ ¬ s.Quiet next

instance (slots o : ℕ) (s : SharedShare) :
    (stage : StreamStage) → Decidable (stage.MayServe slots o s)
  | .requested _ | .ended => inferInstanceAs (Decidable False)
  | .checking _ _ => inferInstanceAs (Decidable (_ ∧ _ ∧ _))
  | .waiting _ _ | .answering _ _ => inferInstanceAs (Decidable (_ ∧ _))
  | .encoding _ _ | .subscribing _ | .snapshot _ _ | .updating _ _ _ =>
      inferInstanceAs (Decidable (_ = _))
  | .writing _ _ | .listening _ _ => inferInstanceAs (Decidable (_ ∧ ¬ _))

/-- The share a stream is about. -/
def StreamStage.share : StreamStage → Option ℕ
  | .requested _ | .ended => none
  | .checking o _ | .waiting o _ | .encoding o _ | .subscribing o | .snapshot o _
  | .updating o _ _ | .writing o _ | .listening o _ => some o
  | .answering o _ => o

lemma StreamStage.MayServe.share_eq {slots o : ℕ} {s : SharedShare} {stage : StreamStage}
    (h : stage.MayServe slots o s) : stage.share = some o := by
  cases stage with
  | requested _ => cases h
  | ended => cases h
  | answering _ _ => exact h.1
  | checking _ _ => exact congrArg some h.1
  | waiting _ _ => exact congrArg some h.1
  | writing _ _ => exact congrArg some h.1
  | listening _ _ => exact congrArg some h.1
  | _ => exact congrArg some h

/-- Whom the list lets in makes no difference here. -/
lemma StreamStage.MayServe.of_allowed {slots o : ℕ} {s : SharedShare}
    {peers : Option (Finset EndpointId)} {stage : StreamStage}
    (h : stage.MayServe slots o { s with allowed := peers }) : stage.MayServe slots o s := by
  cases stage <;> exact h

/-- Storing pieces changes no more of a share than this. -/
structure SharedShare.Moves (s s' : SharedShare) : Prop where
  id_eq : s'.id = s.id
  allowed_eq : s'.allowed = s.allowed
  totalPieces_eq : s'.totalPieces = s.totalPieces
  quiet : ∀ next, s.Quiet next → s'.Quiet next

lemma SharedShare.moves_mark {s s' : SharedShare} {piece : ℕ} (h : s.mark piece = some s') :
    s.Moves s' := by
  rw [mark] at h
  split at h
  · cases h
  · cases h
    exact ⟨rfl, rfl, rfl, fun _ hq => hq⟩
  · rename_i hheld
    cases h
    -- a share that has all pieces marks none
    exact ⟨rfl, rfl, List.length_set, fun _ hq => absurd (List.mem_of_getElem? hheld) hq.2.2⟩

lemma SharedShare.moves_send {s s' : SharedShare} {piece : ℕ} (h : s.send piece = some s') :
    s.Moves s' := by
  rw [send] at h
  split_ifs at h with hmem
  cases h
  refine ⟨rfl, rfl, rfl, fun _ hq => ?_⟩
  rw [hq.2.1] at hmem
  cases hmem

lemma StreamStage.MayServe.of_moves {slots o : ℕ} {s s' : SharedShare} {stage : StreamStage}
    (hmoves : s.Moves s') (h : stage.MayServe slots o s') : stage.MayServe slots o s := by
  cases stage with
  | checking _ _ => exact ⟨h.1, h.2.1, hmoves.totalPieces_eq ▸ h.2.2⟩
  | writing _ next => exact ⟨h.1, fun hq => h.2 (hmoves.quiet next hq)⟩
  | listening _ next => exact ⟨h.1, fun hq => h.2 (hmoves.quiet next hq)⟩
  | _ => exact h

namespace Handler

variable {h h' : Handler}

lemma lookup_eq_some {share : ShareId} {remote : EndpointId}
    {auth : Option (List.Vector UInt8 32)} {o : ℕ} {s : SharedShare} :
    h.lookup accessToken share remote auth = some (o, s) ↔
      h.registry.lookup share = some o ∧ h.shares[o]? = some s ∧
        s.authorized accessToken remote auth = true := by
  simp only [lookup, Option.bind_eq_bind, Option.bind_eq_some_iff]
  constructor
  · rintro ⟨o', ho, s', hs, hif⟩
    split_ifs at hif with hauth
    cases hif
    exact ⟨ho, hs, hauth⟩
  · rintro ⟨ho, hs, hauth⟩
    exact ⟨o, ho, s, hs, by rw [if_pos hauth]⟩

/-- Only a lookup opens a stream for a share. -/
lemma share_lookupRequest {remote : EndpointId} {request : Request} {o : ℕ}
    (hshare : (h.lookupRequest accessToken remote request).share = some o) :
    ∃ share auth s, h.lookup accessToken share remote auth = some (o, s) := by
  cases request with
  | manifest share auth | subscribe share auth | piece share auth index =>
    rw [lookupRequest] at hshare
    split at hshare
    · rename_i o' s heq
      cases hshare
      exact ⟨share, auth, s, heq⟩
    · cases hshare

/-- A stream keeps its share, and a frame may be started on it only if one might before; or it
has just found the share and was authorized. -/
lemma serve_cases {remote : EndpointId} {stage stage' : StreamStage} {action : StreamAction}
    {o : ℕ} (hserve : h.serve accessToken remote stage action = some stage')
    (hshare : stage'.share = some o) :
    (stage.share = some o ∧ ∀ s, h.shares[o]? = some s →
      stage'.MayServe h.uploadSlots o s → stage.MayServe h.uploadSlots o s) ∨
    ∃ share auth s, h.lookup accessToken share remote auth = some (o, s) := by
  cases goes_of_serve hserve with
  | lookup request => exact .inr (share_lookupRequest hshare)
  | lacks | busy | notEncoded => exact .inl ⟨hshare, fun _ _ hmay => by cases hmay.2⟩
  | has hs' hlt =>
    refine .inl ⟨hshare, fun s hs hmay => ⟨hmay.1, hmay.2, ?_⟩⟩
    cases hmay.1
    cases hs.symm.trans hs'
    exact hlt
  | slot hfree =>
    exact .inl ⟨hshare, fun _ _ hmay => ⟨hmay, lt_of_lt_of_le hfree (Nat.sub_le _ _)⟩⟩
  | encoded => exact .inl ⟨hshare, fun _ _ hmay => Option.some.inj hmay.1⟩
  | subscribe | snapshot | written | still => exact .inl ⟨hshare, fun _ _ hmay => hmay⟩
  | update => exact .inl ⟨hshare, fun _ _ hmay => hmay.1⟩
  | receive hs' hrecv | lagged hs' hrecv =>
    obtain rfl := Option.some.inj hshare
    refine .inl ⟨rfl, fun s hs _ => ⟨rfl, fun hq => ?_⟩⟩
    -- what was received had been sent
    cases hs.symm.trans hs'
    rw [Broadcast.recv_eq_none.2 hq.1] at hrecv
    cases hrecv
  | answer | broken | gone | abort => cases hshare

end Handler

/-! ## The lists that were given -/

/-- A node, and beside it the list that the last `set_allowed_peers` gave for each share since
it was registered. -/
structure Watched where
  handler : Handler
  given : ShareId → Option (Finset EndpointId)

namespace Watched

def new (uploadSlots : ℕ) : Watched := ⟨.new uploadSlots, fun _ => none⟩

/-- The last `set_allowed_peers` for the share leaves this peer out. -/
def Revoked (w : Watched) (id : ShareId) (peer : EndpointId) : Prop :=
  ∃ allowed, w.given id = some allowed ∧ peer ∉ allowed

/-- What an action makes of the lists; `set_allowed_peers` counts for the share that is being
served. -/
def note (w : Watched) : HandlerAction → ShareId → Option (Finset EndpointId)
  | .register o =>
      match w.handler.shares[o]? with
      | some s =>
          if (w.handler.registry.lookup s.id).isSome then w.given
          else Function.update w.given s.id none
      | none => w.given
  | .setAllowed o peers =>
      match w.handler.shares[o]? with
      | some s =>
          if w.handler.stillRegistered o then Function.update w.given s.id peers else w.given
      | none => w.given
  | _ => w.given

def step (accessToken : List.Vector UInt8 32 → EndpointId → List.Vector UInt8 32) (w : Watched)
    (a : HandlerAction) : Option Watched :=
  (w.handler.step accessToken a).map fun handler => ⟨handler, w.note a⟩

/-- On no stream of a peer that is left out may a frame of the share still be started. -/
def LeavesOutIdle (h : Handler) (id : ShareId) (peers : Option (Finset EndpointId)) : Prop :=
  ∀ allowed, peers = some allowed → ∀ st ∈ h.streams, st.remote ∉ allowed →
    ∀ o s, h.shares[o]? = some s → s.id = id → ¬ st.stage.MayServe h.uploadSlots o s

/-- A step in which `set_allowed_peers`, if it is one, comes when `LeavesOutIdle`. -/
def SafeStep (accessToken : List.Vector UInt8 32 → EndpointId → List.Vector UInt8 32)
    (w : Watched) (a : HandlerAction) (w' : Watched) : Prop :=
  w.step accessToken a = some w' ∧
    ∀ o peers s, a = .setAllowed o peers → w.handler.shares[o]? = some s →
      w.handler.stillRegistered o = true → LeavesOutIdle w.handler s.id peers

/-- Shares are registered under their own ids with the lists that were given, streams are about
shares there are, and frames may be started only for peers that are not left out. -/
structure Inv (w : Watched) : Prop where
  registered : ∀ id o, w.handler.registry.lookup id = some o →
    ∃ s, w.handler.shares[o]? = some s ∧ s.id = id ∧
      ∀ allowed, w.given id = some allowed → s.allowed = some allowed
  known : ∀ st ∈ w.handler.streams, ∀ o, st.stage.share = some o → o < w.handler.shares.length
  served : ∀ st ∈ w.handler.streams, ∀ o s, w.handler.shares[o]? = some s →
    st.stage.MayServe w.handler.uploadSlots o s → ¬ w.Revoked s.id st.remote

variable {w w' : Watched} {h' : Handler}

lemma new_inv (uploadSlots : ℕ) : (new uploadSlots).Inv where
  registered id o h := by simp [new, Handler.new] at h
  known st hst := by cases hst
  served st hst := by cases hst

/-- A peer that is authorized is not left out. -/
lemma not_revoked_of_authorized (hinv : w.Inv) {share : ShareId} {o : ℕ} {s : SharedShare}
    {remote : EndpointId} {auth : Option (List.Vector UInt8 32)}
    (hreg : w.handler.registry.lookup share = some o) (hs : w.handler.shares[o]? = some s)
    (hauth : s.authorized accessToken remote auth = true) : ¬ w.Revoked s.id remote := by
  obtain ⟨s', hs', rfl, hgiven⟩ := hinv.registered share o hreg
  cases hs.symm.trans hs'
  rintro ⟨allowed, hallowed, hnot⟩
  rw [SharedShare.authorized, hgiven allowed hallowed] at hauth
  simp [hnot] at hauth

/-! ## What a step preserves -/

lemma lt_of_lookup {h : Handler} {share : ShareId} {remote : EndpointId}
    {auth : Option (List.Vector UInt8 32)} {o : ℕ} {s : SharedShare}
    (heq : h.lookup accessToken share remote auth = some (o, s)) : o < h.shares.length :=
  (List.getElem?_eq_some_iff.1 (Handler.lookup_eq_some.1 heq).2.1).1

/-- A stream takes a step. -/
lemma Inv.stream (hinv : w.Inv) {k : ℕ} {action : StreamAction}
    (hstep : w.handler.step accessToken (.stream k action) = some h') : Inv ⟨h', w.given⟩ := by
  obtain ⟨st, hst, hmap⟩ := Option.bind_eq_some_iff.1 hstep
  obtain ⟨stage, hserve, rfl⟩ := Option.map_eq_some_iff.1 hmap
  have hold := List.mem_of_getElem? hst
  refine ⟨hinv.registered, fun st' hst' o hshare => ?_, fun st' hst' o s hs hmay => ?_⟩
  · obtain hmem | rfl := List.mem_or_eq_of_mem_set hst'
    · exact hinv.known st' hmem o hshare
    · obtain ⟨hbefore, -⟩ | ⟨share, auth, s, hfind⟩ := Handler.serve_cases hserve hshare
      · exact hinv.known st hold o hbefore
      · exact lt_of_lookup hfind
  · obtain hmem | rfl := List.mem_or_eq_of_mem_set hst'
    · exact hinv.served st' hmem o s hs hmay
    · obtain ⟨-, hbefore⟩ | ⟨share, auth, s', hfind⟩ := Handler.serve_cases hserve hmay.share_eq
      · exact hinv.served st hold o s hs (hbefore s hs hmay)
      · obtain ⟨hreg, hs', hauth⟩ := Handler.lookup_eq_some.1 hfind
        cases hs.symm.trans hs'
        exact not_revoked_of_authorized hinv hreg hs hauth

/-- A share is replaced by one that peers see the same way. -/
lemma Inv.moves (hinv : w.Inv) {o : ℕ} {s s' : SharedShare}
    (hs : w.handler.shares[o]? = some s) (hmoves : s.Moves s') :
    Inv ⟨w.handler.setShare o s', w.given⟩ := by
  have hlt := (List.getElem?_eq_some_iff.1 hs).1
  refine ⟨fun id o' hreg => ?_, fun st hst o' hshare => ?_, fun st hst o' s₁ hs₁ hmay => ?_⟩
  · obtain ⟨s₁, hs₁, hid, hgiven⟩ := hinv.registered id o' hreg
    by_cases ho : o' = o
    · subst ho
      cases hs.symm.trans hs₁
      exact ⟨s', List.getElem?_set_self hlt, hmoves.id_eq.trans hid,
        fun allowed hallowed => hmoves.allowed_eq.trans (hgiven allowed hallowed)⟩
    · exact ⟨s₁, (List.getElem?_set_ne (Ne.symm ho)).trans hs₁, hid, hgiven⟩
  · exact (hinv.known st hst o' hshare).trans_eq List.length_set.symm
  · by_cases ho : o' = o
    · subst ho
      cases (List.getElem?_set_self hlt).symm.trans hs₁
      have hnot := hinv.served st hst o' s hs (hmay.of_moves hmoves)
      rwa [← hmoves.id_eq] at hnot
    · exact hinv.served st hst o' s₁ ((List.getElem?_set_ne (Ne.symm ho)).symm.trans hs₁) hmay

lemma Inv.create (hinv : w.Inv) (s' : SharedShare) :
    Inv ⟨{ w.handler with shares := w.handler.shares ++ [s'] }, w.given⟩ := by
  refine ⟨fun id o hreg => ?_, fun st hst o hshare => ?_, fun st hst o s hs hmay => ?_⟩
  · obtain ⟨s, hs, hid, hgiven⟩ := hinv.registered id o hreg
    have hlt := (List.getElem?_eq_some_iff.1 hs).1
    exact ⟨s, (List.getElem?_append_left hlt).trans hs, hid, hgiven⟩
  · have := hinv.known st hst o hshare
    simp only [List.length_append]
    omega
  · -- no stream is about the new share
    have hlt := hinv.known st hst o hmay.share_eq
    exact hinv.served st hst o s ((List.getElem?_append_left hlt).symm.trans hs) hmay

lemma Inv.accept (hinv : w.Inv) (remote : EndpointId) (request : Request) :
    Inv ⟨{ w.handler with streams := w.handler.streams ++ [⟨remote, .requested request⟩] },
      w.given⟩ := by
  refine ⟨hinv.registered, fun st hst o hshare => ?_, fun st hst o s hs hmay => ?_⟩
  · obtain hmem | hmem := List.mem_append.1 hst
    · exact hinv.known st hmem o hshare
    · cases List.mem_singleton.1 hmem
      cases hshare
  · obtain hmem | hmem := List.mem_append.1 hst
    · exact hinv.served st hmem o s hs hmay
    · cases List.mem_singleton.1 hmem
      cases hmay

/-- An entry is taken out of the registry. -/
lemma Inv.unlist (hinv : w.Inv) (id : ShareId) (registrations : List ℕ) :
    Inv ⟨{ w.handler with
      registry := w.handler.registry.erase id, registrations := registrations }, w.given⟩ := by
  refine ⟨fun id' o hreg => ?_, hinv.known, hinv.served⟩
  by_cases hid : id' = id
  · subst hid
    simp at hreg
  · exact hinv.registered id' o ((AList.lookup_erase_ne hid).symm.trans hreg)

/-- A share is registered; what was given for an earlier one of its id is forgotten. -/
lemma Inv.register (hinv : w.Inv) {o : ℕ} {s : SharedShare} (hs : w.handler.shares[o]? = some s)
    (registrations : List ℕ) :
    Inv ⟨{ w.handler with
      registry := w.handler.registry.insert s.id o, registrations := registrations },
      Function.update w.given s.id none⟩ := by
  refine ⟨fun id o' hreg => ?_, hinv.known, fun st hst o' s₁ hs₁ hmay hrevoked => ?_⟩
  · by_cases hid : id = s.id
    · subst hid
      cases (AList.lookup_insert _).symm.trans hreg
      exact ⟨s, hs, rfl, fun allowed h => by simp at h⟩
    · obtain ⟨s₁, hs₁, hid₁, hgiven⟩ :=
        hinv.registered id o' ((AList.lookup_insert_ne hid).symm.trans hreg)
      exact ⟨s₁, hs₁, hid₁, by simpa [Function.update_of_ne hid] using hgiven⟩
  · obtain ⟨allowed, hallowed, hnot⟩ := hrevoked
    simp only at hallowed
    by_cases hid : s₁.id = s.id
    · rw [hid, Function.update_self] at hallowed
      cases hallowed
    · rw [Function.update_of_ne hid] at hallowed
      exact hinv.served st hst o' s₁ hs₁ hmay ⟨allowed, hallowed, hnot⟩

lemma stillRegistered_iff {h : Handler} {o : ℕ} {s : SharedShare} (hs : h.shares[o]? = some s) :
    h.stillRegistered o = true ↔ h.registry.lookup s.id = some o := by
  rw [Handler.stillRegistered, hs]
  exact decide_eq_true_iff

/-- A share is given a list, while no peer it leaves out may still be served. -/
lemma Inv.setAllowed (hinv : w.Inv) {o : ℕ} {s : SharedShare}
    {peers : Option (Finset EndpointId)} (hs : w.handler.shares[o]? = some s)
    (hsafe : w.handler.stillRegistered o = true → LeavesOutIdle w.handler s.id peers) :
    Inv ⟨w.handler.setShare o { s with allowed := peers },
      if w.handler.stillRegistered o then Function.update w.given s.id peers else w.given⟩ := by
  have hlt := (List.getElem?_eq_some_iff.1 hs).1
  refine ⟨fun id o' hreg => ?_, fun st hst o' hshare => ?_, fun st hst o' s₁ hs₁ hmay => ?_⟩
  · obtain ⟨s₁, hs₁, rfl, hgiven⟩ := hinv.registered id o' hreg
    by_cases ho : o' = o
    · subst ho
      cases hs.symm.trans hs₁
      refine ⟨_, List.getElem?_set_self hlt, rfl, fun allowed hallowed => ?_⟩
      dsimp only at hallowed
      rwa [if_pos ((stillRegistered_iff hs).2 hreg), Function.update_self] at hallowed
    · refine ⟨s₁, (List.getElem?_set_ne (Ne.symm ho)).trans hs₁, rfl, fun allowed hallowed => ?_⟩
      dsimp only at hallowed
      split_ifs at hallowed with hstill
      · -- the entry of an id is one share
        have hid : s₁.id ≠ s.id := by
          intro heq
          have hreg' := (stillRegistered_iff hs).1 hstill
          rw [← heq] at hreg'
          exact ho (Option.some.inj (hreg.symm.trans hreg'))
        rw [Function.update_of_ne hid] at hallowed
        exact hgiven allowed hallowed
      · exact hgiven allowed hallowed
  · exact (hinv.known st hst o' hshare).trans_eq List.length_set.symm
  · obtain ⟨s₂, hs₂, hid, hmay₂⟩ : ∃ s₂, w.handler.shares[o']? = some s₂ ∧ s₁.id = s₂.id ∧
        st.stage.MayServe w.handler.uploadSlots o' s₂ := by
      by_cases ho : o' = o
      · subst ho
        cases (List.getElem?_set_self hlt).symm.trans hs₁
        exact ⟨s, hs, rfl, hmay.of_allowed⟩
      · exact ⟨s₁, (List.getElem?_set_ne (Ne.symm ho)).symm.trans hs₁, rfl, hmay⟩
    rintro ⟨allowed, hallowed, hnot⟩
    have hbefore := hinv.served st hst o' s₂ hs₂ hmay₂
    dsimp only at hallowed
    rw [hid] at hallowed
    split_ifs at hallowed with hstill
    · by_cases hsame : s₂.id = s.id
      · rw [hsame, Function.update_self] at hallowed
        exact hsafe hstill allowed hallowed st hst hnot o' s₂ hs₂ hsame hmay₂
      · rw [Function.update_of_ne hsame] at hallowed
        exact hbefore ⟨allowed, hallowed, hnot⟩
    · exact hbefore ⟨allowed, hallowed, hnot⟩

lemma Inv.step {a : HandlerAction} (hinv : w.Inv) (hstep : SafeStep accessToken w a w') :
    w'.Inv := by
  obtain ⟨hmap, hsafe⟩ := hstep
  obtain ⟨h', hstep, rfl⟩ := Option.map_eq_some_iff.1 hmap
  cases a with
  | create id manifestBytes secret held =>
    cases hstep
    exact hinv.create _
  | register o =>
    obtain ⟨s, hs, hif⟩ := Option.bind_eq_some_iff.1 hstep
    rw [note, hs]
    split_ifs at hif with hlisted
    · cases hif
      simpa only [hlisted, if_true] using hinv
    · cases hif
      simpa only [hlisted, Bool.false_eq_true, if_false] using hinv.register hs _
  | drop o =>
    obtain ⟨s, hs, hif⟩ := Option.bind_eq_some_iff.1 hstep
    split_ifs at hif with hmem hstill
    · cases hif
      exact hinv.unlist _ _
    · cases hif
      exact ⟨hinv.registered, hinv.known, hinv.served⟩
  | remove id =>
    cases hstep
    exact hinv.unlist _ _
  | setAllowed o peers =>
    -- the one step that the condition is about
    obtain ⟨s, hs, heq⟩ := Option.bind_eq_some_iff.1 hstep
    cases heq
    rw [note, hs]
    exact hinv.setAllowed hs (hsafe o peers s rfl hs)
  | mark o piece =>
    obtain ⟨s, hs, hmap⟩ := Option.bind_eq_some_iff.1 hstep
    obtain ⟨s', hs', rfl⟩ := Option.map_eq_some_iff.1 hmap
    exact hinv.moves hs (SharedShare.moves_mark hs')
  | send o piece =>
    obtain ⟨s, hs, hmap⟩ := Option.bind_eq_some_iff.1 hstep
    obtain ⟨s', hs', rfl⟩ := Option.map_eq_some_iff.1 hmap
    exact hinv.moves hs (SharedShare.moves_send hs')
  | accept remote request =>
    cases hstep
    exact hinv.accept remote request
  | stream k action => exact hinv.stream hstep

/-- In every run in which `set_allowed_peers` leaves out no peer with a stream of the share on
which a frame may still be started, no frame that is about to start carries anything of a share
to a peer that its last `set_allowed_peers` leaves out. -/
theorem revoked_get_nothing {uploadSlots : ℕ} {actions : List HandlerAction}
    (hrun : Run (SafeStep accessToken) (new uploadSlots) actions w) {st : Stream}
    (hst : st ∈ w.handler.streams) {o : ℕ} {msg : Response}
    (hpending : st.stage.pending = some (some o, msg)) (hcontent : msg.isContent = true) :
    ∃ s, w.handler.shares[o]? = some s ∧ ¬ w.Revoked s.id st.remote := by
  have hinv : w.Inv := hrun.invariant (fun _ _ _ hinv => hinv.step) (new_inv uploadSlots)
  have hshare : st.stage.share = some o := by
    cases hstage : st.stage <;> rw [hstage] at hpending <;> cases hpending <;> rfl
  have hlt := hinv.known st hst o hshare
  refine ⟨w.handler.shares[o], List.getElem?_eq_getElem hlt, ?_⟩
  refine hinv.served st hst o _ (List.getElem?_eq_getElem hlt) ?_
  cases hstage : st.stage with
  | answering o' response =>
    rw [hstage] at hpending
    cases hpending
    exact ⟨rfl, hcontent⟩
  | updating o' next msg' =>
    rw [hstage] at hpending
    cases hpending
    rfl
  | _ =>
    rw [hstage] at hpending
    cases hpending

/-! ## A peer that is revoked while it is being served -/

namespace Revoking

def id : ShareId := List.Vector.replicate 32 1

def peer : EndpointId := List.Vector.replicate 32 2

def member : EndpointId := List.Vector.replicate 32 3

def token (secret : List.Vector UInt8 32) (_ : EndpointId) : List.Vector UInt8 32 := secret

/-- A peer subscribes to a share. -/
def subscribed (held : List Bool) : List HandlerAction :=
  [.create id [7] none held, .register 0, .accept peer (.subscribe id none), .stream 0 .lookup,
    .stream 0 .subscribe, .stream 0 .snapshot, .stream 0 .start, .stream 0 (.written true)]

/-- It asks for the first of two pieces; then nobody may download any more, the second piece
arrives and there is a free upload slot. -/
def tooLate : List HandlerAction :=
  [.accept peer (.piece id none 0), .stream 1 .lookup, .stream 1 .check,
    .setAllowed 0 (some ∅), .mark 0 1, .send 0 1, .stream 0 .receive, .stream 1 .slot,
    .stream 1 (.encoded (some [9]))]

/-- Another peer subscribes. -/
def inTime : List HandlerAction :=
  [.accept member (.subscribe id none), .stream 1 .lookup, .stream 1 .subscribe,
    .stream 1 .snapshot]

end Revoking

open Revoking

/-- A frame of a subscription and a piece are about to start for a peer that may not download
any more. -/
theorem revoked_get_frames : ∃ w, Run (fun w a w' => w.step token a = some w') (new 1)
    (subscribed [true, false] ++ tooLate) w ∧ w.Revoked Revoking.id peer ∧
    w.handler.shares.map (·.id) = [Revoking.id] ∧
    w.handler.streams = [⟨peer, .updating 0 1 (.«have» 1)⟩,
      ⟨peer, .answering (some 0) (.piece [9])⟩] := by
  have hexec : (Run.exec (step token) (new 1) (subscribed [true, false] ++ tooLate)).map (fun w =>
      (w.given Revoking.id, w.handler.shares.map (·.id), w.handler.streams)) =
      some (some ∅, [Revoking.id], [⟨peer, .updating 0 1 (.«have» 1)⟩,
        ⟨peer, .answering (some 0) (.piece [9])⟩]) := rfl
  obtain ⟨w, hexec, hw⟩ := Option.map_eq_some_iff.1 hexec
  simp only [Prod.mk.injEq] at hw
  obtain ⟨hgiven, hshares, hstreams⟩ := hw
  exact ⟨w, Run.of_exec hexec, ⟨∅, hgiven, Finset.notMem_empty peer⟩, hshares, hstreams⟩

/-- Steps that change no list are safe. -/
lemma safe_of_run {actions : List HandlerAction}
    (hrun : Run (fun w a w' => w.step accessToken a = some w') w actions w')
    (hkeep : ∀ a ∈ actions, ∀ o peers, a ≠ .setAllowed o peers) :
    Run (SafeStep accessToken) w actions w' := by
  induction hrun with
  | nil w => exact .nil w
  | cons hstep _ ih =>
    refine .cons ⟨hstep, fun o peers _ heq => ?_⟩
      (ih fun a ha => hkeep a (List.mem_cons_of_mem _ ha))
    exact absurd heq (hkeep _ List.mem_cons_self o peers)

/-- A peer that has heard of everything is left out while another is about to be told. -/
theorem revoked_get_nothing_in_time : ∃ w : Watched, w.Revoked Revoking.id peer ∧
    w.handler.streams = [⟨peer, .listening 0 0⟩, ⟨member, .updating 0 0 (.bitfield [1])⟩] ∧
    ∃ s, w.handler.shares[0]? = some s ∧ ¬ w.Revoked s.id member := by
  have hexec : (Run.exec (step token) (new 1) (subscribed [true] ++ inTime)).map (fun w =>
      (w.handler.shares, w.handler.streams, w.handler.registry.lookup Revoking.id)) =
      some ([.new Revoking.id [7] none [true]], [⟨peer, .listening 0 0⟩,
        ⟨member, .updating 0 0 (.bitfield [1])⟩], some 0) := rfl
  obtain ⟨w, hexec, hw⟩ := Option.map_eq_some_iff.1 hexec
  simp only [Prod.mk.injEq] at hw
  obtain ⟨hshares, hstreams, hreg⟩ := hw
  have hs : w.handler.shares[0]? = some (.new Revoking.id [7] none [true]) := by rw [hshares]; rfl
  have hstill : w.handler.stillRegistered 0 = true := (stillRegistered_iff hs).2 hreg
  have hrun : Run (SafeStep token) (new 1) (subscribed [true] ++ inTime) w :=
    safe_of_run (Run.of_exec hexec) (by simp [subscribed, inTime])
  obtain ⟨w', hstep⟩ : ∃ w', w.step token (.setAllowed 0 (some {member})) = some w' := by
    rw [step, Handler.step, hs]
    exact ⟨_, rfl⟩
  have hw' : w' = ⟨w.handler.setShare 0 { SharedShare.new Revoking.id [7] none [true] with
      allowed := some {member} }, Function.update w.given Revoking.id (some {member})⟩ := by
    rw [step, Handler.step, note, hs] at hstep
    simp only [hstill] at hstep
    exact (Option.some.inj hstep).symm
  have hidle : LeavesOutIdle w.handler Revoking.id (some {member}) := by
    intro allowed hallowed st hst hnot o s hs' _ hmay
    cases hallowed
    rw [hstreams] at hst
    rcases List.mem_pair.1 hst with rfl | rfl
    · obtain ⟨rfl, hbusy⟩ := hmay
      cases hs.symm.trans hs'
      exact hbusy (by decide)
    · exact hnot (Finset.mem_singleton_self member)
  have hsafe : SafeStep token w (.setAllowed 0 (some {member})) w' := by
    refine ⟨hstep, fun o peers s heq hs' _ => ?_⟩
    cases heq
    cases hs.symm.trans hs'
    exact hidle
  have hstreams' : w'.handler.streams = w.handler.streams := by rw [hw', Handler.setShare]
  have hst : ⟨member, .updating 0 0 (.bitfield [1])⟩ ∈ w'.handler.streams := by
    rw [hstreams', hstreams]
    exact List.mem_pair.2 (.inr rfl)
  refine ⟨w', ⟨{member}, ?_, by decide⟩, hstreams'.trans hstreams, ?_⟩
  · rw [hw']
    dsimp only
    rw [Function.update_self]
  · exact revoked_get_nothing (hrun.snoc hsafe) hst rfl rfl

end Watched

end Chorrent
