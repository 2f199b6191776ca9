/-
# Unauthorized peers cannot probe

A node is compared with one that does the same, but for what concerns some hidden shares, which
its registry lacks.  A stream whose request none of these shares authorizes is given the same
answers by both, step by step.  Upload slots are all that streams share: while an upload of a
hidden share to somebody else holds one, a stream may have to wait for longer.
-/
import Chorrent.Handler.Revoke

namespace Chorrent

open Lib

/-- The share a request is about. -/
def Request.share : Request → ShareId
  | .manifest share _ | .subscribe share _ | .piece share _ _ => share

/-- The token a request comes with. -/
def Request.auth : Request → Option (List.Vector UInt8 32)
  | .manifest _ auth | .subscribe _ auth | .piece _ auth _ => auth

/-- What is seen of a stream, by its number. -/
inductive Seen where
  | asked (stream : ℕ) (remote : EndpointId) (request : Request)
  /-- What the stream does next, and the frame that it starts then. -/
  | served (stream : ℕ) (action : StreamAction) (frame : Option Response)

namespace Handler

variable (accessToken : List.Vector UInt8 32 → EndpointId → List.Vector UInt8 32)

section View

variable (watched : ℕ → EndpointId → Prop) [∀ k remote, Decidable (watched k remote)]

/-- What is seen of a step by those who watch some streams. -/
def view (h : Handler) : HandlerAction → List Seen
  | .accept remote request =>
      if watched h.streams.length remote then [.asked h.streams.length remote request] else []
  | .stream k action =>
      match h.streams[k]? with
      | none => []
      | some st =>
          if watched k st.remote then
            [.served k action (if action = .start then st.stage.pending.map Prod.snd else none)]
          else []
  | _ => []

end View

/-- No share of `hidden` authorizes a request of a watched stream when it is looked up. -/
def Unauthorized (hidden : Set ℕ) (watched : ℕ → EndpointId → Prop) (h : Handler) :
    HandlerAction → Prop
  | .stream k .lookup => ∀ remote request, h.streams[k]? = some ⟨remote, .requested request⟩ →
      watched k remote → ∀ o ∈ hidden, ∀ s, h.shares[o]? = some s →
        s.authorized accessToken remote request.auth = false
  | _ => True

/-- What a node that lacks the hidden shares has no part in: one of them is registered or
unregistered, a registration is refused because of one, a stream that found one goes on. -/
def LeftOut (hidden : Set ℕ) (h : Handler) : HandlerAction → Prop
  | .register o => o ∈ hidden ∨ ∃ s o', h.shares[o]? = some s ∧
      h.registry.lookup s.id = some o' ∧ o' ∈ hidden
  | .drop o => o ∈ hidden
  | .stream k _ => ∃ st o, h.streams[k]? = some st ∧ st.stage.share = some o ∧ o ∈ hidden
  | _ => False

/-- A wait for an upload slot ends without one only while no hidden share is uploaded to anybody
who is not watched. -/
def Uncontended (hidden : Set ℕ) (watched : ℕ → EndpointId → Prop) (h : Handler) :
    HandlerAction → Prop
  | .stream k .slotTimeout => ¬ h.LeftOut hidden (.stream k .slotTimeout) →
      ∀ (j : ℕ) st o, h.streams[j]? = some st → st.stage.holdsSlot = true →
        st.stage.share = some o → o ∈ hidden → watched j st.remote
  | _ => True

/-- Every stream is watched. -/
def Alone (watched : ℕ → EndpointId → Prop) (h : Handler) : Prop :=
  ∀ (j : ℕ) st, h.streams[j]? = some st → watched j st.remote

end Handler

/-- Two nodes that are asked the same. -/
structure Twins where
  node : Handler
  /-- The node that lacks the hidden shares. -/
  other : Handler

namespace Twins

/-- Both nodes do the same, except for what the second one has no part in. -/
inductive Step (accessToken : List.Vector UInt8 32 → EndpointId → List.Vector UInt8 32)
    (hidden : Set ℕ) : Twins → HandlerAction → Twins → Prop
  | both {h h' b b' : Handler} {a : HandlerAction} (hin : ¬ h.LeftOut hidden a)
      (hnode : h.step accessToken a = some h') (hother : b.step accessToken a = some b') :
      Step accessToken hidden ⟨h, b⟩ a ⟨h', b'⟩
  | leftOut {h h' b : Handler} {a : HandlerAction} (hout : h.LeftOut hidden a)
      (hnode : h.step accessToken a = some h') : Step accessToken hidden ⟨h, b⟩ a ⟨h', b⟩

/-- What is seen of a step of the one node is seen of the other. -/
def Alike (hidden : Set ℕ) (watched : ℕ → EndpointId → Prop)
    [∀ k remote, Decidable (watched k remote)] (t : Twins) (a : HandlerAction) : Prop :=
  (t.node.LeftOut hidden a → t.node.view watched a = []) ∧
    (¬ t.node.LeftOut hidden a → t.other.view watched a = t.node.view watched a)

/-- The registries differ by the hidden shares only. -/
def Apart (hidden : Set ℕ) (t : Twins) : Prop :=
  ∀ id o, t.other.registry.lookup id = some o ↔ t.node.registry.lookup id = some o ∧ o ∉ hidden

end Twins

namespace Handler

/-! ## The node without the hidden shares -/

/-- `b` is like `h`, except that its registry lacks the hidden shares.  A stream that `h`
serves from one of them has been answered `NotFound` by `b`. -/
structure Shadows (hidden : Set ℕ) (watched : ℕ → EndpointId → Prop) (h b : Handler) : Prop where
  shares : b.shares = h.shares
  registry : ∀ id o, b.registry.lookup id = some o ↔ h.registry.lookup id = some o ∧ o ∉ hidden
  registrations : ∀ o ∉ hidden, b.registrations.count o = h.registrations.count o
  slots : b.uploadSlots = h.uploadSlots
  length : b.streams.length = h.streams.length
  streams : ∀ (k : ℕ) st, h.streams[k]? = some st →
    (b.streams[k]? = some st ∧ ∀ o, st.stage.share = some o → o ∉ hidden) ∨
      (¬ watched k st.remote ∧ b.streams[k]? = some ⟨st.remote, .answering none .notFound⟩ ∧
        (st.stage = .ended ∨ ∃ o ∈ hidden, st.stage.share = some o))

variable {accessToken} {hidden : Set ℕ} {watched : ℕ → EndpointId → Prop} {h h' b : Handler}

lemma countP_le_of_getElem? {α : Type} {p : α → Bool} : ∀ {l l' : List α}, l'.length = l.length →
    (∀ (k : ℕ) a a', l[k]? = some a → l'[k]? = some a' → p a' = true → p a = true) →
    l'.countP p ≤ l.countP p := by
  intro l
  induction l with
  | nil =>
    intro l' hlen _
    rw [List.length_eq_zero_iff.1 hlen]
  | cons a l ih =>
    intro l' hlen himp
    cases l' with
    | nil => cases hlen
    | cons a' l' =>
      have hle := ih (Nat.succ.inj hlen) fun k => himp (k + 1)
      have hhead := himp 0 a a' rfl rfl
      rw [List.countP_cons, List.countP_cons]
      split_ifs with ha' ha
      · omega
      · exact absurd (hhead ha') ha
      · omega
      · omega

/-- The other streams leave no fewer slots free. -/
lemma Shadows.freeSlots_le (hs : Shadows hidden watched h b) : h.freeSlots ≤ b.freeSlots := by
  have hcount : b.streams.countP (·.stage.holdsSlot) ≤ h.streams.countP (·.stage.holdsSlot) := by
    refine countP_le_of_getElem? hs.length fun k st st' hst hst' hholds => ?_
    rcases hs.streams k st hst with ⟨hsame, -⟩ | ⟨-, hother, -⟩
    · rw [hsame, Option.some.injEq] at hst'
      rwa [hst']
    · rw [hother, Option.some.injEq] at hst'
      rw [← hst'] at hholds
      cases hholds
  rw [freeSlots, freeSlots, hs.slots]
  omega

/-- If no hidden share is uploaded to anybody who is not watched, they leave no more. -/
lemma Shadows.le_freeSlots (hs : Shadows hidden watched h b)
    (hfree : ∀ (j : ℕ) st o, h.streams[j]? = some st → st.stage.holdsSlot = true →
      st.stage.share = some o → o ∈ hidden → watched j st.remote) : b.freeSlots ≤ h.freeSlots := by
  have hcount : h.streams.countP (·.stage.holdsSlot) ≤ b.streams.countP (·.stage.holdsSlot) := by
    refine countP_le_of_getElem? hs.length.symm fun k st st' hst hst' hholds => ?_
    rcases hs.streams k st' hst' with ⟨hsame, -⟩ | ⟨hnot, -, hended | ⟨o, ho, hshare⟩⟩
    · rw [hsame, Option.some.injEq] at hst
      rwa [← hst]
    · rw [hended] at hholds
      cases hholds
    · exact absurd (hfree k st' o hst' hholds hshare ho) hnot
  rw [freeSlots, freeSlots, hs.slots]
  omega

/-- What is not registered with the one node is not registered with the other. -/
lemma Shadows.registry_eq_none (hs : Shadows hidden watched h b) {id : ShareId}
    (hnone : h.registry.lookup id = none) : b.registry.lookup id = none := by
  rw [Option.eq_none_iff_forall_ne_some]
  intro o ho
  rw [((hs.registry id o).1 ho).1] at hnone
  cases hnone

variable (accessToken) in
/-- A lookup that finds a share that is not hidden finds it on both nodes; one that finds a
hidden share or none finds none. -/
lemma Shadows.lookup_eq (hs : Shadows hidden watched h b) (share : ShareId) (remote : EndpointId)
    (auth : Option (List.Vector UInt8 32)) :
    (∃ o s, h.lookup accessToken share remote auth = some (o, s) ∧ o ∈ hidden ∧
      h.shares[o]? = some s ∧ s.authorized accessToken remote auth = true ∧
        b.lookup accessToken share remote auth = none) ∨
    (b.lookup accessToken share remote auth = h.lookup accessToken share remote auth ∧
      ∀ o s, h.lookup accessToken share remote auth = some (o, s) → o ∉ hidden) := by
  cases hreg : h.registry.lookup share with
  | none =>
    have hb := hs.registry_eq_none hreg
    exact .inr ⟨by simp [lookup, hreg, hb], by simp [lookup, hreg]⟩
  | some o =>
    by_cases ho : o ∈ hidden
    · have hb : b.registry.lookup share = none := by
        rw [Option.eq_none_iff_forall_ne_some]
        intro o' ho'
        obtain ⟨heq, hnot⟩ := (hs.registry share o').1 ho'
        obtain rfl : o = o' := Option.some.inj (hreg.symm.trans heq)
        exact hnot ho
      have hnone : b.lookup accessToken share remote auth = none := by simp [lookup, hb]
      cases hshare : h.shares[o]? with
      | none => exact .inr ⟨by simp [lookup, hreg, hb, hshare], by simp [lookup, hreg, hshare]⟩
      | some s =>
        cases hauth : s.authorized accessToken remote auth with
        | true =>
          exact .inl ⟨o, s, by simp [lookup, hreg, hshare, hauth], ho, hshare, hauth, hnone⟩
        | false =>
          exact .inr ⟨by simp [lookup, hreg, hb, hshare, hauth],
            by simp [lookup, hreg, hshare, hauth]⟩
    · have hb : b.registry.lookup share = some o := (hs.registry share o).2 ⟨hreg, ho⟩
      refine .inr ⟨by simp [lookup, hreg, hb, hs.shares], fun o' s hlookup => ?_⟩
      rwa [← Option.some.inj (hreg.symm.trans (lookup_eq_some.1 hlookup).1)]

/-- Every request is looked up in the same way, and `NotFound` is the answer if there is no
share for it. -/
lemma lookupRequest_eq (accessToken : List.Vector UInt8 32 → EndpointId → List.Vector UInt8 32)
    (remote : EndpointId) (request : Request) :
    ∃ found : ℕ × SharedShare → StreamStage, (∀ r, (found r).share = some r.1) ∧
      ∀ h : Handler, h.lookupRequest accessToken remote request =
        ((h.lookup accessToken request.share remote request.auth).map found).getD
          (.answering none .notFound) := by
  cases request with
  | manifest share auth =>
    refine ⟨fun r => .answering (some r.1) (.manifest r.2.manifestBytes), fun _ => rfl, fun h => ?_⟩
    cases hlookup : h.lookup accessToken share remote auth <;>
      simp [lookupRequest, Request.share, Request.auth, hlookup]
  | subscribe share auth =>
    refine ⟨fun r => .subscribing r.1, fun _ => rfl, fun h => ?_⟩
    cases hlookup : h.lookup accessToken share remote auth <;>
      simp [lookupRequest, Request.share, Request.auth, hlookup]
  | piece share auth index =>
    refine ⟨fun r => .checking r.1 index.toNat, fun _ => rfl, fun h => ?_⟩
    cases hlookup : h.lookup accessToken share remote auth <;>
      simp [lookupRequest, Request.share, Request.auth, hlookup]

variable (accessToken) in
/-- What the lookup of a request leads to, on both nodes. -/
lemma Shadows.lookupRequest_eq (hs : Shadows hidden watched h b) (remote : EndpointId)
    (request : Request) :
    (∃ o ∈ hidden, ∃ s, h.shares[o]? = some s ∧
      s.authorized accessToken remote request.auth = true ∧
        (h.lookupRequest accessToken remote request).share = some o ∧
          b.lookupRequest accessToken remote request = .answering none .notFound) ∨
    (b.lookupRequest accessToken remote request = h.lookupRequest accessToken remote request ∧
      ∀ o, (h.lookupRequest accessToken remote request).share = some o → o ∉ hidden) := by
  obtain ⟨found, hshare', hfound⟩ := Handler.lookupRequest_eq accessToken remote request
  rw [hfound h, hfound b]
  rcases hs.lookup_eq accessToken request.share remote request.auth with
    ⟨o, s, hlookup, ho, hshare, hauth, hnone⟩ | ⟨heq, hvisible⟩
  · refine .inl ⟨o, ho, s, hshare, hauth, ?_, by rw [hnone]; rfl⟩
    rw [hlookup, Option.map_some, Option.getD_some, hshare']
  · refine .inr ⟨by rw [heq], fun o ho => ?_⟩
    cases hlookup : h.lookup accessToken request.share remote request.auth with
    | none =>
      rw [hlookup] at ho
      cases ho
    | some r =>
      rw [hlookup, Option.map_some, Option.getD_some, hshare', Option.some.injEq] at ho
      exact ho ▸ hvisible r.1 r.2 hlookup

/-! ## Steps -/

/-- A share that is not hidden is registered with both nodes or with none. -/
lemma Shadows.stillRegistered_eq (hs : Shadows hidden watched h b) {o : ℕ} (ho : o ∉ hidden) :
    b.stillRegistered o = h.stillRegistered o := by
  rw [stillRegistered, stillRegistered, hs.shares]
  cases h.shares[o]? with
  | none => rfl
  | some s =>
    refine decide_eq_decide.2 ?_
    rw [hs.registry]
    exact and_iff_left ho

/-- A stream that is served from a share that is not hidden goes on in the same way. -/
lemma Shadows.serve_eq (hs : Shadows hidden watched h b) {remote : EndpointId}
    {stage stage' : StreamStage} {action : StreamAction}
    (hvisible : ∀ o, stage.share = some o → o ∉ hidden)
    (hrequest : ∀ request, stage = .requested request → action ≠ .lookup)
    (hwait : action = .slotTimeout → b.freeSlots ≤ h.freeSlots)
    (hserve : h.serve accessToken remote stage action = some stage') :
    b.serve accessToken remote stage action = some stage' ∧
      ∀ o, stage'.share = some o → o ∉ hidden := by
  have hshares : ∀ {o : ℕ} {s : SharedShare}, h.shares[o]? = some s → b.shares[o]? = some s :=
    fun hs' => by rw [hs.shares, hs']
  cases goes_of_serve hserve with
  | lookup request => exact absurd rfl (hrequest request rfl)
  | lacks hs' hlacks => exact ⟨Goes.serve_eq (.lacks (hshares hs') hlacks), hvisible⟩
  | has hs' hlt hhas => exact ⟨Goes.serve_eq (.has (hshares hs') hlt hhas), hvisible⟩
  | slot hfree => exact ⟨Goes.serve_eq (.slot (hfree.trans_le hs.freeSlots_le)), hvisible⟩
  | busy hfull =>
    exact ⟨Goes.serve_eq (.busy (Nat.le_zero.1 ((hwait rfl).trans_eq hfull))), hvisible⟩
  | encoded | notEncoded | update | written => exact ⟨rfl, hvisible⟩
  | answer | broken => exact ⟨rfl, fun o ho => by cases ho⟩
  | subscribe hs' => exact ⟨Goes.serve_eq (.subscribe (hshares hs')), hvisible⟩
  | snapshot hs' => exact ⟨Goes.serve_eq (.snapshot (hshares hs')), hvisible⟩
  | receive hs' hrecv => exact ⟨Goes.serve_eq (.receive (hshares hs') hrecv), hvisible⟩
  | lagged hs' hrecv => exact ⟨Goes.serve_eq (.lagged (hshares hs') hrecv), hvisible⟩
  | still hstill =>
    exact ⟨Goes.serve_eq (.still ((hs.stillRegistered_eq (hvisible _ rfl)).trans hstill)), hvisible⟩
  | gone hgone =>
    exact ⟨Goes.serve_eq (.gone ((hs.stillRegistered_eq (hvisible _ rfl)).trans hgone)),
      fun o ho => by cases ho⟩
  | abort => exact ⟨Goes.serve_eq .abort, fun o ho => by cases ho⟩

/-- A stream that found a share stays with it to its end. -/
lemma share_serve {remote : EndpointId} {stage stage' : StreamStage} {action : StreamAction}
    {o : ℕ} (hserve : h.serve accessToken remote stage action = some stage')
    (hshare : stage.share = some o) : stage'.share = some o ∨ stage' = .ended := by
  cases goes_of_serve hserve with
  | lookup => cases hshare
  | answer | broken | gone | abort => exact .inr rfl
  | _ => exact .inl hshare

/-- A stream that ended can only end again. -/
lemma serve_ended {remote : EndpointId} {stage : StreamStage} {action : StreamAction}
    (hserve : h.serve accessToken remote .ended action = some stage) :
    action = .abort ∧ stage = .ended := by
  cases goes_of_serve hserve with
  | abort => exact ⟨rfl, rfl⟩

/-- Stream `k` is replaced on the one node, and on the other it is this. -/
lemma Shadows.setStream (hs : Shadows hidden watched h b) {k : ℕ} {st : Stream}
    {streams : List Stream} (hlen : streams.length = b.streams.length)
    (hother : ∀ j : ℕ, j ≠ k → streams[j]? = b.streams[j]?)
    (hst : (streams[k]? = some st ∧ ∀ o, st.stage.share = some o → o ∉ hidden) ∨
      (¬ watched k st.remote ∧ streams[k]? = some ⟨st.remote, .answering none .notFound⟩ ∧
        (st.stage = .ended ∨ ∃ o ∈ hidden, st.stage.share = some o))) :
    Shadows hidden watched { h with streams := h.streams.set k st } { b with streams } where
  shares := hs.shares
  registry := hs.registry
  registrations := hs.registrations
  slots := hs.slots
  length := (hlen.trans hs.length).trans List.length_set.symm
  streams j st' hst' := by
    by_cases hj : j = k
    · subst hj
      rw [List.getElem?_set_self'] at hst'
      obtain ⟨_, -, rfl⟩ := Option.map_eq_some_iff.1 hst'
      exact hst
    · rw [List.getElem?_set_ne (Ne.symm hj)] at hst'
      rw [hother j hj]
      exact hs.streams j st' hst'

lemma Shadows.setShare (hs : Shadows hidden watched h b) (o : ℕ) (s : SharedShare) :
    Shadows hidden watched (h.setShare o s) (b.setShare o s) :=
  ⟨congrArg (List.set · o s) hs.shares, hs.registry, hs.registrations, hs.slots, hs.length,
    hs.streams⟩

/-- An entry leaves both registries. -/
lemma Shadows.registry_erase (hs : Shadows hidden watched h b) (share id : ShareId) (o : ℕ) :
    (b.registry.erase share).lookup id = some o ↔
      (h.registry.erase share).lookup id = some o ∧ o ∉ hidden := by
  by_cases hid : id = share
  · subst hid
    simp only [AList.lookup_erase, reduceCtorEq, false_and]
  · rw [AList.lookup_erase_ne hid, AList.lookup_erase_ne hid]
    exact hs.registry id o

/-- A share is registered; if it is hidden, only with the one node. -/
lemma Shadows.register (hs : Shadows hidden watched h b) {o : ℕ} {s : SharedShare}
    (hnew : h.registry.lookup s.id = none) :
    (o ∉ hidden → Shadows hidden watched
      { h with registry := h.registry.insert s.id o, registrations := h.registrations ++ [o] }
      { b with registry := b.registry.insert s.id o, registrations := b.registrations ++ [o] }) ∧
    (o ∈ hidden → Shadows hidden watched
      { h with registry := h.registry.insert s.id o, registrations := h.registrations ++ [o] }
      b) := by
  have hnone := Option.eq_none_iff_forall_ne_some.1 (hs.registry_eq_none hnew)
  refine ⟨fun ho => ⟨hs.shares, fun id o' => ?_, fun o' ho' => ?_, hs.slots, hs.length,
    hs.streams⟩, fun ho => ⟨hs.shares, fun id o' => ?_, fun o' ho' => ?_, hs.slots, hs.length,
    hs.streams⟩⟩
  · by_cases hid : id = s.id
    · subst hid
      simp only [AList.lookup_insert, Option.some.injEq]
      exact ⟨fun heq => ⟨heq, heq ▸ ho⟩, And.left⟩
    · rw [AList.lookup_insert_ne hid, AList.lookup_insert_ne hid]
      exact hs.registry id o'
  · rw [List.count_append, List.count_append, hs.registrations o' ho']
  · by_cases hid : id = s.id
    · subst hid
      simp only [AList.lookup_insert, Option.some.injEq]
      refine ⟨fun heq => absurd heq (hnone o'), ?_⟩
      rintro ⟨rfl, hnot⟩
      exact absurd ho hnot
    · rw [AList.lookup_insert_ne hid]
      exact hs.registry id o'
  · rw [List.count_append, hs.registrations o' ho', List.count_singleton,
      if_neg (by simpa using fun heq : o = o' => ho' (heq ▸ ho)), Nat.add_zero]

/-- A registration is dropped; if its share is hidden, only on the one node. -/
lemma Shadows.drop (hs : Shadows hidden watched h b) {o : ℕ} {s : SharedShare}
    (hshare : h.shares[o]? = some s) :
    (o ∉ hidden → Shadows hidden watched
      { h with
        registrations := h.registrations.erase o
        registry := if h.stillRegistered o then h.registry.erase s.id else h.registry }
      { b with
        registrations := b.registrations.erase o
        registry := if b.stillRegistered o then b.registry.erase s.id else b.registry }) ∧
    (o ∈ hidden → Shadows hidden watched
      { h with
        registrations := h.registrations.erase o
        registry := if h.stillRegistered o then h.registry.erase s.id else h.registry } b) := by
  refine ⟨fun ho => ⟨hs.shares, fun id o' => ?_, fun o' ho' => ?_, hs.slots, hs.length,
    hs.streams⟩, fun ho => ⟨hs.shares, fun id o' => ?_, fun o' ho' => ?_, hs.slots, hs.length,
    hs.streams⟩⟩
  · simp only [hs.stillRegistered_eq ho]
    split_ifs
    · exact hs.registry_erase s.id id o'
    · exact hs.registry id o'
  · rw [List.count_erase, List.count_erase, hs.registrations o' ho']
  · rw [hs.registry]
    split_ifs with hreg
    · rw [stillRegistered, hshare] at hreg
      have hreg : h.registry.lookup s.id = some o := by simpa using hreg
      by_cases hid : id = s.id
      · subst hid
        simp only [AList.lookup_erase, reduceCtorEq, false_and, iff_false, not_and, not_not]
        intro heq
        exact Option.some.inj (hreg.symm.trans heq) ▸ ho
      · rw [AList.lookup_erase_ne hid]
    · rfl
  · rw [hs.registrations o' ho', List.count_erase_of_ne]
    rintro rfl
    exact ho' ho

/-! ## Side by side -/

variable [∀ k remote, Decidable (watched k remote)]

/-- The other node goes on beside the one. -/
def Shadows.Follows (hidden : Set ℕ) (watched : ℕ → EndpointId → Prop)
    [∀ k remote, Decidable (watched k remote)]
    (accessToken : List.Vector UInt8 32 → EndpointId → List.Vector UInt8 32) (h h' b : Handler)
    (a : HandlerAction) : Prop :=
  (h.LeftOut hidden a ∧ Shadows hidden watched h' b ∧ h.view watched a = []) ∨
    ∃ b', ¬ h.LeftOut hidden a ∧ b.step accessToken a = some b' ∧ Shadows hidden watched h' b' ∧
      b.view watched a = h.view watched a

/-- A stream takes a step: the other node takes it, too, or leaves the stream, of which nothing
is seen, where it is. -/
lemma Shadows.stream (hs : Shadows hidden watched h b) {k : ℕ} {action : StreamAction}
    (hauth : h.Unauthorized accessToken hidden watched (.stream k action))
    (hfree : h.Uncontended hidden watched (.stream k action))
    (hstep : h.step accessToken (.stream k action) = some h') :
    Follows hidden watched accessToken h h' b (.stream k action) := by
  obtain ⟨st, hst, hstep⟩ := Option.bind_eq_some_iff.1 hstep
  obtain ⟨stage, hserve, rfl⟩ := Option.map_eq_some_iff.1 hstep
  -- the stream steps on the other node
  have hmatch : ∀ {st₁ stage₁}, b.streams[k]? = some st₁ →
      b.serve accessToken st₁.remote st₁.stage action = some stage₁ →
      b.step accessToken (.stream k action) =
        some { b with streams := b.streams.set k { st₁ with stage := stage₁ } } := by
    intro st₁ stage₁ hb hserve₁
    rw [step, hb, Option.bind_eq_bind, Option.bind_some, hserve₁]
    rfl
  have hset : ∀ {st₁} (st₂ : Stream), b.streams[k]? = some st₁ →
      (b.streams.set k st₂)[k]? = some st₂ := fun st₂ hb =>
    List.getElem?_set_self (List.getElem?_eq_some_iff.1 hb).1
  have hne : ∀ (st₂ : Stream) (j : ℕ), j ≠ k → (b.streams.set k st₂)[j]? = b.streams[j]? :=
    fun st₂ j hj => List.getElem?_set_ne (Ne.symm hj)
  rcases hs.streams k st hst with ⟨hb, hvisible⟩ | ⟨hnot, hb, hgone⟩
  · -- both nodes serve the stream
    have hin : ¬ h.LeftOut hidden (.stream k action) := by
      rintro ⟨st₁, o, hst₁, hshare, ho⟩
      obtain rfl := Option.some.inj (hst.symm.trans hst₁)
      exact hvisible o hshare ho
    have hview : b.view watched (.stream k action) = h.view watched (.stream k action) := by
      simp only [view, hst, hb]
    right
    by_cases hlookup : ∃ request, st.stage = .requested request ∧ action = .lookup
    · obtain ⟨request, hstage, rfl⟩ := hlookup
      rw [hstage] at hserve
      cases hserve
      rcases hs.lookupRequest_eq accessToken st.remote request with
        ⟨o, ho, s, hshare, hallowed, hfound, hnone⟩ | ⟨heq, hfound⟩
      · -- authorized by a hidden share, so that the stream is not watched
        have hnot : ¬ watched k st.remote := by
          intro hwatched
          have hst' : h.streams[k]? = some ⟨st.remote, .requested request⟩ := by
            rw [hst, ← hstage]
          rw [hauth st.remote request hst' hwatched o ho s hshare] at hallowed
          cases hallowed
        refine ⟨_, hin, hmatch hb (by rw [hstage, serve, hnone]),
          hs.setStream List.length_set (hne _) ?_, hview⟩
        exact .inr ⟨hnot, hset _ hb, .inr ⟨o, ho, hfound⟩⟩
      · refine ⟨_, hin, hmatch hb (by rw [hstage, serve, heq]),
          hs.setStream List.length_set (hne _) ?_, hview⟩
        exact .inl ⟨hset _ hb, hfound⟩
    · obtain ⟨hserve', hvisible'⟩ := hs.serve_eq hvisible
        (fun request hstage haction => hlookup ⟨request, hstage, haction⟩)
        (fun haction => by subst haction; exact hs.le_freeSlots (hfree hin)) hserve
      refine ⟨_, hin, hmatch hb hserve', hs.setStream List.length_set (hne _) ?_, hview⟩
      exact .inl ⟨hset _ hb, hvisible'⟩
  · -- the stream found a hidden share, and nobody who watches sees it
    have hunseen : ∀ b₁ : Handler, (∃ stage₁, b₁.streams[k]? = some ⟨st.remote, stage₁⟩) →
        b₁.view watched (.stream k action) = [] := by
      rintro b₁ ⟨stage₁, hb₁⟩
      simp only [view, hb₁]
      exact if_neg hnot
    have hview := hunseen h ⟨st.stage, hst⟩
    rcases hgone with hended | ⟨o, ho, hshare⟩
    · rw [hended] at hserve
      obtain ⟨rfl, rfl⟩ := serve_ended hserve
      have hin : ¬ h.LeftOut hidden (.stream k .abort) := by
        rintro ⟨st₁, o, hst₁, hshare, -⟩
        obtain rfl := Option.some.inj (hst.symm.trans hst₁)
        rw [hended] at hshare
        cases hshare
      refine .inr ⟨_, hin, hmatch hb rfl, hs.setStream List.length_set (hne _) ?_,
        (hunseen b ⟨_, hb⟩).trans hview.symm⟩
      exact .inl ⟨hset _ hb, fun o hshare => by cases hshare⟩
    · refine .inl ⟨⟨st, o, hst, hshare, ho⟩, hs.setStream rfl (fun _ _ => rfl)
        (.inr ⟨hnot, hb, ?_⟩), hview⟩
      exact (share_serve hserve hshare).symm.imp_right fun hshare' => ⟨o, ho, hshare'⟩

/-- A share is registered with both nodes, with the one only, or refused. -/
lemma Shadows.step_register (hs : Shadows hidden watched h b) {o : ℕ}
    (hstep : h.step accessToken (.register o) = some h') :
    Follows hidden watched accessToken h h' b (.register o) := by
  obtain ⟨s, hshare, hstep⟩ := Option.bind_eq_some_iff.1 hstep
  -- the entry of the other node under the same id
  have hentry : b.step accessToken (.register o) =
      if (b.registry.lookup s.id).isSome then some b
      else some { b with
        registry := b.registry.insert s.id o, registrations := b.registrations ++ [o] } := by
    rw [Handler.step, hs.shares, hshare]
    rfl
  split_ifs at hstep with hold
  · cases hstep
    obtain ⟨o', ho'⟩ := Option.isSome_iff_exists.1 hold
    by_cases hrefused : o ∈ hidden ∨ o' ∈ hidden
    · exact .inl ⟨hrefused.imp_right fun hmem => ⟨s, o', hshare, ho', hmem⟩, hs, rfl⟩
    · rw [not_or] at hrefused
      refine .inr ⟨b, ?_, ?_, hs, rfl⟩
      · rintro (hmem | ⟨s₁, o₁, hs₁, ho₁, hmem⟩)
        · exact hrefused.1 hmem
        · obtain rfl := Option.some.inj (hshare.symm.trans hs₁)
          obtain rfl := Option.some.inj (ho'.symm.trans ho₁)
          exact hrefused.2 hmem
      · rw [hentry, (hs.registry s.id o').2 ⟨ho', hrefused.2⟩]
        rfl
  · cases hstep
    have hnew := Option.not_isSome_iff_eq_none.1 hold
    by_cases ho : o ∈ hidden
    · -- the share is hidden, and the shadow stays where it is
      exact .inl ⟨.inl ho, (hs.register hnew).2 ho, rfl⟩
    · refine .inr ⟨_, ?_, ?_, (hs.register hnew).1 ho, rfl⟩
      · rintro (hmem | ⟨s₁, o₁, hs₁, ho₁, -⟩)
        · exact ho hmem
        · obtain rfl := Option.some.inj (hshare.symm.trans hs₁)
          cases hnew.symm.trans ho₁
      · rw [hentry, hs.registry_eq_none hnew]
        rfl

/-- A registration is dropped by both nodes, or by the one that has it. -/
lemma Shadows.step_drop (hs : Shadows hidden watched h b) {o : ℕ}
    (hstep : h.step accessToken (.drop o) = some h') :
    Follows hidden watched accessToken h h' b (.drop o) := by
  obtain ⟨s, hshare, hstep⟩ := Option.bind_eq_some_iff.1 hstep
  by_cases hmem : o ∈ h.registrations
  swap
  · rw [if_neg hmem] at hstep
    cases hstep
  rw [if_pos hmem] at hstep
  cases hstep
  by_cases ho : o ∈ hidden
  · -- the shadow never had the registration that is dropped
    exact .inl ⟨ho, (hs.drop hshare).2 ho, rfl⟩
  · refine .inr ⟨_, ho, ?_, (hs.drop hshare).1 ho, rfl⟩
    have hmem' : o ∈ b.registrations := by
      rw [← List.count_pos_iff, hs.registrations o ho, List.count_pos_iff]
      exact hmem
    rw [Handler.step, hs.shares, hshare, Option.bind_eq_bind, Option.bind_some, if_pos hmem']

/-- A node and its shadow go on side by side. -/
lemma Shadows.step {a : HandlerAction} (hs : Shadows hidden watched h b)
    (hauth : h.Unauthorized accessToken hidden watched a)
    (hfree : h.Uncontended hidden watched a) (hstep : h.step accessToken a = some h') :
    Follows hidden watched accessToken h h' b a := by
  cases a with
  | stream k action => exact hs.stream hauth hfree hstep
  | create id manifestBytes secret held =>
    cases hstep
    exact .inr ⟨_, not_false, rfl, ⟨congrArg (· ++ _) hs.shares, hs.registry, hs.registrations,
      hs.slots, hs.length, hs.streams⟩, rfl⟩
  | accept remote request =>
    cases hstep
    refine .inr ⟨_, not_false, rfl, ⟨hs.shares, hs.registry, hs.registrations, hs.slots, ?_,
      fun k st hst => ?_⟩, by simp only [view, hs.length]⟩
    · rw [List.length_append, List.length_append, hs.length]
    · rcases lt_or_ge k h.streams.length with hk | hk
      · rw [List.getElem?_append_left hk] at hst
        rw [List.getElem?_append_left (hs.length ▸ hk)]
        exact hs.streams k st hst
      · rw [List.getElem?_append_right hk] at hst
        rw [List.getElem?_append_right (hs.length ▸ hk), hs.length]
        refine .inl ⟨hst, fun o ho => ?_⟩
        rw [List.mem_singleton.1 (List.mem_of_getElem? hst)] at ho
        cases ho
  | setAllowed o peers =>
    obtain ⟨s, hshare, hstep⟩ := Option.bind_eq_some_iff.1 hstep
    cases hstep
    refine .inr ⟨_, not_false, ?_, hs.setShare o { s with allowed := peers }, rfl⟩
    rw [Handler.step, hs.shares, hshare]
    rfl
  | mark o piece =>
    obtain ⟨s, hshare, hstep⟩ := Option.bind_eq_some_iff.1 hstep
    obtain ⟨s', hmark, rfl⟩ := Option.map_eq_some_iff.1 hstep
    refine .inr ⟨_, not_false, ?_, hs.setShare o s', rfl⟩
    rw [Handler.step, hs.shares, hshare, Option.bind_eq_bind, Option.bind_some, hmark]
    rfl
  | send o piece =>
    obtain ⟨s, hshare, hstep⟩ := Option.bind_eq_some_iff.1 hstep
    obtain ⟨s', hsend, rfl⟩ := Option.map_eq_some_iff.1 hstep
    refine .inr ⟨_, not_false, ?_, hs.setShare o s', rfl⟩
    rw [Handler.step, hs.shares, hshare, Option.bind_eq_bind, Option.bind_some, hsend]
    rfl
  | remove share =>
    cases hstep
    exact .inr ⟨_, not_false, rfl, ⟨hs.shares, hs.registry_erase share, hs.registrations,
      hs.slots, hs.length, hs.streams⟩, rfl⟩
  | register o => exact hs.step_register hstep
  | drop o => exact hs.step_drop hstep

/-! ## Runs -/

omit [∀ k remote, Decidable (watched k remote)] in
/-- With the requests of one peer alone no wait is ended by anybody else's upload. -/
lemma Alone.uncontended (hall : h.Alone watched) (a : HandlerAction) :
    h.Uncontended hidden watched a := by
  cases a with
  | stream k action =>
    cases action with
    | slotTimeout => exact fun _ j st o hst _ _ _ => hall j st hst
    | _ => trivial
  | _ => trivial

/-- Unauthorized peers cannot probe.  In every run of a node, whatever shares are created,
registered and dropped, and whatever lists are set: if no share of `hidden` authorizes a request
of a watched stream when it is looked up, then a node that does the same except for what concerns
these shares, and whose registry lacks them and has all others at every time, answers the watched
streams alike, step by step.  Where streams of other peers are served beside them, a wait for an
upload slot must not be ended by an upload of a hidden share to one of those. -/
theorem unauthorized_cannot_probe
    (accessToken : List.Vector UInt8 32 → EndpointId → List.Vector UInt8 32) (uploadSlots : ℕ)
    (hidden : Set ℕ) (watched : ℕ → EndpointId → Prop) [∀ k remote, Decidable (watched k remote)]
    {actions : List HandlerAction} {h : Handler}
    (hrun : Run (fun h a h' => h.step accessToken a = some h' ∧
      h.Unauthorized accessToken hidden watched a ∧
      (h.Alone watched ∨ h.Uncontended hidden watched a)) (new uploadSlots) actions h) :
    ∃ b, Run (fun (t : Twins) a t' => t.Step accessToken hidden a t' ∧ t.Alike hidden watched a ∧
      t'.Apart hidden) ⟨new uploadSlots, new uploadSlots⟩ actions ⟨h, b⟩ := by
  have hstart : Shadows hidden watched (new uploadSlots) (new uploadSlots) :=
    ⟨rfl, fun id o => by simp [new], fun _ _ => rfl, rfl, rfl, fun k st hst => by
      simp [new] at hst⟩
  have hmatch : ∀ (h : Handler) (a : HandlerAction) (h' : Handler) (t : Twins),
      (t.node = h ∧ Shadows hidden watched t.node t.other) →
      (h.step accessToken a = some h' ∧ h.Unauthorized accessToken hidden watched a ∧
        (h.Alone watched ∨ h.Uncontended hidden watched a)) →
      ∃ t' : Twins, (t.Step accessToken hidden a t' ∧ t.Alike hidden watched a ∧
        t'.Apart hidden) ∧ t'.node = h' ∧ Shadows hidden watched t'.node t'.other := by
    rintro h a h' ⟨_, b⟩ ⟨rfl, hs⟩ ⟨hstep, hauth, hfree⟩
    rcases hs.step hauth (hfree.elim (·.uncontended a) id) hstep with
      ⟨hout, hs', hview⟩ | ⟨b', hin, hb', hs', hview⟩
    · exact ⟨⟨h', b⟩, ⟨.leftOut hout hstep, ⟨fun _ => hview, absurd hout⟩, hs'.registry⟩, rfl, hs'⟩
    · exact ⟨⟨h', b'⟩, ⟨.both hin hstep hb', ⟨fun hout => absurd hout hin, fun _ => hview⟩,
        hs'.registry⟩, rfl, hs'⟩
  obtain ⟨⟨h₁, b⟩, hb, heq, -⟩ := hrun.simulation hmatch (t := ⟨new uploadSlots, new uploadSlots⟩)
    ⟨rfl, hstart⟩
  exact ⟨b, heq ▸ hb⟩

/-- The bytes of an id, all alike. -/
def sameBytes (b : UInt8) : List.Vector UInt8 32 := List.Vector.replicate 32 b

/-- A node serves a private share and one for everybody.  A member has a piece of the private
share uploaded, and beside it another peer asks for that share without the token, and then for the
piece of the other one. -/
def probing : List HandlerAction :=
  [.create (sameBytes 1) [] (some (sameBytes 2)) [true], .create (sameBytes 5) [] none [true],
    .register 0, .register 1,
    .accept (sameBytes 4) (.piece (sameBytes 1) (some (sameBytes 2)) 0), .stream 0 .lookup,
    .stream 0 .check, .stream 0 .slot,
    .accept (sameBytes 3) (.piece (sameBytes 1) none 0), .stream 1 .lookup, .stream 1 .start,
    .accept (sameBytes 3) (.piece (sameBytes 5) none 0), .stream 2 .lookup, .stream 2 .check,
    .stream 2 .slot, .stream 2 (.encoded (some [9])), .stream 2 .start]

/-- The peer is told what a node tells that never had the private share. -/
theorem unauthorized_cannot_probe_private : ∃ h b : Handler,
    Run (fun (t : Twins) a t' => t.Step (fun secret _ => secret) {0} a t' ∧
      t.Alike {0} (fun _ remote => remote = sameBytes 3) a ∧ t'.Apart {0})
      ⟨new 2, new 2⟩ probing ⟨h, b⟩ := by
  have hrun : ∃ h : Handler, Run (fun h a h' => h.step (fun secret _ => secret) a = some h' ∧
      h.Unauthorized (fun secret _ => secret) {0} (fun _ remote => remote = sameBytes 3) a ∧
      (h.Alone (fun _ remote => remote = sameBytes 3) ∨
        h.Uncontended {0} (fun _ remote => remote = sameBytes 3) a)) (new 2) probing h := by
    refine ⟨_, .cons ⟨rfl, trivial, .inr trivial⟩ <| .cons ⟨rfl, trivial, .inr trivial⟩ <|
      .cons ⟨rfl, trivial, .inr trivial⟩ <| .cons ⟨rfl, trivial, .inr trivial⟩ <|
      .cons ⟨rfl, trivial, .inr trivial⟩ <| .cons ⟨rfl, ?_, .inr trivial⟩ <|
      .cons ⟨rfl, trivial, .inr trivial⟩ <| .cons ⟨rfl, trivial, .inr trivial⟩ <|
      .cons ⟨rfl, trivial, .inr trivial⟩ <| .cons ⟨rfl, ?_, .inr trivial⟩ <|
      .cons ⟨rfl, trivial, .inr trivial⟩ <| .cons ⟨rfl, trivial, .inr trivial⟩ <|
      .cons ⟨rfl, ?_, .inr trivial⟩ <| .cons ⟨rfl, trivial, .inr trivial⟩ <|
      .cons ⟨rfl, trivial, .inr trivial⟩ <| .cons ⟨rfl, trivial, .inr trivial⟩ <|
      .cons ⟨rfl, trivial, .inr trivial⟩ <| .nil _⟩
    · -- the member is not watched
      rintro remote request hst hwatched
      cases hst
      exact absurd (congrArg List.Vector.head hwatched) (by decide)
    all_goals
      rintro remote request hst - o rfl s hs
      cases hst
      cases hs
      rfl
  obtain ⟨h, hrun⟩ := hrun
  exact ⟨h, unauthorized_cannot_probe (fun secret _ => secret) 2 {0} _ hrun⟩

end Handler

end Chorrent
