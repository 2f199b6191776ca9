/-
# Outstanding requests agree with the scheduler

Between `pick` and `complete` or `give_back`, a worker's piece is done or in flight with the
worker's peer among its requesters, in every run in which a peer's bitfield is not replaced
while requests to the peer are outstanding, and in which no worker of an ended connection
gives back a piece that its peer was asked for again.
-/
import Mathlib.Data.Set.Card
import Chorrent.Engine.Basic
import Chorrent.Engine.Effects

namespace Chorrent.Engine

open Lib

variable {K : Type} [DecidableEq K] {s s' : Engine K}

/-- Worker `k` of the running connection to its peer has piece `i` from `pick` and has
neither completed it nor given it back. -/
def Outstanding (s : Engine K) (k : ℕ) (w : Worker K) (i : ℕ) : Prop :=
  s.workers k = some w ∧ s.Live w ∧ w.phase.piece = some i

/-! ## The invariant -/

/-- Connections are numbered, and a worker belongs to a connection that was running. -/
structure Linked (s : Engine K) : Prop where
  few : s.connected.keys.length ≤ maxPeers
  number_lt : ∀ p session, s.connected.lookup p = some session → session.number < s.sessions
  session_lt : ∀ k w, s.workers k = some w → w.session < s.sessions
  quiet : ∀ p n, s.connected.lookup p = some ⟨n, .subscribing⟩ →
    ∀ k w, s.workers k = some w → w.peer = p → w.session ≠ n

/-- The scheduler is consistent, and knows only peers that are connected. -/
structure Sound (s : Engine K) : Prop where
  consistent : s.sched.Consistent
  registered : ∀ p ∈ s.sched.peers,
    ∃ session, s.connected.lookup p = some session ∧ session.stage ≠ .forgotten
  in_range : ∀ k w i, s.workers k = some w → w.phase.piece = some i → i < s.sched.pieces.length
  single : s.endgame = false → s.sched.Single

/-- The scheduler knows of every outstanding request, and no piece that is not done is
requested twice from a peer. -/
structure Agrees (s : Engine K) : Prop where
  requested : ∀ k w i, s.Outstanding k w i → s.sched.Requested i w.peer
  distinct : ∀ k k' w w' i, s.Outstanding k w i → s.Outstanding k' w' i → w.peer = w'.peer →
    s.sched.pieces[i]? ≠ some .done → k = k'

structure Inv (s : Engine K) : Prop where
  linked : s.Linked
  sound : s.Sound
  agrees : s.Agrees

/-- The scheduler's peers can be counted: they are all connected. -/
lemma few_peers_of_registered (hfew : s.connected.keys.length ≤ maxPeers)
    (hregistered : ∀ p ∈ s.sched.peers,
      ∃ session, s.connected.lookup p = some session ∧ session.stage ≠ .forgotten) :
    s.sched.peers.keys.length + 1 < 2 ^ 32 := by
  have hsub : s.sched.peers.keys ⊆ s.connected.keys := by
    intro p hp
    obtain ⟨session, hlookup, -⟩ := hregistered p (AList.mem_keys.1 hp)
    exact AList.mem_keys.1 (AList.lookup_isSome.1 (by rw [hlookup]; rfl))
  have hle := (List.subperm_of_subset (AList.keys_nodup _) hsub).length_le
  rw [maxPeers] at hfew
  omega

lemma Inv.few_peers (h : s.Inv) : s.sched.peers.keys.length + 1 < 2 ^ 32 :=
  few_peers_of_registered h.linked.few h.sound.registered

lemma setWorker_eq_some {k j : ℕ} {v : Option (Worker K)} {w : Worker K} :
    (s.setWorker k v).workers j = some w ↔
      (j = k ∧ v = some w) ∨ (j ≠ k ∧ s.workers j = some w) := by
  by_cases hj : j = k
  · subst hj
    simp [setWorker]
  · simp [setWorker, hj]

/-! ## What a step does to the invariant -/

/-- The worker `w'` goes on with what `w` did, or has let go of its piece. -/
def Continues (w w' : Worker K) : Prop :=
  w.peer = w'.peer ∧ w.session = w'.session ∧
    ∀ i, w'.phase.piece = some i → w.phase.piece = some i

lemma Linked.work (h : s.Linked) (hconn : s'.connected = s.connected)
    (hsessions : s'.sessions = s.sessions)
    (hworkers : ∀ k w', s'.workers k = some w' →
      (∃ j w, s.workers j = some w ∧ w.peer = w'.peer ∧ w.session = w'.session) ∨
        s.Live w') : s'.Linked := by
  refine ⟨by rw [hconn]; exact h.few, ?_, ?_, ?_⟩
  · rw [hconn, hsessions]
    exact h.number_lt
  · intro k w' hw'
    rw [hsessions]
    rcases hworkers k w' hw' with ⟨j, w, hw, -, heq⟩ | hlive
    · exact heq ▸ h.session_lt j w hw
    · exact h.number_lt _ _ hlive
  · intro p n hp k w' hw' hpeer
    rw [hconn] at hp
    rcases hworkers k w' hw' with ⟨j, w, hw, hpeer', heq⟩ | hlive
    · exact heq ▸ h.quiet p n hp j w hw (hpeer'.trans hpeer)
    · subst hpeer
      have := hp.symm.trans hlive
      simp at this

/-- Steps of workers, and messages that concern the scheduler only. -/
lemma Inv.work (h : s.Inv) {lost : ℕ → K → Prop} (hconn : s'.connected = s.connected)
    (hsessions : s'.sessions = s.sessions)
    (hworkers : ∀ k w', s'.workers k = some w' →
      (∃ w, s.workers k = some w ∧ Continues w w') ∨ (w'.phase.piece = none ∧ s.Live w'))
    (hf : s.sched.Follows s'.sched lost)
    (hpeers : ∀ q ∈ s'.sched.peers, q ∈ s.sched.peers ∨
      ∃ session, s.connected.lookup q = some session ∧ session.stage ≠ .forgotten)
    (hlost : ∀ k w i, s'.Outstanding k w i → lost i w.peer → s.sched.pieces[i]? = some .done)
    (hsingle : s'.endgame = false → s'.sched.Single) : s'.Inv := by
  -- an outstanding request was outstanding before
  have hback : ∀ {k w' i}, s'.Outstanding k w' i →
      ∃ w, s.Outstanding k w i ∧ w.peer = w'.peer := by
    rintro k w' i ⟨hw', hlive, hpiece⟩
    rcases hworkers k w' hw' with ⟨w, hw, hpeer, hsession, hsame⟩ | ⟨hnone, -⟩
    · refine ⟨w, ⟨hw, ?_, hsame i hpiece⟩, hpeer⟩
      rw [Live, hconn, ← hpeer, ← hsession] at hlive
      exact hlive
    · rw [hpiece] at hnone
      cases hnone
  refine ⟨h.linked.work hconn hsessions fun k w' hw' => ?_,
    ⟨hf.consistent, ?_, ?_, hsingle⟩, ?_, ?_⟩
  · exact (hworkers k w' hw').imp (fun ⟨w, hw, hpeer, hsession, _⟩ => ⟨k, w, hw, hpeer, hsession⟩)
      And.right
  · intro q hq
    rw [hconn]
    exact (hpeers q hq).elim (h.sound.registered q) id
  · intro k w' i hw' hpiece
    rw [hf.length_eq]
    rcases hworkers k w' hw' with ⟨w, hw, -, -, hsame⟩ | ⟨hnone, -⟩
    · exact h.sound.in_range k w i hw (hsame i hpiece)
    · rw [hpiece] at hnone
      cases hnone
  · intro k w' i hout
    obtain ⟨w, hw, hpeer⟩ := hback hout
    by_cases hl : lost i w'.peer
    · exact Scheduler.requested_of_done (hf.done i (hlost k w' i hout hl)) _
    · exact hf.keep i _ hl (hpeer ▸ h.agrees.requested k w i hw)
  · intro k k' w w' i hout hout' hpeer hnot
    obtain ⟨v, hv, hpv⟩ := hback hout
    obtain ⟨v', hv', hpv'⟩ := hback hout'
    exact h.agrees.distinct k k' v v' i hv hv' (by rw [hpv, hpv', hpeer]) fun hd =>
      hnot (hf.done i hd)

/-- Steps that change the connection to one peer, after which no worker of that peer is
live. -/
lemma Inv.reconnect (h : s.Inv) (peer : K) (hworkers : s'.workers = s.workers)
    (hsessions : s.sessions ≤ s'.sessions) (hfew : s'.connected.keys.length ≤ maxPeers)
    (hother : ∀ q, q ≠ peer → s'.connected.lookup q = s.connected.lookup q)
    (hnumber : ∀ session, s'.connected.lookup peer = some session → session.number < s'.sessions)
    (hquiet : ∀ n, s'.connected.lookup peer = some ⟨n, .subscribing⟩ →
      ∀ k w, s.workers k = some w → w.peer = peer → w.session ≠ n)
    (hdead : ∀ k w, s.workers k = some w → w.peer = peer → ¬ s'.Live w)
    (hf : s.sched.Follows s'.sched fun _ q => q = peer)
    (hpeers : ∀ q ∈ s'.sched.peers, (q ≠ peer ∧ q ∈ s.sched.peers) ∨
      ∃ session, s'.connected.lookup q = some session ∧ session.stage ≠ .forgotten)
    (hsingle : s'.endgame = false → s'.sched.Single) : s'.Inv := by
  -- no worker of the peer is live afterwards, so that what is outstanding was so before
  have hback : ∀ {k w i}, s'.Outstanding k w i → w.peer ≠ peer ∧ s.Outstanding k w i := by
    rintro k w i ⟨hw, hlive, hpiece⟩
    rw [hworkers] at hw
    have hne : w.peer ≠ peer := fun heq => hdead k w hw heq hlive
    exact ⟨hne, hw, by rwa [Live, hother _ hne] at hlive, hpiece⟩
  refine ⟨⟨hfew, ?_, ?_, ?_⟩, ⟨hf.consistent, ?_, ?_, hsingle⟩, ?_, ?_⟩
  · intro q session hq
    by_cases hne : q = peer
    · exact hnumber session (hne ▸ hq)
    · rw [hother q hne] at hq
      exact (h.linked.number_lt q session hq).trans_le hsessions
  · intro k w hw
    rw [hworkers] at hw
    exact (h.linked.session_lt k w hw).trans_le hsessions
  · intro q n hq k w hw hpeer
    rw [hworkers] at hw
    by_cases hne : q = peer
    · subst hne
      exact hquiet n hq k w hw hpeer
    · rw [hother q hne] at hq
      exact h.linked.quiet q n hq k w hw hpeer
  · intro q hq
    rcases hpeers q hq with ⟨hne, hmem⟩ | hsession
    · rw [hother q hne]
      exact h.sound.registered q hmem
    · exact hsession
  · intro k w i hw hpiece
    rw [hworkers] at hw
    rw [hf.length_eq]
    exact h.sound.in_range k w i hw hpiece
  · intro k w i hout
    obtain ⟨hne, hout'⟩ := hback hout
    exact hf.keep i _ hne (h.agrees.requested k w i hout')
  · intro k k' w w' i hout hout' hpeer hnot
    exact h.agrees.distinct k k' w w' i (hback hout).2 (hback hout').2 hpeer fun hd =>
      hnot (hf.done i hd)

/-- Moving the connection to a peer to a stage in which its workers are not live. -/
lemma Inv.setStage (h : s.Inv) {peer : K} {session : Session} {stage : Stage}
    (hlookup : s.connected.lookup peer = some session)
    (hconn : s'.connected = s.connected.insert peer { session with stage })
    (hworkers : s'.workers = s.workers) (hsessions : s'.sessions = s.sessions)
    (hstage : stage ≠ .subscribing)
    (hrunning : stage = .running → session.stage = .subscribing)
    (hf : s.sched.Follows s'.sched fun _ q => q = peer)
    (hpeers : ∀ q ∈ s'.sched.peers, (q ≠ peer ∧ q ∈ s.sched.peers) ∨
      (q = peer ∧ stage ≠ .forgotten))
    (hsingle : s'.endgame = false → s'.sched.Single) : s'.Inv := by
  have hself : s'.connected.lookup peer = some { session with stage } := by
    rw [hconn, AList.lookup_insert]
  refine h.reconnect _ hworkers hsessions.ge ?_
    (fun q hq => by rw [hconn, AList.lookup_insert_ne hq])
    ?_ ?_ ?_ hf ?_ hsingle
  · rw [hconn, length_keys_insert_of_mem (AList.lookup_isSome.1 (by rw [hlookup]; rfl))]
    exact h.linked.few
  · intro session' hsession'
    rw [hself, Option.some.injEq] at hsession'
    rw [← hsession', hsessions]
    exact h.linked.number_lt peer session hlookup
  · intro n hn
    rw [hself, Option.some.injEq, Session.mk.injEq] at hn
    exact absurd hn.2 hstage
  · rintro k w hw rfl hlive
    rw [Live, hself, Option.some.injEq, Session.mk.injEq] at hlive
    have hsub : s.connected.lookup w.peer = some ⟨session.number, .subscribing⟩ := by
      rw [hlookup, ← hrunning hlive.2]
    exact h.linked.quiet _ _ hsub k w hw rfl hlive.1.symm
  · intro q hq
    refine (hpeers q hq).imp_right ?_
    rintro ⟨rfl, hne⟩
    exact ⟨_, hself, hne⟩

/-- A worker lets go of its piece, or goes on with it. -/
lemma Inv.workOne (h : s.Inv) {k : ℕ} {w : Worker K} {v : Option (Worker K)}
    {lost : ℕ → K → Prop} (hw : s.workers k = some w)
    (hworkers : s'.workers = Function.update s.workers k v) (hv : ∀ w' ∈ v, Continues w w')
    (hconn : s'.connected = s.connected) (hsessions : s'.sessions = s.sessions)
    (hf : s.sched.Follows s'.sched lost) (hpeers : ∀ q ∈ s'.sched.peers, q ∈ s.sched.peers)
    (hlost : ∀ k w i, s'.Outstanding k w i → lost i w.peer → s.sched.pieces[i]? = some .done)
    (hsingle : s'.endgame = false → s'.sched.Single) : s'.Inv := by
  refine h.work hconn hsessions (fun j w' hw' => Or.inl ?_) hf (fun q hq => Or.inl (hpeers q hq))
    hlost hsingle
  rw [hworkers] at hw'
  by_cases hj : j = k
  · subst hj
    rw [Function.update_self] at hw'
    exact ⟨w, hw, hv w' hw'⟩
  · rw [Function.update_of_ne hj] at hw'
    exact ⟨w', hw', rfl, rfl, fun _ => id⟩

/-- The same when the scheduler is not called. -/
lemma Inv.setWorker (h : s.Inv) {k : ℕ} {w : Worker K} {v : Option (Worker K)}
    (hw : s.workers k = some w) (hv : ∀ w' ∈ v, Continues w w') : (s.setWorker k v).Inv :=
  h.workOne hw rfl hv rfl rfl
    (Scheduler.Follows.of_pieces_eq h.sound.consistent rfl fun _ _ => False)
    (fun _ => id) (fun _ _ _ _ => False.elim) h.sound.single

lemma Inv.setStrikes (h : s.Inv) (session n : ℕ) : (s.setStrikes session n).Inv :=
  ⟨⟨h.linked.few, h.linked.number_lt, h.linked.session_lt, h.linked.quiet⟩,
    ⟨h.sound.consistent, h.sound.registered, h.sound.in_range, h.sound.single⟩,
    ⟨h.agrees.requested, h.agrees.distinct⟩⟩

/-! ## Steps -/

/-- No request of a worker of `peer` for piece `i` is outstanding, unless the piece is done. -/
def Settled (s : Engine K) (peer : K) (i : ℕ) : Prop :=
  ∀ k w, s.Outstanding k w i → w.peer = peer → s.sched.pieces[i]? = some .done

/-- The steps that leave outstanding requests alone: a peer's bitfield is not replaced while
requests to the peer are outstanding, and a worker of an ended connection does not give back
a piece that was requested from its peer again. -/
def Safe (s : Engine K) : Action K → Prop
  | .bitfield peer _ => ∀ i, s.Settled peer i
  | .giveBack k => ∀ w i, s.workers k = some w → w.phase.piece = some i → ¬ s.Live w →
      s.Settled w.peer i
  | _ => True

lemma sessionIn_eq_some {peer : K} {stage : Stage} {session : Session} :
    s.sessionIn peer stage = some session ↔
      s.connected.lookup peer = some session ∧ session.stage = stage := by
  rw [sessionIn, Option.filter_eq_some_iff]
  simp

lemma step_pick (h : s.Inv) {k : ℕ} {w : Worker K} (hw : s.workers k = some w)
    {sched : Scheduler K} {picked : Option ℕ}
    (hpick : s.sched.pick w.peer = some (sched, picked)) :
    (picked = none → ({ s.setWorker k (some { w with phase := .idle }) with sched }).Inv) ∧
      ∀ i, picked = some i →
        ({ s.setWorker k (some { w with phase := .requesting i }) with
            sched, endgame := s.endgame || s.sched.missing == 0 }).Inv := by
  obtain ⟨hpeers, hf, hcases⟩ := Scheduler.pick_follows h.sound.consistent hpick
  constructor
  · rintro rfl
    have hsched : sched = s.sched := by
      rcases hcases with ⟨-, heq⟩ | ⟨i, hi, -⟩
      · exact heq
      · cases hi
    refine h.workOne hw rfl ?_ rfl rfl hf (fun q hq => hpeers ▸ hq) (fun _ _ _ _ => False.elim) ?_
    · rintro w' ⟨⟩
      exact ⟨rfl, rfl, fun i hi => by cases hi⟩
    · rw [hsched]
      exact h.sound.single
  · rintro i rfl
    obtain ⟨i', hi', hlt, hnew, hold, hend⟩ := hcases.resolve_left fun hnone => by cases hnone.1
    obtain rfl := Option.some.inj hi'
    set s' : Engine K := { s.setWorker k (some { w with phase := .requesting i }) with
      sched, endgame := s.endgame || s.sched.missing == 0 } with hs'
    have hworkers : ∀ j v, s'.workers j = some v →
        (j = k ∧ v = { w with phase := .requesting i }) ∨ s.workers j = some v := by
      intro j v hv
      rcases setWorker_eq_some.1 hv with ⟨rfl, heq⟩ | ⟨-, hv'⟩
      · exact Or.inl ⟨rfl, (Option.some.inj heq).symm⟩
      · exact Or.inr hv'
    have hback : ∀ {j v m}, s'.Outstanding j v m →
        (j = k ∧ v.peer = w.peer ∧ m = i) ∨ s.Outstanding j v m := by
      rintro j v m ⟨hv, hlive, hpiece⟩
      rcases hworkers j v hv with ⟨rfl, rfl⟩ | hv'
      · exact Or.inl ⟨rfl, rfl, (Option.some.inj hpiece).symm⟩
      · exact Or.inr ⟨hv', hlive, hpiece⟩
    -- the picked piece was not requested from this peer before
    have hfresh : ∀ {j v}, s.Outstanding j v i → v.peer ≠ w.peer := fun hout heq =>
      hold (heq ▸ h.agrees.requested _ _ _ hout)
    refine ⟨h.linked.work rfl rfl fun j v hv => ?_, ⟨hf.consistent, ?_, ?_, ?_⟩, ?_, ?_⟩
    · rcases hworkers j v hv with ⟨rfl, rfl⟩ | hv'
      · exact Or.inl ⟨j, w, hw, rfl, rfl⟩
      · exact Or.inl ⟨j, v, hv', rfl, rfl⟩
    · intro q hq
      exact h.sound.registered q (hpeers ▸ hq)
    · intro j v m hv hpiece
      rw [hf.length_eq]
      rcases hworkers j v hv with ⟨rfl, rfl⟩ | hv'
      · rwa [← Option.some.inj hpiece]
      · exact h.sound.in_range j v m hv' hpiece
    · intro hend'
      rw [hs'] at hend'
      simp only [Bool.or_eq_false_iff, beq_eq_false_iff_ne] at hend'
      exact (hend hend'.2).2 (h.sound.single hend'.1)
    · intro j v m hout
      rcases hback hout with ⟨-, hpeer, rfl⟩ | hout'
      · exact hpeer ▸ hnew
      · exact hf.keep m _ id (h.agrees.requested j v m hout')
    · intro j j' v v' m hout hout' hpeer hnot
      rcases hback hout with ⟨rfl, hp, rfl⟩ | hout₁ <;> rcases hback hout' with
        ⟨rfl, hp', hm⟩ | hout₁'
      · rfl
      · exact absurd (hpeer.symm.trans hp) (hfresh hout₁')
      · exact absurd (hpeer.trans hp') (hfresh (hm ▸ hout₁))
      · exact h.agrees.distinct j j' v v' m hout₁ hout₁' hpeer fun hd => hnot (hf.done m hd)

lemma step_giveBack (h : s.Inv) {k : ℕ} (hsafe : s.Safe (.giveBack k)) {w : Worker K}
    (hw : s.workers k = some w) {i : ℕ} {lacks : Bool} (hphase : w.phase = .returning i lacks)
    {sched : Scheduler K} (hfailed : s.sched.failed i w.peer lacks = some sched) :
    ({ s.setWorker k (some { w with phase := .idle }) with sched }).Inv := by
  have hpiece : w.phase.piece = some i := by rw [hphase]; rfl
  obtain ⟨hf, hsingle, -, hpeers⟩ :=
    Scheduler.failed_follows h.sound.consistent (h.sound.in_range k w i hw hpiece) hfailed
  refine h.workOne hw rfl ?_ rfl rfl hf hpeers ?_ fun hend => hsingle (h.sound.single hend)
  · rintro w' ⟨⟩
    exact ⟨rfl, rfl, fun i hi => by cases hi⟩
  · rintro j v m ⟨hv, hlive, hvm⟩ ⟨rfl, hpeer⟩
    obtain ⟨hne, hv'⟩ : j ≠ k ∧ s.workers j = some v := by
      rcases setWorker_eq_some.1 hv with ⟨-, heq⟩ | hold
      · obtain rfl := Option.some.inj heq
        cases hvm
      · exact hold
    have hout : s.Outstanding j v m := ⟨hv', hlive, hvm⟩
    by_cases hl : s.Live w
    · by_contra hnot
      exact hne (h.agrees.distinct j k v w m hout ⟨hw, hl, hpiece⟩ hpeer hnot)
    · exact hsafe w m hw hpiece hl j v hout hpeer

/-- A further bitfield, when no request to the peer is outstanding. -/
lemma step_bitfield (h : s.Inv) {peer : K} {bytes : List UInt8}
    (hsafe : s.Safe (.bitfield peer bytes)) {session : Session}
    (hsession : s.sessionIn peer .running = some session) {sched : Scheduler K}
    (hadd : s.sched.addPeer peer (unpackBits bytes s.sched.pieces.length) = some sched) :
    ({ s with sched }).Inv := by
  obtain ⟨hlookup, hstage⟩ := sessionIn_eq_some.1 hsession
  obtain ⟨hf, hsingle, -, hpeers⟩ :=
    Scheduler.addPeer_follows h.sound.consistent (by simp) h.few_peers hadd
  refine h.work rfl rfl (fun k w' hw' => Or.inl ⟨w', hw', rfl, rfl, fun _ => id⟩) hf ?_ ?_
    fun hend => hsingle (h.sound.single hend)
  · intro q hq
    rcases hpeers q hq with rfl | hmem
    · exact Or.inr ⟨session, hlookup, by simp [hstage]⟩
    · exact Or.inl hmem
  · rintro k w i hout rfl
    exact hsafe i k w hout rfl

/-- What every safe step preserves. -/
lemma Inv.step (h : s.Inv) {a : Action K} (hsafe : s.Safe a) (hstep : s.step a = some s') :
    s'.Inv := by
  have hnothing := Scheduler.Follows.of_pieces_eq (s := s.sched) h.sound.consistent rfl
  have hidle : ∀ w : Worker K, ∀ w' ∈ some { w with phase := .idle }, Continues w w' := by
    rintro w w' ⟨⟩
    exact ⟨rfl, rfl, fun i hi => by cases hi⟩
  have hcontinue : ∀ (w : Worker K) (phase : Phase),
      (∀ i, phase.piece = some i → w.phase.piece = some i) →
      ∀ w' ∈ some { w with phase }, Continues w w' := by
    rintro w phase hsame w' ⟨⟩
    exact ⟨rfl, rfl, hsame⟩
  -- a step changes the connection of one peer, moves one worker, or does both
  cases a with
  | connect peer =>
    simp only [Engine.step] at hstep
    split_ifs at hstep with hfull
    obtain rfl := Option.some.inj hstep
    obtain ⟨habsent, hfew⟩ := not_or.1 hfull
    have hself : ∀ session, (s.connected.insert peer ⟨s.sessions, .subscribing⟩).lookup peer =
        some session → session = ⟨s.sessions, .subscribing⟩ := fun session hl => by
      rw [AList.lookup_insert] at hl
      exact (Option.some.inj hl).symm
    refine h.reconnect peer rfl (Nat.le_succ _) ?_
      (fun q hq => AList.lookup_insert_ne hq) (fun session hl => ?_) (fun n hn k w hw _ => ?_)
      (fun k w _ hpeer hlive => ?_) (hnothing _) (fun q hq => Or.inl ⟨?_, hq⟩) h.sound.single
    · exact (length_keys_insert_le _ _ _).trans (by omega)
    · rw [hself session hl]
      exact Nat.lt_succ_self _
    · have hlt := h.linked.session_lt k w hw
      have := congrArg Session.number (hself _ hn)
      simp only at this
      omega
    · subst hpeer
      have := congrArg Session.stage (hself _ hlive)
      simp at this
    · rintro rfl
      obtain ⟨session, hlookup, -⟩ := h.sound.registered q hq
      exact habsent (AList.lookup_isSome.1 (by rw [hlookup]; rfl))
  | subscribed peer bytes =>
    simp only [Engine.step, Option.bind_eq_bind, Option.bind_eq_some_iff] at hstep
    obtain ⟨session, hsession, sched, hadd, hs'⟩ := hstep
    obtain rfl := Option.some.inj hs'
    obtain ⟨hlookup, hstage⟩ := sessionIn_eq_some.1 hsession
    obtain ⟨hf, hsingle, -, hpeers⟩ :=
      Scheduler.addPeer_follows h.sound.consistent (by simp) h.few_peers hadd
    refine h.setStage hlookup rfl rfl rfl (by simp) (fun _ => hstage) hf (fun q hq => ?_)
      fun hend => hsingle (h.sound.single hend)
    by_cases hne : q = peer
    · exact Or.inr ⟨hne, by simp⟩
    · exact Or.inl ⟨hne, (hpeers q hq).resolve_left hne⟩
  | spawn peer =>
    simp only [Engine.step, Option.bind_eq_bind, Option.bind_eq_some_iff] at hstep
    obtain ⟨session, hsession, hs'⟩ := hstep
    split_ifs at hs'
    obtain rfl := Option.some.inj hs'
    obtain ⟨hlookup, hstage⟩ := sessionIn_eq_some.1 hsession
    refine h.work rfl rfl (fun k w' hw' => ?_) (hnothing fun _ _ => False) (fun q hq => Or.inl hq)
      (fun _ _ _ _ => False.elim) h.sound.single
    rcases setWorker_eq_some.1 hw' with ⟨-, heq⟩ | ⟨-, hold⟩
    · obtain rfl := Option.some.inj heq
      exact Or.inr ⟨rfl, by rw [Live, hlookup, ← hstage]⟩
    · exact Or.inl ⟨w', hold, rfl, rfl, fun _ => id⟩
  | check k =>
    simp only [Engine.step, Option.bind_eq_bind, Option.bind_eq_some_iff] at hstep
    obtain ⟨w, hw, hs'⟩ := hstep
    split_ifs at hs' with hphase hend
    · obtain rfl := Option.some.inj hs'
      exact h.setWorker hw (by simp)
    · obtain rfl := Option.some.inj hs'
      exact h.setWorker hw (hcontinue w _ fun i hi => by cases hi)
  | pick k =>
    simp only [Engine.step, Option.bind_eq_bind, Option.bind_eq_some_iff] at hstep
    obtain ⟨w, hw, hs'⟩ := hstep
    split_ifs at hs' with hphase
    obtain ⟨⟨sched, picked⟩, hpick, hs'⟩ := Option.bind_eq_some_iff.1 hs'
    obtain ⟨hnone, hsome⟩ := step_pick h hw hpick
    cases picked with
    | none =>
      obtain rfl := Option.some.inj hs'
      exact hnone rfl
    | some i =>
      obtain rfl := Option.some.inj hs'
      exact hsome i rfl
  | answer k answer =>
    simp only [Engine.step, Option.bind_eq_bind, Option.bind_eq_some_iff] at hstep
    obtain ⟨w, hw, hs'⟩ := hstep
    cases hphase : w.phase <;> simp only [hphase, reduceCtorEq] at hs'
    rename_i piece
    obtain rfl := Option.some.inj hs'
    have hsame : ∀ i, some piece = some i → w.phase.piece = some i := fun i hi => by
      rw [hphase, ← hi]
      rfl
    cases answer with
    | piece | dontHave | busy => exact h.setWorker hw (hcontinue w _ hsame)
    | notFound | failed => exact (h.setStrikes _ _).setWorker hw (hcontinue w _ hsame)
  | store k result =>
    simp only [Engine.step, Option.bind_eq_bind, Option.bind_eq_some_iff] at hstep
    obtain ⟨w, hw, hs'⟩ := hstep
    cases hphase : w.phase <;> simp only [hphase, reduceCtorEq] at hs'
    rename_i piece
    obtain rfl := Option.some.inj hs'
    have hsame : ∀ i, some piece = some i → w.phase.piece = some i := fun i hi => by
      rw [hphase, ← hi]
      rfl
    cases result with
    | aborted => exact h.setWorker hw (hcontinue w _ hsame)
    | ok | bad => exact (h.setStrikes _ _).setWorker hw (hcontinue w _ hsame)
  | complete k =>
    simp only [Engine.step, Option.bind_eq_bind, Option.bind_eq_some_iff] at hstep
    obtain ⟨w, hw, hs'⟩ := hstep
    cases hphase : w.phase <;> simp only [hphase, reduceCtorEq] at hs'
    rename_i piece
    obtain ⟨⟨sched, first⟩, hcomplete, hs'⟩ := Option.bind_eq_some_iff.1 hs'
    obtain rfl := Option.some.inj hs'
    have hpiece : w.phase.piece = some piece := by rw [hphase]; rfl
    obtain ⟨hf, hsingle, hpeers⟩ := Scheduler.complete_follows h.sound.consistent
      (h.sound.in_range k w piece hw hpiece) hcomplete
    exact h.workOne hw rfl (hidle w) rfl rfl hf hpeers (fun _ _ _ _ => False.elim)
      fun hend => hsingle (h.sound.single hend)
  | giveBack k =>
    simp only [Engine.step, Option.bind_eq_bind, Option.bind_eq_some_iff] at hstep
    obtain ⟨w, hw, hs'⟩ := hstep
    cases hphase : w.phase <;> simp only [hphase, reduceCtorEq] at hs'
    obtain ⟨sched, hfailed, hs'⟩ := Option.bind_eq_some_iff.1 hs'
    obtain rfl := Option.some.inj hs'
    exact step_giveBack h hsafe hw hphase hfailed
  | bitfield peer bytes =>
    simp only [Engine.step, Option.bind_eq_bind, Option.bind_eq_some_iff] at hstep
    obtain ⟨session, hsession, sched, hadd, hs'⟩ := hstep
    obtain rfl := Option.some.inj hs'
    exact step_bitfield h hsafe hsession hadd
  | haveFrame peer piece =>
    simp only [Engine.step, Option.bind_eq_bind, Option.bind_eq_some_iff] at hstep
    obtain ⟨session, hsession, sched, hhas, hs'⟩ := hstep
    obtain rfl := Option.some.inj hs'
    obtain ⟨hf, hsingle, hpeers⟩ := Scheduler.setPeerHas_follows h.sound.consistent hhas
    exact h.work rfl rfl (fun k w' hw' => Or.inl ⟨w', hw', rfl, rfl, fun _ => id⟩) hf
      (fun q hq => Or.inl (hpeers q hq)) (fun _ _ _ _ => False.elim)
      fun hend => hsingle (h.sound.single hend)
  | leave peer =>
    simp only [Engine.step, Option.bind_eq_bind, Option.bind_eq_some_iff] at hstep
    obtain ⟨session, hlookup, hs'⟩ := hstep
    split_ifs at hs'
    obtain rfl := Option.some.inj hs'
    refine h.setStage hlookup rfl rfl rfl (by simp) (by simp) (hnothing _) (fun q hq => ?_)
      h.sound.single
    by_cases hne : q = peer
    · exact Or.inr ⟨hne, by simp⟩
    · exact Or.inl ⟨hne, hq⟩
  | removePeer peer =>
    simp only [Engine.step, Option.bind_eq_bind, Option.bind_eq_some_iff] at hstep
    obtain ⟨session, hsession, sched, hremove, hs'⟩ := hstep
    obtain rfl := Option.some.inj hs'
    obtain ⟨hlookup, -⟩ := sessionIn_eq_some.1 hsession
    obtain ⟨hf, hsingle, hpeers⟩ := Scheduler.removePeer_follows h.sound.consistent hremove
    exact h.setStage hlookup rfl rfl rfl (by simp) (by simp) hf (fun q hq => Or.inl (hpeers q hq))
      fun hend => hsingle (h.sound.single hend)
  | disconnect peer =>
    simp only [Engine.step, Option.bind_eq_bind, Option.bind_eq_some_iff] at hstep
    obtain ⟨session, hsession, hs'⟩ := hstep
    obtain rfl := Option.some.inj hs'
    obtain ⟨hlookup, hstage⟩ := sessionIn_eq_some.1 hsession
    have hself : (s.connected.erase peer).lookup peer = none := AList.lookup_erase _ _
    refine h.reconnect peer rfl le_rfl ((length_keys_erase_le _ _).trans h.linked.few)
      (fun q hq => AList.lookup_erase_ne hq) (fun session hl => ?_) (fun n hn => ?_)
      (fun k w _ hpeer hlive => ?_) (hnothing _) (fun q hq => Or.inl ⟨?_, hq⟩) h.sound.single
    · rw [hself] at hl
      cases hl
    · rw [hself] at hn
      cases hn
    · subst hpeer
      rw [Live, hself] at hlive
      cases hlive
    · rintro rfl
      obtain ⟨session', hlookup', hne⟩ := h.sound.registered q hq
      rw [hlookup, Option.some.injEq] at hlookup'
      exact hne (hlookup' ▸ hstage)
  | cancel k =>
    simp only [Engine.step, Option.bind_eq_bind, Option.bind_eq_some_iff] at hstep
    obtain ⟨w, hw, hs'⟩ := hstep
    split_ifs at hs'
    obtain rfl := Option.some.inj hs'
    exact h.setWorker hw (by simp)

/-! ## Runs -/

/-- One action of the engine. -/
def Step (s : Engine K) (a : Action K) (s' : Engine K) : Prop := s.step a = some s'

def SafeStep (s : Engine K) (a : Action K) (s' : Engine K) : Prop := s.Safe a ∧ s.Step a s'

/-- The outstanding requests are those the scheduler knows of. -/
structure Agreement (s : Engine K) : Prop where
  requested : ∀ k w i, s.Outstanding k w i → s.sched.pieces[i]? = some .done ∨
    ∃ requesters, s.sched.pieces[i]? = some (.inFlight requesters) ∧ w.peer ∈ requesters
  /-- No peer has two requests for a piece. -/
  distinct : ∀ k k' w w' i, s.Outstanding k w i → s.Outstanding k' w' i → w.peer = w'.peer →
    s.sched.pieces[i]? ≠ some .done → k = k'
  few : ∀ i : ℕ, s.sched.pieces[i]? ≠ some .done → {k | ∃ w, s.Outstanding k w i}.encard ≤ 3
  single : ∀ i : ℕ, s.sched.pieces[i]? ≠ some .done → s.endgame = false →
    {k | ∃ w, s.Outstanding k w i}.encard ≤ 1
  /-- While some piece is missing, no piece is picked that somebody is fetching. -/
  fresh : ∀ k w i s', s.Step (.pick k) s' → s.sched.missing ≠ 0 → s'.workers k = some w →
    w.phase.piece = some i → ∀ k' w', ¬ s.Outstanding k' w' i

/-- The outstanding requests for a piece are at most as many as its requesters. -/
lemma Inv.encard_le (h : s.Inv) {i n : ℕ} (hnot : s.sched.pieces[i]? ≠ some .done)
    (hn : ∀ rs, s.sched.pieces[i]? = some (.inFlight rs) → rs.length ≤ n) :
    {k | ∃ w, s.Outstanding k w i}.encard ≤ n := by
  obtain ⟨rs, hrs, hle⟩ : ∃ rs : List K, rs.length ≤ n ∧
      ∀ k w, s.Outstanding k w i → w.peer ∈ rs := by
    cases hp : s.sched.pieces[i]? with
    | none =>
      refine ⟨[], Nat.zero_le n, fun k w hout => ?_⟩
      obtain ⟨p, hp', -⟩ := h.agrees.requested k w i hout
      rw [hp] at hp'
      cases hp'
    | some p =>
      cases p with
      | done => exact absurd hp hnot
      | missing =>
        refine ⟨[], Nat.zero_le n, fun k w hout => ?_⟩
        obtain ⟨p, hp', hserves⟩ := h.agrees.requested k w i hout
        obtain rfl : Piece.missing = p := Option.some.inj (hp.symm.trans hp')
        exact hserves.elim
      | inFlight rs =>
        refine ⟨rs, hn rs hp, fun k w hout => ?_⟩
        obtain ⟨p, hp', hserves⟩ := h.agrees.requested k w i hout
        obtain rfl : Piece.inFlight rs = p := Option.some.inj (hp.symm.trans hp')
        exact hserves
  -- a worker is determined by its peer
  have hinj : Set.InjOn (fun k => (s.workers k).map Worker.peer)
      {k | ∃ w, s.Outstanding k w i} := by
    rintro k ⟨w, hw⟩ k' ⟨w', hw'⟩ heq
    refine h.agrees.distinct k k' w w' i hw hw' ?_ hnot
    simpa [hw.1, hw'.1] using heq
  have hmaps : Set.MapsTo (fun k => (s.workers k).map Worker.peer)
      {k | ∃ w, s.Outstanding k w i} ((rs.map some).toFinset : Set (Option K)) := by
    rintro k ⟨w, hw⟩
    simpa [hw.1] using hle k w hw
  calc {k | ∃ w, s.Outstanding k w i}.encard
      ≤ ((rs.map some).toFinset : Set (Option K)).encard :=
        Set.encard_le_encard_of_injOn hmaps hinj
    _ = (rs.map some).toFinset.card := Set.encard_coe_eq_coe_finsetCard _
    _ ≤ n := by
        have := (rs.map some).toFinset_card_le
        rw [List.length_map] at this
        exact_mod_cast this.trans hrs

lemma Inv.agreement (h : s.Inv) : s.Agreement where
  requested k w i hout := by
    obtain ⟨p, hp, hserves⟩ := h.agrees.requested k w i hout
    cases p with
    | missing => exact hserves.elim
    | inFlight rs => exact Or.inr ⟨rs, hp, hserves⟩
    | done => exact Or.inl hp
  distinct := h.agrees.distinct
  few i hnot := h.encard_le hnot fun rs hrs => (h.sound.consistent.requesters i rs hrs).length_le
  single i hnot hend := by
    have := h.encard_le (n := 1) hnot (h.sound.single hend i)
    simpa using this
  fresh k w' i s' hstep hmissing hw' hpiece j v hout := by
    simp only [Step, Engine.step, Option.bind_eq_bind, Option.bind_eq_some_iff] at hstep
    obtain ⟨w, hw, hs'⟩ := hstep
    split_ifs at hs' with hphase
    obtain ⟨⟨sched, picked⟩, hpick, hs'⟩ := Option.bind_eq_some_iff.1 hs'
    obtain ⟨-, -, hcases⟩ := Scheduler.pick_follows h.sound.consistent hpick
    rcases hcases with ⟨rfl, -⟩ | ⟨i', rfl, -, -, -, hmiss⟩
    · obtain rfl := Option.some.inj hs'
      rcases setWorker_eq_some.1 hw' with ⟨-, heq⟩ | ⟨hne, -⟩
      · obtain rfl := Option.some.inj heq
        cases hpiece
      · exact hne rfl
    · obtain rfl := Option.some.inj hs'
      rcases setWorker_eq_some.1 hw' with ⟨-, heq⟩ | ⟨hne, -⟩
      · obtain rfl := Option.some.inj heq
        obtain rfl := Option.some.inj hpiece
        obtain ⟨p, hp, hserves⟩ := h.agrees.requested j v _ hout
        obtain rfl : Piece.missing = p := Option.some.inj ((hmiss hmissing).1.symm.trans hp)
        exact hserves
      · exact hne rfl

lemma new_inv (held : List Bool) : ∃ s₀ : Engine K, new held = some s₀ ∧ s₀.Inv := by
  obtain ⟨sched, hnew, hcons, hpieces, hpeers⟩ :=
    Scheduler.new_consistent (K := K) held urgentWindowSize
  refine ⟨_, by rw [new, hnew]; rfl, ⟨?_, ?_, ?_, ?_⟩, ⟨hcons, ?_, ?_, fun _ => ?_⟩, ?_, ?_⟩
  · exact Nat.zero_le _
  · intro p session hlookup
    simp at hlookup
  · intro k w hw
    cases hw
  · intro p n hlookup
    simp at hlookup
  · intro p hp
    rw [hpeers] at hp
    exact absurd hp (AList.notMem_empty p)
  · intro k w i hw
    cases hw
  · intro i rs hi
    rw [hpieces, List.getElem?_map, Option.map_eq_some_iff] at hi
    obtain ⟨b, -, hb⟩ := hi
    cases b <;> simp at hb
  · rintro k w i ⟨hw, -⟩
    cases hw
  · rintro k k' w w' i ⟨hw, -⟩
    cases hw

/-- In every run of safe steps of a new engine, the outstanding requests agree with the
scheduler. -/
theorem run_agreement (held : List Bool) :
    ∃ s₀ : Engine K, new held = some s₀ ∧
      ∀ actions s, Run SafeStep s₀ actions s → s.Agreement := by
  obtain ⟨s₀, hnew, hinv⟩ := new_inv (K := K) held
  refine ⟨s₀, hnew, fun actions s hrun => Inv.agreement ?_⟩
  exact hrun.invariant (fun _ _ _ h hstep => h.step hstep.1 hstep.2) hinv

/-- The condition is exact: an unsafe step leaves an outstanding request that the scheduler
does not know of. -/
theorem agreement_iff_safe (h : s.Inv) {a : Action K} (hstep : s.Step a s') :
    s'.Agreement ↔ s.Safe a := by
  refine ⟨fun hagree => ?_, fun hsafe => (h.step hsafe hstep).agreement⟩
  have hlose : ∀ {k w i} {p : Piece K}, s.sched.pieces[i]? = some p →
      s'.sched.pieces[i]? = some (p.without w.peer) → s'.Outstanding k w i → p = .done := by
    intro k w i p hp hp' hout
    rcases hagree.requested k w i hout with hd | ⟨rs, hrs, hmem⟩
    · rw [hp', Option.some.injEq] at hd
      exact Scheduler.without_eq_done.1 hd
    · rw [hp', Option.some.injEq] at hrs
      obtain ⟨rs', -, rfl, -⟩ := Scheduler.without_eq_inFlight hrs
      simp at hmem
  -- only a second bitfield and a piece given back make the scheduler forget a request
  cases a with
  | bitfield peer bytes =>
    simp only [Step, Engine.step, Option.bind_eq_bind, Option.bind_eq_some_iff] at hstep
    obtain ⟨session, -, sched, hadd, hs'⟩ := hstep
    obtain rfl := Option.some.inj hs'
    obtain ⟨-, -, hpieces, -⟩ :=
      Scheduler.addPeer_follows h.sound.consistent (by simp) h.few_peers hadd
    rintro i k w hout rfl
    obtain ⟨p, hp, -⟩ := h.agrees.requested k w i hout
    rw [hp, hlose hp (by rw [hpieces, List.getElem?_map, hp]; rfl) hout]
  | giveBack k =>
    simp only [Step, Engine.step, Option.bind_eq_bind, Option.bind_eq_some_iff] at hstep
    obtain ⟨w, hw, hs'⟩ := hstep
    cases hphase : w.phase <;> simp only [hphase, reduceCtorEq] at hs'
    rename_i piece lacks
    obtain ⟨sched, hfailed, hs'⟩ := Option.bind_eq_some_iff.1 hs'
    obtain rfl := Option.some.inj hs'
    have hpiece : w.phase.piece = some piece := by rw [hphase]; rfl
    have hi := h.sound.in_range k w piece hw hpiece
    obtain ⟨-, -, hpieces, -⟩ := Scheduler.failed_follows h.sound.consistent hi hfailed
    intro v i hv hvi hdead k' w' hout hpeer
    obtain rfl := Option.some.inj (hw.symm.trans hv)
    obtain rfl := Option.some.inj (hpiece.symm.trans hvi)
    have hne : k' ≠ k := by
      rintro rfl
      obtain rfl := Option.some.inj (hw.symm.trans hout.1)
      exact hdead hout.2.1
    have hp : s.sched.pieces[piece]? = some s.sched.pieces[piece] := List.getElem?_eq_getElem hi
    rw [hp, hlose (k := k') (w := w') hp ?_ ⟨setWorker_eq_some.2 (Or.inr ⟨hne, hout.1⟩), hout.2⟩]
    rw [hpieces, List.getElem?_set_self hi, hpeer]
  | connect | subscribed | spawn | check | pick | answer | store | complete | haveFrame | leave
  | removePeer | disconnect | cancel => trivial

/-! ## A bitfield sent twice -/

/-- A peer sends its bitfield again while a piece is being requested from it, and a second
worker picks the same piece. -/
def refreshed : List (Action ℕ) :=
  [.connect 7, .subscribed 7 [1], .spawn 7, .spawn 7, .check 0, .check 1, .pick 0,
    .bitfield 7 [1], .pick 1]

lemma run_of_exec {actions : List (Action K)} : ∀ {s s' : Engine K},
    s.exec actions = some s' → Run Step s actions s' := by
  induction actions with
  | nil =>
    intro s s' h
    obtain rfl := Option.some.inj h
    exact .nil s
  | cons a actions ih =>
    intro s s' h
    obtain ⟨s₁, hstep, hrest⟩ := Option.bind_eq_some_iff.1 h
    exact .cons hstep (ih hrest)

/-- Two workers request the same piece from the same peer, and only one of the requests is
known to the scheduler. -/
theorem refreshed_requests_twice : ∃ s₀ s : Engine ℕ, new [false] = some s₀ ∧
    Run Step s₀ refreshed s ∧ s.sched.pieces = [.inFlight [7]] ∧
    s.Outstanding 0 ⟨7, 0, .requesting 0⟩ 0 ∧ s.Outstanding 1 ⟨7, 0, .requesting 0⟩ 0 ∧
    ¬ s.Agreement := by
  have hrun : ((new [false]).bind (·.exec refreshed)).map (fun s =>
      (s.sched.pieces, s.workers 0, s.workers 1, s.connected.lookup 7)) =
      some ([.inFlight [7]], some ⟨7, 0, .requesting 0⟩, some ⟨7, 0, .requesting 0⟩,
        some ⟨0, .running⟩) := by decide
  obtain ⟨s, hexec, hs⟩ := Option.map_eq_some_iff.1 hrun
  obtain ⟨s₀, hnew, hexec⟩ := Option.bind_eq_some_iff.1 hexec
  simp only [Prod.mk.injEq] at hs
  obtain ⟨hpieces, hw₀, hw₁, hlive⟩ := hs
  have hout₀ : s.Outstanding 0 ⟨7, 0, .requesting 0⟩ 0 := ⟨hw₀, hlive, rfl⟩
  have hout₁ : s.Outstanding 1 ⟨7, 0, .requesting 0⟩ 0 := ⟨hw₁, hlive, rfl⟩
  refine ⟨s₀, s, hnew, run_of_exec hexec, hpieces, hout₀, hout₁, fun hagree => ?_⟩
  exact absurd (hagree.distinct 0 1 _ _ 0 hout₀ hout₁ rfl (by simp [hpieces])) (by decide)

end Chorrent.Engine
