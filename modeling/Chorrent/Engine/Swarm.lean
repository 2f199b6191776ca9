/-
# Peers of a running download

The peers a download connects to once it has the manifest (the swarm loop of `run` in
`download.rs`).  Addresses come through a bounded channel: those known when the manifest arrived,
and those that peers announce through gossip.  An address is taken once, and is gone when it is
passed over, when its dial fails or when its connection ends.  So every address is worth one
chance, and without gossip a download is dead as soon as each known peer has used up its own.
-/
import Chorrent.Engine.Basic
import Chorrent.Lib.Run

namespace Chorrent

open Lib

/-! ## The queue of addresses -/

/-- How many addresses wait to be taken at most. -/
def foundCapacity : ℕ := 256

/-- A peer that was just tried is not dialed again for so long, in milliseconds
(`RETRY_PEER_AFTER`). -/
def retryPeerAfter : ℕ := 20000

section

variable {K : Type} [DecidableEq K]

/-- `try_send`: an address is dropped if the channel is full. -/
def trySend (found : List K) (peer : K) : List K :=
  if found.length < foundCapacity then found ++ [peer] else found

/-- `add_candidate`: a peer to try for the manifest, once per peer. -/
def addCandidate (me : K) (candidates : List K) (peer : K) : List K :=
  if peer = me ∨ peer ∈ candidates then candidates else candidates ++ [peer]

/-- The peers to try for the manifest: those of the share code, as far as they fit the channel,
and those heard of since. -/
def candidatesOf (me : K) (code heard : List K) : List K :=
  (code.foldl trySend [] ++ heard).foldl (addCandidate me) []

/-- The addresses that wait when the swarm loop starts: those that arrived since the channel was
last emptied, and every candidate but the one the manifest came from. -/
def requeued (candidates late : List K) (first : K) : List K :=
  (candidates.filter (· ≠ first)).foldl trySend (late.foldl trySend [])

/-! ## The swarm loop -/

/-- A task for a peer.  Addresses are known by the peer they lead to. -/
inductive PeerTask (K : Type)
  | dialing (peer : K)
  /-- The connection is there, and `run_peer` is next. -/
  | entering (peer : K)
  /-- `drive_peer` is running. -/
  | driving (peer : K)
  | ended
deriving DecidableEq

def PeerTask.isRunning : PeerTask K → Bool
  | .ended => false
  | _ => true

inductive Outcome
  | running
  | finished
  | cancelled
deriving DecidableEq

/-- The swarm loop, its tasks, and who is heard of. -/
structure SwarmLoop (K : Type) where
  me : K
  gossip : Bool
  found : List K
  peers : List (PeerTask K)
  connected : Finset K
  /-- When each peer was last dialed. -/
  lastAttempt : K → Option ℕ
  now : ℕ
  /-- The peers that announce themselves through gossip from time to time. -/
  announcing : Finset K
  outcome : Outcome

inductive SwarmAction (K : Type)
  /-- The task has a connection and starts to use it. -/
  | connect (n : ℕ)
  /-- The task has a second connection to a peer. -/
  | duplicate (n : ℕ)
  | failDial (n : ℕ)
  /-- The peer leaves, keeps failing or is given up. -/
  | leave (n : ℕ)
  /-- An address is taken and dialed. -/
  | dial
  /-- An address is taken and not dialed. -/
  | passOver
  /-- The loop comes round for another reason. -/
  | tick
  | wait (time : ℕ)
  /-- An announcement arrives. -/
  | announce (peer : K)
  /-- An announcement arrives when the channel is full. -/
  | dropAnnouncement (peer : K)
  | join (peer : K)
  | quit (peer : K)
  | finish
  | cancel
deriving DecidableEq

namespace SwarmLoop

/-- Where the swarm loop starts: `run_peer` is next for the connection the manifest came over. -/
def start (me : K) (gossip : Bool) (found : List K) (first : K) (announcing : Finset K)
    (now : ℕ) : SwarmLoop K :=
  { me, gossip, found, peers := [.entering first], connected := ∅,
    lastAttempt := fun _ => none, now,
    announcing, outcome := .running }

/-- The swarm loop starts after the manifest arrived; without gossip, only the peers of the share
code are known. -/
inductive Starts (me : K) (code : List K) : SwarmLoop K → Prop
  | start (gossip : Bool) (heard late : List K) (first : K) (announcing : Finset K) (now : ℕ)
      (hfirst : first ∈ candidatesOf me code heard) (hlate : me ∉ late)
      (hgossip : gossip = false → heard = [] ∧ late = []) :
      Starts me code (.start me gossip (requeued (candidatesOf me code heard) late first) first
        announcing now)

variable (s : SwarmLoop K)

/-- `should_try`, as far as it is answered. -/
def shouldTry (peer : K) : Bool :=
  peer ≠ s.me && (s.lastAttempt peer).all fun previous => retryPeerAfter ≤ s.now - previous

/-- Whether an address is dialed. -/
def dials (peer : K) : Bool :=
  s.peers.length < maxPeers && peer ∉ s.connected && s.shouldTry peer

/-- Tasks that ended are taken out each time the loop comes round. -/
def reap (peers : List (PeerTask K)) : List (PeerTask K) := peers.filter PeerTask.isRunning

/-- One step, while the loop is running. -/
def stepRunning : SwarmAction K → Option (SwarmLoop K)
  | .connect n =>
      match s.peers[n]? with
      | some (.dialing peer) | some (.entering peer) =>
          if peer ∈ s.connected then none
          else some { s with
            peers := s.peers.set n (.driving peer), connected := insert peer s.connected }
      | _ => none
  | .duplicate n =>
      match s.peers[n]? with
      | some (.dialing peer) | some (.entering peer) =>
          if peer ∈ s.connected then some { s with peers := s.peers.set n .ended } else none
      | _ => none
  | .failDial n =>
      match s.peers[n]? with
      | some (.dialing _) => some { s with peers := s.peers.set n .ended }
      | _ => none
  | .leave n =>
      match s.peers[n]? with
      | some (.driving peer) =>
          some { s with peers := s.peers.set n .ended, connected := s.connected.erase peer }
      | _ => none
  | .dial =>
      match s.found with
      | [] => none
      | peer :: found =>
          if s.dials peer then
            some { s with
              found, peers := reap (s.peers ++ [.dialing peer])
              lastAttempt := Function.update s.lastAttempt peer (some s.now) }
          else none
  | .passOver =>
      match s.found with
      | [] => none
      | peer :: found =>
          if s.dials peer then none else some { s with found, peers := reap s.peers }
  | .tick => some { s with peers := reap s.peers }
  | .wait time => some { s with now := s.now + time }
  | .announce peer =>
      if s.gossip ∧ peer ∈ s.announcing ∧ peer ≠ s.me ∧ s.found.length < foundCapacity then
        some { s with found := trySend s.found peer }
      else none
  | .dropAnnouncement peer =>
      if s.gossip ∧ peer ∈ s.announcing ∧ peer ≠ s.me ∧ ¬ s.found.length < foundCapacity then
        some { s with found := trySend s.found peer }
      else none
  | .join peer =>
      if s.gossip ∧ peer ≠ s.me then some { s with announcing := insert peer s.announcing }
      else none
  | .quit peer => some { s with announcing := s.announcing.erase peer }
  | .finish =>
      if s.peers.any fun task => task matches .driving _ then some { s with outcome := .finished }
      else none
  | .cancel => some { s with outcome := .cancelled }

def step (a : SwarmAction K) : Option (SwarmLoop K) :=
  if s.outcome = .running then s.stepRunning a else none

/-- A peer is connected or being dialed, or an address waits to be taken, or will come. -/
def Alive : Prop :=
  (∃ task ∈ s.peers, task.isRunning = true) ∨ (∃ peer ∈ s.found, peer ≠ s.me) ∨
    s.gossip = true ∧ ∃ peer ∈ s.announcing, peer ≠ s.me

end SwarmLoop

/-! ## Chances -/

/-- The action uses up a chance: a dial failed, a connection ended or an address was passed over. -/
def SwarmAction.spends : SwarmAction K → Bool
  | .duplicate _ | .failDial _ | .leave _ | .passOver => true
  | _ => false

/-- The action gives another chance. -/
def SwarmAction.gives : SwarmAction K → Bool
  | .announce _ => true
  | _ => false

namespace SwarmLoop

/-- The chances that are left: addresses that wait, and tasks that have not ended. -/
def chances (s : SwarmLoop K) : ℕ := s.found.length + s.peers.countP PeerTask.isRunning

variable {s s' : SwarmLoop K}

omit [DecidableEq K] in
lemma countP_reap (peers : List (PeerTask K)) :
    (reap peers).countP PeerTask.isRunning = peers.countP PeerTask.isRunning := by
  rw [reap, List.countP_filter]
  simp

omit [DecidableEq K] in
/-- A task goes on or ends. -/
lemma countP_set {n : ℕ} {task : PeerTask K} {peers : List (PeerTask K)} (h : peers[n]? = some task)
    (htask : task.isRunning = true) (next : PeerTask K) :
    (peers.set n next).countP PeerTask.isRunning + (!next.isRunning).toNat =
      peers.countP PeerTask.isRunning := by
  obtain ⟨hlt, hget⟩ := List.getElem?_eq_some_iff.1 h
  have hpos : 0 < peers.countP PeerTask.isRunning :=
    List.countP_pos_iff.2 ⟨task, List.mem_of_getElem? h, htask⟩
  rw [List.countP_set hlt, hget, htask, if_pos rfl]
  cases next.isRunning
  · simp only [Bool.false_eq_true, if_false, Bool.not_false, Bool.toNat_true]
    omega
  · simp only [if_true, Bool.not_true, Bool.toNat_false]
    omega

/-- What a step does to the chances: an action that uses one up has one less after it, and an
announcement gives one more. -/
lemma chances_step {a : SwarmAction K} (h : s.step a = some s') :
    s'.chances + a.spends.toNat = s.chances + a.gives.toNat := by
  rw [step] at h
  split_ifs at h
  -- a running task that ends is one chance less, wherever it stands in the list
  have hset : ∀ {n task} (next : PeerTask K), s.peers[n]? = some task → task.isRunning = true →
      s.found.length + (s.peers.set n next).countP PeerTask.isRunning + (!next.isRunning).toNat =
        s.chances := by
    intro n task next hget htask
    rw [Nat.add_assoc, countP_set hget htask next]
    rfl
  cases a with
  | connect n =>
    simp only [stepRunning] at h
    split at h
    all_goals try split_ifs at h
    all_goals cases h
    all_goals exact hset _ ‹_› rfl
  | duplicate n =>
    simp only [stepRunning] at h
    split at h
    all_goals try split_ifs at h
    all_goals cases h
    all_goals exact hset _ ‹_› rfl
  | failDial n | leave n =>
    simp only [stepRunning] at h
    split at h
    all_goals cases h
    exact hset _ ‹_› rfl
  | dial =>
    simp only [stepRunning] at h
    split at h
    · cases h
    · rename_i hfound
      split_ifs at h
      cases h
      simp only [chances, countP_reap, hfound, List.countP_append, List.length_cons,
        List.countP_singleton, PeerTask.isRunning, if_true]
      show _ + 0 = _ + 0
      omega
  | passOver =>
    simp only [stepRunning] at h
    split at h
    · cases h
    · rename_i hfound
      split_ifs at h
      cases h
      simp only [chances, countP_reap, hfound, List.length_cons]
      show _ + 1 = _ + 0
      omega
  | announce peer =>
    simp only [stepRunning] at h
    split_ifs at h with hguard
    cases h
    simp only [chances, trySend, if_pos hguard.2.2.2, List.length_append, List.length_singleton]
    show _ + 0 = _ + 1
    omega
  | dropAnnouncement peer =>
    simp only [stepRunning] at h
    split_ifs at h with hguard
    cases h
    simp only [chances, trySend, if_neg hguard.2.2.2]
    rfl
  | tick =>
    cases h
    exact congrArg (s.found.length + ·) (countP_reap s.peers)
  | join peer =>
    simp only [stepRunning] at h
    split_ifs at h
    cases h
    rfl
  | finish =>
    simp only [stepRunning] at h
    split_ifs at h
    cases h
    rfl
  | wait | quit | cancel =>
    cases h
    rfl

omit [DecidableEq K] in
lemma chances_pos_of_driving (h : (s.peers.any fun task => task matches .driving _) = true) :
    0 < s.chances := by
  obtain ⟨task, hmem, hdriving⟩ := List.any_eq_true.1 h
  have hpos : 0 < s.peers.countP PeerTask.isRunning := by
    refine List.countP_pos_iff.2 ⟨task, hmem, ?_⟩
    cases task with
    | ended => cases hdriving
    | dialing | entering | driving => rfl
  exact Nat.add_pos_right _ hpos

/-- What a step keeps.  The last piece comes from a peer, so a download only finishes while there
is a chance left. -/
lemma step_frame {a : SwarmAction K} (h : s.step a = some s') :
    s'.me = s.me ∧ s'.gossip = s.gossip ∧ (s.me ∉ s.found → s.me ∉ s'.found) ∧
      (s'.outcome = .finished → 0 < s.chances) := by
  rw [step] at h
  split_ifs at h with hrunning
  have hnot : s.outcome = .finished → 0 < s.chances := fun hfinished => by
    cases hrunning.symm.trans hfinished
  cases a with
  | connect n | duplicate n =>
    simp only [stepRunning] at h
    split at h
    all_goals try split_ifs at h
    all_goals cases h
    all_goals exact ⟨rfl, rfl, fun hme => hme, hnot⟩
  | failDial n | leave n =>
    simp only [stepRunning] at h
    split at h
    all_goals cases h
    exact ⟨rfl, rfl, fun hme => hme, hnot⟩
  | dial | passOver =>
    simp only [stepRunning] at h
    split at h
    · cases h
    · rename_i hfound
      split_ifs at h
      cases h
      rw [hfound]
      exact ⟨rfl, rfl, fun hme hmem => hme (List.mem_cons_of_mem _ hmem), hnot⟩
  | announce peer | dropAnnouncement peer =>
    simp only [stepRunning] at h
    split_ifs at h with hguard
    cases h
    refine ⟨rfl, rfl, fun hme hmem => ?_, hnot⟩
    dsimp only at hmem
    rw [trySend] at hmem
    split_ifs at hmem
    · rcases List.mem_append.1 hmem with hmem | hmem
      · exact hme hmem
      · exact hguard.2.2.1 (List.mem_singleton.1 hmem).symm
    · exact hme hmem
  | finish =>
    simp only [stepRunning] at h
    split_ifs at h with hdriving
    cases h
    exact ⟨rfl, rfl, fun hme => hme, fun _ => chances_pos_of_driving hdriving⟩
  | join peer =>
    simp only [stepRunning] at h
    split_ifs at h
    cases h
    exact ⟨rfl, rfl, fun hme => hme, hnot⟩
  | cancel =>
    cases h
    exact ⟨rfl, rfl, fun hme => hme, fun hfinished => by cases hfinished⟩
  | tick | wait | quit =>
    cases h
    exact ⟨rfl, rfl, fun hme => hme, hnot⟩

/-! ## Whole runs -/

omit [DecidableEq K] in
lemma mem_foldl_trySend {peers : List K} {peer : K} : ∀ {found : List K},
    peer ∈ peers.foldl trySend found → peer ∈ found ∨ peer ∈ peers := by
  induction peers with
  | nil => exact fun h => .inl h
  | cons p peers ih =>
    intro found h
    rcases ih h with hmem | hmem
    · rw [trySend] at hmem
      split_ifs at hmem
      · rcases List.mem_append.1 hmem with hmem | hmem
        · exact .inl hmem
        · exact .inr (List.mem_cons.2 (.inl (List.mem_singleton.1 hmem)))
      · exact .inl hmem
    · exact .inr (List.mem_cons_of_mem _ hmem)

lemma me_notMem_foldl_addCandidate {me : K} (peers : List K) : ∀ {candidates : List K},
    me ∉ candidates → me ∉ peers.foldl (addCandidate me) candidates := by
  induction peers with
  | nil => exact fun h => h
  | cons p peers ih =>
    intro candidates h
    refine ih ?_
    rw [addCandidate]
    split_ifs with hp
    · exact h
    · rw [not_or] at hp
      simpa using ⟨h, Ne.symm hp.1⟩

/-- Our own address does not wait to be taken. -/
lemma Starts.me_notMem {me : K} {code : List K} (h : Starts me code s) :
    s.me = me ∧ me ∉ s.found := by
  cases h with
  | start gossip heard late first announcing now hfirst hlate hgossip =>
    refine ⟨rfl, fun hmem => ?_⟩
    rcases mem_foldl_trySend (show me ∈ requeued _ _ _ from hmem) with hmem | hmem
    · rcases mem_foldl_trySend hmem with hmem | hmem
      · cases hmem
      · exact hlate hmem
    · exact me_notMem_foldl_addCandidate _ (List.not_mem_nil) (List.mem_filter.1 hmem).1

omit [DecidableEq K] in
lemma alive_iff_chances (hme : s.me ∉ s.found) :
    s.Alive ↔ 0 < s.chances ∨ s.gossip = true ∧ ∃ peer ∈ s.announcing, peer ≠ s.me := by
  have hfound : (∃ peer ∈ s.found, peer ≠ s.me) ↔ 0 < s.found.length := by
    rw [List.length_pos_iff_exists_mem]
    exact exists_congr fun peer => and_iff_left_of_imp fun hmem => fun heq => hme (heq ▸ hmem)
  have hpeers : (∃ task ∈ s.peers, task.isRunning = true) ↔
      0 < s.peers.countP PeerTask.isRunning := List.countP_pos_iff.symm
  rw [Alive, hfound, hpeers, chances, ← or_assoc]
  refine or_congr_left ?_
  omega

/-- A download has somebody to turn to exactly if somebody announces itself, or fewer chances were
used up than were given: one for the connection the manifest came over, one for each address
that waited then, and one for each announcement that found room. -/
theorem alive_iff {me : K} {code : List K} {start : SwarmLoop K} {actions : List (SwarmAction K)}
    (hstart : Starts me code start)
    (hrun : Run (fun s a s' => s.step a = some s') start actions s) :
    s.Alive ↔ (s.gossip = true ∧ ∃ peer ∈ s.announcing, peer ≠ s.me) ∨
      actions.countP SwarmAction.spends <
        1 + start.found.length + actions.countP SwarmAction.gives := by
  -- no chance is lost or counted twice
  have hstep : ∀ (done : List (SwarmAction K)) (s : SwarmLoop K) (a : SwarmAction K)
      (s' : SwarmLoop K),
      (s.me ∉ s.found ∧ s.chances + done.countP SwarmAction.spends =
        start.chances + done.countP SwarmAction.gives) → s.step a = some s' →
      (s'.me ∉ s'.found ∧ s'.chances + (done ++ [a]).countP SwarmAction.spends =
        start.chances + (done ++ [a]).countP SwarmAction.gives) := by
    rintro done s a s' ⟨hme, hcount⟩ hstep
    obtain ⟨hsame, -, hfound, -⟩ := step_frame hstep
    refine ⟨by rw [hsame]; exact hfound hme, ?_⟩
    have hchances := chances_step hstep
    have hspends : (done ++ [a]).countP SwarmAction.spends =
        done.countP SwarmAction.spends + a.spends.toNat := by
      rw [List.countP_append, List.countP_singleton]
      cases a.spends <;> rfl
    have hgives : (done ++ [a]).countP SwarmAction.gives =
        done.countP SwarmAction.gives + a.gives.toNat := by
      rw [List.countP_append, List.countP_singleton]
      cases a.gives <;> rfl
    omega
  obtain ⟨hsame, hmem⟩ := hstart.me_notMem
  obtain ⟨hme, hcount⟩ : s.me ∉ s.found ∧ s.chances + ([] ++ actions).countP SwarmAction.spends =
      start.chances + ([] ++ actions).countP SwarmAction.gives :=
    hrun.invariant_history hstep ⟨by rwa [hsame], rfl⟩
  have hbegin : start.chances = start.found.length + 1 := by
    cases hstart
    rfl
  rw [List.nil_append] at hcount
  rw [alive_iff_chances hme, or_comm]
  refine or_congr_right ?_
  omega

lemma gossip_of_gives {a : SwarmAction K} (h : s.step a = some s') (ha : a.gives = true) :
    s.gossip = true := by
  rw [step] at h
  split_ifs at h
  cases a with
  | announce peer =>
    simp only [stepRunning] at h
    split_ifs at h with hguard
    exact hguard.1
  | _ => cases ha

/-- Without gossip, a download that has nobody to turn to never gets anybody again. -/
theorem dead_forever {actions : List (SwarmAction K)} (hgossip : s.gossip = false)
    (hme : s.me ∉ s.found) (hdead : ¬ s.Alive) (hrunning : s.outcome = .running)
    (hrun : Run (fun s a s' => s.step a = some s') s actions s') :
    ¬ s'.Alive ∧ s'.outcome ≠ .finished := by
  rw [alive_iff_chances hme, not_or] at hdead
  obtain ⟨hchances, -⟩ := hdead
  have hinv := hrun.invariant (P := fun s => s.gossip = false ∧ s.me ∉ s.found ∧ s.chances = 0 ∧
      s.outcome ≠ .finished) (by
    rintro s a s' ⟨hgossip, hme, hzero, hnot⟩ hstep
    obtain ⟨hsame, hsameGossip, hfound, hlast⟩ := step_frame hstep
    have hcount := chances_step hstep
    have hgives : a.gives = false := by
      by_contra hgives
      rw [gossip_of_gives hstep (by simpa using hgives)] at hgossip
      cases hgossip
    rw [hzero, hgives] at hcount
    have hcount : s'.chances + a.spends.toNat = 0 := hcount
    refine ⟨by rw [hsameGossip, hgossip], by rw [hsame]; exact hfound hme, by omega,
      fun hfinished => ?_⟩
    have := hlast hfinished
    omega) ⟨hgossip, hme, by omega, by rw [hrunning]; decide⟩
  obtain ⟨hgossip', hme', hzero, hnot⟩ := hinv
  refine ⟨?_, hnot⟩
  rw [alive_iff_chances hme', hzero, hgossip']
  simp

end SwarmLoop

end

/-! ## A download from one peer -/

namespace OnePeer

def me : EndpointId := List.Vector.replicate 32 0

def seeder : EndpointId := List.Vector.replicate 32 1

/-- The manifest came from the only peer of the share code. -/
def start : SwarmLoop EndpointId := .start me false [] seeder ∅ 0

lemma starts : SwarmLoop.Starts me [seeder] start :=
  .start false [] [] seeder ∅ 0 (by decide) (by decide) fun _ => ⟨rfl, rfl⟩

end OnePeer

open OnePeer in
/-- The peer is being downloaded from. -/
theorem alive_iff_one_peer : ∃ s, start.step (.connect 0) = some s ∧ s.Alive := by
  obtain ⟨s, hconnect⟩ : ∃ s, start.step (.connect 0) = some s := ⟨_, rfl⟩
  have hrun : Run (fun s a s' => s.step a = some s') start [.connect 0] s := .single hconnect
  exact ⟨s, hconnect, (SwarmLoop.alive_iff starts hrun).2 (.inr (by decide))⟩

open OnePeer in
/-- The connection to the only peer is lost: nobody is connected or dialed any more, no address
waits, and however the download goes on, it does not finish. -/
theorem dead_after_lost_connection : ∃ s, Run (fun s a s' => s.step a = some s') start
    [.connect 0, .leave 0] s ∧ s.outcome = .running ∧ ¬ s.Alive ∧
      ∀ actions s', Run (fun s a s' => s.step a = some s') s actions s' →
        ¬ s'.Alive ∧ s'.outcome ≠ .finished := by
  have hdead : ¬ (⟨me, false, [], [.ended], ∅, fun _ => none, 0, ∅, .running⟩ :
      SwarmLoop EndpointId).Alive := by
    rw [SwarmLoop.alive_iff_chances (by simp)]
    rintro (hpos | ⟨hgossip, -⟩)
    · exact absurd hpos (by decide)
    · cases hgossip
  exact ⟨_, .cons rfl (.single rfl), rfl, hdead, fun actions s' hrun =>
    SwarmLoop.dead_forever rfl (by decide) hdead rfl hrun⟩

end Chorrent
