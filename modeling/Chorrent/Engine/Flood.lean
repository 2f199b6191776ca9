/-
# A flood of announcements

What keeps a download from being made to dial without end: addresses wait in a channel of bounded
size, tasks for peers are bounded in number, a peer is downloaded from over one connection at a
time, and one that was just dialed is left alone for a while.
-/
import Chorrent.Engine.Swarm
import Chorrent.Lib.Potential

namespace Chorrent

open Lib

namespace SwarmLoop

variable {K : Type} [DecidableEq K] {s s' : SwarmLoop K}

/-! ## What a step does -/

/-- How the tasks and the connected peers change. -/
inductive Reseats (s s' : SwarmLoop K) : Prop
  | same (hpeers : s'.peers = s.peers) (hconnected : s'.connected = s.connected)
  /-- Tasks that ended are taken out, and one may be added. -/
  | reaped (peer : Option K) (hpeers : s'.peers = reap (s.peers ++ (peer.map .dialing).toList))
      (hroom : peer.isSome → s.peers.length < maxPeers) (hconnected : s'.connected = s.connected)
  /-- One task goes on. -/
  | goes {n : ℕ} (task next : PeerTask K) (hget : s.peers[n]? = some task)
      (hpeers : s'.peers = s.peers.set n next)
      (hconnected : ∀ peer, peer ∈ s'.connected ↔
        next = .driving peer ∨ peer ∈ s.connected ∧ task ≠ .driving peer)
      (hnew : ∀ peer, next = .driving peer → peer ∉ s.connected ∧ task ≠ .driving peer)

/-- Whom a step dials, and when. -/
def dialed (s : SwarmLoop K) : SwarmAction K → List (K × ℕ)
  | .dial => (s.found.head?.map fun peer => (peer, s.now)).toList
  | _ => []

/-- What a step does to the times at which peers were last dialed. -/
inductive Clocks (s s' : SwarmLoop K) (a : SwarmAction K) : Prop
  | same (hnow : s.now ≤ s'.now) (hlast : s'.lastAttempt = s.lastAttempt)
      (hdialed : s.dialed a = [])
  | dialed (peer : K) (hnow : s'.now = s.now)
      (hlast : s'.lastAttempt = Function.update s.lastAttempt peer (some s.now))
      (hdialed : s.dialed a = [(peer, s.now)]) (hdials : s.dials peer = true)

lemma reseats_step {a : SwarmAction K} (h : s.step a = some s') : Reseats s s' := by
  rw [step] at h
  split_ifs at h
  -- a task that ends leaves its peer, if it had one
  have hends : ∀ {n task}, s.peers[n]? = some task → (∀ peer, task ≠ .driving peer) →
      s'.peers = s.peers.set n .ended → s'.connected = s.connected → Reseats s s' :=
    fun hget hnot hpeers hconnected => .goes _ _ hget hpeers (fun peer => by
      rw [hconnected]
      exact ⟨fun hmem => .inr ⟨hmem, hnot peer⟩, fun hmem => by
        rcases hmem with hended | hmem
        · cases hended
        · exact hmem.1⟩) fun peer hended => by cases hended
  have hstarts : ∀ {n task peer}, s.peers[n]? = some task → (∀ peer, task ≠ .driving peer) →
      peer ∉ s.connected → s'.peers = s.peers.set n (.driving peer) →
      s'.connected = insert peer s.connected → Reseats s s' :=
    fun hget hnot hnew hpeers hconnected => .goes _ _ hget hpeers (fun peer' => by
      rw [hconnected, Finset.mem_insert, PeerTask.driving.injEq, eq_comm]
      exact or_congr_right (and_iff_left (hnot peer')).symm) fun peer' heq => by
        obtain rfl := PeerTask.driving.inj heq
        exact ⟨hnew, hnot _⟩
  cases a with
  | connect n =>
    simp only [stepRunning] at h
    split at h
    all_goals try split_ifs at h
    all_goals cases h
    all_goals exact hstarts ‹_› (by simp) ‹_› rfl rfl
  | duplicate n =>
    simp only [stepRunning] at h
    split at h
    all_goals try split_ifs at h
    all_goals cases h
    all_goals exact hends ‹_› (by simp) rfl rfl
  | failDial n =>
    simp only [stepRunning] at h
    split at h
    all_goals cases h
    exact hends ‹_› (by simp) rfl rfl
  | leave n =>
    simp only [stepRunning] at h
    split at h
    · rename_i peer hget
      cases h
      refine .goes _ _ hget rfl (fun peer' => ?_) fun peer' hended => by cases hended
      rw [Finset.mem_erase, and_comm, ne_eq, ne_eq, PeerTask.driving.injEq, eq_comm]
      exact (or_iff_right (by simp)).symm
    · cases h
  | dial =>
    simp only [stepRunning] at h
    split at h
    · cases h
    · rename_i peer found hfound
      split_ifs at h with hdials
      cases h
      simp only [dials, Bool.and_eq_true, decide_eq_true_eq] at hdials
      exact .reaped (some peer) rfl (fun _ => hdials.1.1) rfl
  | passOver =>
    simp only [stepRunning] at h
    split at h
    · cases h
    · split_ifs at h
      cases h
      exact .reaped none (by simp) (by simp) rfl
  | tick =>
    cases h
    exact .reaped none (by simp) (by simp) rfl
  | announce peer | dropAnnouncement peer | join peer | finish =>
    simp only [stepRunning] at h
    split_ifs at h
    cases h
    exact .same rfl rfl
  | wait | quit | cancel =>
    cases h
    exact .same rfl rfl

lemma clocks_step {a : SwarmAction K} (h : s.step a = some s') : Clocks s s' a := by
  rw [step] at h
  split_ifs at h
  cases a with
  | dial =>
    simp only [stepRunning] at h
    split at h
    · cases h
    · rename_i peer found hfound
      split_ifs at h with hdials
      cases h
      exact .dialed peer rfl rfl (by rw [dialed, hfound]; rfl) hdials
  | wait time =>
    cases h
    exact .same (Nat.le_add_right _ _) rfl rfl
  | connect n | duplicate n | failDial n | leave n | passOver =>
    simp only [stepRunning] at h
    split at h
    all_goals try split_ifs at h
    all_goals cases h
    all_goals exact .same le_rfl rfl rfl
  | announce peer | dropAnnouncement peer | join peer | finish =>
    simp only [stepRunning] at h
    split_ifs at h
    cases h
    exact .same le_rfl rfl rfl
  | tick | quit | cancel =>
    cases h
    exact .same le_rfl rfl rfl

omit [DecidableEq K] in
lemma length_trySend_le {found : List K} {peer : K} (h : found.length ≤ foundCapacity) :
    (trySend found peer).length ≤ foundCapacity := by
  rw [trySend]
  split_ifs with hroom
  · rwa [List.length_append, List.length_singleton]
  · exact h

lemma length_found_step {a : SwarmAction K} (h : s.step a = some s')
    (hfound : s.found.length ≤ foundCapacity) : s'.found.length ≤ foundCapacity := by
  rw [step] at h
  split_ifs at h
  cases a with
  | dial | passOver =>
    simp only [stepRunning] at h
    split at h
    · cases h
    · rename_i heq
      split_ifs at h
      cases h
      rw [heq, List.length_cons] at hfound
      exact (Nat.le_succ _).trans hfound
  | announce peer | dropAnnouncement peer =>
    simp only [stepRunning] at h
    split_ifs at h
    cases h
    exact length_trySend_le hfound
  | connect n | duplicate n | failDial n | leave n =>
    simp only [stepRunning] at h
    split at h
    all_goals try split_ifs at h
    all_goals cases h
    all_goals exact hfound
  | join peer | finish =>
    simp only [stepRunning] at h
    split_ifs at h
    cases h
    exact hfound
  | tick | wait | quit | cancel =>
    cases h
    exact hfound

/-! ## What every step keeps -/

structure Tidy (s : SwarmLoop K) : Prop where
  found_le : s.found.length ≤ foundCapacity
  peers_le : s.peers.length ≤ maxPeers
  /-- Exactly the connected peers are downloaded from, each by one task. -/
  driven : ∀ peer, s.peers.count (.driving peer) = if peer ∈ s.connected then 1 else 0

omit [DecidableEq K] in
lemma length_reap_le (peers : List (PeerTask K)) : (reap peers).length ≤ peers.length :=
  List.length_filter_le _ _

lemma count_reap (peers : List (PeerTask K)) (peer : K) :
    (reap peers).count (.driving peer) = peers.count (.driving peer) :=
  List.count_filter rfl

lemma Tidy.step {a : SwarmAction K} (h : s.Tidy) (hstep : s.step a = some s') : s'.Tidy := by
  refine ⟨length_found_step hstep h.found_le, ?_, fun peer => ?_⟩
  · cases reseats_step hstep with
    | same hpeers _ =>
      rw [hpeers]
      exact h.peers_le
    | reaped peer hpeers hroom _ =>
      rw [hpeers]
      refine (length_reap_le _).trans ?_
      rw [List.length_append]
      cases peer with
      | none => exact h.peers_le
      | some peer => exact hroom rfl
    | goes task next _ hpeers _ _ =>
      rw [hpeers, List.length_set]
      exact h.peers_le
  · have hdriven := h.driven peer
    cases reseats_step hstep with
    | same hpeers hconnected => rw [hpeers, hconnected, hdriven]
    | reaped added hpeers _ hconnected =>
      have hnone : (added.map PeerTask.dialing).toList.count (.driving peer) = 0 :=
        List.count_eq_zero.2 (by cases added <;> simp)
      rw [hpeers, count_reap, List.count_append, hnone, hconnected, Nat.add_zero, hdriven]
    | goes task next hget hpeers hconnected hnew =>
      obtain ⟨hlt, heq⟩ := List.getElem?_eq_some_iff.1 hget
      rw [hpeers, List.count_set hlt, heq, hdriven]
      simp only [beq_iff_eq, hconnected peer]
      by_cases hnext : next = .driving peer
      · obtain ⟨hout, hother⟩ := hnew peer hnext
        simp [hnext, hout, hother]
      · by_cases htask : task = .driving peer
        · -- the task that ends was the only one for its peer
          by_cases hin : peer ∈ s.connected <;> simp [hnext, htask, hin]
        · simp [hnext, htask]

omit [DecidableEq K] in
lemma length_foldl_trySend_le {peers : List K} : ∀ {found : List K},
    found.length ≤ foundCapacity → (peers.foldl trySend found).length ≤ foundCapacity := by
  induction peers with
  | nil => exact fun h => h
  | cons peer peers ih => exact fun h => ih (length_trySend_le h)

lemma Starts.tidy {me : K} {code : List K} (h : Starts me code s) : s.Tidy := by
  obtain ⟨gossip, heard, late, first, announcing, now, hfirst, hlate, hgossip⟩ := h
  refine ⟨?_, show 1 ≤ maxPeers by decide, fun peer => rfl⟩
  exact length_foldl_trySend_le (length_foldl_trySend_le (Nat.zero_le _))

/-! ## Dials -/

lemma notMe_of_dials {peer : K} (h : s.dials peer = true) : peer ≠ s.me := by
  simp only [dials, shouldTry, Bool.and_eq_true, decide_eq_true_eq] at h
  exact h.2.1

/-- A peer that is dialed was not dialed for a while. -/
lemma spaced_of_dials {peer : K} {previous : ℕ} (h : s.dials peer = true)
    (hlast : s.lastAttempt peer = some previous) : previous + retryPeerAfter ≤ s.now := by
  simp only [dials, shouldTry, Bool.and_eq_true, decide_eq_true_eq, hlast, Option.all_some] at h
  have hpos : 0 < retryPeerAfter := by decide
  omega

/-- What is dialed from now on. -/
lemma dials_later {dials : List (K × ℕ)}
    (h : Observed (fun s a s' => s.step a = some s') dialed s dials s') :
    ∀ dial ∈ dials, dial.1 ≠ s.me ∧ s.now ≤ dial.2 ∧
      ∀ previous, s.lastAttempt dial.1 = some previous → previous + retryPeerAfter ≤ dial.2 := by
  induction h with
  | nil => exact fun _ hdial => by cases hdial
  | @cons s s₁ s₂ a dials hstep _ ih =>
    have hme := (step_frame hstep).1
    intro dial hmem
    rcases clocks_step hstep with ⟨hnow, hlast, hdialed⟩ | ⟨peer, hnow, hlast, hdialed, hdials⟩
    · rw [hdialed, List.nil_append] at hmem
      obtain ⟨hnot, hlater, hspaced⟩ := ih dial hmem
      rw [hme] at hnot
      rw [hlast] at hspaced
      exact ⟨hnot, hnow.trans hlater, hspaced⟩
    · rw [hdialed, List.singleton_append, List.mem_cons] at hmem
      rcases hmem with rfl | hmem
      · exact ⟨notMe_of_dials hdials, le_rfl, fun previous hprevious =>
          spaced_of_dials hdials hprevious⟩
      · obtain ⟨hnot, hlater, hspaced⟩ := ih dial hmem
        rw [hme] at hnot
        rw [hnow] at hlater
        refine ⟨hnot, hlater, fun previous hprevious => ?_⟩
        by_cases hsame : dial.1 = peer
        · -- the peer is dialed again, and was dialed after `previous`
          have hagain := hspaced s.now (by rw [hlast, hsame, Function.update_self])
          have hbefore := spaced_of_dials hdials (hsame ▸ hprevious)
          omega
        · exact hspaced previous (by rw [hlast, Function.update_of_ne hsame, hprevious])

lemma dials_spaced {dials : List (K × ℕ)}
    (h : Observed (fun s a s' => s.step a = some s') dialed s dials s') :
    dials.Pairwise fun dial again => dial.1 = again.1 → dial.2 + retryPeerAfter ≤ again.2 := by
  induction h with
  | nil => exact .nil
  | @cons s s₁ s₂ a dials hstep hrest ih =>
    rcases clocks_step hstep with ⟨hnow, hlast, hdialed⟩ | ⟨peer, hnow, hlast, hdialed, hdials⟩
    · rwa [hdialed, List.nil_append]
    · rw [hdialed, List.singleton_append]
      refine .cons (fun again hagain hsame => ?_) ih
      exact (dials_later hrest again hagain).2.2 s.now (by
        rw [hlast, show again.1 = peer from hsame.symm, Function.update_self])

/-- However many peers announce themselves, and whatever becomes of the connections: at most 256
addresses wait, there are at most 32 tasks, exactly one of them for each connected peer, we never
dial ourselves, and one peer is dialed at most once in any 20 seconds. -/
theorem flood_bounded {me : K} {code : List K} {start : SwarmLoop K} {dials : List (K × ℕ)}
    (hstart : Starts me code start)
    (hobs : Observed (fun s a s' => s.step a = some s') dialed start dials s) :
    s.found.length ≤ foundCapacity ∧ s.peers.length ≤ maxPeers ∧
      (∀ peer, s.peers.count (.driving peer) = if peer ∈ s.connected then 1 else 0) ∧
      (∀ dial ∈ dials, dial.1 ≠ me) ∧
      dials.Pairwise fun dial again => dial.1 = again.1 → dial.2 + retryPeerAfter ≤ again.2 := by
  have htidy : s.Tidy := hobs.invariant (fun _ _ _ h hstep => h.step hstep) hstart.tidy
  refine ⟨htidy.found_le, htidy.peers_le, htidy.driven, fun dial hdial => ?_, dials_spaced hobs⟩
  rw [← hstart.me_notMem.1]
  exact (dials_later hobs dial hdial).1

end SwarmLoop

/-! ## A peer that keeps announcing itself -/

namespace OnePeer

def other : EndpointId := List.Vector.replicate 32 2

/-- A peer announces itself, is dialed in vain, and announces itself again. -/
lemma observed_other : ∃ s, Observed (fun s a s' => s.step a = some s') SwarmLoop.dialed
    (.start me true [] seeder ∅ 0) [(other, 0), (other, 20000)] s :=
  ⟨_, .cons (l := SwarmAction.join other) rfl <|
    .cons (l := SwarmAction.announce other) rfl <|
    .cons (l := SwarmAction.dial) rfl <|
    .cons (l := SwarmAction.failDial 1) rfl <|
    .cons (l := SwarmAction.announce other) rfl <|
    .cons (l := SwarmAction.wait 20000) rfl <|
    .cons (l := SwarmAction.dial) rfl <| .nil _⟩

end OnePeer

open OnePeer in
/-- A peer that was dialed in vain is dialed again after 20 seconds. -/
theorem flood_bounded_other : other ≠ me ∧ ∃ s : SwarmLoop EndpointId, s.peers.length ≤ 32 ∧
    Observed (fun s a s' => s.step a = some s') SwarmLoop.dialed (.start me true [] seeder ∅ 0)
      [(other, 0), (other, 20000)] s := by
  obtain ⟨s, hobs⟩ := observed_other
  have hstart : SwarmLoop.Starts me [seeder] (.start me true [] seeder ∅ 0) :=
    .start true [] [] seeder ∅ 0 (by decide) (by decide) fun h => by cases h
  obtain ⟨-, hpeers, -, hnot, -⟩ := SwarmLoop.flood_bounded hstart hobs
  exact ⟨hnot _ List.mem_cons_self, s, hpeers, hobs⟩

end Chorrent
