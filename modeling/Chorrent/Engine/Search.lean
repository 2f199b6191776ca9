/-
# The search for the manifest

The first part of `run` in `download.rs`: every peer that is known is asked for the manifest, one
after another and over and over, until one has it or the time is up.  What tasks wait for takes as
long as the timers allow; what the program itself computes takes no time.
-/
import Chorrent.Engine.Swarm
import Chorrent.Lib.Potential

namespace Chorrent

open Lib

/-- `FIRST_ATTEMPT`, in milliseconds. -/
def firstAttempt : ℕ := 4000

/-- `CONNECT_TIMEOUT` -/
def connectTimeout : ℕ := 15000

/-- `REQUEST_TIMEOUT` -/
def requestTimeout : ℕ := 60000

/-- The pause between two attempts. -/
def attemptPause : ℕ := 500

/-- How long a connection may take: short first tries, longer later ones. -/
def attemptLimit (tries remaining : ℕ) : ℕ :=
  min (min (firstAttempt * 2 ^ min tries 4) connectTimeout) remaining

inductive SearchPhase (K : Type)
  | looking
  /-- No peer is known. -/
  | waiting
  | connecting (peer : K) (limit : ℕ)
  /-- `fetch_manifest` -/
  | asking (peer : K)
  | pausing
  /-- The manifest came from this peer. -/
  | found (peer : K)
  /-- `NoPeersFound` -/
  | gaveUp
  | cancelled
deriving DecidableEq

def SearchPhase.isOver {K : Type} : SearchPhase K → Bool
  | .found _ | .gaveUp | .cancelled => true
  | _ => false

structure Search (K : Type) where
  me : K
  gossip : Bool
  deadline : ℕ
  now : ℕ
  /-- The channel of addresses. -/
  heard : List K
  candidates : List K
  attempts : K → ℕ
  next : ℕ
  phase : SearchPhase K

inductive SearchAction (K : Type)
  /-- A peer announces itself. -/
  | hear (peer : K)
  /-- The loop comes round. -/
  | look
  /-- Nothing happens for a while. -/
  | wait (time : ℕ)
  /-- An address arrives. -/
  | receive
  /-- The deadline passes. -/
  | expire
  | connect (time : ℕ)
  | failConnect (time : ℕ)
  | answer (time : ℕ) (accepted : Bool)
  | resume
  | cancel
deriving DecidableEq

/-- A peer is dialed, with so much time to connect. -/
structure Dial (K : Type) where
  peer : K
  limit : ℕ
  time : ℕ
deriving DecidableEq

namespace Search

variable {K : Type} [DecidableEq K]

def start (me : K) (gossip : Bool) (code : List K) (now timeout : ℕ) : Search K :=
  { me, gossip, deadline := now + timeout, now, heard := code.foldl trySend [], candidates := []
    attempts := fun _ => 0, next := 0, phase := .looking }

/-- The candidates once the channel is emptied. -/
def known (s : Search K) : List K := s.heard.foldl (addCandidate s.me) s.candidates

/-- Whom the loop tries next. -/
def attempt (s : Search K) : Option (Dial K) :=
  if s.deadline ≤ s.now then none
  else
    s.known[s.next % s.known.length]?.map fun peer =>
      ⟨peer, attemptLimit (s.attempts peer) (s.deadline - s.now), s.now⟩

def step (s : Search K) : SearchAction K → Option (Search K)
  | .hear peer =>
      if s.gossip ∧ peer ≠ s.me ∧ s.phase.isOver = false then
        some { s with heard := trySend s.heard peer }
      else none
  | .look =>
      if s.phase = .looking then
        if s.known = [] then some { s with candidates := [], heard := [], phase := .waiting }
        else
          match s.attempt with
          | none => some { s with candidates := s.known, heard := [], phase := .gaveUp }
          | some a =>
              some { s with
                candidates := s.known, heard := [], next := s.next + 1
                attempts := Function.update s.attempts a.peer (s.attempts a.peer + 1)
                phase := .connecting a.peer a.limit }
      else none
  | .wait time =>
      if s.phase = .waiting ∧ s.heard = [] ∧ s.now + time ≤ s.deadline then
        some { s with now := s.now + time }
      else none
  | .receive =>
      match s.heard with
      | [] => none
      | peer :: heard =>
          if s.phase = .waiting then
            some { s with
              heard, candidates := addCandidate s.me s.candidates peer, phase := .looking }
          else none
  | .expire =>
      if s.phase = .waiting ∧ s.heard = [] ∧ s.deadline ≤ s.now then
        some { s with phase := .gaveUp }
      else none
  | .connect time =>
      match s.phase with
      | .connecting peer limit =>
          if time ≤ limit then some { s with now := s.now + time, phase := .asking peer } else none
      | _ => none
  | .failConnect time =>
      match s.phase with
      | .connecting _ limit =>
          if time ≤ limit then some { s with now := s.now + time, phase := .pausing } else none
      | _ => none
  | .answer time accepted =>
      match s.phase with
      | .asking peer =>
          if time ≤ requestTimeout then
            some { s with now := s.now + time, phase := if accepted then .found peer else .pausing }
          else none
      | _ => none
  | .resume =>
      if s.phase = .pausing then
        some { s with now := s.now + min attemptPause (s.deadline - s.now), phase := .looking }
      else none
  | .cancel => if s.phase.isOver then none else some { s with phase := .cancelled }

/-- Whom a step dials. -/
def tried (s : Search K) : SearchAction K → List (Dial K)
  | .look => s.attempt.toList
  | _ => []

variable {s s' : Search K}

/-! ## What a step does -/

/-- Candidates and attempts change when an address is taken, or when a peer is dialed. -/
inductive Turns (s s' : Search K) (a : SearchAction K) : Prop
  | same (hcandidates : s.candidates <+: s'.candidates) (hnext : s'.next = s.next)
      (hattempts : s'.attempts = s.attempts) (htried : s.tried a = [])
  | dials (attempt : Dial K) (hcandidates : s.candidates <+: s'.candidates)
      (hget : s'.candidates[s.next % s'.candidates.length]? = some attempt.peer)
      (hlimit : attempt.limit =
        attemptLimit (s.attempts attempt.peer) (s.deadline - attempt.time))
      (htime : attempt.time < s.deadline) (hnext : s'.next = s.next + 1)
      (hattempts : s'.attempts =
        Function.update s.attempts attempt.peer (s.attempts attempt.peer + 1))
      (htried : s.tried a = [attempt])

lemma prefix_addCandidate (me : K) (candidates : List K) (peer : K) :
    candidates <+: addCandidate me candidates peer := by
  rw [addCandidate]
  split_ifs
  · exact List.prefix_rfl
  · exact List.prefix_append _ _

lemma prefix_foldl_addCandidate (me : K) (peers : List K) : ∀ candidates : List K,
    candidates <+: peers.foldl (addCandidate me) candidates := by
  induction peers with
  | nil => exact fun _ => List.prefix_rfl
  | cons peer peers ih => exact fun _ => (prefix_addCandidate me _ peer).trans (ih _)

lemma turns_step {a : SearchAction K} (h : s.step a = some s') : Turns s s' a := by
  cases a with
  | look =>
    simp only [step] at h
    split_ifs at h with hphase hnone
    · cases h
      have hearlier := prefix_foldl_addCandidate s.me s.heard s.candidates
      rw [show s.heard.foldl (addCandidate s.me) s.candidates = [] from hnone] at hearlier
      refine .same hearlier rfl rfl ?_
      rw [tried, attempt, hnone]
      split_ifs <;> rfl
    · have hearlier := prefix_foldl_addCandidate s.me s.heard s.candidates
      split at h
      · rename_i heq
        cases h
        exact .same hearlier rfl rfl (by rw [tried, heq]; rfl)
      · rename_i attempt heq
        cases h
        have htried : s.tried .look = [attempt] := by rw [tried, heq]; rfl
        rw [Search.attempt] at heq
        split_ifs at heq with hlate
        obtain ⟨peer, hpeer, rfl⟩ := Option.map_eq_some_iff.1 heq
        exact .dials _ hearlier hpeer rfl (not_le.1 hlate) rfl rfl htried
  | receive =>
    simp only [step] at h
    split at h
    · cases h
    · split_ifs at h
      cases h
      exact .same (prefix_addCandidate _ _ _) rfl rfl rfl
  | connect time | failConnect time | answer time accepted =>
    simp only [step] at h
    split at h
    · split_ifs at h <;> (cases h; exact .same List.prefix_rfl rfl rfl rfl)
    · cases h
  | hear peer | wait time | expire | resume | cancel =>
    simp only [step] at h
    split_ifs at h
    cases h
    exact .same List.prefix_rfl rfl rfl rfl

lemma deadline_step {a : SearchAction K} (h : s.step a = some s') : s'.deadline = s.deadline := by
  cases a with
  | look =>
    simp only [step] at h
    split_ifs at h
    · cases h
      rfl
    · split at h <;> (cases h; rfl)
  | receive =>
    simp only [step] at h
    split at h
    · cases h
    · split_ifs at h
      cases h
      rfl
  | connect time | failConnect time | answer time accepted =>
    simp only [step] at h
    split at h
    · split_ifs at h <;> (cases h; rfl)
    · cases h
  | hear peer | wait time | expire | resume | cancel =>
    simp only [step] at h
    split_ifs at h
    cases h
    rfl

/-! ## Round robin -/

/-- Where things are taken from a list in turn, so many in a row as it has are all of it. -/
lemma perm_of_turns {α : Type} {l taken : List α} {k : ℕ}
    (h : ∀ i < taken.length, taken[i]? = l[(k + i) % l.length]?) {j : ℕ}
    (hj : j + l.length ≤ taken.length) : ((taken.drop j).take l.length).Perm l := by
  have hrotate : (taken.drop j).take l.length = l.rotate (k + j) := by
    refine List.ext_getElem? fun i => ?_
    rw [List.getElem?_take, List.getElem?_drop]
    split_ifs with hi
    · rw [h _ (by omega), List.getElem?_rotate hi]
      congr 2
      omega
    · rw [List.getElem?_eq_none (by rw [List.length_rotate]; omega)]
  rw [hrotate]
  exact List.rotate_perm l (k + j)

/-- While no candidate is added they are dialed in turn. -/
lemma turns_of_observed {attempts : List (Dial K)}
    (hobs : Observed (fun s a s' => s.step a = some s') tried s attempts s') :
    s.candidates <+: s'.candidates ∧ (s'.candidates = s.candidates →
      ∀ i < attempts.length, (attempts[i]?).map Dial.peer =
        s.candidates[(s.next + i) % s.candidates.length]?) := by
  induction hobs with
  | nil s => exact ⟨List.prefix_rfl, fun _ i hi => absurd hi (Nat.not_lt_zero i)⟩
  | @cons s s₁ s₂ a attempts hstep _ ih =>
    obtain ⟨hlater, hturns⟩ := ih
    rcases turns_step hstep with ⟨hearlier, hnext, -, htried⟩ |
      ⟨attempt, hearlier, hget, -, -, hnext, -, htried⟩
    · refine ⟨hearlier.trans hlater, fun hsame i hi => ?_⟩
      have hsame₁ : s₁.candidates = s.candidates :=
        (hearlier.eq_of_length_le (hsame ▸ hlater.length_le)).symm
      rw [htried, List.nil_append] at hi ⊢
      rw [hturns (hsame.trans hsame₁.symm) i hi, hsame₁, hnext]
    · refine ⟨hearlier.trans hlater, fun hsame i hi => ?_⟩
      have hsame₁ : s₁.candidates = s.candidates :=
        (hearlier.eq_of_length_le (hsame ▸ hlater.length_le)).symm
      rw [htried, List.singleton_append] at hi ⊢
      cases i with
      | zero => rw [List.getElem?_cons_zero, Option.map_some, ← hget, hsame₁, Nat.add_zero]
      | succ i =>
        rw [List.getElem?_cons_succ,
          hturns (hsame.trans hsame₁.symm) i (Nat.lt_of_succ_lt_succ hi), hsame₁, hnext]
        congr 2
        omega

/-- How long each attempt may take. -/
lemma limits_of_observed {attempts : List (Dial K)}
    (hobs : Observed (fun s a s' => s.step a = some s') tried s attempts s') :
    ∀ earlier attempt later, attempts = earlier ++ attempt :: later →
      attempt.time < s.deadline ∧ attempt.limit = attemptLimit
        (s.attempts attempt.peer + earlier.countP fun a => a.peer = attempt.peer)
        (s.deadline - attempt.time) := by
  induction hobs with
  | nil s =>
    intro earlier attempt later heq
    exact absurd heq.symm (List.append_ne_nil_of_right_ne_nil _ (List.cons_ne_nil _ _))
  | @cons s s₁ s₂ a attempts hstep _ ih =>
    intro earlier attempt later heq
    rw [← deadline_step hstep]
    rcases turns_step hstep with ⟨-, -, hattempts, htried⟩ |
      ⟨first, -, -, hlimit, htime, -, hattempts, htried⟩
    · rw [htried, List.nil_append] at heq
      rw [← hattempts]
      exact ih earlier attempt later heq
    · rw [htried, List.singleton_append] at heq
      rcases earlier with _ | ⟨first', earlier⟩
      · obtain ⟨rfl, -⟩ := List.cons.inj heq
        rw [deadline_step hstep]
        exact ⟨htime, hlimit⟩
      · obtain ⟨rfl, htail⟩ := List.cons.inj heq
        obtain ⟨htime', hlimit'⟩ := ih earlier attempt later htail
        refine ⟨htime', hlimit'.trans ?_⟩
        rw [hattempts, List.countP_cons, Function.update_apply]
        by_cases hsame : attempt.peer = first.peer
        · rw [if_pos hsame, if_pos (by simpa using hsame.symm), hsame]
          congr 1
          omega
        · rw [if_neg hsame, if_neg (by simpa using Ne.symm hsame), Nat.add_zero]

/-- Every candidate gets its turn.  The n-th attempt to reach a peer may take twice as long as the
one before it, up to what is left of the time; and while no candidate is added, any so many
attempts in a row as there are candidates try each of them once. -/
theorem search_fair {me : K} {gossip : Bool} {code : List K} {now timeout : ℕ}
    {attempts : List (Dial K)}
    (hobs : Observed (fun s a s' => s.step a = some s') tried (start me gossip code now timeout)
      attempts s) :
    (∀ earlier attempt later, attempts = earlier ++ attempt :: later →
      attempt.time < now + timeout ∧ attempt.limit = attemptLimit
        (earlier.countP fun a => a.peer = attempt.peer) (now + timeout - attempt.time)) ∧
    ∀ attempts' s', Observed (fun s a s' => s.step a = some s') tried s attempts' s' →
      s'.candidates = s.candidates → ∀ j, j + s.candidates.length ≤ attempts'.length →
        (((attempts'.map Dial.peer).drop j).take s.candidates.length).Perm s.candidates := by
  refine ⟨fun earlier attempt later heq => ?_, fun attempts' s' hobs' hsame j hj => ?_⟩
  · obtain ⟨htime, hlimit⟩ := limits_of_observed hobs earlier attempt later heq
    refine ⟨htime, hlimit.trans ?_⟩
    show attemptLimit (0 + _) _ = _
    rw [Nat.zero_add]
    rfl
  · refine perm_of_turns (k := s.next) (fun i hi => ?_) (by rwa [List.length_map])
    rw [List.length_map] at hi
    rw [List.getElem?_map]
    exact (turns_of_observed hobs').2 hsame i hi

/-! ## How long the search takes -/

/-- How far the time has gone when so many attempts were made, by the phase the search is in. -/
def Timely (begin deadline now next : ℕ) : SearchPhase K → Prop
  | .looking => now ≤ deadline + requestTimeout ∧
      attemptPause * next ≤ deadline - begin + attemptPause ∧
      (now < deadline → attemptPause * next ≤ now - begin)
  | .waiting => now ≤ deadline ∧ next = 0
  | .connecting _ limit => now + limit ≤ deadline ∧
      attemptPause * next ≤ now - begin + attemptPause ∧ next ≠ 0
  | .asking _ => now ≤ deadline ∧ attemptPause * next ≤ now - begin + attemptPause ∧ next ≠ 0
  | .pausing => now ≤ deadline + requestTimeout ∧
      attemptPause * next ≤ deadline - begin + attemptPause ∧
      (now < deadline → attemptPause * next ≤ now - begin + attemptPause) ∧ next ≠ 0
  | .found _ | .gaveUp | .cancelled => now ≤ deadline + requestTimeout ∧
      attemptPause * next ≤ deadline - begin + attemptPause

/-- The time is kept, and as long as nobody is known there was nothing to wait for. -/
structure OnTime (begin : ℕ) (s : Search K) : Prop where
  begin_le : begin ≤ s.now
  timely : Timely begin s.deadline s.now s.next s.phase
  fresh : s.candidates = [] → s.now ≤ s.deadline ∧ s.next = 0

omit [DecidableEq K] in
lemma Timely.bounds {begin deadline now next : ℕ} {phase : SearchPhase K} (hle : begin ≤ now)
    (h : Timely begin deadline now next phase) :
    now ≤ deadline + requestTimeout ∧ attemptPause * next ≤ deadline - begin + attemptPause := by
  cases phase with
  | looking | pausing => exact ⟨h.1, h.2.1⟩
  | waiting =>
    obtain ⟨hnow, rfl⟩ := h
    exact ⟨by omega, by omega⟩
  | connecting peer limit | asking peer =>
    obtain ⟨hnow, hnext, -⟩ := h
    exact ⟨by omega, by omega⟩
  | found | gaveUp | cancelled => exact h

lemma attemptLimit_le (tries remaining : ℕ) : attemptLimit tries remaining ≤ remaining :=
  min_le_right _ _

lemma OnTime.step {begin : ℕ} {a : SearchAction K} (h : s.OnTime begin)
    (hstep : s.step a = some s') : s'.OnTime begin := by
  obtain ⟨hbegin, htimely, hfresh⟩ := h
  have hpause : attemptPause = 500 := rfl
  have hrequest : requestTimeout = 60000 := rfl
  cases a with
  | hear peer =>
    simp only [Search.step] at hstep
    split_ifs at hstep
    cases hstep
    exact ⟨hbegin, htimely, hfresh⟩
  | look =>
    simp only [Search.step] at hstep
    split_ifs at hstep with hphase hnone
    · cases hstep
      -- nobody is known, so that nobody was
      have hearlier := prefix_foldl_addCandidate s.me s.heard s.candidates
      rw [show s.heard.foldl (addCandidate s.me) s.candidates = [] from hnone,
        List.prefix_nil] at hearlier
      exact ⟨hbegin, hfresh hearlier, fun _ => hfresh hearlier⟩
    · have hknown : s.known = [] → s.now ≤ s.deadline ∧ s.next = 0 := fun hnil =>
        absurd hnil hnone
      rw [hphase] at htimely
      split at hstep
      · cases hstep
        exact ⟨hbegin, ⟨htimely.1, htimely.2.1⟩, hknown⟩
      · rename_i attempt heq
        cases hstep
        rw [Search.attempt] at heq
        split_ifs at heq with hlate
        obtain ⟨peer, -, rfl⟩ := Option.map_eq_some_iff.1 heq
        have hlimit := attemptLimit_le (s.attempts peer) (s.deadline - s.now)
        obtain ⟨-, -, hearly⟩ := htimely
        have := hearly (not_le.1 hlate)
        refine ⟨hbegin, ?_, fun hnil => absurd hnil hnone⟩
        show Timely begin s.deadline s.now (s.next + 1) (.connecting peer (attemptLimit _ _))
        have hsucc : attemptPause * (s.next + 1) = attemptPause * s.next + attemptPause := rfl
        exact ⟨by omega, by omega, Nat.succ_ne_zero _⟩
  | wait time =>
    simp only [Search.step] at hstep
    split_ifs at hstep with hguard
    cases hstep
    obtain ⟨hphase, -, hle⟩ := hguard
    rw [hphase] at htimely
    refine ⟨hbegin.trans (Nat.le_add_right _ _), ?_, fun hnil => ⟨hle, (hfresh hnil).2⟩⟩
    show Timely _ _ _ _ s.phase
    rw [hphase]
    exact ⟨hle, htimely.2⟩
  | receive =>
    simp only [Search.step] at hstep
    split at hstep
    · cases hstep
    · split_ifs at hstep with hphase
      cases hstep
      rw [hphase] at htimely
      obtain ⟨hnow, hnext⟩ := htimely
      refine ⟨hbegin, ?_, fun _ => ⟨hnow, hnext⟩⟩
      show Timely begin s.deadline s.now s.next .looking
      rw [hnext]
      exact ⟨by omega, Nat.zero_le _, fun _ => Nat.zero_le _⟩
  | expire =>
    simp only [Search.step] at hstep
    split_ifs at hstep with hguard
    cases hstep
    rw [hguard.1] at htimely
    have hwaiting : Timely begin s.deadline s.now s.next .waiting := htimely
    have hbounds := Timely.bounds hbegin hwaiting
    exact ⟨hbegin, hbounds, hfresh⟩
  | connect time =>
    simp only [Search.step] at hstep
    split at hstep
    · rename_i peer limit hphase
      split_ifs at hstep with htime
      cases hstep
      rw [hphase] at htimely
      obtain ⟨hnow, hnext, hpos⟩ := htimely
      refine ⟨hbegin.trans (Nat.le_add_right _ _), ?_, fun hnil => absurd (hfresh hnil).2 hpos⟩
      show Timely begin s.deadline (s.now + time) s.next (.asking peer)
      exact ⟨by omega, by omega, hpos⟩
    · cases hstep
  | failConnect time =>
    simp only [Search.step] at hstep
    split at hstep
    · rename_i peer limit hphase
      split_ifs at hstep with htime
      cases hstep
      rw [hphase] at htimely
      obtain ⟨hnow, hnext, hpos⟩ := htimely
      refine ⟨hbegin.trans (Nat.le_add_right _ _), ?_, fun hnil => absurd (hfresh hnil).2 hpos⟩
      show Timely begin s.deadline (s.now + time) s.next .pausing
      exact ⟨by omega, by omega, fun _ => by omega, hpos⟩
    · cases hstep
  | answer time accepted =>
    simp only [Search.step] at hstep
    split at hstep
    · rename_i peer hphase
      rw [hphase] at htimely
      obtain ⟨hnow, hnext, hpos⟩ := htimely
      have hle := hbegin.trans (Nat.le_add_right s.now time)
      -- the answer may come after the deadline
      split_ifs at hstep with htime haccepted
      · cases hstep
        refine ⟨hle, ?_, fun hnil => absurd (hfresh hnil).2 hpos⟩
        show Timely begin s.deadline (s.now + time) s.next (.found peer)
        exact ⟨by omega, by omega⟩
      · cases hstep
        refine ⟨hle, ?_, fun hnil => absurd (hfresh hnil).2 hpos⟩
        show Timely begin s.deadline (s.now + time) s.next .pausing
        exact ⟨by omega, by omega, fun _ => by omega, hpos⟩
    · cases hstep
  | resume =>
    simp only [Search.step] at hstep
    split_ifs at hstep with hphase
    cases hstep
    rw [hphase] at htimely
    obtain ⟨hnow, hnext, hearly, hpos⟩ := htimely
    refine ⟨hbegin.trans (Nat.le_add_right _ _), ?_, fun hnil => absurd (hfresh hnil).2 hpos⟩
    show Timely begin s.deadline (s.now + min attemptPause (s.deadline - s.now)) s.next .looking
    refine ⟨by omega, hnext, fun hlt => ?_⟩
    have := hearly (by omega)
    omega
  | cancel =>
    simp only [Search.step] at hstep
    split_ifs at hstep
    cases hstep
    exact ⟨hbegin, htimely.bounds hbegin, hfresh⟩

end Search

/-! ## Three peers that can't be reached -/

namespace ThreePeers

open Search

/-- Three peers of a share code that names us, too, were tried once each, and the first again. -/
def tries : List (Dial ℕ) := [⟨1, 4000, 0⟩, ⟨2, 4000, 4500⟩, ⟨3, 4000, 9000⟩, ⟨1, 8000, 13500⟩]

/-- What is tried next. -/
def later : List (Dial ℕ) := [⟨2, 8000, 14010⟩, ⟨3, 8000, 14520⟩, ⟨1, 14970, 15030⟩]

lemma observed_tries : ∃ s, Observed (fun s a s' => s.step a = some s') tried
    (Search.start 0 false [0, 1, 2, 3] 0 30000) tries s ∧ s.candidates = [1, 2, 3] ∧
      ∃ s', Observed (fun s a s' => s.step a = some s') tried s later s' ∧
        s'.candidates = [1, 2, 3] :=
  ⟨_, .cons (l := SearchAction.look) rfl <|
    .cons (l := SearchAction.failConnect 4000) rfl <|
    .cons (l := SearchAction.resume) rfl <|
    .cons (l := SearchAction.look) rfl <|
    .cons (l := SearchAction.failConnect 4000) rfl <|
    .cons (l := SearchAction.resume) rfl <|
    .cons (l := SearchAction.look) rfl <|
    .cons (l := SearchAction.failConnect 4000) rfl <|
    .cons (l := SearchAction.resume) rfl <|
    .cons (l := SearchAction.look) rfl <| .nil _, rfl,
    _, .cons (l := SearchAction.failConnect 10) rfl <|
    .cons (l := SearchAction.resume) rfl <|
    .cons (l := SearchAction.look) rfl <|
    .cons (l := SearchAction.failConnect 10) rfl <|
    .cons (l := SearchAction.resume) rfl <|
    .cons (l := SearchAction.look) rfl <|
    .cons (l := SearchAction.failConnect 10) rfl <|
    .cons (l := SearchAction.resume) rfl <|
    .cons (l := SearchAction.look) rfl <| .nil _, rfl⟩

end ThreePeers

open ThreePeers in
/-- The second attempt at a peer may take twice as long as the first, and any three attempts in a
row are one at each. -/
theorem search_fair_three_peers : ∃ s,
    Observed (fun s a s' => s.step a = some s') Search.tried
      (Search.start 0 false [0, 1, 2, 3] 0 30000) tries s ∧
    (8000 : ℕ) = attemptLimit 1 (30000 - 13500) ∧
    ((later.map Dial.peer).take 3).Perm s.candidates := by
  obtain ⟨s, hobs, hs, s', hobs', hs'⟩ := observed_tries
  obtain ⟨hlimits, hturns⟩ := Search.search_fair hobs
  have hperm := hturns _ s' hobs' (hs'.trans hs.symm) 0 (by rw [hs]; exact le_rfl)
  rw [List.drop_zero] at hperm
  exact ⟨s, hobs, (hlimits [⟨1, 4000, 0⟩, ⟨2, 4000, 4500⟩, ⟨3, 4000, 9000⟩] ⟨1, 8000, 13500⟩ []
    rfl).2, by rwa [hs] at hperm ⊢⟩

end Chorrent
