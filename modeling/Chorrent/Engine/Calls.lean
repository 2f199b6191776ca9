/-
# The engine's calls of the scheduler

Every action of the engine makes one call of the scheduler or none, and the calls of a run of
the engine are a run of the scheduler: the engine never makes a call that the scheduler does
not expect, whatever its peers and its disk do.
-/
import Chorrent.Engine.Agreement

namespace Chorrent

open Lib

variable {K : Type} [DecidableEq K]

namespace Scheduler

/-- What a call makes of the bits of peer `q`, if it neither adds nor removes the peer. -/
def Op.onBits (q : K) : Op K → List Bool → List Bool
  | .setPeerHas peer i, bits => if peer = q then bits.set i true else bits
  | .failed i peer lacks, bits => if peer = q ∧ lacks = true then bits.set i false else bits
  | .addPeer _ _, bits | .removePeer _, bits | .pick _, bits | .complete _, bits => bits

variable {s s' : Scheduler K}

/-- Setting a bit that is set already, or that there is none of, does nothing. -/
lemma set_eq_self {bits : List Bool} {i : ℕ} {b : Bool} (h : bits[i]? ≠ some (!b)) :
    bits.set i b = bits := by
  refine List.ext_getElem? fun j => ?_
  rw [List.getElem?_set]
  split_ifs with hij hlt
  · subst hij
    rw [List.getElem?_eq_getElem hlt] at h ⊢
    cases b <;> simpa using h
  · subst hij
    rw [List.getElem?_eq_none (not_lt.1 hlt)]
  · rfl

lemma setPeerHas_bits (hs : s.Consistent) (peer : K) (i : ℕ) :
    ∃ s', s.setPeerHas peer i = some s' ∧
      s'.peers.lookup peer = (s.peers.lookup peer).map (·.set i true) ∧
      ∀ q, q ≠ peer → s'.peers.lookup q = s.peers.lookup q := by
  obtain ⟨s', heq, -⟩ := setPeerHas_consistent hs peer i
  refine ⟨s', heq, ?_⟩
  rw [setPeerHas] at heq
  cases hlookup : s.peers.lookup peer with
  | none =>
    rw [hlookup] at heq
    cases heq
    exact ⟨hlookup, fun q _ => rfl⟩
  | some bits =>
    simp only [hlookup] at heq
    split_ifs at heq with hbit
    · obtain ⟨a, -, heq⟩ := Option.bind_eq_some_iff.1 heq
      obtain ⟨a', -, heq⟩ := Option.bind_eq_some_iff.1 heq
      cases heq
      exact ⟨AList.lookup_insert _, fun q hq => AList.lookup_insert_ne hq⟩
    · cases heq
      refine ⟨?_, fun q _ => rfl⟩
      rw [hlookup, Option.map_some, set_eq_self hbit]

lemma failed_bits (hs : s.Consistent) {i : ℕ} (hi : i < s.pieces.length) (peer : K)
    (lacks : Bool) : ∃ s', s.failed i peer lacks = some s' ∧
      s'.peers.lookup peer =
        (s.peers.lookup peer).map (fun bits => if lacks = true then bits.set i false else bits) ∧
      ∀ q, q ≠ peer → s'.peers.lookup q = s.peers.lookup q := by
  obtain ⟨s', heq, -⟩ := failed_consistent hs hi peer lacks
  refine ⟨s', heq, ?_⟩
  obtain ⟨s₁, hdrop, -, -, hpeers, -⟩ := dropRequest_consistent hs hi peer
  rw [failed, hdrop, Option.bind_eq_bind, Option.bind_some] at heq
  rw [← hpeers]
  cases lacks with
  | false =>
    cases heq
    exact ⟨by simp, fun q _ => rfl⟩
  | true =>
    rw [if_pos rfl] at heq
    cases hlookup : s₁.peers.lookup peer with
    | none =>
      rw [hlookup] at heq
      cases heq
      exact ⟨hlookup, fun q _ => rfl⟩
    | some bits =>
      simp only [hlookup] at heq
      obtain ⟨bit, hbit, heq⟩ := Option.bind_eq_some_iff.1 heq
      split_ifs at heq with hset
      · obtain ⟨a, -, heq⟩ := Option.bind_eq_some_iff.1 heq
        obtain ⟨a', -, heq⟩ := Option.bind_eq_some_iff.1 heq
        cases heq
        exact ⟨AList.lookup_insert _, fun q hq => AList.lookup_insert_ne hq⟩
      · cases heq
        refine ⟨?_, fun q _ => rfl⟩
        rw [hlookup, Option.map_some, if_pos rfl, set_eq_self]
        rw [hbit]
        simpa using hset

/-- What a call does to the bits of a peer that is present afterwards. -/
lemma apply_bits (hs : s.Consistent) {op : Op K} {out : Out} (hop : s.Issued op)
    (h : s.apply op = some (s', out)) {q : K} {bits' : List Bool}
    (hbits : s'.peers.lookup q = some bits') :
    op = .addPeer q bits' ∨ ∃ bits, s.peers.lookup q = some bits ∧ op ≠ .removePeer q ∧
      (∀ held, op ≠ .addPeer q held) ∧ bits' = op.onBits q bits := by
  -- only the first two and the last two operations touch a bitfield
  cases op with
  | addPeer peer held =>
    obtain ⟨s₁, heq, -, -, hpeers, -⟩ := addPeer_consistent hs peer hop.1 hop.2
    simp only [apply, heq, Option.map_some, Option.some.injEq, Prod.mk.injEq] at h
    obtain ⟨rfl, -⟩ := h
    rw [hpeers] at hbits
    by_cases hq : q = peer
    · subst hq
      rw [AList.lookup_insert, Option.some.injEq] at hbits
      exact .inl (by rw [hbits])
    · rw [AList.lookup_insert_ne hq, AList.lookup_erase_ne hq] at hbits
      exact .inr ⟨bits', hbits, by simp, by simp [Ne.symm hq], rfl⟩
  | removePeer peer =>
    obtain ⟨s₁, heq, -, -, hpeers, -⟩ := removePeer_consistent hs peer
    simp only [apply, heq, Option.map_some, Option.some.injEq, Prod.mk.injEq] at h
    obtain ⟨rfl, -⟩ := h
    rw [hpeers] at hbits
    by_cases hq : q = peer
    · rw [hq, AList.lookup_erase] at hbits
      cases hbits
    · rw [AList.lookup_erase_ne hq] at hbits
      exact .inr ⟨bits', hbits, by simpa using Ne.symm hq, by simp, rfl⟩
  | pick peer =>
    obtain ⟨s₁, r, heq, -, hpeers, -⟩ := pick_cases hs peer
    simp only [apply, heq, Option.map_some, Option.some.injEq, Prod.mk.injEq] at h
    obtain ⟨rfl, -⟩ := h
    exact .inr ⟨bits', hpeers ▸ hbits, by simp, by simp, rfl⟩
  | complete piece =>
    obtain ⟨s₁, heq, -, -, hpeers⟩ := complete_cases hs hop
    simp only [apply, heq, Option.map_some, Option.some.injEq, Prod.mk.injEq] at h
    obtain ⟨rfl, -⟩ := h
    exact .inr ⟨bits', hpeers ▸ hbits, by simp, by simp, rfl⟩
  | setPeerHas peer piece =>
    obtain ⟨s₁, heq, hpeer, hother⟩ := setPeerHas_bits hs peer piece
    simp only [apply, heq, Option.map_some, Option.some.injEq, Prod.mk.injEq] at h
    obtain ⟨rfl, -⟩ := h
    by_cases hq : peer = q
    · subst hq
      rw [hpeer] at hbits
      obtain ⟨bits, hlookup, rfl⟩ := Option.map_eq_some_iff.1 hbits
      exact .inr ⟨bits, hlookup, by simp, by simp, by simp [Op.onBits]⟩
    · rw [hother q (Ne.symm hq)] at hbits
      exact .inr ⟨bits', hbits, by simp, by simp, by simp [Op.onBits, hq]⟩
  | failed piece peer lacks =>
    obtain ⟨s₁, heq, hpeer, hother⟩ := failed_bits hs hop peer lacks
    simp only [apply, heq, Option.map_some, Option.some.injEq, Prod.mk.injEq] at h
    obtain ⟨rfl, -⟩ := h
    by_cases hq : peer = q
    · subst hq
      rw [hpeer] at hbits
      obtain ⟨bits, hlookup, rfl⟩ := Option.map_eq_some_iff.1 hbits
      exact .inr ⟨bits, hlookup, by simp, by simp, by simp [Op.onBits]⟩
    · rw [hother q (Ne.symm hq)] at hbits
      exact .inr ⟨bits', hbits, by simp, by simp, by simp [Op.onBits, hq]⟩

end Scheduler

namespace Engine

variable {s s' : Engine K} {a : Action K}

/-- The call of the scheduler that an action makes. -/
def call (s : Engine K) : Action K → Option (Scheduler.Op K)
  | .subscribed peer bytes | .bitfield peer bytes =>
      some (.addPeer peer (unpackBits bytes s.sched.pieces.length))
  | .pick k => (s.workers k).map fun w => .pick w.peer
  | .complete k => do
      match (← s.workers k).phase with
      | .stored piece => some (.complete piece)
      | _ => none
  | .giveBack k => do
      let w ← s.workers k
      match w.phase with
      | .returning piece lacks => some (.failed piece w.peer lacks)
      | _ => none
  | .haveFrame peer piece => some (.setPeerHas peer piece)
  | .removePeer peer => some (.removePeer peer)
  | .connect _ | .spawn _ | .check _ | .answer _ _ | .store _ _ | .leave _ | .disconnect _
  | .cancel _ => none

/-- What an action makes of the phase of worker `k`, who asks `peer`. -/
inductive Moves (s s' : Engine K) (k : ℕ) (peer : K) : Action K → Phase → Phase → Prop
  | checked : Moves s s' k peer (.check k) .idle .ready
  | idle (h : s.sched.pick peer = some (s'.sched, none)) :
      Moves s s' k peer (.pick k) .ready .idle
  | picked {i} (h : s.sched.pick peer = some (s'.sched, some i)) :
      Moves s s' k peer (.pick k) .ready (.requesting i)
  | arrived {i} : Moves s s' k peer (.answer k .piece) (.requesting i) (.storing i)
  | lacking {i} : Moves s s' k peer (.answer k .dontHave) (.requesting i) (.returning i true)
  | refused {i answer} (h : answer ≠ .piece ∧ answer ≠ .dontHave) :
      Moves s s' k peer (.answer k answer) (.requesting i) (.returning i false)
  | stored {i} : Moves s s' k peer (.store k .ok) (.storing i) (.stored i)
  | bad {i} : Moves s s' k peer (.store k .bad) (.storing i) (.returning i true)
  | aborted {i} : Moves s s' k peer (.store k .aborted) (.storing i) (.returning i false)
  | completed {i} : Moves s s' k peer (.complete k) (.stored i) .idle
  | gaveBack {i lacks} : Moves s s' k peer (.giveBack k) (.returning i lacks) .idle

lemma Moves.of_stored {k : ℕ} {peer : K} {phase : Phase} {i : ℕ}
    (h : Moves s s' k peer a phase (.stored i)) : a = .store k .ok ∧ phase = .storing i := by
  cases h
  exact ⟨rfl, rfl⟩

lemma Moves.of_lacking {k : ℕ} {peer : K} {phase : Phase} {i : ℕ}
    (h : Moves s s' k peer a phase (.returning i true)) :
    (a = .answer k .dontHave ∧ phase = .requesting i) ∨
      (a = .store k .bad ∧ phase = .storing i) := by
  cases h with
  | lacking => exact .inl ⟨rfl, rfl⟩
  | bad => exact .inr ⟨rfl, rfl⟩

/-- What an action does to the scheduler, the workers and the connections. -/
structure Effect (s : Engine K) (a : Action K) (s' : Engine K) : Prop where
  call : (s.call a = none ∧ s'.sched = s.sched) ∨
    ∃ op out, s.call a = some op ∧ s.sched.apply op = some (s'.sched, out)
  worker : ∀ k w', s'.workers k = some w' → s.workers k = some w' ∨ w'.phase = .idle ∨
    ∃ phase, s.workers k = some { w' with phase } ∧ Moves s s' k w'.peer a phase w'.phase
  few : s.connected.keys.length ≤ maxPeers → s'.connected.keys.length ≤ maxPeers
  /-- A peer that the scheduler may know stays connected. -/
  stays : ∀ q session, s.connected.lookup q = some session → session.stage ≠ .forgotten →
    s.call a ≠ some (.removePeer q) →
      ∃ session, s'.connected.lookup q = some session ∧ session.stage ≠ .forgotten
  added : ∀ q held, s.call a = some (.addPeer q held) → held.length = s.sched.pieces.length ∧
    ∃ session, s'.connected.lookup q = some session ∧ session.stage ≠ .forgotten

/-- One worker moves. -/
lemma Effect.move {k : ℕ} {w : Worker K} {phase : Phase} (hw : s.workers k = some w)
    (hmoves : Moves s s' k w.peer a w.phase phase)
    (hworkers : s'.workers = Function.update s.workers k (some { w with phase }))
    (hconn : s'.connected = s.connected)
    (hcall : (s.call a = none ∧ s'.sched = s.sched) ∨
      ∃ op out, s.call a = some op ∧ s.sched.apply op = some (s'.sched, out))
    (hadd : ∀ q held, s.call a ≠ some (.addPeer q held)) : Effect s a s' where
  call := hcall
  worker j w' hw' := by
    rw [hworkers] at hw'
    by_cases hj : j = k
    · subst hj
      rw [Function.update_self] at hw'
      cases hw'
      exact .inr (.inr ⟨w.phase, hw, hmoves⟩)
    · rw [Function.update_of_ne hj] at hw'
      exact .inl hw'
  few h := hconn ▸ h
  stays q session hq hstage _ := ⟨session, hconn ▸ hq, hstage⟩
  added q held h := absurd h (hadd q held)

/-- A worker that is done with its task, or aborted. -/
lemma Effect.finish {k : ℕ} (hworkers : s'.workers = Function.update s.workers k none)
    (hconn : s'.connected = s.connected) (hcall : s.call a = none) (hsched : s'.sched = s.sched) :
    Effect s a s' where
  call := .inl ⟨hcall, hsched⟩
  worker j w' hw' := by
    rw [hworkers] at hw'
    by_cases hj : j = k
    · rw [hj, Function.update_self] at hw'
      cases hw'
    · rw [Function.update_of_ne hj] at hw'
      exact .inl hw'
  few h := hconn ▸ h
  stays q session hq hstage _ := ⟨session, hconn ▸ hq, hstage⟩
  added q held h := by rw [hcall] at h; cases h

/-- A connection goes on to another stage. -/
lemma Effect.stage {peer : K} {session : Session} {stage : Stage}
    (hlookup : s.connected.lookup peer = some session)
    (hconn : s'.connected = s.connected.insert peer { session with stage })
    (hworkers : s'.workers = s.workers)
    (hcall : (s.call a = none ∧ s'.sched = s.sched) ∨
      ∃ op out, s.call a = some op ∧ s.sched.apply op = some (s'.sched, out))
    (hstage : stage ≠ .forgotten ∨ s.call a = some (.removePeer peer))
    (hadd : ∀ q held, s.call a = some (.addPeer q held) → q = peer ∧ stage ≠ .forgotten ∧
      held.length = s.sched.pieces.length) : Effect s a s' where
  call := hcall
  worker j w' hw' := .inl (hworkers ▸ hw')
  few h := by
    rw [hconn, length_keys_insert_of_mem (AList.lookup_isSome.1 (by rw [hlookup]; rfl))]
    exact h
  stays q session' hq hne hcall' := by
    by_cases hqp : q = peer
    · subst hqp
      refine ⟨_, by rw [hconn, AList.lookup_insert], ?_⟩
      exact hstage.resolve_right hcall'
    · exact ⟨session', by rw [hconn, AList.lookup_insert_ne hqp, hq], hne⟩
  added q held h := by
    obtain ⟨rfl, hne, hlen⟩ := hadd q held h
    exact ⟨hlen, _, by rw [hconn, AList.lookup_insert], hne⟩

/-- Only the scheduler changes. -/
lemma Effect.sched (hconn : s'.connected = s.connected) (hworkers : s'.workers = s.workers)
    (hcall : ∃ op out, s.call a = some op ∧ s.sched.apply op = some (s'.sched, out))
    (hadd : ∀ q held, s.call a = some (.addPeer q held) → held.length = s.sched.pieces.length ∧
      ∃ session, s.connected.lookup q = some session ∧ session.stage ≠ .forgotten) :
    Effect s a s' where
  call := .inr hcall
  worker _ _ hw' := .inl (hworkers ▸ hw')
  few h := hconn ▸ h
  stays _ session hq hstage _ := ⟨session, hconn ▸ hq, hstage⟩
  added q held h := hconn ▸ hadd q held h

lemma step_effect (h : s.step a = some s') : Effect s a s' := by
  cases a with
  | connect peer =>
    rw [Engine.step] at h
    split_ifs at h with hfull
    cases h
    push Not at hfull
    refine ⟨.inl ⟨rfl, rfl⟩, fun k w' hw' => .inl hw', fun _ => ?_, fun q session hq hstage _ => ?_,
      fun q held h => by cases h⟩
    · exact (length_keys_insert_le _ _ _).trans hfull.2
    · have hne : q ≠ peer := by
        rintro rfl
        exact hfull.1 (AList.lookup_isSome.1 (by rw [hq]; rfl))
      exact ⟨session, by rw [AList.lookup_insert_ne hne, hq], hstage⟩
  | subscribed peer bytes =>
    obtain ⟨session, hsession, h⟩ := Option.bind_eq_some_iff.1 h
    obtain ⟨sched, hadd, h⟩ := Option.bind_eq_some_iff.1 h
    cases h
    refine .stage (sessionIn_eq_some.1 hsession).1 rfl rfl
      (.inr ⟨_, .unit, rfl, by rw [Scheduler.apply, hadd]; rfl⟩) (.inl (by simp)) ?_
    intro q held hcall
    cases hcall
    exact ⟨rfl, by simp, length_unpackBits _ _⟩
  | spawn peer =>
    obtain ⟨session, hsession, h⟩ := Option.bind_eq_some_iff.1 h
    dsimp only at h
    split_ifs at h
    cases h
    refine ⟨.inl ⟨rfl, rfl⟩, fun k w' hw' => ?_, id, fun q session hq hstage _ =>
      ⟨session, hq, hstage⟩, fun q held h => by cases h⟩
    rcases setWorker_eq_some.1 hw' with ⟨-, heq⟩ | ⟨-, hw⟩
    · cases heq
      exact .inr (.inl rfl)
    · exact .inl hw
  | check k =>
    obtain ⟨w, hw, h⟩ := Option.bind_eq_some_iff.1 h
    split_ifs at h with hphase hstop
    · cases h
      exact .finish rfl rfl rfl rfl
    · cases h
      rw [not_not] at hphase
      exact .move hw (hphase ▸ .checked) rfl rfl (.inl ⟨rfl, rfl⟩) fun q held h => by cases h
  | pick k =>
    obtain ⟨w, hw, h⟩ := Option.bind_eq_some_iff.1 h
    dsimp only at h
    split_ifs at h with hphase
    rw [not_not] at hphase
    obtain ⟨⟨sched, picked⟩, hpick, h⟩ := Option.bind_eq_some_iff.1 h
    have hcall : s.call (.pick k) = some (.pick w.peer) := by rw [call, hw]; rfl
    have happly : s.sched.apply (.pick w.peer) = some (sched, .picked picked) := by
      rw [Scheduler.apply, hpick]
      rfl
    cases picked with
    | none =>
      cases h
      exact .move hw (hphase ▸ .idle hpick) rfl rfl (.inr ⟨_, _, hcall, happly⟩) (by simp [hcall])
    | some i =>
      cases h
      exact .move hw (hphase ▸ .picked hpick) rfl rfl (.inr ⟨_, _, hcall, happly⟩) (by simp [hcall])
  | answer k answer =>
    obtain ⟨w, hw, h⟩ := Option.bind_eq_some_iff.1 h
    cases hphase : w.phase <;> simp only [hphase, reduceCtorEq] at h
    case requesting i =>
      cases answer with
      | piece =>
        cases h
        exact .move hw (hphase ▸ .arrived) rfl rfl (.inl ⟨rfl, rfl⟩) fun q held h => by cases h
      | dontHave =>
        cases h
        exact .move hw (hphase ▸ .lacking) rfl rfl (.inl ⟨rfl, rfl⟩) fun q held h => by cases h
      | busy | notFound | failed =>
        cases h
        exact .move hw (hphase ▸ .refused (by simp)) rfl rfl (.inl ⟨rfl, rfl⟩)
          fun q held h => by cases h
  | store k result =>
    obtain ⟨w, hw, h⟩ := Option.bind_eq_some_iff.1 h
    cases hphase : w.phase <;> simp only [hphase, reduceCtorEq] at h
    case storing i =>
      cases result with
      | ok =>
        cases h
        exact .move hw (hphase ▸ .stored) rfl rfl (.inl ⟨rfl, rfl⟩) fun q held h => by cases h
      | bad =>
        cases h
        exact .move hw (hphase ▸ .bad) rfl rfl (.inl ⟨rfl, rfl⟩) fun q held h => by cases h
      | aborted =>
        cases h
        exact .move hw (hphase ▸ .aborted) rfl rfl (.inl ⟨rfl, rfl⟩) fun q held h => by cases h
  | complete k =>
    obtain ⟨w, hw, h⟩ := Option.bind_eq_some_iff.1 h
    cases hphase : w.phase <;> simp only [hphase, reduceCtorEq] at h
    case stored i =>
      obtain ⟨⟨sched, first⟩, hcomplete, h⟩ := Option.bind_eq_some_iff.1 h
      cases h
      have hcall : s.call (.complete k) = some (.complete i) := by simp [call, hw, hphase]
      exact .move hw (hphase ▸ .completed) rfl rfl
        (.inr ⟨_, .completed first, hcall, by rw [Scheduler.apply, hcomplete]; rfl⟩)
          (by simp [hcall])
  | giveBack k =>
    obtain ⟨w, hw, h⟩ := Option.bind_eq_some_iff.1 h
    cases hphase : w.phase <;> simp only [hphase, reduceCtorEq] at h
    case returning i lacks =>
      obtain ⟨sched, hfailed, h⟩ := Option.bind_eq_some_iff.1 h
      cases h
      have hcall : s.call (.giveBack k) = some (.failed i w.peer lacks) := by
        simp [call, hw, hphase]
      exact .move hw (hphase ▸ .gaveBack) rfl rfl
        (.inr ⟨_, .unit, hcall, by rw [Scheduler.apply, hfailed]; rfl⟩) (by simp [hcall])
  | bitfield peer bytes =>
    obtain ⟨session, hsession, h⟩ := Option.bind_eq_some_iff.1 h
    obtain ⟨sched, hadd, h⟩ := Option.bind_eq_some_iff.1 h
    cases h
    obtain ⟨hlookup, hstage⟩ := sessionIn_eq_some.1 hsession
    refine .sched rfl rfl ⟨_, .unit, rfl, by rw [Scheduler.apply, hadd]; rfl⟩ ?_
    intro q held hcall
    cases hcall
    exact ⟨length_unpackBits _ _, session, hlookup, by simp [hstage]⟩
  | haveFrame peer piece =>
    obtain ⟨session, hsession, h⟩ := Option.bind_eq_some_iff.1 h
    obtain ⟨sched, hhas, h⟩ := Option.bind_eq_some_iff.1 h
    cases h
    exact .sched rfl rfl ⟨_, .unit, rfl, by rw [Scheduler.apply, hhas]; rfl⟩
      fun q held h => by cases h
  | leave peer =>
    obtain ⟨session, hlookup, h⟩ := Option.bind_eq_some_iff.1 h
    split_ifs at h
    cases h
    exact .stage hlookup rfl rfl (.inl ⟨rfl, rfl⟩) (.inl (by simp)) fun q held h => by cases h
  | removePeer peer =>
    obtain ⟨session, hsession, h⟩ := Option.bind_eq_some_iff.1 h
    obtain ⟨sched, hremove, h⟩ := Option.bind_eq_some_iff.1 h
    cases h
    exact .stage (sessionIn_eq_some.1 hsession).1 rfl rfl
      (.inr ⟨_, .unit, rfl, by rw [Scheduler.apply, hremove]; rfl⟩) (.inr rfl)
      fun q held h => by cases h
  | disconnect peer =>
    obtain ⟨session, hsession, h⟩ := Option.bind_eq_some_iff.1 h
    cases h
    obtain ⟨hlookup, hstage⟩ := sessionIn_eq_some.1 hsession
    refine ⟨.inl ⟨rfl, rfl⟩, fun k w' hw' => .inl hw',
      fun h => (length_keys_erase_le _ _).trans h, fun q session' hq hne _ => ?_,
      fun q held h => by cases h⟩
    have hqp : q ≠ peer := by
      rintro rfl
      cases hlookup.symm.trans hq
      exact hne hstage
    exact ⟨session', by rw [AList.lookup_erase_ne hqp, hq], hne⟩
  | cancel k =>
    obtain ⟨w, hw, h⟩ := Option.bind_eq_some_iff.1 h
    split_ifs at h
    cases h
    exact .finish rfl rfl rfl rfl

/-! ## Runs -/

/-- What holds in every state, whatever peers send. -/
structure Sane (s : Engine K) : Prop where
  few : s.connected.keys.length ≤ maxPeers
  consistent : s.sched.Consistent
  registered : ∀ p ∈ s.sched.peers,
    ∃ session, s.connected.lookup p = some session ∧ session.stage ≠ .forgotten
  in_range : ∀ k w i, s.workers k = some w → w.phase.piece = some i → i < s.sched.pieces.length

lemma Sane.few_peers (h : s.Sane) : s.sched.peers.keys.length + 1 < 2 ^ 32 :=
  few_peers_of_registered h.few h.registered

/-- The engine makes only calls that the scheduler expects. -/
lemma Sane.issued (h : s.Sane) (he : Effect s a s') {op : Scheduler.Op K}
    (hcall : s.call a = some op) : s.sched.Issued op := by
  cases op with
  | addPeer q held => exact ⟨(he.added q held hcall).1, h.few_peers⟩
  | setPeerHas | removePeer | pick => trivial
  | complete i =>
    cases a <;> simp only [call, Option.map_eq_some_iff, reduceCtorEq, Option.some.injEq,
      and_false, exists_false] at hcall
    case complete k =>
      obtain ⟨w, hw, hcall⟩ := Option.bind_eq_some_iff.1 hcall
      cases hphase : w.phase <;> simp only [hphase, reduceCtorEq] at hcall
      case stored =>
        cases hcall
        exact h.in_range k w i hw (by rw [hphase]; rfl)
    case giveBack k =>
      obtain ⟨w, hw, hcall⟩ := Option.bind_eq_some_iff.1 hcall
      cases hphase : w.phase <;> simp [hphase] at hcall
  | failed i q lacks =>
    cases a <;> simp only [call, Option.map_eq_some_iff, reduceCtorEq, Option.some.injEq,
      and_false, exists_false] at hcall
    case complete k =>
      obtain ⟨w, hw, hcall⟩ := Option.bind_eq_some_iff.1 hcall
      cases hphase : w.phase <;> simp [hphase] at hcall
    case giveBack k =>
      obtain ⟨w, hw, hcall⟩ := Option.bind_eq_some_iff.1 hcall
      cases hphase : w.phase <;> simp only [hphase, reduceCtorEq] at hcall
      case returning =>
        cases hcall
        exact h.in_range k w i hw (by rw [hphase]; rfl)

/-- The scheduler after a step: as before, or after an expected call. -/
lemma Sane.sched_step (h : s.Sane) (he : Effect s a s') : s'.sched = s.sched ∨
    ∃ op out, s.call a = some op ∧ s.sched.Step (op, out) s'.sched := by
  rcases he.call with ⟨-, hsame⟩ | ⟨op, out, hcall, happly⟩
  · exact .inl hsame
  · exact .inr ⟨op, out, hcall, h.issued he hcall, happly⟩

lemma Sane.length_eq (h : s.Sane) (he : Effect s a s') :
    s'.sched.pieces.length = s.sched.pieces.length := by
  rcases h.sched_step he with hsame | ⟨op, out, -, hop, happly⟩
  · rw [hsame]
  · obtain ⟨s₁, out₁, heq, -, hlen, -⟩ := Scheduler.apply_cases h.consistent hop
    obtain ⟨rfl, -⟩ := Prod.mk.inj (Option.some.inj (heq.symm.trans happly))
    exact hlen

/-- A piece becomes done when it is completed. -/
lemma Sane.done_iff (h : s.Sane) (he : Effect s a s') (i : ℕ) :
    s'.sched.pieces[i]? = some .done ↔
      s.sched.pieces[i]? = some .done ∨ s.call a = some (.complete i) := by
  rcases he.call with ⟨hnone, hsame⟩ | ⟨op, out, hcall, happly⟩
  · rw [hsame, hnone]
    simp
  · obtain ⟨s₁, out₁, heq, -, -, hdone, -⟩ :=
      Scheduler.apply_cases h.consistent (h.issued he hcall)
    obtain ⟨rfl, -⟩ := Prod.mk.inj (Option.some.inj (heq.symm.trans happly))
    rw [hdone i, hcall, Option.some.injEq]

/-- What `pick` returns is a piece. -/
lemma picked_lt (hs : s.sched.Consistent) {sched : Scheduler K} {peer : K} {i : ℕ}
    (h : s.sched.pick peer = some (sched, some i)) : i < s.sched.pieces.length := by
  obtain ⟨s₁, r, heq, -, -, -, hcases⟩ := Scheduler.pick_cases hs peer
  obtain ⟨rfl, rfl⟩ := Prod.mk.inj (Option.some.inj (heq.symm.trans h))
  rcases hcases with ⟨hnone, -⟩ | ⟨j, hj, -, hp, -⟩ | ⟨j, rs, hj, -, -, hp, -⟩
  · cases hnone
  · cases hj
    exact (List.getElem?_eq_some_iff.1 hp).1
  · cases hj
    exact (List.getElem?_eq_some_iff.1 hp).1

lemma Sane.step (h : s.Sane) (he : Effect s a s') : s'.Sane := by
  refine ⟨he.few h.few, ?_, fun q hq => ?_, fun k w' i hw' hi => ?_⟩
  · rcases h.sched_step he with hsame | ⟨op, out, -, hop, happly⟩
    · rw [hsame]
      exact h.consistent
    · obtain ⟨s₁, out₁, heq, hs₁, -⟩ := Scheduler.apply_cases h.consistent hop
      obtain ⟨rfl, -⟩ := Prod.mk.inj (Option.some.inj (heq.symm.trans happly))
      exact hs₁
  · obtain ⟨bits', hbits⟩ := Option.isSome_iff_exists.1 (AList.lookup_isSome.2 hq)
    have hmem : ∀ {bits}, s.sched.peers.lookup q = some bits → q ∈ s.sched.peers := fun hbits =>
      AList.lookup_isSome.1 (by rw [hbits]; rfl)
    rcases he.call with ⟨hnone, hsame⟩ | ⟨op, out, hcall, happly⟩
    · rw [hsame] at hq
      obtain ⟨session, hsession, hstage⟩ := h.registered q hq
      exact he.stays q session hsession hstage (by simp [hnone])
    · rcases Scheduler.apply_bits h.consistent (h.issued he hcall) happly hbits with
        rfl | ⟨bits, hlookup, hne, -, -⟩
      · exact (he.added q bits' hcall).2
      · obtain ⟨session, hsession, hstage⟩ := h.registered q (hmem hlookup)
        exact he.stays q session hsession hstage (by simpa [hcall] using hne)
  · rw [h.length_eq he]
    rcases he.worker k w' hw' with hw | hidle | ⟨phase, hw, hmoves⟩
    · exact h.in_range k w' i hw hi
    · rw [hidle] at hi
      cases hi
    · obtain ⟨j, hj⟩ : ∃ j, j = w'.phase := ⟨_, rfl⟩
      rw [← hj] at hmoves hi
      cases hmoves with
      | checked | idle | completed | gaveBack => cases hi
      | picked hpick =>
        cases hi
        exact picked_lt h.consistent hpick
      | arrived | lacking | refused | stored | bad | aborted =>
        cases hi
        exact h.in_range k _ i hw rfl

lemma new_sane (held : List Bool) :
    ∃ s₀ : Engine K, Engine.new held = some s₀ ∧ s₀.Sane ∧ s₀.workers = (fun _ => none) ∧
      s₀.sched.peers = ∅ ∧
      s₀.sched.pieces = held.map fun h => if h then Piece.done else Piece.missing := by
  obtain ⟨sched, heq, hs, hpieces, hpeers⟩ :=
    Scheduler.new_consistent (K := K) held urgentWindowSize
  refine ⟨_, by rw [Engine.new, heq]; rfl, ⟨Nat.zero_le _, hs, fun p hp => ?_,
    fun k w i hw => by cases hw⟩, rfl, hpeers, hpieces⟩
  rw [hpeers] at hp
  cases hp

/-- Every run of the engine is a run of its scheduler: whatever is sent, and whatever the disk
does, the engine makes only calls that the scheduler expects. -/
theorem sched_run {actions : List (Action K)} (h : s.Sane)
    (hrun : Run (fun s a s' => s.step a = some s') s actions s') :
    s'.Sane ∧ ∃ calls, Run Scheduler.Step s.sched calls s'.sched := by
  induction hrun with
  | nil s => exact ⟨h, [], .nil _⟩
  | cons hstep _ ih =>
    have he := step_effect hstep
    obtain ⟨hsane, calls, hcalls⟩ := ih (h.step he)
    refine ⟨hsane, ?_⟩
    rcases h.sched_step he with hsame | ⟨op, out, -, hcall⟩
    · exact ⟨calls, hsame ▸ hcalls⟩
    · exact ⟨_, .cons hcall hcalls⟩

end Engine

end Chorrent
