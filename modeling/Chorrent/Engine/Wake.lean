/-
# No lost wake-up

A worker that `pick` gave nothing waits for `wake`, and the loop of `run` waits for `finished`
(`download.rs`).  A task changes the scheduler first and notifies the waiting ones afterwards,
and other tasks may act in between.  A worker still never waits for a piece that it could ask
for without a notification on its way, unless the endgame began while it waited, and the end of
the download always reaches the loop.
-/
import Chorrent.Engine.Tasks
import Chorrent.Scheduler.Work

namespace Chorrent

open Lib

variable {K : Type} [DecidableEq K]

/-! ## When `pick` has nothing for a peer -/

namespace Scheduler

variable {s s' : Scheduler K} {peer : K} {endgame : Bool}

/-- No missing piece is held by the peer; and, in the endgame, no piece is missing and the peer
can help with none in flight. -/
structure Lull (s : Scheduler K) (peer : K) (endgame : Bool) : Prop where
  wanted : ∀ bits i, s.peers.lookup peer = some bits → ¬ s.IsWanted bits i
  missing : endgame = true → .missing ∉ s.pieces
  helpable : endgame = true → ∀ bits i, s.peers.lookup peer = some bits →
    ¬ s.Helpable peer bits i

lemma lowest_eq_none {key : ℕ → ℕ} {l : List ℕ} : lowest key l = none ↔ l = [] :=
  List.argmin_eq_none

lemma lull_of_policy (hs : s.Consistent) (h : s.policy peer = none) :
    s.Lull peer (s.missing == 0) := by
  have hchoices : ∀ bits, s.peers.lookup peer = some bits →
      s.rarestChoice bits = none ∧ s.endgameChoice peer bits = none := fun bits hbits => by
    rw [policy, hbits, Option.bind_eq_bind, Option.bind_some, Option.or_eq_none_iff,
      Option.or_eq_none_iff] at h
    exact h.2
  have hmissing : (s.missing == 0) = true → .missing ∉ s.pieces := fun hzero hmem =>
    (missing_mem_iff hs).1 hmem (by simpa using hzero)
  refine ⟨fun bits i hbits hw => policy_ne_none hbits hw h, hmissing,
    fun hzero bits i hbits hhelp => ?_⟩
  have hendgame := (hchoices bits hbits).2
  rw [endgameChoice, if_neg (hmissing hzero), lowest_eq_none, List.filter_eq_nil_iff] at hendgame
  have hi : i < s.pieces.length := by
    by_contra hge
    refine hhelp.2.1 ?_
    rw [requestersOf, List.getElem?_eq_none (not_lt.1 hge)]
  exact hendgame i (List.mem_range.2 hi) (by simpa using hhelp)

/-- In the endgame a lull means that `pick` returns nothing. -/
lemma Lull.policy_eq_none (h : s.Lull peer true) : s.policy peer = none := by
  cases hbits : s.peers.lookup peer with
  | none => rw [policy, hbits]; rfl
  | some bits =>
    have hwanted : s.wantedPieces bits = [] := by
      rw [wantedPieces, List.filter_eq_nil_iff]
      exact fun i _ => by simpa using h.wanted bits i hbits
    have hhelpable :
        (List.range s.pieces.length).filter (fun i => s.Helpable peer bits i) = [] := by
      rw [List.filter_eq_nil_iff]
      exact fun i _ => by simpa using h.helpable rfl bits i hbits
    rw [policy, hbits, Option.bind_eq_bind, Option.bind_some, urgentChoice, rarestChoice,
      endgameChoice, hwanted, hhelpable, if_neg (h.missing rfl)]
    rfl

/-- The calls after which nobody is notified. -/
def Op.quiet : Op K → Prop
  | .pick _ | .complete _ => True
  | .addPeer _ _ | .setPeerHas _ _ | .removePeer _ | .failed _ _ _ => False

omit [DecidableEq K] in
/-- A quiet call takes back no request. -/
lemma takesBackOf_of_quiet {op : Op K} {out : Out} {i : ℕ} (hquiet : op.quiet) :
    takesBackOf i (op, out) = none := by
  cases op with
  | pick | complete => rfl
  | addPeer | setPeerHas | removePeer | failed => cases hquiet

/-- What is missing after a quiet call was missing before. -/
lemma missing_of_quiet {op : Op K} {out : Out} (hs : s.Consistent)
    (hstep : s.Step (op, out) s') (hquiet : op.quiet) {i : ℕ}
    (h : s'.pieces[i]? = some .missing) : s.pieces[i]? = some .missing := by
  obtain ⟨s₁, out₁, heq, -, hlen, -⟩ := apply_cases hs hstep.1
  obtain ⟨rfl, rfl⟩ := Prod.mk.inj (Option.some.inj (heq.symm.trans hstep.2))
  have hi : i < s.pieces.length := hlen ▸ (List.getElem?_eq_some_iff.1 h).1
  obtain ⟨p', hp', hturns⟩ := piece_turns hs hstep (List.getElem?_eq_getElem hi)
  obtain rfl := Option.some.inj (hp'.symm.trans h)
  rw [List.getElem?_eq_getElem hi]
  generalize s.pieces[i] = p at hturns
  generalize hq : (Piece.missing : Piece K) = q at hturns
  cases hturns with
  | same => rfl
  | asked _ hnot =>
    cases p with
    | missing | inFlight rs => cases hq
    | done => exact absurd rfl hnot
  | completed => cases hq
  | left _ hback => rw [takesBackOf_of_quiet hquiet] at hback; cases hback

/-- A quiet call ends no lull. -/
lemma Lull.quiet {op : Op K} {out : Out} (h : s.Lull peer endgame) (hs : s.Consistent)
    (hstep : s.Step (op, out) s') (hquiet : op.quiet) : s'.Lull peer endgame := by
  have hbits : ∀ bits, s'.peers.lookup peer = some bits → s.peers.lookup peer = some bits := by
    intro bits hbits
    rcases apply_bits hs hstep.1 hstep.2 hbits with rfl | ⟨bits', hlookup, -, -, heq⟩
    · cases hquiet
    · cases op with
      | pick | complete => exact heq ▸ hlookup
      | addPeer | setPeerHas | removePeer | failed => cases hquiet
  refine ⟨fun bits i hlookup hw => ?_, fun hend hmem => ?_, fun hend bits i hlookup hhelp => ?_⟩
  · exact h.wanted bits i (hbits bits hlookup)
      ⟨hw.1, missing_of_quiet hs hstep hquiet hw.2⟩
  · obtain ⟨i, hi⟩ := List.getElem?_of_mem hmem
    exact h.missing hend (List.mem_of_getElem? (missing_of_quiet hs hstep hquiet hi))
  · obtain ⟨hbit, hne, hlt, hnot⟩ := hhelp
    -- further requesters make it harder to help
    have hi : i < s.pieces.length := by
      rw [← hs.bits_length peer bits (hbits bits hlookup)]
      exact (List.getElem?_eq_some_iff.1 hbit).1
    have hp := List.getElem?_eq_getElem hi
    obtain ⟨p', hp', hturns⟩ := piece_turns hs hstep hp
    have hok := (hs.requesters_nodup hp).2
    have hrequesters : ∀ {s : Scheduler K} {p}, s.pieces[i]? = some p →
        s.requestersOf i = p.requesters := fun {s p} hp => by
      rw [requestersOf, hp]
      cases p <;> rfl
    refine h.helpable hend bits i (hbits bits hlookup) ?_
    rw [hrequesters hp'] at hne hlt hnot
    rw [Helpable, hrequesters hp]
    have hmissing : s.pieces[i] ≠ .missing := fun heq =>
      h.missing hend (heq ▸ List.getElem_mem hi)
    generalize s.pieces[i] = p at hp hturns hok hmissing
    cases hturns with
    | same => exact ⟨hbit, hne, hlt, hnot⟩
    | asked _ hdone =>
      cases p with
      | missing => exact absurd rfl hmissing
      | inFlight rs =>
        simp only [Piece.request, Piece.requesters, List.length_append, List.mem_append,
          not_or] at hlt hnot
        exact ⟨hbit, fun hnil => hok (congrArg _ hnil),
          Nat.lt_of_le_of_lt (Nat.le_add_right _ _) hlt, hnot.1⟩
      | done => exact absurd rfl hdone
    | completed => exact absurd rfl hne
    | left _ hback => rw [takesBackOf_of_quiet hquiet] at hback; cases hback

end Scheduler

namespace Engine

variable {s s' : Engine K}

/-- A worker that is idle after `pick` got nothing. -/
lemma policy_of_idle (hs : s.Sane) {k : ℕ} (h : s.step (.pick k) = some s') {w' : Worker K}
    (hw' : s'.workers k = some w') (hidle : w'.phase = .idle) :
    s'.sched = s.sched ∧ s.sched.policy w'.peer = none := by
  obtain ⟨w, hw, h⟩ := Option.bind_eq_some_iff.1 h
  dsimp only at h
  split_ifs at h
  rw [Scheduler.pick_eq hs.consistent, Option.bind_eq_bind, Option.bind_some] at h
  cases hpolicy : s.sched.policy w.peer with
  | none =>
    rw [hpolicy] at h
    cases h
    rcases setWorker_eq_some.1 hw' with ⟨-, heq⟩ | ⟨hne, -⟩
    · cases heq
      exact ⟨rfl, hpolicy⟩
    · exact absurd rfl hne
  | some i =>
    rw [hpolicy] at h
    cases h
    rcases setWorker_eq_some.1 hw' with ⟨-, heq⟩ | ⟨hne, -⟩
    · cases heq
      cases hidle
    · exact absurd rfl hne

end Engine

/-! ## Waiting and notifying -/

/-- Where a worker is with the notifications of `wake`.  They are numbered. -/
inductive Ear where
  | deaf
  /-- `notified()` was called after so many notifications. -/
  | listening (since : ℕ)
  /-- The worker waits; when it went to wait, the endgame had begun or not. -/
  | parked (since : ℕ) (endgame : Bool)
deriving DecidableEq

/-- An engine, and who waits for what in it. -/
structure Waking (K : Type) [DecidableEq K] where
  engine : Engine K
  ears : ℕ → Ear
  /-- How often `notify_waiters` was called on `wake`. -/
  wakes : ℕ
  /-- How many tasks have changed the scheduler and call `notify_waiters` next. -/
  owed : ℕ
  /-- Whether the loop of `run` waits in its `select`. -/
  waiting : Bool
  /-- A notification of `finished` that nobody has taken yet. -/
  permit : Bool
  /-- How many workers have seen the end and notify `finished` next. -/
  finishing : ℕ

inductive Beat (K : Type) where
  | act (action : Action K)
  /-- A worker calls `wake.notified()` before its `pick`. -/
  | listen (worker : ℕ)
  | notify
  | woken (worker : ℕ)
  /-- A worker has waited for a second. -/
  | timeout (worker : ℕ)
  /-- The loop of `run` looks whether the download is done. -/
  | look
  | notifyFinished
  | finished
  /-- Another branch of the `select` of `run`. -/
  | other
deriving DecidableEq

namespace Waking

/-- `held` is what is already on disk. -/
def new (held : List Bool) : Option (Waking K) := do
  let engine ← Engine.new held
  return { engine, ears := fun _ => .deaf, wakes := 0, owed := 0, waiting := false,
           permit := false, finishing := 0 }

/-- The task that acted calls `notify_waiters` next. -/
def owes (engine : Engine K) : Action K → Bool
  | .subscribed _ _ | .bitfield _ _ | .haveFrame _ _ | .removePeer _ | .giveBack _ => true
  | .complete _ => engine.sched.isDone
  | .connect _ | .spawn _ | .check _ | .pick _ | .answer _ _ | .store _ _ | .leave _
  | .disconnect _ | .cancel _ => false

/-- The worker that acted notifies `finished` next. -/
def finishes (engine : Engine K) : Action K → Bool
  | .complete _ => engine.sched.isDone
  | _ => false

/-- A worker that `pick` gave nothing waits for what it listens for. -/
def park (s : Waking K) (engine : Engine K) (k : ℕ) : Ear :=
  match s.ears k with
  | .listening n =>
      if (engine.workers k).any (·.phase = .idle) then .parked n (s.engine.sched.missing == 0)
      else .deaf
  | ear => ear

/-- The ears after an action that leads to `engine`. -/
def earsAfter (s : Waking K) (engine : Engine K) : Action K → ℕ → Ear
  | .pick k => Function.update s.ears k (s.park engine k)
  | .spawn _ => Function.update s.ears s.engine.spawned .deaf
  | .cancel k => Function.update s.ears k .deaf
  | _ => s.ears

/-- A worker that waits does not act, and a worker listens before it calls `pick`. -/
def mayAct (s : Waking K) : Action K → Bool
  | .check k => s.ears k = .deaf
  | .pick k => match s.ears k with
      | .listening _ => true
      | _ => false
  | _ => true

def step (s : Waking K) : Beat K → Option (Waking K)
  | .act a => do
      if s.mayAct a then
        let engine ← s.engine.step a
        return { s with engine, ears := s.earsAfter engine a,
                        owed := s.owed + (owes engine a).toNat,
                        finishing := s.finishing + (finishes engine a).toNat }
      else none
  | .listen k => do
      let w ← s.engine.workers k
      if w.phase = .ready ∧ s.ears k = .deaf then
        return { s with ears := Function.update s.ears k (.listening s.wakes) }
      else none
  | .notify =>
      if s.owed = 0 then none else some { s with owed := s.owed - 1, wakes := s.wakes + 1 }
  | .woken k =>
      match s.ears k with
      | .parked n _ =>
          if n < s.wakes then some { s with ears := Function.update s.ears k .deaf } else none
      | _ => none
  | .timeout k =>
      match s.ears k with
      | .parked _ _ => some { s with ears := Function.update s.ears k .deaf }
      | _ => none
  | .look =>
      if s.waiting ∨ s.engine.sched.isDone then none else some { s with waiting := true }
  | .notifyFinished =>
      if s.finishing = 0 then none
      else some { s with finishing := s.finishing - 1, permit := true }
  | .finished =>
      if s.waiting ∧ s.permit then some { s with waiting := false, permit := false } else none
  | .other => if s.waiting then some { s with waiting := false } else none

/-! ## The invariant -/

structure Inv (s : Waking K) : Prop where
  sane : s.engine.Sane
  since_le : ∀ k n endgame, s.ears k = .listening n ∨ s.ears k = .parked n endgame → n ≤ s.wakes
  lull : ∀ k w endgame, s.engine.workers k = some w → s.ears k = .parked s.wakes endgame →
    s.owed = 0 → s.engine.sched.Lull w.peer endgame
  ended : s.waiting = true → s.engine.sched.isDone = true → s.permit = true ∨ 0 < s.finishing

variable {s s' : Waking K} {engine : Engine K} {a : Action K}

/-- After a call of the scheduler that is not quiet the task notifies. -/
lemma quiet_of_not_owes (h : owes engine a = false) {e : Engine K} {op : Scheduler.Op K}
    (hcall : e.call a = some op) : op.quiet := by
  cases a with
  | subscribed | bitfield | haveFrame | removePeer | giveBack => cases h
  | connect | spawn | check | answer | store | leave | disconnect | cancel => cases hcall
  | pick k =>
    obtain ⟨w, -, rfl⟩ := Option.map_eq_some_iff.1 hcall
    trivial
  | complete k =>
    obtain ⟨w, -, hcall⟩ := Option.bind_eq_some_iff.1 hcall
    cases hphase : w.phase <;> simp only [hphase, reduceCtorEq] at hcall
    cases hcall
    trivial

/-- Only a completed piece ends the download. -/
lemma isDone_of_not_finishes (h : s.engine.Sane) (hstep : s.engine.step a = some engine)
    (hfin : finishes engine a = false) (hdone : engine.sched.isDone = true) :
    s.engine.sched.isDone = true := by
  have he := Engine.step_effect hstep
  have hne : ∀ i, s.engine.call a ≠ some (.complete i) := by
    intro i hcall
    cases a with
    | complete k =>
      rw [finishes, hdone] at hfin
      cases hfin
    | pick k =>
      obtain ⟨w, -, hcall⟩ := Option.map_eq_some_iff.1 hcall
      cases hcall
    | giveBack k =>
      obtain ⟨w, -, hcall⟩ := Option.bind_eq_some_iff.1 hcall
      cases hphase : w.phase <;> simp only [hphase, reduceCtorEq] at hcall
      cases hcall
    | subscribed | bitfield | haveFrame | removePeer => cases hcall
    | connect | spawn | check | answer | store | leave | disconnect | cancel => cases hcall
  rw [Scheduler.isDone_iff (h.step he).consistent] at hdone
  rw [Scheduler.isDone_iff h.consistent]
  intro p hp
  obtain ⟨i, hi⟩ := List.getElem?_of_mem hp
  have hlt : i < engine.sched.pieces.length := by
    rw [h.length_eq he]
    exact (List.getElem?_eq_some_iff.1 hi).1
  have hget := List.getElem?_eq_getElem hlt
  rw [hdone _ (List.getElem_mem hlt), h.done_iff he] at hget
  exact Option.some.inj (hi.symm.trans (hget.resolve_right (hne i)))

/-- What a worker listens for after an action: as before, unless it called `pick`. -/
lemma earsAfter_cases (s : Waking K) (engine : Engine K) (a : Action K) (k : ℕ) :
    s.earsAfter engine a k = .deaf ∨
    (s.earsAfter engine a k = s.ears k ∧ ∀ peer, a = .spawn peer → k ≠ s.engine.spawned) ∨
    (a = .pick k ∧ ∃ n w, s.ears k = .listening n ∧ engine.workers k = some w ∧ w.phase = .idle ∧
      s.earsAfter engine a k = .parked n (s.engine.sched.missing == 0)) := by
  cases a with
  | pick j =>
    by_cases hk : k = j
    · subst hk
      simp only [earsAfter, Function.update_self, park]
      cases hear : s.ears k with
      | listening n =>
        by_cases hidle : (engine.workers k).any (·.phase = .idle) = true
        · obtain ⟨w, hw, hphase⟩ := (Option.any_eq_true _ _).1 hidle
          exact .inr (.inr ⟨trivial, n, w, rfl, hw, of_decide_eq_true hphase, by simp [hidle]⟩)
        · exact .inl (by simp [hidle])
      | deaf | parked n endgame => exact .inr (.inl ⟨rfl, fun peer heq => by cases heq⟩)
    · exact .inr (.inl ⟨by simp [earsAfter, hk], fun peer heq => by cases heq⟩)
  | spawn peer =>
    by_cases hk : k = s.engine.spawned
    · exact .inl (by simp [earsAfter, hk])
    · exact .inr (.inl ⟨by simp [earsAfter, hk], fun _ _ => hk⟩)
  | cancel j =>
    by_cases hk : k = j
    · exact .inl (by simp [earsAfter, hk])
    · exact .inr (.inl ⟨by simp [earsAfter, hk], fun peer heq => by cases heq⟩)
  | connect | subscribed | check | answer | store | complete | giveBack | bitfield | haveFrame
  | leave | removePeer | disconnect => exact .inr (.inl ⟨rfl, fun peer heq => by cases heq⟩)

lemma Inv.act (h : s.Inv) (hstep : s.engine.step a = some engine) :
    Inv { s with engine, ears := s.earsAfter engine a, owed := s.owed + (owes engine a).toNat,
                 finishing := s.finishing + (finishes engine a).toNat } := by
  have he := Engine.step_effect hstep
  refine ⟨h.sane.step he, fun k n endgame hear => ?_, fun k w endgame hw hear howed => ?_,
    fun hwaiting hdone => ?_⟩
  · replace hear : s.earsAfter engine a k = .listening n ∨
        s.earsAfter engine a k = .parked n endgame := hear
    rcases earsAfter_cases s engine a k with hdeaf | ⟨hsame, -⟩ | ⟨-, m, -, hlisten, -, -, hpark⟩
    · rw [hdeaf] at hear
      rcases hear with hear | hear <;> cases hear
    · exact h.since_le k n endgame (hsame ▸ hear)
    · rw [hpark] at hear
      rcases hear with hear | hear <;> cases hear
      exact h.since_le k _ false (.inl hlisten)
  · obtain ⟨howed, hquiet⟩ := Nat.add_eq_zero_iff.1 howed
    replace hquiet : owes engine a = false := by
      cases howes : owes engine a with
      | false => rfl
      | true => rw [howes] at hquiet; cases hquiet
    replace hear : s.earsAfter engine a k = .parked s.wakes endgame := hear
    rcases earsAfter_cases s engine a k with
      hdeaf | ⟨hsame, hspawn⟩ | ⟨rfl, n, w', hlisten, hw', hidle, hpark⟩
    · rw [hdeaf] at hear
      cases hear
    · rw [hsame] at hear
      rcases (Engine.step_tasks hstep).worker hw with ⟨w₀, hw₀, hpeer⟩ | ⟨peer, heq, hk⟩
      · have hlull := h.lull k w₀ endgame hw₀ hear howed
        rw [hpeer] at hlull
        rcases h.sane.sched_step he with hsched | ⟨op, out, hcall, hop⟩
        · rw [hsched]
          exact hlull
        · exact hlull.quiet h.sane.consistent hop (quiet_of_not_owes hquiet hcall)
      · exact absurd hk (hspawn peer heq)
    · -- the worker went to wait just now
      obtain rfl := Option.some.inj (hw'.symm.trans hw)
      rw [hpark] at hear
      cases hear
      obtain ⟨hsched, hpolicy⟩ := Engine.policy_of_idle h.sane hstep hw hidle
      rw [hsched]
      exact Scheduler.lull_of_policy h.sane.consistent hpolicy
  · cases hfin : finishes engine a with
    | true => exact .inr (Nat.succ_pos _)
    | false => exact h.ended hwaiting (isDone_of_not_finishes h.sane hstep hfin hdone)

/-- A worker stops waiting, or another thing changes that no invariant depends on. -/
lemma Inv.congr (h : s.Inv) (hengine : s'.engine = s.engine)
    (hears : ∀ k, s'.ears k = s.ears k ∨ s'.ears k = .deaf ∨ s'.ears k = .listening s.wakes)
    (hwakes : s'.wakes = s.wakes) (howed : s'.owed = s.owed)
    (hended : s'.waiting = true → s.engine.sched.isDone = true →
      s'.permit = true ∨ 0 < s'.finishing) : s'.Inv := by
  refine ⟨hengine ▸ h.sane, fun k n endgame hear => ?_, fun k w endgame hw hear hzero => ?_, ?_⟩
  · rw [hwakes]
    rcases hears k with hsame | hdeaf | hlisten
    · exact h.since_le k n endgame (hsame ▸ hear)
    · rw [hdeaf] at hear
      rcases hear with hear | hear <;> cases hear
    · rw [hlisten] at hear
      rcases hear with hear | hear <;> cases hear
      exact le_rfl
  · rw [hengine] at hw ⊢
    rw [hwakes] at hear
    rcases hears k with hsame | hdeaf | hlisten
    · exact h.lull k w endgame hw (hsame ▸ hear) (howed ▸ hzero)
    · rw [hdeaf] at hear
      cases hear
    · rw [hlisten] at hear
      cases hear
  · rw [hengine]
    exact hended

lemma Inv.step {b : Beat K} (h : s.Inv) (hstep : s.step b = some s') : s'.Inv := by
  have hupdate : ∀ {k : ℕ} {ear : Ear}, ear = .deaf ∨ ear = .listening s.wakes → ∀ j,
      Function.update s.ears k ear j = s.ears j ∨ Function.update s.ears k ear j = .deaf ∨
        Function.update s.ears k ear j = .listening s.wakes := fun {k ear} hear j => by
    by_cases hj : j = k
    · rw [hj, Function.update_self]
      exact .inr hear
    · exact .inl (Function.update_of_ne hj _ _)
  have hkeep : ∀ k, s.ears k = s.ears k ∨ s.ears k = .deaf ∨ s.ears k = .listening s.wakes :=
    fun _ => .inl rfl
  cases b with
  | act a =>
    rw [Waking.step] at hstep
    split_ifs at hstep
    obtain ⟨engine, hengine, hstep⟩ := Option.bind_eq_some_iff.1 hstep
    cases hstep
    exact h.act hengine
  | listen k =>
    obtain ⟨w, -, hstep⟩ := Option.bind_eq_some_iff.1 hstep
    split_ifs at hstep
    cases hstep
    exact h.congr rfl (hupdate (.inr rfl)) rfl rfl h.ended
  | notify =>
    rw [Waking.step] at hstep
    split_ifs at hstep
    cases hstep
    -- nobody listens for a notification that is yet to come
    refine ⟨h.sane, fun k n endgame hear => Nat.le_succ_of_le (h.since_le k n endgame hear),
      fun k w endgame _ hear _ => ?_, h.ended⟩
    exact absurd (h.since_le k _ endgame (.inr hear)) (Nat.not_succ_le_self _)
  | woken k =>
    rw [Waking.step] at hstep
    cases hear : s.ears k <;> simp only [hear, reduceCtorEq] at hstep
    split_ifs at hstep
    cases hstep
    exact h.congr rfl (hupdate (.inl rfl)) rfl rfl h.ended
  | timeout k =>
    rw [Waking.step] at hstep
    cases hear : s.ears k <;> simp only [hear, reduceCtorEq] at hstep
    cases hstep
    exact h.congr rfl (hupdate (.inl rfl)) rfl rfl h.ended
  | look =>
    rw [Waking.step] at hstep
    split_ifs at hstep with hnot
    cases hstep
    exact h.congr rfl hkeep rfl rfl fun _ hdone => absurd (.inr hdone) hnot
  | notifyFinished =>
    rw [Waking.step] at hstep
    split_ifs at hstep
    cases hstep
    exact h.congr rfl hkeep rfl rfl fun _ _ => .inl rfl
  | finished =>
    rw [Waking.step] at hstep
    split_ifs at hstep
    cases hstep
    exact h.congr rfl hkeep rfl rfl fun hwaiting => by cases hwaiting
  | other =>
    rw [Waking.step] at hstep
    split_ifs at hstep
    cases hstep
    exact h.congr rfl hkeep rfl rfl fun hwaiting => by cases hwaiting

/-- No wake-up is lost, whatever tasks do between a change of the scheduler and its
notification.  Where a worker waits though its peer holds a missing piece, or began to wait in the
endgame and `pick` would now give it something, a notification is on its way to it.  The loop of
`run` does not wait for the end of a download that is done without a notification of it on its
way. -/
theorem no_lost_wakeup (held : List Bool) :
    ∃ s₀ : Waking K, new held = some s₀ ∧
      ∀ beats s, Run (fun s b s' => step s b = some s') s₀ beats s →
        (∀ k w since endgame, s.engine.workers k = some w → s.ears k = .parked since endgame →
          ((∃ bits i, s.engine.sched.peers.lookup w.peer = some bits ∧
              s.engine.sched.IsWanted bits i) ∨
            (endgame = true ∧ s.engine.sched.policy w.peer ≠ none)) →
          since < s.wakes ∨ 0 < s.owed) ∧
        (s.waiting = true → s.engine.sched.isDone = true → s.permit = true ∨ 0 < s.finishing) := by
  obtain ⟨engine, hnew, hsane, -⟩ := Engine.new_sane (K := K) held
  refine ⟨_, by rw [new, hnew]; rfl, fun beats s hrun => ?_⟩
  have hinv : s.Inv := hrun.invariant (fun _ _ _ h hstep => h.step hstep)
    ⟨hsane, fun k n endgame hear => (by rcases hear with hear | hear <;> cases hear),
      fun k w endgame _ hear => (by cases hear), fun hwaiting => (by cases hwaiting)⟩
  refine ⟨fun k w since endgame hw hear huseful => ?_, hinv.ended⟩
  by_contra hnone
  rw [not_or, not_lt, not_lt, Nat.le_zero] at hnone
  obtain rfl : since = s.wakes :=
    le_antisymm (hinv.since_le k since endgame (.inr hear)) hnone.1
  have hlull := hinv.lull k w endgame hw hear hnone.2
  rcases huseful with ⟨bits, i, hbits, hwanted⟩ | ⟨rfl, hpolicy⟩
  · exact hlull.wanted bits i hbits hwanted
  · exact hpolicy hlull.policy_eq_none

end Waking

end Chorrent
