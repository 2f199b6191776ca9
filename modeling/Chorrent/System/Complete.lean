/-
# A download can always be completed

Whatever peers sent and in whatever order tasks acted, no state of a download is a dead end.  When
the connections that there are have ended, one peer that has every piece is enough: it is connected
to, and each piece that is not done is fetched from it.
-/
import Chorrent.Engine.Progress
import Chorrent.Engine.Tasks
import Chorrent.Scheduler.Policy
import Chorrent.System.Network

namespace Chorrent

open Lib

variable {K Master Key Hash Wire : Type} [DecidableEq K]

/-! ## Connections that are made later -/

namespace Engine

variable {s s' : Engine K} {a : Action K}

/-- A connection that is made later is new: no worker belongs to it, and none of its requests
failed. -/
structure Fresh (s : Engine K) : Prop where
  number_lt : ∀ p session, s.connected.lookup p = some session → session.number < s.sessions
  session_lt : ∀ k w, s.workers k = some w → w.session < s.sessions
  strikes : ∀ n, s.sessions ≤ n → s.strikes n = 0

lemma number_step
    (h : ∀ p session, s.connected.lookup p = some session → session.number < s.sessions)
    (hstep : s.step a = some s') : s.sessions ≤ s'.sessions ∧
      ∀ p session, s'.connected.lookup p = some session → session.number < s'.sessions := by
  have hstage : ∀ {peer session stage}, s.connected.lookup peer = some session →
      ∀ p session', (s.setStage peer session stage).connected.lookup p = some session' →
        session'.number < s.sessions := by
    intro peer session stage hpeer p session' hp
    by_cases hpp : p = peer
    · subst hpp
      rw [setStage, AList.lookup_insert] at hp
      obtain rfl := Option.some.inj hp
      exact h p session hpeer
    · rw [setStage, AList.lookup_insert_ne hpp] at hp
      exact h p session' hp
  cases a with
  | connect peer =>
    rw [Engine.step] at hstep
    split_ifs at hstep
    cases hstep
    refine ⟨Nat.le_succ _, fun p session hp => ?_⟩
    by_cases hpp : p = peer
    · subst hpp
      rw [AList.lookup_insert] at hp
      obtain rfl := Option.some.inj hp
      exact Nat.lt_succ_self _
    · rw [AList.lookup_insert_ne hpp] at hp
      exact (h p session hp).trans (Nat.lt_succ_self _)
  | subscribed peer bytes | removePeer peer =>
    obtain ⟨session, hsession, hstep⟩ := Option.bind_eq_some_iff.1 hstep
    obtain ⟨sched, -, hstep⟩ := Option.bind_eq_some_iff.1 hstep
    cases hstep
    exact ⟨le_rfl, hstage (sessionIn_eq_some.1 hsession).1⟩
  | leave peer =>
    obtain ⟨session, hsession, hstep⟩ := Option.bind_eq_some_iff.1 hstep
    split_ifs at hstep
    cases hstep
    exact ⟨le_rfl, hstage hsession⟩
  | disconnect peer =>
    obtain ⟨session, -, hstep⟩ := Option.bind_eq_some_iff.1 hstep
    cases hstep
    refine ⟨le_rfl, fun p session hp => ?_⟩
    by_cases hpp : p = peer
    · subst hpp
      rw [AList.lookup_erase] at hp
      cases hp
    · rw [AList.lookup_erase_ne hpp] at hp
      exact h p session hp
  | bitfield peer bytes | haveFrame peer piece =>
    obtain ⟨session, -, hstep⟩ := Option.bind_eq_some_iff.1 hstep
    obtain ⟨sched, -, hstep⟩ := Option.bind_eq_some_iff.1 hstep
    cases hstep
    exact ⟨le_rfl, h⟩
  | spawn peer =>
    obtain ⟨session, -, hstep⟩ := Option.bind_eq_some_iff.1 hstep
    dsimp only at hstep
    split_ifs at hstep
    cases hstep
    exact ⟨le_rfl, h⟩
  | cancel k =>
    obtain ⟨w, -, hstep⟩ := Option.bind_eq_some_iff.1 hstep
    split_ifs at hstep
    cases hstep
    exact ⟨le_rfl, h⟩
  | check k =>
    obtain ⟨w, -, hstep⟩ := Option.bind_eq_some_iff.1 hstep
    split_ifs at hstep <;> cases hstep <;> exact ⟨le_rfl, h⟩
  | pick k =>
    obtain ⟨w, -, hstep⟩ := Option.bind_eq_some_iff.1 hstep
    dsimp only at hstep
    split_ifs at hstep
    obtain ⟨⟨sched, picked⟩, -, hstep⟩ := Option.bind_eq_some_iff.1 hstep
    cases picked <;> cases hstep <;> exact ⟨le_rfl, h⟩
  | answer k answer =>
    obtain ⟨w, -, hstep⟩ := Option.bind_eq_some_iff.1 hstep
    cases hphase : w.phase <;> simp only [hphase, reduceCtorEq] at hstep
    cases answer <;> cases hstep <;> exact ⟨le_rfl, h⟩
  | store k result =>
    obtain ⟨w, -, hstep⟩ := Option.bind_eq_some_iff.1 hstep
    cases hphase : w.phase <;> simp only [hphase, reduceCtorEq] at hstep
    cases result <;> cases hstep <;> exact ⟨le_rfl, h⟩
  | complete k =>
    obtain ⟨w, -, hstep⟩ := Option.bind_eq_some_iff.1 hstep
    cases hphase : w.phase <;> simp only [hphase, reduceCtorEq] at hstep
    obtain ⟨⟨sched, newly⟩, -, hstep⟩ := Option.bind_eq_some_iff.1 hstep
    cases hstep
    exact ⟨le_rfl, h⟩
  | giveBack k =>
    obtain ⟨w, -, hstep⟩ := Option.bind_eq_some_iff.1 hstep
    cases hphase : w.phase <;> simp only [hphase, reduceCtorEq] at hstep
    obtain ⟨sched, -, hstep⟩ := Option.bind_eq_some_iff.1 hstep
    cases hstep
    exact ⟨le_rfl, h⟩

/-- A worker that is spawned belongs to the connection that runs. -/
lemma session_of_spawn {peer : K} {n : ℕ} (hstep : s.step (.spawn peer) = some s')
    (hworkers : s'.workers = Function.update s.workers s.spawned (some ⟨peer, n, .idle⟩)) :
    ∃ session, s.connected.lookup peer = some session ∧ session.number = n := by
  obtain ⟨session, hsession, hstep⟩ := Option.bind_eq_some_iff.1 hstep
  dsimp only at hstep
  split_ifs at hstep
  cases hstep
  refine ⟨session, (sessionIn_eq_some.1 hsession).1, ?_⟩
  have hsame := congrFun hworkers s.spawned
  simp only [setWorker, Function.update_self, Option.some.injEq, Worker.mk.injEq, true_and,
    and_true] at hsame
  exact hsame

lemma Fresh.step (h : s.Fresh) (hstep : s.step a = some s') : s'.Fresh := by
  obtain ⟨hle, hnumber⟩ := number_step h.number_lt hstep
  have hworker : ∀ {k : ℕ} {v : Option (Worker K)}, (∀ w, v = some w → w.session < s.sessions) →
      s'.workers = Function.update s.workers k v →
      ∀ j w, s'.workers j = some w → w.session < s'.sessions := by
    intro k v hv hworkers j w hw
    rw [hworkers] at hw
    by_cases hj : j = k
    · subst hj
      rw [Function.update_self] at hw
      exact (hv w hw).trans_le hle
    · rw [Function.update_of_ne hj] at hw
      exact (h.session_lt j w hw).trans_le hle
  have hstrike : ∀ {k : ℕ} {w : Worker K} {x : ℕ}, s.workers k = some w →
      s'.strikes = Function.update s.strikes w.session x →
      ∀ n, s'.sessions ≤ n → s'.strikes n = 0 := by
    intro k w x hw hstrikes n hn
    have hlt := h.session_lt k w hw
    rw [hstrikes, Function.update_of_ne (by omega)]
    exact h.strikes n (hle.trans hn)
  have hkeep : s'.strikes = s.strikes → ∀ n, s'.sessions ≤ n → s'.strikes n = 0 :=
    fun hstrikes n hn => by rw [hstrikes, h.strikes n (hle.trans hn)]
  have hmoved : ∀ {k : ℕ} {w : Worker K} {phase : Phase}, s.workers k = some w →
      ∀ w', some { w with phase } = some w' → w'.session < s.sessions := by
    rintro k w phase hw _ ⟨⟩
    exact h.session_lt k w hw
  cases step_tasks hstep with
  | same hworkers _ hstrikes _ =>
    exact ⟨hnumber, fun k w hw => (h.session_lt k w (hworkers ▸ hw)).trans_le hle, hkeep hstrikes⟩
  | spawned ha _ hworkers _ hstrikes =>
    subst ha
    obtain ⟨session, hsession, rfl⟩ := session_of_spawn hstep hworkers
    refine ⟨hnumber, hworker ?_ hworkers, hkeep hstrikes⟩
    rintro _ ⟨⟩
    exact h.number_lt _ _ hsession
  | stopped _ hworkers _ hstrikes _ =>
    refine ⟨hnumber, hworker ?_ hworkers, hkeep hstrikes⟩
    rintro _ ⟨⟩
  | moved hw hworkers _ hstrikes _ _ =>
    exact ⟨hnumber, hworker (hmoved hw) hworkers, hkeep hstrikes⟩
  | failed hw hworkers _ hstrikes _ _ _ =>
    exact ⟨hnumber, hworker (hmoved hw) hworkers, hstrike hw hstrikes⟩
  | succeeded hw hworkers _ hstrikes _ =>
    exact ⟨hnumber, hworker (hmoved hw) hworkers, hstrike hw hstrikes⟩

lemma spawned_le (hstep : s.step a = some s') : s.spawned ≤ s'.spawned := by
  cases step_tasks hstep with
  | spawned _ _ _ hspawned _ => omega
  | same _ hspawned => exact hspawned.ge
  | stopped _ _ hspawned => exact hspawned.ge
  | moved _ _ hspawned => exact hspawned.ge
  | failed _ _ hspawned => exact hspawned.ge
  | succeeded _ _ hspawned => exact hspawned.ge

/-! ## What a worker can do -/

variable {k : ℕ} {w : Worker K} {i : ℕ}

lemma check_eq (hw : s.workers k = some w) (hphase : w.phase = .idle)
    (hmore : ¬ s.sched.isDone = true) (hstrikes : s.strikes w.session < maxStrikes) :
    s.step (.check k) = some (s.setWorker k (some { w with phase := .ready })) := by
  rw [Engine.step, hw, Option.bind_eq_bind, Option.bind_some, if_neg (not_not.2 hphase),
    if_neg (not_or.2 ⟨hmore, not_le.2 hstrikes⟩)]
  rfl

lemma picks_eq (hw : s.workers k = some w) (hphase : w.phase = .ready) {sched : Scheduler K}
    (hpick : s.sched.pick w.peer = some (sched, some i)) :
    s.step (.pick k) = some { s.setWorker k (some { w with phase := .requesting i }) with
      sched, endgame := s.endgame || s.sched.missing == 0 } := by
  rw [Engine.step, hw, Option.bind_eq_bind, Option.bind_some, if_neg (not_not.2 hphase), hpick]
  rfl

lemma arrives_eq (hw : s.workers k = some w) (hphase : w.phase = .requesting i) :
    s.step (.answer k .piece) = some (s.setWorker k (some { w with phase := .storing i })) := by
  simp only [Engine.step, hw, Option.bind_eq_bind, Option.bind_some, hphase]
  rfl

lemma stores_eq (hw : s.workers k = some w) (hphase : w.phase = .storing i) :
    s.step (.store k .ok) =
      some ((s.setStrikes w.session 0).setWorker k (some { w with phase := .stored i })) := by
  simp only [Engine.step, hw, Option.bind_eq_bind, Option.bind_some, hphase]
  rfl

lemma completes_eq (hw : s.workers k = some w) (hphase : w.phase = .stored i)
    {sched : Scheduler K} {newly : Bool} (hcomplete : s.sched.complete i = some (sched, newly)) :
    s.step (.complete k) =
      some { s.setWorker k (some { w with phase := .idle }) with sched } := by
  simp only [Engine.step, hw, Option.bind_eq_bind, Option.bind_some, hphase, hcomplete]
  rfl

end Engine

namespace Transfer

variable {Master' Key' : Type} {S : StoreKeys Master Key} {S' : StoreKeys Master' Key'}
  {B : Bao Hash Wire} {T : Target Master} {T' : Target Master'} {m : Manifest Hash}
  {toLowercase : String → String} {disk : Disk Master Hash} {other : Disk Master' Hash}
  {peer : K} {s₀ s s' : Transfer K Master Hash} {a : TransferAction K Wire}

/-- The same of a download: workers that are spawned later have nothing to announce. -/
structure Fresh (s : Transfer K Master Hash) : Prop where
  engine : s.engine.Fresh
  few : s.engine.Few
  announcing : ∀ k, s.engine.spawned ≤ k → s.announcing k = none

lemma Fresh.step (h : s.Fresh) (hstep : s.step S B a = some s') : s'.Fresh := by
  have hengine : ∀ {a : Action K} {e : Engine K}, s.engine.step a = some e →
      e.Fresh ∧ e.Few ∧ ∀ k, e.spawned ≤ k → s.announcing k = none := fun hstep =>
    ⟨h.engine.step hstep, h.few.step (Engine.step_tasks hstep), fun k hk =>
      h.announcing k ((Engine.spawned_le hstep).trans hk)⟩
  cases step_does hstep with
  | engine _ he =>
    obtain ⟨hfresh, hfew, hannouncing⟩ := hengine he
    exact ⟨hfresh, hfew, hannouncing⟩
  | store _ _ he =>
    obtain ⟨hfresh, hfew, hannouncing⟩ := hengine he
    exact ⟨hfresh, hfew, hannouncing⟩
  | @complete k w i sched newly engine _ hw _ _ he =>
    obtain ⟨hfresh, hfew, hannouncing⟩ := hengine he
    refine ⟨hfresh, hfew, fun j hj => ?_⟩
    have hk := h.few.numbered k w hw
    have hle := Engine.spawned_le he
    have hj' : engine.spawned ≤ j := hj
    split_ifs
    · show Function.update s.announcing k (some i) j = none
      rw [Function.update_of_ne (by omega)]
      exact hannouncing j hj
    · exact hannouncing j hj
  | @announce k i bytes hi hbytes =>
    refine ⟨h.engine, h.few, fun j hj => ?_⟩
    show Function.update s.announcing k none j = none
    rw [Function.update_apply, h.announcing j hj, ite_self]
  | orphan => exact ⟨h.engine, h.few, h.announcing⟩

lemma fresh_start (h : start K disk = some s₀) : s₀.Fresh := by
  obtain ⟨resumed, -, h⟩ := Option.bind_eq_some_iff.1 h
  obtain ⟨engine, hnew, h⟩ := Option.bind_eq_some_iff.1 h
  obtain ⟨sched, -, hnew⟩ := Option.bind_eq_some_iff.1 hnew
  cases hnew
  cases h
  refine ⟨⟨?_, ?_, fun _ _ => rfl⟩, ⟨?_, fun _ => Nat.zero_le _⟩, fun _ _ => rfl⟩
  · rintro _ _ ⟨⟩
  · rintro _ _ ⟨⟩
  · rintro _ _ ⟨⟩

/-! ## Ending the connections -/

/-- What a download does that ends its connections and takes what it lacks from one peer, which
sends what it encodes of its pieces. -/
def FetchesFrom (S' : StoreKeys Master' Key') (B : Bao Hash Wire) (other : Disk Master' Hash)
    (peer : K) (s : Transfer K Master Hash) : TransferAction K Wire → Prop
  | .engine (.leave _) | .engine (.removePeer _) | .engine (.disconnect _) => True
  | .engine (.connect q) | .engine (.spawn q) => q = peer
  | .engine (.subscribed q bytes) => q = peer ∧ bytes = packBits other.share.held
  | .engine (.check _) | .engine (.pick _) | .complete _ | .announce _ => True
  | .engine (.answer _ answer) => answer = .piece
  | .store k _ late encoded => late = false ∧ ∃ w i, s.engine.workers k = some w ∧ w.peer = peer ∧
      w.phase = .storing i ∧
        LocalShare.encodePiece S' B false other.fs other.share i = .ok encoded
  | _ => False

/-- A step of such a download. -/
def Fetches (S : StoreKeys Master Key) (S' : StoreKeys Master' Key') (B : Bao Hash Wire)
    (other : Disk Master' Hash) (peer : K) (s : Transfer K Master Hash) (a : TransferAction K Wire)
    (s' : Transfer K Master Hash) : Prop :=
  s.step S B a = some s' ∧ s.FetchesFrom S' B other peer a

/-- How many pieces are not done. -/
def lacking (m : Manifest Hash) (s : Transfer K Master Hash) : ℕ :=
  (List.range (Layout.new m).totalPieces).countP fun i =>
    decide (s.engine.sched.pieces[i]? ≠ some .done)

/-- As in `s₀` but for the connections: the disk and what is done are the same. -/
structure Resting (T : Target Master) (m : Manifest Hash) (s₀ s : Transfer K Master Hash) :
    Prop where
  sane : s.Sane T m
  fresh : s.Fresh
  disk_eq : s.disk = s₀.disk
  done_iff : ∀ i : ℕ, s.engine.sched.pieces[i]? = some .done ↔
    s₀.engine.sched.pieces[i]? = some .done

lemma Resting.lacking_eq (h : Resting T m s₀ s) : s.lacking m = s₀.lacking m :=
  List.countP_congr fun i _ => by simp only [ne_eq, h.done_iff]

variable (S B) in
/-- What the engine can do, the download can do. -/
lemma step_engine {a : Action K} {e : Engine K} (hblocked : s.blocked a = false)
    (h : s.engine.step a = some e) : ∃ s', s.step S B (.engine a) = some s' ∧ s'.engine = e ∧
      s'.disk = s.disk ∧ s'.announcing = s.announcing := by
  refine ⟨{ s with
    engine := e, orphans := s.orphaned a ++ s.orphans, told := s.hears a
    faults := s.refusals a ++ s.faults }, ?_, rfl, rfl, rfl⟩
  rw [Transfer.step, hblocked, if_neg Bool.false_ne_true, h]
  rfl

variable (S B) in
lemma Resting.engine (h : Resting T m s₀ s) (hvalid : m.validate toLowercase = .ok ())
    {a : Action K} {e : Engine K} (hblocked : s.blocked a = false)
    (hstep : s.engine.step a = some e) :
    ∃ s', s.step S B (.engine a) = some s' ∧ s'.engine = e ∧ s'.announcing = s.announcing ∧
      Resting T m s₀ s' := by
  obtain ⟨s', hs', rfl, hdisk, hannouncing⟩ := step_engine S B hblocked hstep
  refine ⟨s', hs', rfl, hannouncing, h.sane.step hvalid hs', h.fresh.step hs',
    hdisk.trans h.disk_eq, fun i => ?_⟩
  rw [← h.done_iff i, h.sane.engine.done_iff (Engine.step_effect hstep) i]
  exact or_iff_left ((not_blocked hblocked).1 i)

variable (S S' B other peer) in
/-- A connection ends in at most three steps. -/
lemma Resting.ends (h : Resting T m s₀ s) (hvalid : m.validate toLowercase = .ok ())
    {p : K} {session : Session} (hp : s.engine.connected.lookup p = some session) :
    ∃ actions s', Run (Fetches S S' B other peer) s actions s' ∧ actions.length ≤ 3 ∧
      Resting T m s₀ s' ∧
      s'.engine.connected.keys.length < s.engine.connected.keys.length := by
  -- from the last stage to the first
  have hforgotten : ∀ {s : Transfer K Master Hash} {n : ℕ}, Resting T m s₀ s →
      s.engine.connected.lookup p = some ⟨n, .forgotten⟩ →
      ∃ actions s', Run (Fetches S S' B other peer) s actions s' ∧ actions.length ≤ 1 ∧
        Resting T m s₀ s' ∧
        s'.engine.connected.keys.length < s.engine.connected.keys.length := by
    intro s n h hp
    obtain ⟨s', hs', hengine, -, hrest⟩ := h.engine S B hvalid (a := .disconnect p) rfl
      (by rw [Engine.step, Engine.sessionIn_eq_some.2 ⟨hp, rfl⟩]; rfl)
    refine ⟨_, s', .single ⟨hs', trivial⟩, le_rfl, hrest, ?_⟩
    have hmem : p ∈ s.engine.connected.keys :=
      AList.mem_keys.1 (AList.lookup_isSome.1 (by rw [hp]; rfl))
    rw [hengine, AList.keys_erase]
    exact (List.length_erase_of_mem hmem).trans_lt
      (Nat.sub_lt (List.length_pos_of_mem hmem) Nat.one_pos)
  have hleft : ∀ {s : Transfer K Master Hash} {n : ℕ}, Resting T m s₀ s →
      s.engine.connected.lookup p = some ⟨n, .left⟩ →
      ∃ actions s', Run (Fetches S S' B other peer) s actions s' ∧ actions.length ≤ 2 ∧
        Resting T m s₀ s' ∧
        s'.engine.connected.keys.length < s.engine.connected.keys.length := by
    intro s n h hp
    obtain ⟨sched, hremove, -⟩ := Scheduler.removePeer_consistent h.sane.engine.consistent p
    obtain ⟨s₁, hs₁, hengine, -, hrest⟩ := h.engine S B hvalid (a := .removePeer p) rfl
      (by rw [Engine.step, Engine.sessionIn_eq_some.2 ⟨hp, rfl⟩, Option.bind_eq_bind,
        Option.bind_some, hremove]; rfl)
    obtain ⟨actions, s', hrun, hlen, hrest', hless⟩ := hforgotten hrest (n := n)
      (by rw [hengine]; exact AList.lookup_insert _)
    refine ⟨_, s', .cons ⟨hs₁, trivial⟩ hrun, Nat.succ_le_succ hlen, hrest', ?_⟩
    rwa [hengine, Engine.setStage,
      length_keys_insert_of_mem (AList.lookup_isSome.1 (by rw [hp]; rfl))] at hless
  have hrunning : session.stage = .subscribing ∨ session.stage = .running →
      ∃ actions s', Run (Fetches S S' B other peer) s actions s' ∧ actions.length ≤ 3 ∧
        Resting T m s₀ s' ∧
        s'.engine.connected.keys.length < s.engine.connected.keys.length := by
    intro hstage
    obtain ⟨s₁, hs₁, hengine, -, hrest⟩ := h.engine S B hvalid (a := .leave p) rfl
      (by rw [Engine.step, hp, Option.bind_eq_bind, Option.bind_some, if_pos hstage]; rfl)
    obtain ⟨actions, s', hrun, hlen, hrest', hless⟩ := hleft hrest (n := session.number)
      (by rw [hengine]; exact AList.lookup_insert _)
    refine ⟨_, s', .cons ⟨hs₁, trivial⟩ hrun, Nat.succ_le_succ hlen, hrest', ?_⟩
    rwa [hengine, Engine.setStage,
      length_keys_insert_of_mem (AList.lookup_isSome.1 (by rw [hp]; rfl))] at hless
  obtain ⟨n, stage⟩ := session
  cases stage with
  | subscribing => exact hrunning (.inl rfl)
  | running => exact hrunning (.inr rfl)
  | left =>
    obtain ⟨actions, s', hrun, hlen, hrest⟩ := hleft h hp
    exact ⟨actions, s', hrun, by omega, hrest⟩
  | forgotten =>
    obtain ⟨actions, s', hrun, hlen, hrest⟩ := hforgotten h hp
    exact ⟨actions, s', hrun, by omega, hrest⟩

variable (S S' B other peer) in
/-- All connections end. -/
lemma Resting.drains (h : Resting T m s₀ s) (hvalid : m.validate toLowercase = .ok ()) :
    ∃ actions s', Run (Fetches S S' B other peer) s actions s' ∧
      actions.length ≤ 3 * s.engine.connected.keys.length ∧ Resting T m s₀ s' ∧
      s'.engine.connected.keys = [] :=
  Run.exists_of_decreases (Resting T m s₀) (fun s => s.engine.connected.keys = [])
    (fun s => s.engine.connected.keys.length) 3 (fun s h hnot => by
      obtain ⟨p, hp⟩ := List.exists_mem_of_ne_nil _ hnot
      obtain ⟨session, hsession⟩ := Option.isSome_iff_exists.1
        (AList.lookup_isSome.2 (AList.mem_keys.2 hp))
      exact h.ends S S' B other peer hvalid hsession) s h

/-! ## Fetching from one peer -/

/-- Worker `k` of connection `n` is about to ask a peer that has every piece, and nobody else is
asked for any. -/
structure Fetching (S : StoreKeys Master Key) (T : Target Master) (m : Manifest Hash) (peer : K)
    (k n : ℕ) (s : Transfer K Master Hash) : Prop where
  sane : s.Sane T m
  worker : s.engine.workers k = some ⟨peer, n, .idle⟩
  strikes : s.engine.strikes n < maxStrikes
  has_all : s.engine.sched.peers.lookup peer =
    some (List.replicate (Layout.new m).totalPieces true)
  free : ∀ (i : ℕ) rs, s.engine.sched.pieces[i]? ≠ some (.inFlight rs)
  quiet : s.announcing k = none
  writable : Network.Writable ⟨S, T⟩ m s.disk.fs

variable (S' B other peer) in
/-- With no connection left, the peer is connected to. -/
lemma Resting.joins (h : Resting T m s₀ s) (hvalid : m.validate toLowercase = .ok ())
    (hnone : s.engine.connected.keys = [])
    (hall : other.share.held = List.replicate (Layout.new m).totalPieces true)
    (hwrite : Network.Writable ⟨S, T⟩ m s₀.disk.fs) :
    ∃ actions s' k n, Run (Fetches S S' B other peer) s actions s' ∧ actions.length ≤ 3 ∧
      Resting T m s₀ s' ∧ Fetching S T m peer k n s' := by
  have habsent : ∀ q, s.engine.connected.lookup q = none := fun q =>
    AList.lookup_eq_none.2 fun hq => by
      have hmem := AList.mem_keys.1 hq
      rw [hnone] at hmem
      cases hmem
  have hpeers : ∀ q, q ∉ s.engine.sched.peers := fun q hq => by
    obtain ⟨session, hsession, -⟩ := h.sane.engine.registered q hq
    rw [habsent q] at hsession
    cases hsession
  obtain ⟨n, hn⟩ : ∃ n, s.engine.sessions = n := ⟨_, rfl⟩
  -- connect
  obtain ⟨s₁, hs₁, he₁, ha₁, h₁⟩ := h.engine S B hvalid (a := .connect peer) rfl (by
    rw [Engine.step, if_neg]
    rintro (hmem | hfull)
    · have := AList.lookup_isSome.2 hmem
      rw [habsent peer] at this
      cases this
    · rw [hnone, maxPeers] at hfull
      exact absurd hfull (Nat.not_succ_le_zero _))
  have hsub : s₁.engine.sessionIn peer .subscribing = some ⟨n, .subscribing⟩ :=
    Engine.sessionIn_eq_some.2 ⟨by rw [he₁, ← hn]; exact AList.lookup_insert _, rfl⟩
  -- its first bitfield
  have hbits : unpackBits (packBits other.share.held) s₁.engine.sched.pieces.length =
      List.replicate (Layout.new m).totalPieces true := by
    have hlen : s₁.engine.sched.pieces.length = other.share.held.length := by
      rw [h₁.sane.length_eq, hall, List.length_replicate]
    rw [hlen, unpackBits_packBits, hall]
  have hlength : (List.replicate (Layout.new m).totalPieces true).length =
      s₁.engine.sched.pieces.length := by
    rw [List.length_replicate, h₁.sane.length_eq]
  obtain ⟨sched, hadd, -, hpieces, hlookup, -⟩ := Scheduler.addPeer_consistent
    h₁.sane.engine.consistent peer hlength h₁.sane.engine.few_peers
  obtain ⟨s₂, hs₂, he₂, ha₂, h₂⟩ := h₁.engine S B hvalid
    (a := .subscribed peer (packBits other.share.held)) rfl (by
      rw [Engine.step, hsub, Option.bind_eq_bind, Option.bind_some, hbits, hadd]
      rfl)
  have hrunning : s₂.engine.sessionIn peer .running = some ⟨n, .running⟩ :=
    Engine.sessionIn_eq_some.2 ⟨by rw [he₂]; exact AList.lookup_insert _, rfl⟩
  -- its first worker
  have hworkers : s₂.engine.workers = s.engine.workers := by
    rw [he₂]
    show s₁.engine.workers = _
    rw [he₁]
  have hidle : s₂.engine.workersOf n < maxRequestsPerPeer := by
    have hzero : s₂.engine.workersOf n = 0 := by
      rw [Engine.workersOf, List.countP_eq_zero]
      intro k _
      rw [hworkers, Bool.not_eq_true, Option.any_eq_false]
      intro w hw
      have := h.fresh.engine.session_lt k w hw
      simpa using (hn ▸ this).ne
    rw [hzero]
    decide
  obtain ⟨s₃, hs₃, he₃, ha₃, h₃⟩ := h₂.engine S B hvalid (a := .spawn peer) rfl (by
    rw [Engine.step, hrunning, Option.bind_eq_bind, Option.bind_some, if_pos hidle]
    rfl)
  have hspawned : s₂.engine.spawned = s.engine.spawned := by
    rw [he₂]
    show s₁.engine.spawned = _
    rw [he₁]
  refine ⟨_, s₃, s.engine.spawned, n, .cons ⟨hs₁, rfl⟩ (.cons ⟨hs₂, rfl, rfl⟩ (.single ⟨hs₃, rfl⟩)),
    le_rfl, h₃, h₃.sane, ?_, ?_, ?_, fun i rs hi => ?_, ?_, ?_⟩
  · rw [he₃, ← hspawned]
    exact Function.update_self _ _ _
  · have hzero : s₃.engine.strikes n = 0 := by
      rw [he₃]
      show s₂.engine.strikes n = 0
      rw [he₂]
      show s₁.engine.strikes n = 0
      rw [he₁]
      exact h.fresh.engine.strikes n hn.le
    rw [hzero]
    decide
  · rw [he₃]
    show s₂.engine.sched.peers.lookup peer = _
    rw [he₂]
    show sched.peers.lookup peer = _
    rw [hlookup, AList.lookup_insert]
  · -- nobody was asked, and nobody is left
    have hsched : s₃.engine.sched = sched := by
      rw [he₃]
      show s₂.engine.sched = sched
      rw [he₂]
    rw [hsched, hpieces, List.getElem?_map] at hi
    obtain ⟨p, hp, hwithout⟩ := Option.map_eq_some_iff.1 hi
    obtain ⟨rs', rfl, -, -⟩ := Scheduler.without_eq_inFlight hwithout
    rw [show s₁.engine.sched = s.engine.sched by rw [he₁]] at hp
    have hok := h.sane.engine.consistent.requesters i rs' hp
    obtain ⟨q, hq⟩ := List.exists_mem_of_ne_nil _ hok.ne_nil
    exact hpeers q (hok.present q hq)
  · rw [ha₃, ha₂, ha₁]
    exact h.fresh.announcing _ le_rfl
  · rw [h₃.disk_eq]
    exact hwrite

/-- What one download encodes verifies in another. -/
lemma verifies_encoded (hd : IsDownload T m disk.share) (hd' : IsDownload T' m other.share)
    {i : ℕ} (hi : i < (Layout.new m).totalPieces) {fails : Bool} {encoded : Wire}
    (hencode : LocalShare.encodePiece S' B fails other.fs other.share i = .ok encoded) :
    disk.share.verifies B i encoded = true := by
  obtain ⟨f, j, entry, hf, hj, rfl⟩ := Layout.exists_piece hi
  obtain ⟨load, d, -, hdecode⟩ := encodePiece_valid hd' hf hj hencode
  rw [LocalShare.verifies, hd.layout_eq, Layout.locate_eq hf hj, hd.manifest_eq]
  simp only [hf]
  exact congrArg Prod.snd hdecode

/-- A piece that verifies is stored where it can be. -/
lemma Sane.stores (h : s.Sane T m) (hvalid : m.validate toLowercase = .ok ())
    (hwrite : Network.Writable ⟨S, T⟩ m s.disk.fs) {env : StoreEnv} (hopens : env.openFails = false)
    (hcalm : (env.write 0 0).fault = none) {k i : ℕ} {w : Worker K} {encoded : Wire}
    (hw : s.engine.workers k = some w) (hphase : w.phase = .storing i)
    (hverifies : s.disk.share.verifies B i encoded = true) :
    ∃ s', s.step S B (.store k env false encoded) = some s' ∧
      s'.engine = (s.engine.setStrikes w.session 0).setWorker k
        (some { w with phase := .stored i }) ∧
      s'.announcing = s.announcing ∧ Network.Writable ⟨S, T⟩ m s'.disk.fs := by
  obtain ⟨f, j, entry, rfl, hf, hj, hraces⟩ :=
    h.races S B hvalid (h.lt_total hw (by rw [hphase]; rfl)) env false encoded
  obtain ⟨handle, hopen⟩ := hwrite.opens f entry hf
  obtain ⟨b, hok⟩ := hraces.accepts hverifies fun _ =>
    ⟨⟨hopens, handle, hopen⟩, hwrite.offset entry (List.mem_of_getElem? hf) j hj, hcalm⟩
  set piece := Layout.firstOf m f + j with hpiece
  have hengine := Engine.stores_eq hw hphase
  refine ⟨{ s with
    engine := (s.engine.setStrikes w.session 0).setWorker k
      (some { w with phase := .stored piece })
    disk := (LocalShare.storeRacing S B env false s.disk piece encoded).1
    faults := if s.disk.share.verifies B piece encoded then s.faults
      else (w.peer, piece) :: s.faults }, ?_, rfl, rfl, ?_⟩
  · rw [Transfer.step, hw, Option.bind_eq_bind, Option.bind_some]
    simp only [hphase, hok, Stored.of, hengine]
    rfl
  · exact hwrite.storePiece (C := ⟨S, T⟩) hvalid env encoded h.download hf hj

variable (S B) in
lemma announces_eq {k i bytes : ℕ} (hk : s.announcing k = some i)
    (hbytes : s.disk.share.layout.pieceLen i = some bytes) :
    s.step S B (.announce k) = some { s with
      verified := s.verified ++ [(i, bytes)]
      announcing := Function.update s.announcing k none } := by
  rw [Transfer.step, hk, Option.bind_eq_bind, Option.bind_some, hbytes]
  rfl

variable (S B) in
/-- A piece that is completed for the first time is announced. -/
lemma Sane.completes (h : s.Sane T m) {k i : ℕ} {w : Worker K} {sched : Scheduler K}
    (hquiet : s.announcing k = none) (hw : s.engine.workers k = some w)
    (hphase : w.phase = .stored i) (hcomplete : s.engine.sched.complete i = some (sched, true)) :
    ∃ s₁ s₂, s.step S B (.complete k) = some s₁ ∧ s₁.step S B (.announce k) = some s₂ ∧
      s₂.engine = { s.engine.setWorker k (some { w with phase := .idle }) with sched } ∧
      s₂.disk = s.disk ∧ s₂.announcing k = none := by
  have hbytes : s.disk.share.layout.pieceLen i = some (m.pieceBytes i) := by
    rw [h.download.layout_eq]
    exact pieceLen_eq (h.lt_total hw (by rw [hphase]; rfl))
  refine ⟨{ s with
    engine := { s.engine.setWorker k (some { w with phase := .idle }) with sched }
    announcing := Function.update s.announcing k (some i) }, _, ?_,
    announces_eq S B (Function.update_self _ _ _) hbytes, rfl, rfl, Function.update_self _ _ _⟩
  rw [Transfer.step, hquiet, if_neg (by simp), hw]
  simp only [Option.bind_eq_bind, Option.bind_some, hphase, hcomplete,
    Engine.completes_eq hw hphase hcomplete]
  rfl

/-- The piece that worker `k` asked for has arrived; nothing else changed since `s`. -/
structure Arrived (T : Target Master) (m : Manifest Hash) (peer : K) (k n i : ℕ)
    (s s' : Transfer K Master Hash) : Prop where
  sane : s'.Sane T m
  worker : s'.engine.workers k = some ⟨peer, n, .storing i⟩
  disk_eq : s'.disk = s.disk
  announcing_eq : s'.announcing = s.announcing
  pieces_eq : s'.engine.sched.pieces = s.engine.sched.pieces.set i (.inFlight [peer])
  peers_eq : s'.engine.sched.peers = s.engine.sched.peers

variable (S' B other) in
/-- The peer is asked for a piece that is missing, and sends it. -/
lemma Fetching.asks {k n : ℕ} (h : Fetching S T m peer k n s)
    (hvalid : m.validate toLowercase = .ok ()) (hmore : ¬ s.engine.sched.isDone = true) :
    ∃ (i : ℕ) (actions : List (TransferAction K Wire)) (s' : Transfer K Master Hash),
      s.engine.sched.pieces[i]? = some .missing ∧
      Run (Fetches S S' B other peer) s actions s' ∧ actions.length ≤ 3 ∧
      Arrived T m peer k n i s s' := by
  have hs := h.sane.engine.consistent
  obtain ⟨i, hi⟩ : ∃ i : ℕ, s.engine.sched.pieces[i]? = some .missing := by
    rw [Scheduler.isDone_iff hs] at hmore
    push Not at hmore
    obtain ⟨p, hp, hnot⟩ := hmore
    obtain ⟨i, hi⟩ := List.mem_iff_getElem?.1 hp
    refine ⟨i, ?_⟩
    cases p with
    | missing => exact hi
    | inFlight rs => exact absurd hi (h.free i rs)
    | done => exact absurd rfl hnot
  have hlt := (List.getElem?_eq_some_iff.1 hi).1
  rw [h.sane.length_eq] at hlt
  have hpolicy := Scheduler.policy_ne_none h.has_all (i := i)
    ⟨by rw [List.getElem?_replicate, if_pos hlt], hi⟩
  obtain ⟨sched, r, hpick, -, hpeers, -, hcases⟩ := Scheduler.pick_cases hs peer
  obtain ⟨i, rfl, hi, hpieces⟩ : ∃ i, r = some i ∧ s.engine.sched.pieces[i]? = some .missing ∧
      sched.pieces = s.engine.sched.pieces.set i (.inFlight [peer]) := by
    rcases hcases with ⟨rfl, -⟩ | ⟨i, hr, -, hi, hpieces⟩ | ⟨i, rs, -, -, -, hi, -⟩
    · rw [Scheduler.pick_eq hs] at hpick
      exact absurd (Prod.mk.inj (Option.some.inj hpick)).2 hpolicy
    · exact ⟨i, hr, hi, hpieces⟩
    · exact absurd hi (h.free i rs)
  obtain ⟨s₁, hs₁, he₁, hd₁, ha₁⟩ := step_engine S B (s := s) (a := .check k)
    (by rw [blocked, h.quiet]; rfl) (Engine.check_eq h.worker rfl hmore h.strikes)
  have hw₁ : s₁.engine.workers k = some ⟨peer, n, .ready⟩ := by
    rw [he₁]
    exact Function.update_self _ _ _
  rw [show s.engine.sched = s₁.engine.sched by rw [he₁]; rfl] at hpick
  obtain ⟨s₂, hs₂, he₂, hd₂, ha₂⟩ := step_engine S B (s := s₁) (a := .pick k) rfl
    (Engine.picks_eq hw₁ rfl hpick)
  have hw₂ : s₂.engine.workers k = some ⟨peer, n, .requesting i⟩ := by
    rw [he₂]
    exact Function.update_self _ _ _
  obtain ⟨s₃, hs₃, he₃, hd₃, ha₃⟩ := step_engine S B (s := s₂) (a := .answer k .piece) rfl
    (Engine.arrives_eq hw₂ rfl)
  have hsched : s₃.engine.sched = sched := by
    rw [he₃]
    show s₂.engine.sched = sched
    rw [he₂]
  refine ⟨i, _, s₃, hi, .cons ⟨hs₁, trivial⟩ (.cons ⟨hs₂, trivial⟩ (.single ⟨hs₃, rfl⟩)), le_rfl,
    ((h.sane.step hvalid hs₁).step hvalid hs₂).step hvalid hs₃, ?_, hd₃.trans (hd₂.trans hd₁),
    ha₃.trans (ha₂.trans ha₁), hsched ▸ hpieces, hsched ▸ hpeers⟩
  rw [he₃]
  exact Function.update_self _ _ _

/-- Where one more piece is done, one less is lacking. -/
lemma lacking_lt {i : ℕ} (hi : i < (Layout.new m).totalPieces)
    (hmissing : s.engine.sched.pieces[i]? = some .missing)
    (hpieces : s'.engine.sched.pieces = s.engine.sched.pieces.set i .done) :
    s'.lacking m < s.lacking m := by
  have hsame : s'.lacking m = (List.range (Layout.new m).totalPieces).countP fun q =>
      id (Function.update (fun q => decide (s.engine.sched.pieces[q]? ≠ some .done)) i false q) :=
    List.countP_congr fun q _ => by
      rw [hpieces, List.getElem?_set]
      by_cases hq : i = q
      · subst hq
        simp [(List.getElem?_eq_some_iff.1 hmissing).1]
      · simp [hq, Function.update_of_ne (Ne.symm hq)]
  have hcount : s'.lacking m + (decide (s.engine.sched.pieces[i]? ≠ some .done)).toNat =
      s.lacking m + false.toNat :=
    (congrArg (· + _) hsame).trans (countP_range_update id _ hi false)
  have hone : (decide (s.engine.sched.pieces[i]? ≠ some .done)).toNat = 1 := by
    rw [hmissing]
    simp
  rw [hone, Bool.toNat_false] at hcount
  omega

/-- One more piece is fetched. -/
lemma Fetching.fetches {k n : ℕ} (h : Fetching S T m peer k n s)
    (hvalid : m.validate toLowercase = .ok ()) (hd' : IsDownload T' m other.share)
    (hserve : CanServe S' B T' m other) (hall : ∀ i < (Layout.new m).totalPieces,
      other.share.has i = true) {env : StoreEnv} (hopens : env.openFails = false)
    (hcalm : (env.write 0 0).fault = none) (hmore : ¬ s.engine.sched.isDone = true) :
    ∃ actions s', Run (Fetches S S' B other peer) s actions s' ∧ actions.length ≤ 6 ∧
      Fetching S T m peer k n s' ∧ s'.lacking m < s.lacking m := by
  obtain ⟨i, asks, s₁, hmissing, hrun, hlen, h₁⟩ := h.asks S' B other hvalid hmore
  have hlt := (List.getElem?_eq_some_iff.1 hmissing).1
  have hi : i < (Layout.new m).totalPieces := h.sane.length_eq ▸ hlt
  obtain ⟨f, j, entry, hf, hj, hij⟩ := Layout.exists_piece hi
  obtain ⟨encoded, hencode⟩ := encodePiece_succeeds hd' hserve hf hj (hij ▸ hall i hi)
  rw [← hij] at hencode
  obtain ⟨s₂, hs₂, he₂, ha₂, hwrite⟩ := h₁.sane.stores hvalid (h₁.disk_eq ▸ h.writable) hopens
    hcalm h₁.worker rfl (verifies_encoded h₁.sane.download hd' hi hencode)
  have hw₂ : s₂.engine.workers k = some ⟨peer, n, .stored i⟩ := by
    rw [he₂]
    exact Function.update_self _ _ _
  have hsched₂ : s₂.engine.sched = s₁.engine.sched := by
    rw [he₂]
    rfl
  have hsane₂ := h₁.sane.step hvalid hs₂
  have hasked : s₁.engine.sched.pieces[i]? = some (.inFlight [peer]) := by
    rw [h₁.pieces_eq, List.getElem?_set_self hlt]
  obtain ⟨sched, hcomplete, -, hpieces, hpeers⟩ := Scheduler.complete_cases
    h₁.sane.engine.consistent (List.getElem?_eq_some_iff.1 hasked).1
  rw [hasked, ← hsched₂] at hcomplete
  obtain ⟨s₃, s₄, hs₃, hs₄, he₄, hd₄, ha₄⟩ := hsane₂.completes S B
    (by rw [ha₂, h₁.announcing_eq, h.quiet]) hw₂ rfl hcomplete
  have hsched₄ : s₄.engine.sched = sched := by rw [he₄]
  have hdone : s₄.engine.sched.pieces = s.engine.sched.pieces.set i .done := by
    rw [hsched₄, hpieces, h₁.pieces_eq, List.set_set]
  have hstrikes : s₄.engine.strikes n = 0 := by
    rw [he₄]
    show s₂.engine.strikes n = 0
    rw [he₂]
    exact Function.update_self _ _ _
  refine ⟨_, s₄, hrun.append (.cons ⟨hs₂, rfl, _, i, h₁.worker, rfl, rfl, hencode⟩
    (.cons ⟨hs₃, trivial⟩ (.single ⟨hs₄, trivial⟩))), ?_,
    ⟨(hsane₂.step hvalid hs₃).step hvalid hs₄, ?_, ?_, ?_, fun q rs hq => ?_, ha₄, ?_⟩,
    lacking_lt hi hmissing hdone⟩
  · rw [List.length_append]
    exact Nat.add_le_add_right hlen 3
  · rw [he₄]
    exact Function.update_self _ _ _
  · rw [hstrikes]
    decide
  · rw [hsched₄, hpeers, h₁.peers_eq, h.has_all]
  · rw [hdone, List.getElem?_set] at hq
    split_ifs at hq
    · cases hq
    · exact h.free q rs hq
  · rw [hd₄]
    exact hwrite

/-- No state of a download is a dead end.  Whatever peers sent and whichever tasks are where: if
the files can be written, and one peer that has every piece can be reached, then the connections
may end and the peer be asked for each piece that is not done, so that after three actions a
connection, three for the peer and six a piece everything is there. -/
theorem download_completes [DecidableEq Hash] (K : Type) [DecidableEq K] (S : StoreKeys Master Key)
    (B : Bao Hash Wire) (hvalid : m.validate toLowercase = .ok ()) (hreach : Reached S B T m disk)
    (hsource : ReachedOnce S' B T' m other)
    (hall : ∀ i < (Layout.new m).totalPieces, other.share.has i = true)
    {env : StoreEnv} (hopens : env.openFails = false) (hcalm : (env.write 0 0).fault = none) :
    ∃ s₀ : Transfer K Master Hash, start K disk = some s₀ ∧
      ∀ actions s, Run (fun s a s' => s.step S B a = some s') s₀ actions s →
        Network.Writable ⟨S, T⟩ m s.disk.fs → ∀ peer, ∃ actions' s',
          Run (Fetches S S' B other peer) s actions' s' ∧
          actions'.length ≤ 3 * s.engine.connected.keys.length + 3 + 6 * s.lacking m ∧
          s'.engine.sched.isDone = true ∧
          ∀ i < (Layout.new m).totalPieces, s'.disk.share.has i = true := by
  obtain ⟨s₀, hstart, hsane₀, -⟩ := start_eq (K := K) (hreach.isDownload hvalid)
  obtain ⟨hd', hserve⟩ := hsource.canServe hvalid
  refine ⟨s₀, hstart, fun actions s hrun hwrite peer => ?_⟩
  obtain ⟨hsane, hfresh⟩ := hrun.invariant (P := fun s => s.Sane T m ∧ s.Fresh)
    (fun _ _ _ h hstep => ⟨h.1.step hvalid hstep, h.2.step hstep⟩) ⟨hsane₀, fresh_start hstart⟩
  have hheld : other.share.held = List.replicate (Layout.new m).totalPieces true := by
    refine List.eq_replicate_iff.2 ⟨hd'.held_length, fun b hb => ?_⟩
    obtain ⟨i, hi⟩ := List.mem_iff_getElem?.1 hb
    have hhas := hall i (hd'.held_length ▸ (List.getElem?_eq_some_iff.1 hi).1)
    rw [LocalShare.has, hi] at hhas
    exact hhas
  have hrest : Resting T m s s := ⟨hsane, hfresh, rfl, fun _ => Iff.rfl⟩
  obtain ⟨drain, s₁, hrun₁, hlen₁, hrest₁, hnone⟩ := hrest.drains S S' B other peer hvalid
  obtain ⟨join, s₂, k, n, hrun₂, hlen₂, hrest₂, hfetching⟩ :=
    hrest₁.joins S' B other peer hvalid hnone hheld hwrite
  obtain ⟨fetch, s₃, hrun₃, hlen₃, hfetched, hdone⟩ := Run.exists_of_decreases
    (Fetching S T m peer k n) (fun s => s.engine.sched.isDone = true) (lacking m) 6
    (fun s h hmore => h.fetches hvalid hd' hserve hall hopens hcalm hmore) s₂ hfetching
  refine ⟨drain ++ (join ++ fetch), s₃, hrun₁.append (hrun₂.append hrun₃), ?_, hdone,
    fun i hi => hfetched.sane.done i ?_⟩
  · rw [hrest₂.lacking_eq] at hlen₃
    simp only [List.length_append]
    omega
  · rw [← hfetched.sane.length_eq] at hi
    rw [List.getElem?_eq_getElem hi,
      (Scheduler.isDone_iff hfetched.sane.engine.consistent).1 hdone _ (List.getElem_mem hi)]

end Transfer

/-! ## A share of one file -/

namespace OneFile

lemma writable_prepared : Network.Writable ⟨keys, target⟩ manifest prepared.fs := by
  refine ⟨fun f entry hf => ?_, fun entry hentry i hi => ?_⟩
  · rcases f with _ | f
    · obtain rfl := Option.some.inj hf
      exact ⟨.plain, rfl⟩
    · cases hf
  · obtain rfl := List.mem_singleton.1 hentry
    obtain rfl : i = 0 := Nat.lt_one_iff.1 hi
    decide

/-- A peer that says it has the piece was asked for it. -/
def asking : List (TransferAction ℕ Digest.Encoding) := Transfer.fetching.take 5

end OneFile

open OneFile Transfer in
/-- Peer 0 was asked for the piece and does not answer, and peer 7 has it. -/
theorem download_completes_one_file : ∃ s₀ s actions s', start ℕ prepared = some s₀ ∧
    Run (fun s a s' => s.step keys referenceBao a = some s') s₀ asking s ∧
    s.engine.sched.pieces = [.inFlight [0]] ∧
    Run (Fetches keys keys referenceBao arrived 7) s actions s' ∧
    s'.disk.share.has 0 = true := by
  have hprepared : Reached keys referenceBao target manifest prepared :=
    ⟨_, _, _, _, _, forDownload_prepared, .nil _⟩
  have hsource : ReachedOnce keys referenceBao target manifest arrived :=
    ⟨_, _, _, _, _, _, forDownload_prepared, Or.inl rfl, run_arrived, fun op hop => by
      rw [List.mem_singleton.1 hop]
      rfl⟩
  have hall : ∀ i < (Layout.new manifest).totalPieces, arrived.share.has i = true := by decide
  obtain ⟨s₀, hstart, hcompletes⟩ := download_completes ℕ keys referenceBao validate_manifest
    hprepared hsource hall (rfl : storeEnv.openFails = false) rfl
  have hexec : ((start ℕ prepared).bind fun s =>
      (Run.exec (fun s a => s.step keys referenceBao a) s asking).map fun s =>
        (s.engine.sched.pieces, s.disk)) = some ([.inFlight [0]], prepared) := rfl
  rw [hstart, Option.bind_some] at hexec
  obtain ⟨s, hs, heq⟩ := Option.map_eq_some_iff.1 hexec
  obtain ⟨hpieces, hdisk⟩ := Prod.mk.inj heq
  have hrun := Run.of_exec hs
  obtain ⟨actions, s', hrun', -, -, hhas⟩ :=
    hcompletes asking s hrun (hdisk ▸ writable_prepared) 7
  exact ⟨s₀, s, actions, s', hstart, hrun, hpieces, hrun', hhas 0 (by decide)⟩

end Chorrent
