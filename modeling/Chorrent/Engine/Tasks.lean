/-
# What a connection can cost

A connection has at most 48 workers, and its workers stop after three failures in a row.  Those
that are under way may still fail after that, so a connection that never delivers a piece costs
at most 50 failed requests, and each piece that it delivers buys it 50 more.
-/
import Chorrent.Lib.Potential
import Chorrent.Engine.Calls

namespace Chorrent

open Lib

variable {K : Type} [DecidableEq K]

/-- The worker may still fail before it looks at the strikes again. -/
def Phase.underway : Phase → Bool
  | .ready | .requesting _ | .storing _ => true
  | .idle | .stored _ | .returning _ _ => false

/-- What came of a request. -/
inductive Verdict where
  | failure
  | success
deriving DecidableEq

namespace Engine

variable {s s' : Engine K} {a : Action K} {n : ℕ}

/-- What an action shows of connection `n`: a request failed, was refused for good or brought bad
data, or a piece was stored. -/
def verdicts (n : ℕ) (s : Engine K) : Action K → List Verdict
  | .answer k .failed | .answer k .notFound | .store k .bad =>
      if (s.workers k).any (·.session = n) then [.failure] else []
  | .store k .ok => if (s.workers k).any (·.session = n) then [.success] else []
  | _ => []

/-- What an action does to the workers and the strikes: at most one worker changes. -/
inductive Tasks (s : Engine K) (a : Action K) (s' : Engine K) : Prop
  | same (hworkers : s'.workers = s.workers) (hspawned : s'.spawned = s.spawned)
      (hstrikes : s'.strikes = s.strikes) (hverdict : ∀ n, s.verdicts n a = [])
  | spawned {peer : K} {session : ℕ} (ha : a = .spawn peer)
      (hfew : s.workersOf session < maxRequestsPerPeer)
      (hworkers : s'.workers =
        Function.update s.workers s.spawned (some ⟨peer, session, .idle⟩))
      (hspawned : s'.spawned = s.spawned + 1) (hstrikes : s'.strikes = s.strikes)
  | stopped {k : ℕ} {w : Worker K} (hw : s.workers k = some w)
      (hworkers : s'.workers = Function.update s.workers k none)
      (hspawned : s'.spawned = s.spawned) (hstrikes : s'.strikes = s.strikes)
      (hverdict : ∀ n, s.verdicts n a = [])
  | moved {k : ℕ} {w : Worker K} {phase : Phase} (hw : s.workers k = some w)
      (hworkers : s'.workers = Function.update s.workers k (some { w with phase }))
      (hspawned : s'.spawned = s.spawned) (hstrikes : s'.strikes = s.strikes)
      (hverdict : ∀ n, s.verdicts n a = [])
      (hphase : phase.underway = true →
        w.phase.underway = true ∨ s.strikes w.session < maxStrikes)
  | failed {k : ℕ} {w : Worker K} {phase : Phase} {strikes : ℕ} (hw : s.workers k = some w)
      (hworkers : s'.workers = Function.update s.workers k (some { w with phase }))
      (hspawned : s'.spawned = s.spawned)
      (hstrikes : s'.strikes = Function.update s.strikes w.session strikes)
      (hmore : min maxStrikes (s.strikes w.session + 1) ≤ strikes)
      (hverdict : ∀ n, s.verdicts n a = if w.session = n then [.failure] else [])
      (hphase : w.phase.underway = true ∧ phase.underway = false)
  | succeeded {k : ℕ} {w : Worker K} {phase : Phase} (hw : s.workers k = some w)
      (hworkers : s'.workers = Function.update s.workers k (some { w with phase }))
      (hspawned : s'.spawned = s.spawned)
      (hstrikes : s'.strikes = Function.update s.strikes w.session 0)
      (hverdict : ∀ n, s.verdicts n a = if w.session = n then [.success] else [])

lemma step_tasks (h : s.step a = some s') : Tasks s a s' := by
  have hjudge : ∀ {k : ℕ} {w : Worker K} (v : Verdict), s.workers k = some w → ∀ n,
      (if (s.workers k).any (·.session = n) then [v] else []) =
        if w.session = n then [v] else [] := fun v hw n => by
    simp [hw]
  cases a with
  | connect peer =>
    rw [Engine.step] at h
    split_ifs at h
    cases h
    exact .same rfl rfl rfl fun _ => rfl
  | leave peer =>
    obtain ⟨session, -, h⟩ := Option.bind_eq_some_iff.1 h
    split_ifs at h
    cases h
    exact .same rfl rfl rfl fun _ => rfl
  | disconnect peer =>
    obtain ⟨session, -, h⟩ := Option.bind_eq_some_iff.1 h
    cases h
    exact .same rfl rfl rfl fun _ => rfl
  | subscribed peer bytes | bitfield peer bytes | haveFrame peer piece | removePeer peer =>
    obtain ⟨session, -, h⟩ := Option.bind_eq_some_iff.1 h
    obtain ⟨sched, -, h⟩ := Option.bind_eq_some_iff.1 h
    cases h
    exact .same rfl rfl rfl fun _ => rfl
  | spawn peer =>
    obtain ⟨session, -, h⟩ := Option.bind_eq_some_iff.1 h
    dsimp only at h
    split_ifs at h with hfew
    cases h
    exact .spawned rfl hfew rfl rfl rfl
  | cancel k =>
    obtain ⟨w, hw, h⟩ := Option.bind_eq_some_iff.1 h
    split_ifs at h
    cases h
    exact .stopped hw rfl rfl rfl fun _ => rfl
  | check k =>
    obtain ⟨w, hw, h⟩ := Option.bind_eq_some_iff.1 h
    split_ifs at h with hphase hstop
    · cases h
      exact .stopped hw rfl rfl rfl fun _ => rfl
    · cases h
      rw [not_or, not_le] at hstop
      exact .moved hw rfl rfl rfl (fun _ => rfl) fun _ => .inr hstop.2
  | pick k =>
    obtain ⟨w, hw, h⟩ := Option.bind_eq_some_iff.1 h
    dsimp only at h
    split_ifs at h with hphase
    rw [not_not] at hphase
    obtain ⟨⟨sched, picked⟩, -, h⟩ := Option.bind_eq_some_iff.1 h
    cases picked <;> cases h <;>
      exact .moved hw rfl rfl rfl (fun _ => rfl) fun _ => .inl (by rw [hphase]; rfl)
  | answer k answer =>
    obtain ⟨w, hw, h⟩ := Option.bind_eq_some_iff.1 h
    cases hphase : w.phase <;> simp only [hphase, reduceCtorEq] at h
    cases answer with
    | piece | dontHave | busy =>
      cases h
      exact .moved hw rfl rfl rfl (fun _ => rfl) fun _ => .inl (by rw [hphase]; rfl)
    | notFound =>
      cases h
      exact .failed hw rfl rfl rfl (min_le_left _ _) (hjudge _ hw) ⟨by rw [hphase]; rfl, rfl⟩
    | failed =>
      cases h
      exact .failed hw rfl rfl rfl (min_le_right _ _) (hjudge _ hw) ⟨by rw [hphase]; rfl, rfl⟩
  | store k result =>
    obtain ⟨w, hw, h⟩ := Option.bind_eq_some_iff.1 h
    cases hphase : w.phase <;> simp only [hphase, reduceCtorEq] at h
    cases result with
    | ok =>
      cases h
      exact .succeeded hw rfl rfl rfl (hjudge _ hw)
    | bad =>
      cases h
      exact .failed hw rfl rfl rfl (min_le_right _ _) (hjudge _ hw) ⟨by rw [hphase]; rfl, rfl⟩
    | aborted =>
      cases h
      exact .moved hw rfl rfl rfl (fun _ => rfl) fun hno => by cases hno
  | complete k | giveBack k =>
    obtain ⟨w, hw, h⟩ := Option.bind_eq_some_iff.1 h
    cases hphase : w.phase <;> simp only [hphase, reduceCtorEq] at h
    obtain ⟨sched, -, h⟩ := Option.bind_eq_some_iff.1 h
    cases h
    exact .moved hw rfl rfl rfl (fun _ => rfl) fun hno => by cases hno

/-- A worker asks the same peer for as long as it lives. -/
lemma Tasks.worker (h : Tasks s a s') {k : ℕ} {w' : Worker K} (hw' : s'.workers k = some w') :
    (∃ w, s.workers k = some w ∧ w.peer = w'.peer) ∨ ∃ peer, a = .spawn peer ∧ k = s.spawned := by
  cases h with
  | same hworkers => exact .inl ⟨w', hworkers ▸ hw', rfl⟩
  | @spawned peer _ ha _ hworkers =>
    by_cases hk : k = s.spawned
    · exact .inr ⟨peer, ha, hk⟩
    · rw [hworkers, Function.update_of_ne hk] at hw'
      exact .inl ⟨w', hw', rfl⟩
  | @stopped j w hw hworkers =>
    by_cases hk : k = j
    · rw [hworkers, hk, Function.update_self] at hw'
      cases hw'
    · rw [hworkers, Function.update_of_ne hk] at hw'
      exact .inl ⟨w', hw', rfl⟩
  | @moved j w _ hw hworkers | @failed j w _ _ hw hworkers | @succeeded j w _ hw hworkers =>
    by_cases hk : k = j
    · rw [hworkers, hk, Function.update_self] at hw'
      cases hw'
      exact .inl ⟨w, hk ▸ hw, rfl⟩
    · rw [hworkers, Function.update_of_ne hk] at hw'
      exact .inl ⟨w', hw', rfl⟩

/-! ## Counting workers -/

/-- How many workers satisfy `p`. -/
def countWorkers (s : Engine K) (p : Worker K → Bool) : ℕ :=
  (List.range s.spawned).countP fun k => (s.workers k).any p

/-- The workers of connection `n` that may still fail. -/
def underwayOf (s : Engine K) (n : ℕ) : ℕ :=
  s.countWorkers fun w => w.session = n ∧ w.phase.underway

lemma workersOf_eq (s : Engine K) (n : ℕ) :
    s.workersOf n = s.countWorkers fun w => w.session = n := rfl

/-- Workers are numbered in the order in which they were spawned. -/
def Numbered (s : Engine K) : Prop := ∀ k w, s.workers k = some w → k < s.spawned

lemma countWorkers_mono (s : Engine K) {p q : Worker K → Bool} (h : ∀ w, p w = true → q w = true) :
    s.countWorkers p ≤ s.countWorkers q :=
  List.countP_mono_left fun k _ hk => by
    obtain ⟨w, hw, hp⟩ := (Option.any_eq_true _ _).1 hk
    exact (Option.any_eq_true _ _).2 ⟨w, hw, h w hp⟩

lemma underwayOf_le (s : Engine K) (n : ℕ) : s.underwayOf n ≤ s.workersOf n :=
  s.countWorkers_mono fun w hw => by simpa using (of_decide_eq_true hw).1

/-- One worker changes, or stops. -/
lemma countWorkers_update (h : s.Numbered) {k : ℕ} {w : Worker K} {v : Option (Worker K)}
    (hw : s.workers k = some w) (hworkers : s'.workers = Function.update s.workers k v)
    (hspawned : s'.spawned = s.spawned) (p : Worker K → Bool) :
    s'.countWorkers p + (p w).toNat = s.countWorkers p + (v.any p).toNat := by
  have := countP_range_update (fun v => v.any p) s.workers (h k w hw) v
  rw [hw, Option.any_some] at this
  rw [countWorkers, countWorkers, hworkers, hspawned]
  exact this

lemma countWorkers_spawn {w : Worker K}
    (hworkers : s'.workers = Function.update s.workers s.spawned (some w))
    (hspawned : s'.spawned = s.spawned + 1) (p : Worker K → Bool) :
    s'.countWorkers p = s.countWorkers p + (p w).toNat := by
  have := countP_range_update_of_le (fun v => v.any p) s.workers (le_refl s.spawned) (some w)
  rw [countWorkers, countWorkers, hworkers, hspawned, List.range_succ, List.countP_append, this,
    List.countP_singleton, Function.update_self, Option.any_some]
  cases p w <;> rfl

/-- A connection has at most 48 workers. -/
structure Few (s : Engine K) : Prop where
  numbered : s.Numbered
  few : ∀ n, s.workersOf n ≤ maxRequestsPerPeer

/-- One worker changes within its connection. -/
lemma Few.update (h : s.Few) {k : ℕ} {w : Worker K} {v : Option (Worker K)}
    (hw : s.workers k = some w) (hv : ∀ w', v = some w' → w'.session = w.session)
    (hworkers : s'.workers = Function.update s.workers k v) (hspawned : s'.spawned = s.spawned) :
    s'.Few := by
  refine ⟨fun j w' hw' => ?_, fun n => ?_⟩
  · rw [hspawned]
    by_cases hj : j = k
    · exact hj ▸ h.numbered k w hw
    · rw [hworkers, Function.update_of_ne hj] at hw'
      exact h.numbered j w' hw'
  · have hcount := countWorkers_update h.numbered hw hworkers hspawned fun w => w.session = n
    have hle : (v.any fun w => w.session = n).toNat ≤ (decide (w.session = n)).toNat := by
      cases v with
      | none => exact Nat.zero_le _
      | some w' => rw [Option.any_some, hv w' rfl]
    have := h.few n
    rw [workersOf_eq] at this ⊢
    omega

lemma Few.step (h : s.Few) (ht : Tasks s a s') : s'.Few := by
  cases ht with
  | same hworkers hspawned =>
    refine ⟨fun k w hw => hspawned ▸ h.numbered k w (hworkers ▸ hw), fun n => ?_⟩
    rw [workersOf, hworkers, hspawned]
    exact h.few n
  | @spawned peer session _ hfew hworkers hspawned =>
    refine ⟨fun k w hw => ?_, fun n => ?_⟩
    · rw [hspawned]
      by_cases hk : k = s.spawned
      · omega
      · rw [hworkers, Function.update_of_ne hk] at hw
        exact Nat.lt_succ_of_lt (h.numbered k w hw)
    · rw [workersOf_eq, countWorkers_spawn hworkers hspawned, ← workersOf_eq]
      by_cases hn : session = n
      · subst hn
        simpa using hfew
      · simpa [hn] using h.few n
  | stopped hw hworkers hspawned => exact h.update hw (fun w' heq => by cases heq) hworkers hspawned
  | moved hw hworkers hspawned | failed hw hworkers hspawned | succeeded hw hworkers hspawned =>
    exact h.update hw (fun w' heq => by cases heq; rfl) hworkers hspawned

/-! ## What failures are paid with -/

/-- How many more failures connection `n` can bring if it delivers nothing. -/
def patience (n : ℕ) (s : Engine K) : ℕ :=
  if s.strikes n < maxStrikes then maxStrikes - 1 - s.strikes n + maxRequestsPerPeer
  else s.underwayOf n

lemma patience_le (h : s.Few) (n : ℕ) :
    s.patience n ≤ maxStrikes - 1 + maxRequestsPerPeer := by
  have := (s.underwayOf_le n).trans (h.few n)
  rw [patience]
  split_ifs <;> omega

/-- Patience lasts while the strikes stay and no more workers are under way. -/
lemma patience_mono (hstrikes : s'.strikes n = s.strikes n)
    (hunderway : maxStrikes ≤ s.strikes n → s'.underwayOf n ≤ s.underwayOf n) :
    s'.patience n ≤ s.patience n := by
  rw [patience, patience, hstrikes]
  split_ifs with hlt
  · exact le_rfl
  · exact hunderway (not_lt.1 hlt)

/-- One worker changes: what it adds to those under way, and what it takes. -/
lemma underwayOf_update (h : s.Few) {k : ℕ} {w : Worker K} {phase : Phase}
    (hw : s.workers k = some w)
    (hworkers : s'.workers = Function.update s.workers k (some { w with phase }))
    (hspawned : s'.spawned = s.spawned) (n : ℕ) :
    s'.underwayOf n + (decide (w.session = n ∧ w.phase.underway = true)).toNat =
      s.underwayOf n + (decide (w.session = n ∧ phase.underway = true)).toNat :=
  countWorkers_update h.numbered hw hworkers hspawned fun w => w.session = n ∧ w.phase.underway

def Verdict.cost : Verdict → ℕ
  | .failure => 1
  | .success => 0

def Verdict.credit : Verdict → ℕ
  | .failure => 0
  | .success => maxStrikes - 1 + maxRequestsPerPeer

lemma patience_step (h : s.Few) (ht : Tasks s a s') (n : ℕ) :
    s'.patience n + ((s.verdicts n a).map Verdict.cost).sum ≤
      s.patience n + ((s.verdicts n a).map Verdict.credit).sum := by
  cases ht with
  | same hworkers hspawned hstrikes hverdict =>
    rw [hverdict]
    refine patience_mono (congrFun hstrikes n) fun _ => ?_
    rw [underwayOf, countWorkers, hworkers, hspawned]
    exact le_rfl
  | @spawned peer session ha _ hworkers hspawned hstrikes =>
    subst ha
    refine patience_mono (congrFun hstrikes n) fun _ => ?_
    rw [underwayOf, countWorkers_spawn hworkers hspawned]
    simp [Phase.underway, underwayOf]
  | @stopped k w hw hworkers hspawned hstrikes hverdict =>
    rw [hverdict]
    refine patience_mono (congrFun hstrikes n) fun _ => ?_
    have := countWorkers_update h.numbered hw hworkers hspawned
      fun w => w.session = n ∧ w.phase.underway
    rw [underwayOf, underwayOf]
    exact le_of_add_le_left (le_of_eq this)
  | @moved k w phase hw hworkers hspawned hstrikes hverdict hphase =>
    rw [hverdict]
    refine patience_mono (congrFun hstrikes n) fun hstruck => ?_
    have hcount := underwayOf_update h hw hworkers hspawned n
    -- a worker that is stopped by the strikes does not get under way
    have hle : (decide (w.session = n ∧ phase.underway = true)).toNat ≤
        (decide (w.session = n ∧ w.phase.underway = true)).toNat := by
      by_cases hnew : w.session = n ∧ phase.underway = true
      · obtain ⟨rfl, hnew⟩ := hnew
        have hold := (hphase hnew).resolve_right (not_lt.2 hstruck)
        simp [hnew, hold]
      · simp [hnew]
    omega
  | @failed k w phase strikes hw hworkers hspawned hstrikes hmore hverdict hphase =>
    have hcount := underwayOf_update h hw hworkers hspawned n
    have hbound := (s.underwayOf_le n).trans (h.few n)
    rw [hverdict]
    by_cases hn : w.session = n
    · subst hn
      have hone : s'.underwayOf w.session + 1 = s.underwayOf w.session := by
        simpa [hphase.1, hphase.2] using hcount
      have hnew : s'.strikes w.session = strikes := by rw [hstrikes, Function.update_self]
      rw [if_pos rfl, patience, patience, hnew]
      simp only [List.map_singleton, List.sum_singleton, Verdict.cost, Verdict.credit]
      -- the third failure leaves those that are under way
      split_ifs <;> omega
    · rw [if_neg hn]
      refine patience_mono (by rw [hstrikes, Function.update_of_ne (Ne.symm hn)]) fun _ => ?_
      simpa [hn] using le_of_eq hcount
  | @succeeded k w phase hw hworkers hspawned hstrikes hverdict =>
    rw [hverdict]
    by_cases hn : w.session = n
    · rw [if_pos hn]
      have hs' := h.update hw (fun w' heq => by cases heq; rfl) hworkers hspawned
      exact (patience_le hs' n).trans (Nat.le_add_left _ _)
    · rw [if_neg hn]
      refine patience_mono (by rw [hstrikes, Function.update_of_ne (Ne.symm hn)]) fun _ => ?_
      have hcount := underwayOf_update h hw hworkers hspawned n
      simpa [hn] using le_of_eq hcount

lemma sum_cost (vs : List Verdict) : (vs.map Verdict.cost).sum = vs.count .failure := by
  induction vs with
  | nil => rfl
  | cons v vs ih =>
    rw [List.map_cons, List.sum_cons, ih, List.count_cons, Nat.add_comm]
    cases v <;> rfl

lemma sum_credit (vs : List Verdict) :
    (vs.map Verdict.credit).sum = (maxStrikes - 1 + maxRequestsPerPeer) * vs.count .success := by
  induction vs with
  | nil => rfl
  | cons v vs ih =>
    rw [List.map_cons, List.sum_cons, ih, List.count_cons]
    cases v <;> simp [Verdict.credit, Nat.mul_add, Nat.add_comm]

/-- A connection never has more than 48 workers, and it brings at most 50 failures, and 50 more
for each piece that it delivers, whatever its peer answers and in whatever order its workers and
those of other connections act. -/
theorem failures_bounded (held : List Bool) :
    ∃ s₀ : Engine K, Engine.new held = some s₀ ∧ ∀ n verdicts s,
      Observed (fun s a s' => s.step a = some s') (fun s a => s.verdicts n a) s₀ verdicts s →
        s.workersOf n ≤ maxRequestsPerPeer ∧
        verdicts.count .failure ≤
          (maxStrikes - 1 + maxRequestsPerPeer) * (verdicts.count .success + 1) := by
  obtain ⟨s₀, hnew, -, hworkers, -⟩ := new_sane (K := K) held
  refine ⟨s₀, hnew, fun n verdicts s hobs => ?_⟩
  have hfew : s₀.Few := by
    refine ⟨fun k w hw => ?_, fun n => ?_⟩
    · rw [hworkers] at hw
      cases hw
    · rw [workersOf, hworkers]
      simp
  obtain ⟨hs, hle⟩ := hobs.potential (patience n) Verdict.cost Verdict.credit
    (fun s a s' hs hstep => ⟨hs.step (step_tasks hstep), patience_step hs (step_tasks hstep) n⟩)
    hfew
  refine ⟨hs.few n, ?_⟩
  have := patience_le hfew n
  rw [sum_cost, sum_credit] at hle
  rw [Nat.mul_add, Nat.mul_one]
  omega

end Engine

end Chorrent
