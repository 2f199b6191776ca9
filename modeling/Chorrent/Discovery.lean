/-
# Keeping a swarm together

What a peer does to stay in a share's gossip swarm (`discovery.rs`): it joins through the peers it
was told of, announces itself, hears of others and passes them on, and as long as it has no
neighbour it dials everyone it has heard of again and again.  What it says and does is compared
with what gossip reported up to then.
-/
import Mathlib.Data.List.AList
import Chorrent.Lib.Potential

namespace Chorrent

open Lib

/-- In milliseconds (`ANNOUNCE_EVERY`). -/
def announceEvery : ℕ := 5000

/-- While there are no neighbours, joining is tried this often (`REJOIN_EVERY`). -/
def rejoinEvery : ℕ := 15000

def dialTimeout : ℕ := 10000

/-- A peer and where it is reached. -/
structure EndpointAddr (K R : Type) where
  id : K
  addrs : List R
deriving DecidableEq

def EndpointAddr.isEmpty {K R : Type} (addr : EndpointAddr K R) : Bool := addr.addrs.isEmpty

/-- Everything a swarm keeper needs: ourselves, the peers to join through, whether to announce
ourselves from the start, and whether a download wants the peers that are heard of. -/
structure Swarm (K R : Type) where
  me : K
  bootstrap : List (EndpointAddr K R)
  announce : Bool
  found : Bool

/-- What gossip reports, and what the keeper says and does. -/
inductive SwarmSight (K R : Type) where
  | up (id : K)
  | down (id : K)
  /-- An announcement arrives. -/
  | heard (addr : EndpointAddr K R)
  /-- There is something to share now. -/
  | turnedOn
  /-- `Event::SwarmPeers` -/
  | report (connected : ℕ)
  /-- A peer is passed on to the download. -/
  | pass (addr : EndpointAddr K R)
  | announce (time : ℕ)
  /-- Joining again begins. -/
  | rejoin (time : ℕ) (peers : List (EndpointAddr K R))
  | dial (addr : EndpointAddr K R)
  /-- Gossip is told to join these peers. -/
  | join (ids : List K)

inductive KeeperAction (K R : Type) where
  | wait (time : ℕ)
  | turnOn
  | neighborUp (id : K)
  | neighborDown (id : K)
  /-- A message arrives; what it is decoded to. -/
  | received (announcement : Option (EndpointAddr K R))
  /-- An event that is passed over. -/
  | other
  /-- The announce timer fires, and a broadcast takes some time. -/
  | tick (delay : ℕ)
  /-- The dials are over, and these peers were reached. -/
  | redialed (time : ℕ) (reached : Finset K)
  | close

inductive KeeperPhase (K R : Type) where
  | listening
  | redialing (peers : List (EndpointAddr K R))
  | over

def KeeperPhase.isListening {K R : Type} : KeeperPhase K R → Bool
  | .listening => true
  | _ => false

structure Keeper (K R : Type) where
  swarm : Swarm K R
  now : ℕ
  announcing : Bool
  neighbours : Finset K
  /-- Everyone we've heard announce. -/
  known : AList fun _ : K => EndpointAddr K R
  nextTick : ℕ
  lastRejoin : ℕ
  /-- The connections that are kept open until gossip has its own. -/
  warm : Finset K
  phase : KeeperPhase K R

variable {K R : Type} [DecidableEq K]

/-- Whom `predial` dials. -/
def dialTargets (me : K) (peers : List (EndpointAddr K R)) : List (EndpointAddr K R) :=
  peers.filter fun peer => peer.id ≠ me && !peer.isEmpty

/-- `join` dials the peers we were told of, and subscribes through them. -/
def Swarm.joins (w : Swarm K R) : List (EndpointAddr K R) × List K :=
  (dialTargets w.me w.bootstrap, (w.bootstrap.map EndpointAddr.id).filter (· ≠ w.me))

/-- The peers we were told of; a later address replaces an earlier one. -/
def Swarm.told (w : Swarm K R) : AList fun _ : K => EndpointAddr K R :=
  (w.bootstrap.filter (·.id ≠ w.me)).foldl (fun known addr => known.insert addr.id addr) ∅

namespace Keeper

/-- Where `keep` starts. -/
def start (w : Swarm K R) (begin : ℕ) (warm : Finset K) : Keeper K R :=
  { swarm := w, now := begin, announcing := w.announce, neighbours := ∅, known := w.told,
    nextTick := begin, lastRejoin := begin, warm, phase := .listening }

/-- The addresses of everyone that is known. -/
def knownAddrs (known : AList fun _ : K => EndpointAddr K R) : List (EndpointAddr K R) :=
  known.entries.map fun e => e.2

variable (s : Keeper K R)

/-- Other neighbours; a change in their number is reported. -/
def meet (neighbours : Finset K) (sight : SwarmSight K R) : Keeper K R × List (SwarmSight K R) :=
  if neighbours.card = s.neighbours.card then ({ s with neighbours }, [sight])
  else
    ({ s with neighbours, warm := if neighbours = ∅ then s.warm else ∅ },
      [sight, .report neighbours.card])

/-- An announcement, unless it is our own. -/
def hear (addr : EndpointAddr K R) : Keeper K R × List (SwarmSight K R) :=
  if addr.id = s.swarm.me then (s, [.heard addr])
  else
    ({ s with known := s.known.insert addr.id addr },
      .heard addr :: if s.swarm.found then [.pass addr] else [])

/-- Join again, if nobody is left and it is time to. -/
def tryRejoin : Keeper K R × List (SwarmSight K R) :=
  let peers := knownAddrs s.known
  if s.neighbours = ∅ ∧ peers ≠ [] ∧ rejoinEvery ≤ s.now - s.lastRejoin then
    ({ s with lastRejoin := s.now, phase := .redialing peers },
      .rejoin s.now peers :: (dialTargets s.swarm.me peers).map .dial)
  else (s, [])

/-- What the timer does. -/
def announceAndRejoin (delay : ℕ) : Keeper K R × List (SwarmSight K R) :=
  let told := if s.announcing then [.announce s.now] else []
  let (s, sights) :=
    { s with nextTick := s.nextTick + announceEvery, now := s.now + delay }.tryRejoin
  (s, told ++ sights)

/-- One step, and what is seen of it. -/
def step : KeeperAction K R → Option (Keeper K R × List (SwarmSight K R))
  | .wait time => some ({ s with now := s.now + time }, [])
  | .turnOn => some ({ s with announcing := true }, [.turnedOn])
  | .neighborUp id =>
      if s.phase.isListening then some (s.meet (insert id s.neighbours) (.up id)) else none
  | .neighborDown id =>
      if s.phase.isListening then some (s.meet (s.neighbours.erase id) (.down id)) else none
  | .received announcement =>
      if s.phase.isListening then some (announcement.elim (s, []) s.hear) else none
  | .other => if s.phase.isListening then some (s, []) else none
  | .tick delay =>
      if s.phase.isListening ∧ s.nextTick ≤ s.now ∧ (s.announcing = true ∨ delay = 0) then
        some (s.announceAndRejoin delay)
      else none
  | .redialed time reached =>
      match s.phase with
      | .redialing peers =>
          if time ≤ dialTimeout ∧
              reached ⊆ ((dialTargets s.swarm.me peers).map (·.id)).toFinset then
            some ({ s with now := s.now + time, warm := reached, phase := .listening },
              [.join (peers.map (·.id))])
          else none
      | _ => none
  | .close => if s.phase.isListening then some ({ s with phase := .over }, []) else none

/-- A keeper that has just joined; `predial` may have reached some of those it dialed. -/
inductive Starts (w : Swarm K R) (begin : ℕ) : Keeper K R → Prop
  | start (warm : Finset K) (h : warm ⊆ (w.joins.1.map (·.id)).toFinset) :
      Starts w begin (.start w begin warm)

/-- The keeper goes on. -/
def Step (s : Keeper K R) (a : KeeperAction K R) (s' : Keeper K R) : Prop :=
  (s.step a).map Prod.fst = some s'

def see (s : Keeper K R) (a : KeeperAction K R) : List (SwarmSight K R) :=
  ((s.step a).map Prod.snd).getD []

lemma step_iff {s s' : Keeper K R} {a : KeeperAction K R} :
    s.Step a s' ↔ s.step a = some (s', s.see a) := by
  rw [Step, see]
  rcases s.step a with _ | ⟨s₁, sights⟩
  · simp
  · simp

end Keeper

/-! ## What gossip reported up to then -/

namespace SwarmSight

/-- The neighbours: those that came up, and did not go down since. -/
def linked (seen : List (SwarmSight K R)) : Finset K :=
  seen.foldl (fun neighbours sight =>
    match sight with
    | .up id => insert id neighbours
    | .down id => neighbours.erase id
    | _ => neighbours) ∅

/-- Everyone that was heard of, with their latest address. -/
def knownOf (w : Swarm K R) (seen : List (SwarmSight K R)) : AList fun _ : K => EndpointAddr K R :=
  seen.foldl (fun known sight =>
    match sight with
    | .heard addr => if addr.id = w.me then known else known.insert addr.id addr
    | _ => known) w.told

/-- The number of neighbours that was reported last; none at the start. -/
def lastReport (seen : List (SwarmSight K R)) : ℕ :=
  seen.foldl (fun last sight =>
    match sight with
    | .report connected => connected
    | _ => last) 0

/-- When joining again began last. -/
def rejoinedAt (begin : ℕ) (seen : List (SwarmSight K R)) : ℕ :=
  seen.foldl (fun last sight =>
    match sight with
    | .rejoin time _ => time
    | _ => last) begin

def isAnnounce : SwarmSight K R → Bool
  | .announce _ => true
  | _ => false

def isTurnedOn : SwarmSight K R → Bool
  | .turnedOn => true
  | _ => false

/-- What may be said and done, given what was seen before.  Each report is of a change by one
neighbour, and true; only what was just heard is passed on, and nobody hears of themselves; the
n-th announcement comes when n ticks have passed, and only if there is something to share; joining
again takes place without neighbours, not too often, and with everyone that was heard of. -/
def Proper (w : Swarm K R) (begin : ℕ) (seen : List (SwarmSight K R)) : SwarmSight K R → Prop
  | .up _ | .down _ | .heard _ | .turnedOn => True
  | .report connected => connected = (linked seen).card ∧
      (connected = lastReport seen + 1 ∨ connected + 1 = lastReport seen)
  | .pass addr => w.found = true ∧ addr.id ≠ w.me ∧ seen.getLast? = some (.heard addr)
  | .announce time => (w.announce = true ∨ seen.any isTurnedOn = true) ∧
      begin + announceEvery * seen.countP isAnnounce ≤ time
  | .rejoin time peers => linked seen = ∅ ∧ peers ≠ [] ∧
      rejoinedAt begin seen + rejoinEvery ≤ time ∧
      ∀ addr, addr ∈ peers ↔ (knownOf w seen).lookup addr.id = some addr
  | .dial addr => linked seen = ∅ ∧ addr.id ≠ w.me ∧ addr.isEmpty = false ∧
      (knownOf w seen).lookup addr.id = some addr
  | .join ids => linked seen = ∅ ∧ w.me ∉ ids ∧ ids.Nodup ∧ ∀ id, id ∈ ids ↔ id ∈ knownOf w seen

/-- Everything that is seen after some sights is proper. -/
def AllProper (w : Swarm K R) (begin : ℕ) :
    List (SwarmSight K R) → List (SwarmSight K R) → Prop
  | _, [] => True
  | seen, sight :: sights => Proper w begin seen sight ∧ AllProper w begin (seen ++ [sight]) sights

variable {w : Swarm K R} {begin : ℕ}

lemma allProper_append {seen sights sights' : List (SwarmSight K R)} :
    AllProper w begin seen (sights ++ sights') ↔
      AllProper w begin seen sights ∧ AllProper w begin (seen ++ sights) sights' := by
  induction sights generalizing seen with
  | nil => simp [AllProper]
  | cons sight sights ih =>
    rw [List.cons_append, AllProper, AllProper, ih, and_assoc, List.append_assoc]
    rfl

lemma AllProper.proper {before after : List (SwarmSight K R)} {sight : SwarmSight K R}
    (h : AllProper w begin [] (before ++ sight :: after)) : Proper w begin before sight :=
  (allProper_append.1 h).2.1

/-! ### One sight more -/

section

variable (seen : List (SwarmSight K R))

@[simp] lemma linked_nil : linked ([] : List (SwarmSight K R)) = ∅ := rfl

lemma linked_snoc (sight : SwarmSight K R) : linked (seen ++ [sight]) =
    match sight with
    | .up id => insert id (linked seen)
    | .down id => (linked seen).erase id
    | _ => linked seen := by
  rw [linked, List.foldl_append]
  rfl

lemma knownOf_snoc (sight : SwarmSight K R) : knownOf w (seen ++ [sight]) =
    match sight with
    | .heard addr =>
        if addr.id = w.me then knownOf w seen else (knownOf w seen).insert addr.id addr
    | _ => knownOf w seen := by
  rw [knownOf, List.foldl_append]
  rfl

omit [DecidableEq K] in
lemma lastReport_snoc (sight : SwarmSight K R) : lastReport (seen ++ [sight]) =
    match sight with
    | .report connected => connected
    | _ => lastReport seen := by
  rw [lastReport, List.foldl_append]
  rfl

omit [DecidableEq K] in
lemma rejoinedAt_snoc (sight : SwarmSight K R) : rejoinedAt begin (seen ++ [sight]) =
    match sight with
    | .rejoin time _ => time
    | _ => rejoinedAt begin seen := by
  rw [rejoinedAt, List.foldl_append]
  rfl

end

/-- Sights that change nothing of what is looked back at. -/
def Quiet (w : Swarm K R) (begin : ℕ) (sights : List (SwarmSight K R)) : Prop :=
  ∀ seen, linked (seen ++ sights) = linked seen ∧ knownOf w (seen ++ sights) = knownOf w seen ∧
    lastReport (seen ++ sights) = lastReport seen ∧
    rejoinedAt begin (seen ++ sights) = rejoinedAt begin seen ∧
    (seen ++ sights).countP isAnnounce = seen.countP isAnnounce

lemma quiet_nil : Quiet w begin [] := fun seen => by
  rw [List.append_nil]
  exact ⟨rfl, rfl, rfl, rfl, rfl⟩

lemma Quiet.cons {sight : SwarmSight K R} {sights : List (SwarmSight K R)}
    (hsight : Quiet w begin [sight]) (h : Quiet w begin sights) :
    Quiet w begin (sight :: sights) := by
  intro seen
  have happend : seen ++ sight :: sights = seen ++ [sight] ++ sights := by
    rw [List.append_assoc]
    rfl
  obtain ⟨hlinked, hknown, hreport, hrejoin, hcount⟩ := hsight seen
  obtain ⟨hlinked', hknown', hreport', hrejoin', hcount'⟩ := h (seen ++ [sight])
  rw [happend]
  exact ⟨hlinked'.trans hlinked, hknown'.trans hknown, hreport'.trans hreport,
    hrejoin'.trans hrejoin, hcount'.trans hcount⟩

/-- These are neither reports nor anything that gossip says, nor timed. -/
lemma quiet_single {sight : SwarmSight K R} (h : match sight with
    | .pass _ | .dial _ | .join _ | .turnedOn => True
    | _ => False) : Quiet w begin [sight] := by
  intro seen
  rw [linked_snoc, knownOf_snoc, lastReport_snoc, rejoinedAt_snoc, List.countP_append]
  cases sight with
  | pass | dial | join | turnedOn => exact ⟨rfl, rfl, rfl, rfl, rfl⟩
  | up | down | heard | report | announce | rejoin => exact h.elim

lemma quiet_dials (addrs : List (EndpointAddr K R)) : Quiet w begin (addrs.map .dial) := by
  induction addrs with
  | nil => exact quiet_nil
  | cons addr addrs ih => exact (quiet_single trivial).cons ih

lemma allProper_dials {seen : List (SwarmSight K R)} (addrs : List (EndpointAddr K R))
    (h : ∀ addr ∈ addrs, Proper w begin seen (.dial addr)) :
    AllProper w begin seen (addrs.map .dial) := by
  induction addrs generalizing seen with
  | nil => trivial
  | cons addr addrs ih =>
    refine ⟨h addr List.mem_cons_self, ih fun addr' hmem => ?_⟩
    have hquiet : Quiet w begin [.dial addr] := quiet_single trivial
    obtain ⟨hlinked, hknown, -⟩ := hquiet seen
    have hproper := h addr' (List.mem_cons_of_mem _ hmem)
    rwa [Proper, hlinked, hknown]

end SwarmSight

/-! ## What is known -/

/-- Everyone is known by their own id, and we are not among them. -/
def Keyed (me : K) (known : AList fun _ : K => EndpointAddr K R) : Prop :=
  ∀ id addr, known.lookup id = some addr → addr.id = id ∧ id ≠ me

section

variable {me : K} {known : AList fun _ : K => EndpointAddr K R}

lemma Keyed.insert {addr : EndpointAddr K R} (h : Keyed me known) (hne : addr.id ≠ me) :
    Keyed me (known.insert addr.id addr) := by
  intro id addr' hlookup
  by_cases hid : id = addr.id
  · subst hid
    rw [AList.lookup_insert] at hlookup
    obtain rfl := Option.some.inj hlookup
    exact ⟨rfl, hne⟩
  · rw [AList.lookup_insert_ne hid] at hlookup
    exact h id addr' hlookup

lemma Keyed.mem_knownAddrs (h : Keyed me known) {addr : EndpointAddr K R} :
    addr ∈ Keeper.knownAddrs known ↔ known.lookup addr.id = some addr := by
  rw [Keeper.knownAddrs, List.mem_map]
  constructor
  · rintro ⟨⟨id, addr'⟩, hmem, rfl⟩
    have hlookup : known.lookup id = some addr' := AList.mem_lookup_iff.2 hmem
    rwa [(h id addr' hlookup).1]
  · intro hlookup
    exact ⟨⟨addr.id, addr⟩, AList.mem_lookup_iff.1 hlookup, rfl⟩

lemma Keyed.map_id (h : Keyed me known) :
    (Keeper.knownAddrs known).map (·.id) = known.keys := by
  rw [Keeper.knownAddrs, List.map_map]
  refine List.map_congr_left fun e he => ?_
  exact (h e.1 e.2 (AList.mem_lookup_iff.2 he)).1

end

/-! ## What a keeper does -/

namespace Keeper

open SwarmSight

variable {w : Swarm K R} {begin : ℕ} {s s' : Keeper K R} {seen : List (SwarmSight K R)}

/-- The keeper is where what was seen leads to, and all it did was proper. -/
structure Kept (w : Swarm K R) (begin : ℕ) (seen : List (SwarmSight K R)) (s : Keeper K R) :
    Prop where
  swarm_eq : s.swarm = w
  neighbours_eq : s.neighbours = linked seen
  known_eq : s.known = knownOf w seen
  keyed : Keyed w.me s.known
  report_eq : lastReport seen = s.neighbours.card
  announcing : s.announcing = true → w.announce = true ∨ seen.any isTurnedOn = true
  ticks : begin + announceEvery * seen.countP isAnnounce ≤ s.nextTick
  rejoin_eq : rejoinedAt begin seen = s.lastRejoin
  rejoin_le : s.lastRejoin ≤ s.now
  alone : s.warm ≠ ∅ → s.neighbours = ∅
  warm : w.me ∉ s.warm
  redialing : ∀ peers, s.phase = .redialing peers →
    peers = knownAddrs s.known ∧ s.neighbours = ∅
  proper : AllProper w begin [] seen

/-- What is quiet and proper may be said at any time. -/
lemma Kept.quiet (h : Kept w begin seen s) {sights : List (SwarmSight K R)}
    (hquiet : Quiet w begin sights) (hproper : AllProper w begin seen sights) :
    Kept w begin (seen ++ sights) s := by
  obtain ⟨hlinked, hknown, hreport, hrejoin, hcount⟩ := hquiet seen
  refine ⟨h.swarm_eq, h.neighbours_eq.trans hlinked.symm, h.known_eq.trans hknown.symm, h.keyed,
    hreport.trans h.report_eq, fun hon => ?_, by rw [hcount]; exact h.ticks,
    hrejoin.trans h.rejoin_eq, h.rejoin_le, h.alone, h.warm, h.redialing,
    allProper_append.2 ⟨h.proper, hproper⟩⟩
  rw [List.any_append, Bool.or_eq_true]
  exact (h.announcing hon).imp_right Or.inl

omit [DecidableEq K] in
lemma not_redialing (hlistens : s.phase.isListening = true) (peers : List (EndpointAddr K R)) :
    s.phase ≠ .redialing peers := by
  intro hphase
  rw [hphase] at hlistens
  cases hlistens

/-- A neighbour comes or goes. -/
lemma Kept.meet (h : Kept w begin seen s) (hlistens : s.phase.isListening = true) {id : K}
    {sight : SwarmSight K R} {neighbours : Finset K}
    (hsight : sight = .up id ∧ neighbours = insert id s.neighbours ∨
      sight = .down id ∧ neighbours = s.neighbours.erase id) :
    Kept w begin (seen ++ (s.meet neighbours sight).2) (s.meet neighbours sight).1 := by
  have hlinked : linked (seen ++ [sight]) = neighbours := by
    rw [linked_snoc, ← h.neighbours_eq]
    rcases hsight with ⟨rfl, rfl⟩ | ⟨rfl, rfl⟩
    · rfl
    · rfl
  obtain ⟨hknown, hreport, hrejoin, hcount, hproper⟩ :
      knownOf w (seen ++ [sight]) = knownOf w seen ∧
        lastReport (seen ++ [sight]) = lastReport seen ∧
        rejoinedAt begin (seen ++ [sight]) = rejoinedAt begin seen ∧
        (seen ++ [sight]).countP isAnnounce = seen.countP isAnnounce ∧
        AllProper w begin seen [sight] := by
    rw [knownOf_snoc, lastReport_snoc, rejoinedAt_snoc, List.countP_append]
    rcases hsight with ⟨rfl, rfl⟩ | ⟨rfl, rfl⟩
    · exact ⟨rfl, rfl, rfl, rfl, trivial, trivial⟩
    · exact ⟨rfl, rfl, rfl, rfl, trivial, trivial⟩
  have hcard : neighbours.card = s.neighbours.card ∨ neighbours.card = s.neighbours.card + 1 ∨
      neighbours.card + 1 = s.neighbours.card := by
    rcases hsight with ⟨-, rfl⟩ | ⟨-, rfl⟩
    · rw [Finset.card_insert_eq_ite]
      split_ifs
      · exact .inl rfl
      · exact .inr (.inl rfl)
    · rw [Finset.card_erase_eq_ite]
      split_ifs with hmem
      · have := Finset.card_pos.2 ⟨id, hmem⟩
        omega
      · exact .inl rfl
  have hredialing := not_redialing hlistens
  have hon : s.announcing = true → w.announce = true ∨ (seen ++ [sight]).any isTurnedOn = true :=
    fun hon => by
      rw [List.any_append, Bool.or_eq_true]
      exact (h.announcing hon).imp_right Or.inl
  rw [Keeper.meet]
  by_cases hsame : neighbours.card = s.neighbours.card
  · rw [if_pos hsame]
    refine ⟨h.swarm_eq, hlinked.symm, h.known_eq.trans hknown.symm, h.keyed,
      (hreport.trans h.report_eq).trans hsame.symm, hon, by rw [hcount]; exact h.ticks,
      hrejoin.trans h.rejoin_eq, h.rejoin_le, fun hwarm => ?_, h.warm,
      fun peers hphase => absurd hphase (hredialing peers),
      allProper_append.2 ⟨h.proper, hproper⟩⟩
    rwa [h.alone hwarm, Finset.card_empty, Finset.card_eq_zero] at hsame
  · rw [if_neg hsame]
    have happend : seen ++ [sight, .report neighbours.card] =
        seen ++ [sight] ++ [.report neighbours.card] := by simp
    show Kept w begin (seen ++ [sight, .report neighbours.card]) _
    rw [happend]
    refine ⟨h.swarm_eq, ?_, ?_, h.keyed, ?_, fun hon' => ?_, ?_, ?_, h.rejoin_le, fun hwarm => ?_,
      fun hme => ?_, fun peers hphase => absurd hphase (hredialing peers),
      allProper_append.2 ⟨allProper_append.2 ⟨h.proper, hproper⟩, ⟨?_, ?_⟩, trivial⟩⟩
    · rw [linked_snoc, hlinked]
    · rw [knownOf_snoc, hknown]
      exact h.known_eq
    · rw [lastReport_snoc]
    · rw [List.any_append, Bool.or_eq_true]
      exact (hon hon').imp_right Or.inl
    · rw [List.countP_append, hcount]
      exact h.ticks
    · rw [rejoinedAt_snoc, hrejoin]
      exact h.rejoin_eq
    · by_contra hsome
      exact hwarm (if_neg hsome)
    · have hsplit : w.me ∈ if neighbours = ∅ then s.warm else ∅ := hme
      split_ifs at hsplit
      · exact h.warm hsplit
      · exact absurd hsplit (Finset.notMem_empty _)
    · rw [List.nil_append, hlinked]
    · have hlast : lastReport (seen ++ [sight]) = s.neighbours.card := hreport.trans h.report_eq
      show neighbours.card = lastReport (seen ++ [sight]) + 1 ∨
        neighbours.card + 1 = lastReport (seen ++ [sight])
      rw [hlast]
      omega

/-- Somebody is heard of. -/
lemma Kept.hear (h : Kept w begin seen s) (hlistens : s.phase.isListening = true)
    (addr : EndpointAddr K R) : Kept w begin (seen ++ (s.hear addr).2) (s.hear addr).1 := by
  have hsight : ∀ known, known = knownOf w (seen ++ [.heard addr]) → Keyed w.me known →
      Kept w begin (seen ++ [.heard addr]) { s with known } := fun known hknown hkeyed => by
    refine ⟨h.swarm_eq, ?_, hknown, hkeyed, ?_, fun hon => ?_, ?_, ?_, h.rejoin_le, h.alone, h.warm,
      fun peers hphase => absurd hphase (not_redialing hlistens peers),
      allProper_append.2 ⟨h.proper, trivial, trivial⟩⟩
    · rw [linked_snoc]
      exact h.neighbours_eq
    · rw [lastReport_snoc]
      exact h.report_eq
    · rw [List.any_append, Bool.or_eq_true]
      exact (h.announcing hon).imp_right Or.inl
    · rw [List.countP_append]
      exact h.ticks
    · rw [rejoinedAt_snoc]
      exact h.rejoin_eq
  obtain rfl := h.swarm_eq
  rw [Keeper.hear]
  by_cases hme : addr.id = s.swarm.me
  · rw [if_pos hme]
    refine hsight s.known ?_ h.keyed
    rw [knownOf_snoc, h.known_eq]
    exact (if_pos hme).symm
  · rw [if_neg hme]
    have hheard := hsight (s.known.insert addr.id addr) (by
      rw [knownOf_snoc, h.known_eq]
      exact (if_neg hme).symm) (h.keyed.insert hme)
    by_cases hfound : s.swarm.found = true
    · rw [if_pos hfound]
      have hquiet : Quiet s.swarm begin [.pass addr] := quiet_single trivial
      have hpass := hheard.quiet hquiet ⟨⟨hfound, hme, List.getLast?_concat⟩, trivial⟩
      rwa [List.append_assoc] at hpass
    · rw [if_neg hfound]
      exact hheard

lemma Kept.tryRejoin (h : Kept w begin seen s) :
    Kept w begin (seen ++ s.tryRejoin.2) s.tryRejoin.1 := by
  rw [Keeper.tryRejoin]
  by_cases hguard : s.neighbours = ∅ ∧ knownAddrs s.known ≠ [] ∧ rejoinEvery ≤ s.now - s.lastRejoin
  · rw [if_pos hguard]
    obtain ⟨hnone, hsome, hlong⟩ := hguard
    have hlinked : linked seen = ∅ := h.neighbours_eq.symm.trans hnone
    have hknown : knownOf w (seen ++ [.rejoin s.now (knownAddrs s.known)]) = s.known := by
      rw [knownOf_snoc]
      exact h.known_eq.symm
    have hmem : ∀ addr, addr ∈ knownAddrs s.known ↔ s.known.lookup addr.id = some addr :=
      fun addr => h.keyed.mem_knownAddrs
    have hrejoin : Kept w begin (seen ++ [.rejoin s.now (knownAddrs s.known)])
        { s with lastRejoin := s.now, phase := .redialing (knownAddrs s.known) } := by
      refine ⟨h.swarm_eq, ?_, hknown.symm, h.keyed, ?_, fun hon => ?_, ?_, ?_, le_rfl, h.alone,
        h.warm, fun peers hphase => ⟨(KeeperPhase.redialing.inj hphase).symm, hnone⟩,
        allProper_append.2 ⟨h.proper, ⟨hlinked, hsome, ?_, fun addr => ?_⟩, trivial⟩⟩
      · rw [linked_snoc]
        exact h.neighbours_eq
      · rw [lastReport_snoc]
        exact h.report_eq
      · rw [List.any_append, Bool.or_eq_true]
        exact (h.announcing hon).imp_right Or.inl
      · rw [List.countP_append]
        exact h.ticks
      · rw [rejoinedAt_snoc]
      · have hle := h.rejoin_le
        have hpos : 0 < rejoinEvery := by decide
        rw [List.nil_append, h.rejoin_eq]
        omega
      · rw [List.nil_append, ← h.known_eq]
        exact hmem addr
    have hdials := hrejoin.quiet (quiet_dials (dialTargets s.swarm.me (knownAddrs s.known)))
      (allProper_dials _ fun addr haddr => by
        obtain ⟨hin, htarget⟩ := List.mem_filter.1 haddr
        rw [h.swarm_eq] at htarget
        simp only [Bool.and_eq_true, decide_eq_true_eq, Bool.not_eq_true'] at htarget
        rw [Proper, linked_snoc, hknown]
        exact ⟨hlinked, htarget.1, htarget.2, (hmem addr).1 hin⟩)
    rwa [List.append_assoc] at hdials
  · rw [if_neg hguard, List.append_nil]
    exact h

/-- The timer fires. -/
lemma Kept.announceAndRejoin (h : Kept w begin seen s) (hlistens : s.phase.isListening = true)
    (hdue : s.nextTick ≤ s.now) (delay : ℕ) :
    Kept w begin (seen ++ (s.announceAndRejoin delay).2) (s.announceAndRejoin delay).1 := by
  have htold : Kept w begin (seen ++ if s.announcing then [.announce s.now] else [])
      { s with nextTick := s.nextTick + announceEvery, now := s.now + delay } := by
    have hticks := h.ticks
    by_cases hon : s.announcing = true
    · rw [if_pos hon]
      refine ⟨h.swarm_eq, ?_, ?_, h.keyed, ?_, fun _ => ?_, ?_, ?_,
        h.rejoin_le.trans (Nat.le_add_right _ _), h.alone, h.warm,
        fun peers hphase => absurd hphase (not_redialing hlistens peers),
        allProper_append.2 ⟨h.proper, ⟨h.announcing hon, ?_⟩, trivial⟩⟩
      · rw [linked_snoc]
        exact h.neighbours_eq
      · rw [knownOf_snoc]
        exact h.known_eq
      · rw [lastReport_snoc]
        exact h.report_eq
      · rw [List.any_append, Bool.or_eq_true]
        exact (h.announcing hon).imp_right Or.inl
      · rw [List.countP_append]
        show _ + announceEvery * (_ + 1) ≤ s.nextTick + announceEvery
        rw [Nat.mul_succ]
        omega
      · rw [rejoinedAt_snoc]
        exact h.rejoin_eq
      · rw [List.nil_append]
        omega
    · rw [if_neg hon, List.append_nil]
      refine ⟨h.swarm_eq, h.neighbours_eq, h.known_eq, h.keyed, h.report_eq, h.announcing, ?_,
        h.rejoin_eq, h.rejoin_le.trans (Nat.le_add_right _ _), h.alone, h.warm,
        fun peers hphase => absurd hphase (not_redialing hlistens peers), h.proper⟩
      show _ ≤ s.nextTick + announceEvery
      omega
  have hrejoin := htold.tryRejoin
  rwa [List.append_assoc] at hrejoin

/-- The dials are over. -/
lemma Kept.redialed (h : Kept w begin seen s) {peers : List (EndpointAddr K R)} {reached : Finset K}
    (hphase : s.phase = .redialing peers)
    (hreached : reached ⊆ ((dialTargets s.swarm.me peers).map (·.id)).toFinset) (time : ℕ) :
    Kept w begin (seen ++ [.join (peers.map (·.id))])
      { s with now := s.now + time, warm := reached, phase := .listening } := by
  obtain ⟨rfl, hnone⟩ := h.redialing peers hphase
  have hkeys := h.keyed.map_id
  have hquiet : Quiet w begin [.join ((knownAddrs s.known).map (·.id))] := quiet_single trivial
  have hproper : Proper w begin seen (.join ((knownAddrs s.known).map (·.id))) := by
    rw [hkeys]
    refine ⟨h.neighbours_eq.symm.trans hnone, fun hme => ?_, AList.keys_nodup _, fun id => ?_⟩
    · have hknown := AList.lookup_isSome.2 (AList.mem_keys.2 hme)
      obtain ⟨addr, haddr⟩ := Option.isSome_iff_exists.1 hknown
      exact (h.keyed _ addr haddr).2 rfl
    · rw [← h.known_eq]
      exact AList.mem_keys.symm
  have hjoin := h.quiet hquiet ⟨hproper, trivial⟩
  refine { hjoin with
    rejoin_le := h.rejoin_le.trans (Nat.le_add_right _ _), alone := fun _ => hnone
    warm := fun hme => ?_, redialing := fun peers hphase => by cases hphase }
  obtain ⟨addr, hmem, hid⟩ := List.mem_map.1 (List.mem_toFinset.1 (hreached hme))
  have hne := (List.mem_filter.1 hmem).2
  simp [hid, h.swarm_eq] at hne

/-- A keeper that was told of one peer. -/
def told : Swarm ℕ ℕ := ⟨0, [⟨1, [7]⟩], false, true⟩

/-- The peer came up after it was dialed. -/
def joined : Keeper ℕ ℕ :=
  { start told 0 ∅ with now := 15000, neighbours := {1}, nextTick := 5000, lastRejoin := 15000 }

end Keeper

end Chorrent
