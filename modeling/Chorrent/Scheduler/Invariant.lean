/-
# The scheduler's representation invariant

The counters, the availability table, the playhead and the lists of requesters of a
scheduler are redundant: each can be computed from the pieces and the peers' bits.
`Consistent` says that they agree; every call the engine makes succeeds on a consistent
scheduler and leaves it consistent.
-/
import Mathlib.Tactic
import Chorrent.Lib.Assoc
import Chorrent.Lib.Run
import Chorrent.Scheduler.Basic

namespace Chorrent

open Lib

/-- What forgetting `peer` makes of a piece. -/
def Piece.without {K : Type} [DecidableEq K] (peer : K) : Piece K → Piece K
  | .inFlight requesters =>
      let rest := requesters.filter (· ≠ peer)
      if rest = [] then .missing else .inFlight rest
  | p => p

namespace Scheduler

variable {K : Type} [DecidableEq K]

/-- The number of present peers whose bit `i` is set. -/
def holders (s : Scheduler K) (i : ℕ) : ℕ :=
  countValues s.peers fun bits => bits.getD i false

/-- A list of requesters as the scheduler keeps it. -/
structure RequestersOk (s : Scheduler K) (requesters : List K) : Prop where
  ne_nil : requesters ≠ []
  nodup : requesters.Nodup
  length_le : requesters.length ≤ endgameDuplicates
  present : ∀ peer ∈ requesters, peer ∈ s.peers

/-- The playhead is at the first piece that is not done. -/
structure PlayheadOk (s : Scheduler K) : Prop where
  before : ∀ i < s.firstNotDone, s.pieces[i]? = some .done
  head : s.pieces[s.firstNotDone]? ≠ some .done

/-- The redundant fields of a scheduler agree with its pieces and its peers' bits. -/
structure Consistent (s : Scheduler K) : Prop where
  missing_eq : s.missing = s.pieces.count .missing
  done_eq : s.done = s.pieces.count .done
  bits_length : ∀ peer bits, s.peers.lookup peer = some bits → bits.length = s.pieces.length
  few_peers : s.peers.keys.length < 2 ^ 32
  availability_length : s.availability.length = s.pieces.length
  availability_eq : ∀ i < s.pieces.length, s.availability[i]? = some (s.holders i)
  requesters : ∀ (i : ℕ) (rs : List K), s.pieces[i]? = some (.inFlight rs) → s.RequestersOk rs
  playhead : s.PlayheadOk

/-! ## Counting bits up and down -/

/-- `countUp` adds one exactly where a bit is set, if no counter is at its maximum. -/
lemma countUp_spec (bs : List Bool) : ∀ as : List ℕ, bs.length ≤ as.length →
    (∀ a ∈ as, a + 1 < 2 ^ 32) →
    ∃ r, countUp bs as = some r ∧ r.length = as.length ∧
      ∀ i, r[i]? = as[i]?.map (· + (bs.getD i false).toNat) := by
  induction bs with
  | nil =>
    intro as _ _
    exact ⟨as, rfl, rfl, fun i => by simp⟩
  | cons b bs ih =>
    intro as hlen hlt
    cases as with
    | nil => simp at hlen
    | cons a as =>
      obtain ⟨r, hr, hrl, hri⟩ := ih as (by simpa using hlen) fun x hx => hlt x (by simp [hx])
      refine ⟨(a + b.toNat) :: r, ?_, by simp [hrl], ?_⟩
      · cases b with
        | false => simp [countUp, hr]
        | true =>
          have h := hlt a (by simp)
          simp [countUp, hr, checkedAdd_of_lt h]
      · intro i
        cases i with
        | zero => simp
        | succ i => simpa using hri i

/-- `countDown` takes one off exactly where a bit is set, if those counters are positive. -/
lemma countDown_spec (bs : List Bool) : ∀ as : List ℕ, bs.length ≤ as.length →
    (∀ i a, as[i]? = some a → (bs.getD i false).toNat ≤ a) →
    ∃ r, countDown bs as = some r ∧ r.length = as.length ∧
      ∀ i, r[i]? = as[i]?.map (· - (bs.getD i false).toNat) := by
  induction bs with
  | nil =>
    intro as _ _
    exact ⟨as, rfl, rfl, fun i => by simp⟩
  | cons b bs ih =>
    intro as hlen hle
    cases as with
    | nil => simp at hlen
    | cons a as =>
      obtain ⟨r, hr, hrl, hri⟩ := ih as (by simpa using hlen) fun i x hx => by
        simpa using hle (i + 1) x (by simpa using hx)
      refine ⟨(a - b.toNat) :: r, ?_, by simp [hrl], ?_⟩
      · cases b with
        | false => simp [countDown, hr]
        | true =>
          have h : 1 ≤ a := by simpa using hle 0 a (by simp)
          simp [countDown, hr, checkedSub_of_le h]
      · intro i
        cases i with
        | zero => simp
        | succ i => simpa using hri i

/-! ## The playhead -/

omit [DecidableEq K] in
lemma playheadFrom_spec (ps : List (Piece K)) : ∀ k,
    k ≤ playheadFrom ps k ∧
      (∀ i, k + i < playheadFrom ps k → ps[i]? = some .done) ∧
      ps[playheadFrom ps k - k]? ≠ some .done := by
  induction ps with
  | nil => intro k; simp [playheadFrom]
  | cons p ps ih =>
    intro k
    cases p with
    | done =>
      obtain ⟨h₁, h₂, h₃⟩ := ih (k + 1)
      refine ⟨by simp only [playheadFrom]; omega, ?_, ?_⟩
      · intro i hi
        simp only [playheadFrom] at hi
        cases i with
        | zero => simp
        | succ i => simpa using h₂ i (by omega)
      · have hk : playheadFrom (.done :: ps) k - k = playheadFrom ps (k + 1) - (k + 1) + 1 := by
          simp only [playheadFrom]
          omega
        rw [hk]
        simpa using h₃
    | missing => simp [playheadFrom]
    | inFlight rs => simp [playheadFrom]

@[simp] lemma advancePlayhead_pieces (s : Scheduler K) : s.advancePlayhead.pieces = s.pieces := rfl
@[simp] lemma advancePlayhead_peers (s : Scheduler K) : s.advancePlayhead.peers = s.peers := rfl
@[simp] lemma advancePlayhead_availability (s : Scheduler K) :
    s.advancePlayhead.availability = s.availability := rfl
@[simp] lemma advancePlayhead_missing (s : Scheduler K) :
    s.advancePlayhead.missing = s.missing := rfl
@[simp] lemma advancePlayhead_done (s : Scheduler K) : s.advancePlayhead.done = s.done := rfl

/-- Advancing restores the playhead whenever everything before it is done. -/
lemma playheadOk_advance {s : Scheduler K}
    (h : ∀ i < s.firstNotDone, s.pieces[i]? = some .done) : s.advancePlayhead.PlayheadOk := by
  obtain ⟨h₁, h₂, h₃⟩ := playheadFrom_spec (s.pieces.drop s.firstNotDone) s.firstNotDone
  constructor
  · intro i hi
    by_cases hlt : i < s.firstNotDone
    · exact h i hlt
    · have hi' : s.firstNotDone + (i - s.firstNotDone) = i := by omega
      have := h₂ (i - s.firstNotDone) (by rw [hi']; exact hi)
      rwa [List.getElem?_drop, hi'] at this
  · rw [List.getElem?_drop] at h₃
    have : s.firstNotDone + (playheadFrom (s.pieces.drop s.firstNotDone) s.firstNotDone
        - s.firstNotDone) = s.advancePlayhead.firstNotDone := by
      simp only [advancePlayhead]
      omega
    rwa [this] at h₃

/-- The playhead stays right when the same pieces are done as before. -/
lemma PlayheadOk.congr {s s' : Scheduler K} (h : s.PlayheadOk)
    (hfirst : s'.firstNotDone = s.firstNotDone)
    (hdone : ∀ i : ℕ, s'.pieces[i]? = some .done ↔ s.pieces[i]? = some .done) :
    s'.PlayheadOk := by
  constructor
  · intro i hi
    exact (hdone i).2 (h.before i (hfirst ▸ hi))
  · rw [hfirst, Ne, hdone]
    exact h.head

lemma RequestersOk.mono {s s' : Scheduler K} {rs : List K} (h : s.RequestersOk rs)
    (hmem : ∀ peer ∈ rs, peer ∈ s.peers → peer ∈ s'.peers) : s'.RequestersOk rs :=
  ⟨h.ne_nil, h.nodup, h.length_le, fun p hp => hmem p hp (h.present p hp)⟩

/-! ## Giving up requests -/

/-- How the number of pieces that are `q` changes when one piece is replaced. -/
lemma count_set {ps : List (Piece K)} {i : ℕ} {p : Piece K} (h : ps[i]? = some p)
    (q p' : Piece K) :
    (ps.set i p').count q + (if p = q then 1 else 0) = ps.count q + (if p' = q then 1 else 0) := by
  obtain ⟨hi, hp⟩ := List.getElem?_eq_some_iff.1 h
  have hpos : p = q → 0 < ps.count q := by
    rintro rfl
    exact List.count_pos_iff.2 (hp ▸ List.getElem_mem hi)
  rw [List.count_set hi, hp]
  by_cases h₁ : p = q
  · have := hpos h₁
    simp only [h₁, beq_self_eq_true, if_true, beq_iff_eq]
    omega
  · simp [h₁]

/-- What `dropRequest` does: it replaces one piece, and counts it if it became missing. -/
lemma dropRequest_spec (s : Scheduler K) {i : ℕ} {p : Piece K} (h : s.pieces[i]? = some p)
    (peer : K) :
    ∃ m, s.dropRequest i peer =
        some { s with pieces := s.pieces.set i (p.without peer), missing := m } ∧
      (s.missing = s.pieces.count .missing →
        m = (s.pieces.set i (p.without peer)).count .missing) := by
  have hset : ∀ q : Piece K, q = p → s.pieces.set i q = s.pieces := by
    rintro q rfl
    obtain ⟨hi, hp⟩ := List.getElem?_eq_some_iff.1 h
    rw [← hp, List.set_getElem_self]
  cases p with
  | missing => exact ⟨s.missing, by simp [dropRequest, h, Piece.without, hset],
      by simp [Piece.without, hset]⟩
  | done => exact ⟨s.missing, by simp [dropRequest, h, Piece.without, hset],
      by simp [Piece.without, hset]⟩
  | inFlight rs =>
    have hcount := count_set h .missing
    by_cases hnil : rs.filter (· ≠ peer) = []
    · refine ⟨s.missing + 1, ?_, ?_⟩
      · simp only [dropRequest, h, Piece.without, hnil, if_true]
      · intro hm
        have := hcount .missing
        simp only [Piece.without, hnil, if_true]
        simp only [reduceCtorEq, if_false, if_true] at this
        omega
    · refine ⟨s.missing, ?_, ?_⟩
      · simp only [dropRequest, h, Piece.without, hnil, if_false]
      · intro hm
        have := hcount (.inFlight (rs.filter (· ≠ peer)))
        simp only [Piece.without, hnil, if_false]
        simp only [reduceCtorEq, if_false] at this
        omega

/-- Giving up the requests for the pieces below `k`. -/
lemma dropRequests_below (s : Scheduler K) (peer : K) : ∀ k ≤ s.pieces.length,
    ∃ m, (List.range k).foldlM (fun s i => s.dropRequest i peer) s =
        some { s with
          pieces := (s.pieces.take k).map (Piece.without peer) ++ s.pieces.drop k
          missing := m } ∧
      (s.missing = s.pieces.count .missing →
        m = ((s.pieces.take k).map (Piece.without peer) ++ s.pieces.drop k).count .missing) := by
  intro k
  induction k with
  | zero => intro _; exact ⟨s.missing, by simp, by simp⟩
  | succ k ih =>
    intro hk
    obtain ⟨m, hm, hcount⟩ := ih (by omega)
    have hlt : k < s.pieces.length := by omega
    have hget : ((s.pieces.take k).map (Piece.without peer) ++ s.pieces.drop k)[k]? =
        some s.pieces[k] := by
      rw [List.getElem?_append_right (by simp)]
      simp [Nat.min_eq_left (Nat.le_of_lt hlt), hlt]
    have hset : ((s.pieces.take k).map (Piece.without peer) ++ s.pieces.drop k).set k
        (s.pieces[k].without peer) =
        (s.pieces.take (k + 1)).map (Piece.without peer) ++ s.pieces.drop (k + 1) := by
      have h₀ : k - ((s.pieces.take k).map (Piece.without peer)).length = 0 := by simp; omega
      rw [List.set_append_right _ _ (by simp), h₀, List.drop_eq_getElem_cons hlt,
        List.set_cons_zero, List.take_add_one, List.getElem?_eq_getElem hlt, List.map_append,
        List.append_assoc]
      rfl
    obtain ⟨m', hm', hcount'⟩ := dropRequest_spec
      { s with
        pieces := (s.pieces.take k).map (Piece.without peer) ++ s.pieces.drop k
        missing := m } hget peer
    refine ⟨m', ?_, ?_⟩
    · rw [List.range_succ, List.foldlM_append, hm]
      simp only [Option.bind_eq_bind, Option.bind_some, List.foldlM_cons, List.foldlM_nil]
      rw [hm', hset]
      rfl
    · intro h
      rw [← hset]
      exact hcount' (hcount h)

/-- What forgetting a present peer does. -/
lemma removePeer_spec {s : Scheduler K} (hs : s.Consistent) {peer : K} {bits : List Bool}
    (h : s.peers.lookup peer = some bits) :
    ∃ availability m, s.removePeer peer = some { s with
        pieces := s.pieces.map (Piece.without peer), availability := availability,
        peers := s.peers.erase peer, missing := m } ∧
      availability.length = s.pieces.length ∧
      (∀ i < s.pieces.length, availability[i]? =
        some (countValues (s.peers.erase peer) fun bits => bits.getD i false)) ∧
      m = (s.pieces.map (Piece.without peer)).count .missing := by
  have hlen := hs.bits_length peer bits h
  obtain ⟨r, hr, hrl, hri⟩ := countDown_spec bits s.availability
    (by rw [hlen, hs.availability_length]) (by
      intro i a ha
      have hi : i < s.pieces.length := by
        rw [← hs.availability_length]
        exact (List.getElem?_eq_some_iff.1 ha).1
      have := hs.availability_eq i hi
      rw [ha, Option.some.injEq] at this
      rw [this, holders, countValues_erase h]
      omega)
  let s₁ : Scheduler K := { s with peers := s.peers.erase peer, availability := r }
  obtain ⟨m, hm, hcount⟩ := dropRequests_below s₁ peer s₁.pieces.length le_rfl
  refine ⟨r, m, ?_, by rw [hrl, hs.availability_length], ?_, ?_⟩
  · simp only [removePeer, h, hr, Option.bind_eq_bind, Option.bind_some]
    simpa [s₁] using hm
  · intro i hi
    rw [hri i, hs.availability_eq i hi, holders, countValues_erase h]
    simp
  · simpa [s₁] using hcount hs.missing_eq

/-! ## Peers come and go -/

lemma without_eq_done {p : Piece K} {peer : K} : p.without peer = .done ↔ p = .done := by
  cases p with
  | inFlight rs =>
    simp only [Piece.without, reduceCtorEq, iff_false]
    split <;> simp
  | missing => simp [Piece.without]
  | done => simp [Piece.without]

lemma without_eq_inFlight {p : Piece K} {peer : K} {rs' : List K}
    (h : p.without peer = .inFlight rs') :
    ∃ rs, p = .inFlight rs ∧ rs' = rs.filter (· ≠ peer) ∧ rs' ≠ [] := by
  cases p with
  | inFlight rs =>
    by_cases hnil : rs.filter (· ≠ peer) = []
    · simp only [Piece.without, hnil, if_true, reduceCtorEq] at h
    · simp only [Piece.without, hnil, if_false, Piece.inFlight.injEq] at h
      exact ⟨rs, rfl, h.symm, h ▸ hnil⟩
  | missing => simp [Piece.without] at h
  | done => simp [Piece.without] at h

/-- Forgetting an absent peer changes no piece. -/
lemma map_without_of_absent {s : Scheduler K} (hs : s.Consistent) {peer : K}
    (h : s.peers.lookup peer = none) : s.pieces.map (Piece.without peer) = s.pieces := by
  have hid : ∀ p ∈ s.pieces, p.without peer = id p := by
    intro p hp
    obtain ⟨i, hi⟩ := List.getElem?_of_mem hp
    cases p with
    | inFlight rs =>
      have hrs := hs.requesters i rs hi
      have hfilter : rs.filter (· ≠ peer) = rs := by
        apply List.filter_eq_self.2
        intro q hq
        have hne : q ≠ peer := by
          rintro rfl
          exact AList.lookup_eq_none.1 h (hrs.present q hq)
        simpa using hne
      simp only [Piece.without, hfilter, hrs.ne_nil, if_false, id]
    | missing => rfl
    | done => rfl
  rw [List.map_congr_left hid, List.map_id]

lemma removePeer_consistent {s : Scheduler K} (hs : s.Consistent) (peer : K) :
    ∃ s', s.removePeer peer = some s' ∧ s'.Consistent ∧
      s'.pieces = s.pieces.map (Piece.without peer) ∧ s'.peers = s.peers.erase peer ∧
      s'.firstNotDone = s.firstNotDone := by
  cases h : s.peers.lookup peer with
  | none =>
    refine ⟨s, by simp [removePeer, h], hs, (map_without_of_absent hs h).symm,
      (erase_of_lookup_none h).symm, rfl⟩
  | some bits =>
    obtain ⟨av, m, heq, havl, hav, hm⟩ := removePeer_spec hs h
    refine ⟨_, heq, ?_, rfl, rfl, rfl⟩
    have hdone : ∀ i : ℕ, (s.pieces.map (Piece.without peer))[i]? = some .done ↔
        s.pieces[i]? = some .done := by
      intro i
      simp [List.getElem?_map, without_eq_done]
    constructor
    · exact hm
    · have hcount : (s.pieces.map (Piece.without peer)).count .done = s.pieces.count .done := by
        rw [List.count_eq_countP, List.count_eq_countP, List.countP_map]
        apply List.countP_congr
        intro p _
        simp [without_eq_done]
      simp only [hcount]
      exact hs.done_eq
    · intro q b hq
      have hne : q ≠ peer := by
        rintro rfl
        simp [AList.lookup_erase] at hq
      rw [AList.lookup_erase_ne hne] at hq
      simpa using hs.bits_length q b hq
    · exact lt_of_le_of_lt (length_keys_erase_le _ _) hs.few_peers
    · simpa using havl
    · intro i hi
      exact hav i (by simpa using hi)
    · intro i rs' hrs'
      simp only [List.getElem?_map, Option.map_eq_some_iff] at hrs'
      obtain ⟨p, hp, hpw⟩ := hrs'
      obtain ⟨rs, rfl, rfl, hne⟩ := without_eq_inFlight hpw
      have hrs := hs.requesters i rs hp
      refine ⟨hne, hrs.nodup.filter _, (List.length_filter_le _ _).trans hrs.length_le, ?_⟩
      intro q hq
      have hq' := List.mem_filter.1 hq
      exact AList.mem_erase.2 ⟨by simpa using hq'.2, hrs.present q hq'.1⟩
    · exact hs.playhead.congr rfl hdone

lemma addPeer_consistent {s : Scheduler K} (hs : s.Consistent) (peer : K) {held : List Bool}
    (hlen : held.length = s.pieces.length) (hfew : s.peers.keys.length + 1 < 2 ^ 32) :
    ∃ s', s.addPeer peer held = some s' ∧ s'.Consistent ∧
      s'.pieces = s.pieces.map (Piece.without peer) ∧
      s'.peers = (s.peers.erase peer).insert peer held ∧ s'.firstNotDone = s.firstNotDone := by
  obtain ⟨s₁, heq, hs₁, hpieces, hpeers, hfirst⟩ := removePeer_consistent hs peer
  have hlen₁ : held.length = s₁.pieces.length := by rw [hpieces, List.length_map, hlen]
  have hkeys : s₁.peers.keys.length ≤ s.peers.keys.length := by
    rw [hpeers]
    exact length_keys_erase_le _ _
  -- `add_peer` removes the peer first, so that its old bitfield is not counted twice
  have herase : s₁.peers.erase peer = s₁.peers := by
    apply erase_of_lookup_none
    rw [hpeers, AList.lookup_erase]
  obtain ⟨r, hr, hrl, hri⟩ := countUp_spec held s₁.availability
    (by rw [hs₁.availability_length, hlen₁]) (by
      intro a ha
      obtain ⟨i, hi⟩ := List.getElem?_of_mem ha
      have hlt : i < s₁.pieces.length := by
        rw [← hs₁.availability_length]
        exact (List.getElem?_eq_some_iff.1 hi).1
      have := hs₁.availability_eq i hlt
      rw [hi, Option.some.injEq] at this
      have hle := countValues_le s₁.peers fun bits => bits.getD i false
      rw [this, holders]
      omega)
  refine ⟨{ s₁ with availability := r, peers := s₁.peers.insert peer held }, ?_, ?_, hpieces, ?_,
    hfirst⟩
  · simp only [addPeer, heq, Option.bind_eq_bind, Option.bind_some]
    rw [← hlen₁, List.take_length, hr]
    rfl
  · constructor
    · exact hs₁.missing_eq
    · exact hs₁.done_eq
    · intro q b hq
      by_cases hne : q = peer
      · subst hne
        rw [AList.lookup_insert, Option.some.injEq] at hq
        rw [← hq, hlen₁]
      · rw [AList.lookup_insert_ne hne] at hq
        exact hs₁.bits_length q b hq
    · have : (s₁.peers.insert peer held).keys.length ≤ s₁.peers.keys.length + 1 := by
        rw [AList.keys_insert, List.length_cons]
        exact Nat.succ_le_succ List.length_erase_le
      exact lt_of_le_of_lt this (by omega)
    · rw [hrl, hs₁.availability_length]
    · intro i hi
      rw [hri i, hs₁.availability_eq i hi, holders, holders, countValues_insert, herase]
      simp
    · intro i rs hrs
      exact (hs₁.requesters i rs hrs).mono fun p _ hp => (AList.mem_insert _).2 (Or.inr hp)
    · exact hs₁.playhead.congr rfl fun i => Iff.rfl
  · rw [← hpeers]

/-! ## One bit of a peer changes -/

/-- The invariant survives a change of one bit of a present peer together with its counter. -/
lemma Consistent.setBit {s : Scheduler K} (hs : s.Consistent) {peer : K} {bits : List Bool}
    (hpeer : s.peers.lookup peer = some bits) {i : ℕ} (hi : i < s.pieces.length) (b : Bool)
    {a : ℕ} (ha : a = countValues (s.peers.erase peer) (fun bits => bits.getD i false) + b.toNat) :
    { s with peers := s.peers.insert peer (bits.set i b),
             availability := s.availability.set i a }.Consistent := by
  have hmem : peer ∈ s.peers := AList.lookup_isSome.1 (by simp [hpeer])
  have hlen := hs.bits_length peer bits hpeer
  constructor
  · exact hs.missing_eq
  · exact hs.done_eq
  · intro q bs hq
    by_cases hne : q = peer
    · subst hne
      simp only [AList.lookup_insert, Option.some.injEq] at hq
      rw [← hq, List.length_set, hlen]
    · simp only [AList.lookup_insert_ne hne] at hq
      exact hs.bits_length q bs hq
  · have hkeys : peer ∈ s.peers.keys := AList.mem_keys.1 hmem
    have : (s.peers.insert peer (bits.set i b)).keys.length = s.peers.keys.length := by
      rw [AList.keys_insert, List.length_cons, List.length_erase_of_mem hkeys]
      have := List.length_pos_of_mem hkeys
      omega
    exact lt_of_eq_of_lt this hs.few_peers
  · simp [hs.availability_length]
  · intro j hj
    have hav := hs.availability_eq j hj
    rw [holders, countValues_erase hpeer] at hav
    rw [holders, countValues_insert]
    by_cases hij : j = i
    · subst hij
      rw [List.getElem?_set_self (by rw [hs.availability_length]; exact hj), ha]
      simp [List.getElem?_set_self (by rw [hlen]; exact hj)]
    · rw [List.getElem?_set_ne (Ne.symm hij), hav]
      simp [List.getElem?_set_ne (Ne.symm hij)]
  · intro j rs hrs
    exact (hs.requesters j rs hrs).mono fun p _ hp => (AList.mem_insert _).2 (Or.inr hp)
  · exact hs.playhead.congr rfl fun j => Iff.rfl

/-- The counter of a piece, seen from one of the peers. -/
lemma Consistent.availability_of_peer {s : Scheduler K} (hs : s.Consistent) {peer : K}
    {bits : List Bool} (hpeer : s.peers.lookup peer = some bits) {i : ℕ} {b : Bool}
    (hb : bits[i]? = some b) :
    i < s.pieces.length ∧ s.availability[i]? =
      some (countValues (s.peers.erase peer) (fun bits => bits.getD i false) + b.toNat) := by
  have hi : i < s.pieces.length := by
    rw [← hs.bits_length peer bits hpeer]
    exact (List.getElem?_eq_some_iff.1 hb).1
  refine ⟨hi, ?_⟩
  rw [hs.availability_eq i hi, holders, countValues_erase hpeer, List.getD_eq_getElem?_getD, hb]
  rfl

lemma setPeerHas_consistent {s : Scheduler K} (hs : s.Consistent) (peer : K) (piece : ℕ) :
    ∃ s', s.setPeerHas peer piece = some s' ∧ s'.Consistent ∧ s'.pieces = s.pieces ∧
      (∀ q, q ∈ s'.peers ↔ q ∈ s.peers) ∧ s'.firstNotDone = s.firstNotDone := by
  cases h : s.peers.lookup peer with
  | none => exact ⟨s, by simp [setPeerHas, h], hs, rfl, fun q => Iff.rfl, rfl⟩
  | some bits =>
    by_cases hb : bits[piece]? = some false
    · obtain ⟨hi, ha⟩ := hs.availability_of_peer h hb
      have hcons := hs.setBit h hi true rfl
      have hfew : countValues (s.peers.erase peer) (fun bits => bits.getD piece false) + 1
          < 2 ^ 32 := by
        have h₁ := countValues_le (s.peers.erase peer) fun bits => bits.getD piece false
        have h₂ : (s.peers.erase peer).keys.length + 1 = s.peers.keys.length := by
          have hkeys : peer ∈ s.peers.keys :=
            AList.mem_keys.1 (AList.lookup_isSome.1 (by simp [h]))
          have := List.length_pos_of_mem hkeys
          rw [AList.keys_erase, List.length_erase_of_mem hkeys]
          omega
        have := hs.few_peers
        omega
      refine ⟨_, ?_, hcons, rfl, ?_, rfl⟩
      · simp only [setPeerHas, h, hb, if_true, ha, Option.bind_eq_bind, Option.bind_some,
          Bool.toNat_false, Nat.add_zero, checkedAdd_of_lt hfew]
        rfl
      · intro q
        simp only [AList.mem_insert, or_iff_right_iff_imp]
        rintro rfl
        exact AList.lookup_isSome.1 (by simp [h])
    · exact ⟨s, by simp [setPeerHas, h, hb], hs, rfl, fun q => Iff.rfl, rfl⟩

/-! ## One piece changes -/

/-- The invariant survives a change of one piece, once the counters and the playhead agree
with it again. -/
lemma Consistent.setPiece {s s' : Scheduler K} (hs : s.Consistent) {i : ℕ} {p : Piece K}
    (hpieces : s'.pieces = s.pieces.set i p) (hpeers : s'.peers = s.peers)
    (hav : s'.availability = s.availability)
    (hmissing : s'.missing = s'.pieces.count .missing)
    (hdone : s'.done = s'.pieces.count .done)
    (hrs : ∀ rs, p = .inFlight rs → s.RequestersOk rs) (hplay : s'.PlayheadOk) :
    s'.Consistent := by
  have hlen : s'.pieces.length = s.pieces.length := by rw [hpieces, List.length_set]
  refine ⟨hmissing, hdone, ?_, ?_, ?_, ?_, ?_, hplay⟩
  · rw [hpeers, hlen]
    exact hs.bits_length
  · rw [hpeers]
    exact hs.few_peers
  · rw [hav, hlen]
    exact hs.availability_length
  · intro j hj
    rw [hav, holders, hpeers]
    exact hs.availability_eq j (hlen ▸ hj)
  · intro j rs hj
    have hmono : ∀ {rs : List K}, s.RequestersOk rs → s'.RequestersOk rs := fun h =>
      h.mono fun q _ hq => hpeers ▸ hq
    rw [hpieces] at hj
    by_cases hij : i = j
    · subst hij
      have hi := (List.getElem?_eq_some_iff.1 hj).1
      rw [List.length_set] at hi
      rw [List.getElem?_set_self hi] at hj
      exact hmono (hrs rs (by simpa using hj))
    · rw [List.getElem?_set_ne hij] at hj
      exact hmono (hs.requesters j rs hj)

/-- Replacing a piece that is not done by one that is not done keeps the playhead. -/
lemma PlayheadOk.set {s s' : Scheduler K} (h : s.PlayheadOk) {i : ℕ} {p p' : Piece K}
    (hp : s.pieces[i]? = some p) (hnd : p ≠ .done) (hnd' : p' ≠ .done)
    (hpieces : s'.pieces = s.pieces.set i p') (hfirst : s'.firstNotDone = s.firstNotDone) :
    s'.PlayheadOk := by
  refine h.congr hfirst fun j => ?_
  rw [hpieces]
  by_cases hij : i = j
  · subst hij
    have hi := (List.getElem?_eq_some_iff.1 hp).1
    simp [List.getElem?_set_self hi, hp, hnd, hnd']
  · rw [List.getElem?_set_ne hij]

lemma dropRequest_consistent {s : Scheduler K} (hs : s.Consistent) {i : ℕ}
    (hi : i < s.pieces.length) (peer : K) :
    ∃ s', s.dropRequest i peer = some s' ∧ s'.Consistent ∧
      s'.pieces = s.pieces.set i (s.pieces[i].without peer) ∧ s'.peers = s.peers ∧
      s'.availability = s.availability ∧ s'.firstNotDone = s.firstNotDone := by
  have hp : s.pieces[i]? = some s.pieces[i] := List.getElem?_eq_getElem hi
  obtain ⟨m, heq, hm⟩ := dropRequest_spec s hp peer
  refine ⟨_, heq, ?_, rfl, rfl, rfl, rfl⟩
  have hcount := count_set hp .done (s.pieces[i].without peer)
  have hdone : (s.pieces.set i (s.pieces[i].without peer)).count .done = s.pieces.count .done := by
    simp only [without_eq_done] at hcount
    omega
  refine hs.setPiece rfl rfl rfl (hm hs.missing_eq) (hs.done_eq.trans hdone.symm) ?_ ?_
  · intro rs' hrs'
    obtain ⟨rs, hrs, rfl, hne⟩ := without_eq_inFlight hrs'
    have hok := hs.requesters i rs (by rw [hp, hrs])
    exact ⟨hne, hok.nodup.filter _, (List.length_filter_le _ _).trans hok.length_le,
      fun q hq => hok.present q (List.mem_filter.1 hq).1⟩
  · refine hs.playhead.congr rfl fun j => ?_
    by_cases hij : i = j
    · subst hij
      simp [List.getElem?_set_self hi, hp, without_eq_done]
    · simp [List.getElem?_set_ne hij]

lemma failed_consistent {s : Scheduler K} (hs : s.Consistent) {i : ℕ}
    (hi : i < s.pieces.length) (peer : K) (lacks : Bool) :
    ∃ s', s.failed i peer lacks = some s' ∧ s'.Consistent ∧
      s'.pieces = s.pieces.set i (s.pieces[i].without peer) ∧
      (∀ q, q ∈ s'.peers ↔ q ∈ s.peers) ∧ s'.firstNotDone = s.firstNotDone := by
  obtain ⟨s₁, heq, hs₁, hpieces, hpeers, hav, hfirst⟩ := dropRequest_consistent hs hi peer
  have hsame : ∀ q, q ∈ s₁.peers ↔ q ∈ s.peers := fun q => by rw [hpeers]
  cases lacks with
  | false => exact ⟨s₁, by simp [failed, heq], hs₁, hpieces, hsame, hfirst⟩
  | true =>
    cases h : s₁.peers.lookup peer with
    | none => exact ⟨s₁, by simp [failed, heq, h], hs₁, hpieces, hsame, hfirst⟩
    | some bits =>
      have hlt : i < bits.length := by
        rw [hs₁.bits_length peer bits h, hpieces, List.length_set]
        exact hi
      have hget : bits[i]? = some bits[i] := List.getElem?_eq_getElem hlt
      cases hb : bits[i] with
      | false =>
        refine ⟨s₁, ?_, hs₁, hpieces, hsame, hfirst⟩
        simp [failed, heq, h, hget, hb]
      | true =>
        rw [hb] at hget
        obtain ⟨hi₁, ha⟩ := hs₁.availability_of_peer h hget
        have hcons := hs₁.setBit h hi₁ false rfl
        refine ⟨_, ?_, hcons, hpieces, ?_, hfirst⟩
        · simp only [failed, heq, h, hget, ha, Option.bind_eq_bind, Option.bind_some, if_true,
            Bool.toNat_true, Bool.toNat_false, Nat.add_zero,
            checkedSub_of_le (Nat.le_add_left 1 _), Nat.add_sub_cancel]
          rfl
        · intro q
          simp only [AList.mem_insert, hsame]
          constructor
          · rintro (rfl | hq)
            · exact (hsame q).1 (AList.lookup_isSome.1 (by simp [h]))
            · exact hq
          · exact Or.inr

end Scheduler

end Chorrent
