/-
# What scheduler calls do to outstanding requests

For each call the engine makes: which requesters a piece may lose.  Completing a piece and
learning of a piece that a peer has lose none; giving back a piece loses one; removing or
adding a peer loses the requests of that peer.
-/
import Chorrent.Scheduler.Runs

namespace Chorrent

variable {K : Type} [DecidableEq K]

/-- The piece is done, or in flight with `peer` among its requesters. -/
def Piece.Serves (peer : K) : Piece K → Prop
  | .missing => False
  | .inFlight requesters => peer ∈ requesters
  | .done => True

lemma Piece.Serves.without {p : Piece K} {peer q : K} (h : p.Serves peer) (hne : peer ≠ q) :
    (p.without q).Serves peer := by
  cases p with
  | missing => exact h
  | done => trivial
  | inFlight rs =>
    have hmem : peer ∈ rs.filter (· ≠ q) := List.mem_filter.2 ⟨h, by simpa using hne⟩
    rw [Piece.without, if_neg (List.ne_nil_of_mem hmem)]
    exact hmem

namespace Scheduler

/-- Piece `i` is done, or in flight with `peer` among its requesters. -/
def Requested (s : Scheduler K) (i : ℕ) (peer : K) : Prop :=
  ∃ p, s.pieces[i]? = some p ∧ p.Serves peer

/-- No piece is requested from two peers. -/
def Single (s : Scheduler K) : Prop :=
  ∀ (i : ℕ) (rs : List K), s.pieces[i]? = some (.inFlight rs) → rs.length ≤ 1

lemma requested_of_done {s : Scheduler K} {i : ℕ} (h : s.pieces[i]? = some .done) (peer : K) :
    s.Requested i peer :=
  ⟨.done, h, trivial⟩

/-- A call that loses no requests but the `lost` ones. -/
structure Follows (s s' : Scheduler K) (lost : ℕ → K → Prop) : Prop where
  consistent : s'.Consistent
  length_eq : s'.pieces.length = s.pieces.length
  done : ∀ i : ℕ, s.pieces[i]? = some .done → s'.pieces[i]? = some .done
  keep : ∀ i peer, ¬ lost i peer → s.Requested i peer → s'.Requested i peer

variable {s s' : Scheduler K}

lemma Follows.of_pieces_eq (hs : s'.Consistent) (h : s'.pieces = s.pieces) (lost : ℕ → K → Prop) :
    Follows s s' lost := by
  refine ⟨hs, by rw [h], fun i hi => by rw [h]; exact hi, ?_⟩
  rintro i peer - ⟨p, hp, hserves⟩
  exact ⟨p, by rw [h]; exact hp, hserves⟩

/-- Forgetting the requests of a peer. -/
lemma Follows.of_map_without (hs : s'.Consistent) {peer : K}
    (h : s'.pieces = s.pieces.map (Piece.without peer)) :
    Follows s s' fun _ q => q = peer := by
  refine ⟨hs, by rw [h, List.length_map], fun i hi => ?_, ?_⟩
  · rw [h, List.getElem?_map, hi]
    rfl
  · rintro i q hne ⟨p, hp, hserves⟩
    exact ⟨p.without peer, by rw [h, List.getElem?_map, hp]; rfl, hserves.without hne⟩

/-- Replacing one piece. -/
lemma Follows.of_set (hs : s'.Consistent) {i : ℕ} {p p' : Piece K} {lost : ℕ → K → Prop}
    (hp : s.pieces[i]? = some p) (h : s'.pieces = s.pieces.set i p')
    (hdone : p = .done → p' = .done)
    (hkeep : ∀ peer, ¬ lost i peer → p.Serves peer → p'.Serves peer) : Follows s s' lost := by
  have hself : s'.pieces[i]? = some p' := by
    rw [h, List.getElem?_set_self (List.getElem?_eq_some_iff.1 hp).1]
  have hne : ∀ {j : ℕ}, i ≠ j → s'.pieces[j]? = s.pieces[j]? := fun hij => by
    rw [h, List.getElem?_set_ne hij]
  refine ⟨hs, by rw [h, List.length_set], fun j hj => ?_, ?_⟩
  · by_cases hij : i = j
    · subst hij
      rw [hself, hdone (Option.some.inj (hp.symm.trans hj))]
    · rw [hne hij, hj]
  · rintro j peer hnot ⟨q, hq, hserves⟩
    by_cases hij : i = j
    · subst hij
      obtain rfl : p = q := Option.some.inj (hp.symm.trans hq)
      exact ⟨p', hself, hkeep peer hnot hserves⟩
    · exact ⟨q, by rw [hne hij, hq], hserves⟩

lemma Single.map_without (hs : s.Single) {peer : K}
    (h : s'.pieces = s.pieces.map (Piece.without peer)) : s'.Single := by
  intro i rs' hi
  rw [h, List.getElem?_map, Option.map_eq_some_iff] at hi
  obtain ⟨p, hp, hpw⟩ := hi
  obtain ⟨rs, rfl, rfl, -⟩ := without_eq_inFlight hpw
  exact (List.length_filter_le _ _).trans (hs i rs hp)

lemma Single.set (hs : s.Single) {i : ℕ} {p : Piece K} (hi : i < s.pieces.length)
    (h : s'.pieces = s.pieces.set i p) (hp : ∀ rs, p = .inFlight rs → rs.length ≤ 1) :
    s'.Single := by
  intro j rs hj
  by_cases hij : i = j
  · subst hij
    rw [h, List.getElem?_set_self hi] at hj
    exact hp rs (Option.some.inj hj)
  · rw [h, List.getElem?_set_ne hij] at hj
    exact hs j rs hj

/-! ## The calls -/

lemma addPeer_follows (hs : s.Consistent) {peer : K} {held : List Bool}
    (hlen : held.length = s.pieces.length) (hfew : s.peers.keys.length + 1 < 2 ^ 32)
    (h : s.addPeer peer held = some s') :
    (Follows s s' fun _ q => q = peer) ∧ (s.Single → s'.Single) ∧
      s'.pieces = s.pieces.map (Piece.without peer) ∧
      ∀ q ∈ s'.peers, q = peer ∨ q ∈ s.peers := by
  obtain ⟨s₁, heq, hs₁, hpieces, hpeers, -⟩ := addPeer_consistent hs peer hlen hfew
  obtain rfl : s₁ = s' := Option.some.inj (heq.symm.trans h)
  refine ⟨Follows.of_map_without hs₁ hpieces, fun hsingle => hsingle.map_without hpieces, hpieces,
    fun q hq => ?_⟩
  rw [hpeers, AList.mem_insert] at hq
  exact hq.imp_right fun hmem => (AList.mem_erase.1 hmem).2

lemma removePeer_follows (hs : s.Consistent) {peer : K} (h : s.removePeer peer = some s') :
    (Follows s s' fun _ q => q = peer) ∧ (s.Single → s'.Single) ∧
      ∀ q ∈ s'.peers, q ≠ peer ∧ q ∈ s.peers := by
  obtain ⟨s₁, heq, hs₁, hpieces, hpeers, -⟩ := removePeer_consistent hs peer
  obtain rfl : s₁ = s' := Option.some.inj (heq.symm.trans h)
  refine ⟨Follows.of_map_without hs₁ hpieces, fun hsingle => hsingle.map_without hpieces,
    fun q hq => ?_⟩
  rw [hpeers] at hq
  exact AList.mem_erase.1 hq

lemma setPeerHas_follows (hs : s.Consistent) {peer : K} {piece : ℕ}
    (h : s.setPeerHas peer piece = some s') :
    (Follows s s' fun _ _ => False) ∧ (s.Single → s'.Single) ∧
      ∀ q ∈ s'.peers, q ∈ s.peers := by
  obtain ⟨s₁, heq, hs₁, hpieces, hpeers, -⟩ := setPeerHas_consistent hs peer piece
  obtain rfl : s₁ = s' := Option.some.inj (heq.symm.trans h)
  refine ⟨Follows.of_pieces_eq hs₁ hpieces _, fun hsingle i rs hi => ?_,
    fun q hq => (hpeers q).1 hq⟩
  exact hsingle i rs (hpieces ▸ hi)

lemma complete_follows (hs : s.Consistent) {i : ℕ} {first : Bool} (hi : i < s.pieces.length)
    (h : s.complete i = some (s', first)) :
    (Follows s s' fun _ _ => False) ∧ (s.Single → s'.Single) ∧ ∀ q ∈ s'.peers, q ∈ s.peers := by
  obtain ⟨s₁, heq, hs₁, hpieces, hpeers⟩ := complete_cases hs hi
  obtain ⟨rfl, -⟩ := Prod.mk.inj (Option.some.inj (heq.symm.trans h))
  exact ⟨Follows.of_set hs₁ (List.getElem?_eq_getElem hi) hpieces (fun _ => rfl)
    fun _ _ _ => trivial, fun hsingle => hsingle.set hi hpieces (by simp), fun q hq => hpeers ▸ hq⟩

lemma failed_follows (hs : s.Consistent) {i : ℕ} {peer : K} {lacks : Bool}
    (hi : i < s.pieces.length) (h : s.failed i peer lacks = some s') :
    (Follows s s' fun j q => j = i ∧ q = peer) ∧ (s.Single → s'.Single) ∧
      s'.pieces = s.pieces.set i (s.pieces[i].without peer) ∧ ∀ q ∈ s'.peers, q ∈ s.peers := by
  obtain ⟨s₁, heq, hs₁, hpieces, hpeers, -⟩ := failed_consistent hs hi peer lacks
  obtain rfl : s₁ = s' := Option.some.inj (heq.symm.trans h)
  have hp : s.pieces[i]? = some s.pieces[i] := List.getElem?_eq_getElem hi
  refine ⟨?_, fun hsingle => hsingle.set hi hpieces fun rs' hrs' => ?_, hpieces,
    fun q hq => (hpeers q).1 hq⟩
  · exact Follows.of_set hs₁ hp hpieces (fun hd => by rw [hd]; rfl)
      fun q hnot hserves => hserves.without fun heq => hnot ⟨rfl, heq⟩
  · obtain ⟨rs, hrs, rfl, -⟩ := without_eq_inFlight hrs'
    exact (List.length_filter_le _ _).trans (hsingle i rs (by rw [hp, hrs]))

/-- What `pick` does: nothing, or it adds the peer to the requesters of one piece that it
did not request before.  A piece with requesters is only picked when none is missing. -/
lemma pick_follows (hs : s.Consistent) {peer : K} {r : Option ℕ}
    (h : s.pick peer = some (s', r)) :
    s'.peers = s.peers ∧ (Follows s s' fun _ _ => False) ∧
      ((r = none ∧ s' = s) ∨
        ∃ i, r = some i ∧ i < s.pieces.length ∧ s'.Requested i peer ∧ ¬ s.Requested i peer ∧
          (s.missing ≠ 0 → s.pieces[i]? = some .missing ∧ (s.Single → s'.Single))) := by
  obtain ⟨s₁, r₁, heq, hs₁, hpeers, -, hcases⟩ := pick_cases hs peer
  obtain ⟨rfl, rfl⟩ := Prod.mk.inj (Option.some.inj (heq.symm.trans h))
  have hnone : ∀ {i : ℕ} {p : Piece K}, s.pieces[i]? = some p → ¬ p.Serves peer →
      ¬ s.Requested i peer := by
    rintro i p hp hnot ⟨q, hq, hserves⟩
    obtain rfl : p = q := Option.some.inj (hp.symm.trans hq)
    exact hnot hserves
  refine ⟨hpeers, ?_⟩
  rcases hcases with ⟨rfl, rfl⟩ | ⟨i, rfl, -, hp, hpieces⟩ |
    ⟨i, rs, rfl, -, hm, hp, -, hnot, hpieces⟩
  · exact ⟨Follows.of_pieces_eq hs₁ rfl _, Or.inl ⟨rfl, rfl⟩⟩
  · have hi := (List.getElem?_eq_some_iff.1 hp).1
    refine ⟨Follows.of_set hs₁ hp hpieces (by simp) fun _ _ hserves => hserves.elim,
      Or.inr ⟨i, rfl, hi, ?_, hnone hp id, fun _ => ⟨hp, fun hsingle => ?_⟩⟩⟩
    · refine ⟨.inFlight [peer], by rw [hpieces, List.getElem?_set_self hi], ?_⟩
      exact List.mem_singleton_self peer
    · refine hsingle.set hi hpieces fun rs hrs => ?_
      rw [← Piece.inFlight.inj hrs]
      exact le_rfl
  · have hi := (List.getElem?_eq_some_iff.1 hp).1
    refine ⟨Follows.of_set hs₁ hp hpieces (by simp) fun _ _ => List.mem_append_left _,
      Or.inr ⟨i, rfl, hi, ?_, hnone hp hnot, fun hne => absurd hm hne⟩⟩
    refine ⟨.inFlight (rs ++ [peer]), by rw [hpieces, List.getElem?_set_self hi], ?_⟩
    exact List.mem_append_right _ (List.mem_singleton_self peer)

end Scheduler

end Chorrent
