/-
# How often a piece is asked for

In the endgame a piece is asked of several peers at once.  This stays within bounds however the
endgame comes and goes: a piece is asked for at most three times, and once more for each time
that an open request for it was given back.
-/
import Chorrent.Lib.Potential
import Chorrent.Scheduler.Policy

namespace Chorrent

open Lib

variable {K : Type} [DecidableEq K]

/-! ## Requests in a run -/

namespace Scheduler

/-- The peer that a call asks for piece `i`. -/
def asksOf (i : ℕ) : Op K × Out → Option K
  | (.pick peer, .picked (some j)) => if j = i then some peer else none
  | _ => none

/-- The peer whose request for piece `i` is over with a call: it failed, or the peer left or sent
its bitfield anew. -/
def takesBackOf (i : ℕ) : Op K × Out → Option K
  | (.failed j peer _, _) => if j = i then some peer else none
  | (.removePeer peer, _) | (.addPeer peer _, _) => some peer
  | _ => none

/-- The call asks a peer for piece `i`. -/
def asks (i : ℕ) (e : Op K × Out) : Bool :=
  (asksOf i e).isSome

/-- The call gives back a request for piece `i`, where the requests of the peers `asked` are
open. -/
def givesBack (i : ℕ) (asked : List K) (e : Op K × Out) : Bool :=
  asked.any (takesBackOf i e = some ·)

/-- The peers whose requests for piece `i` are open after a call. -/
def openAfter (i : ℕ) (asked : List K) (e : Op K × Out) : List K :=
  asked.filter (takesBackOf i e ≠ some ·) ++ (asksOf i e).toList

/-- How often an open request for piece `i` is given back in a run, where the requests of the
peers `asked` are open before it. -/
def givenBack (i : ℕ) : List K → List (Op K × Out) → ℕ
  | _, [] => 0
  | asked, e :: events => (givesBack i asked e).toNat + givenBack i (openAfter i asked e) events

end Scheduler

/-! ## What a call makes of one piece -/

namespace Piece

def requesters : Piece K → List K
  | .inFlight requesters => requesters
  | .missing | .done => []

/-- How many more peers may be asked for the piece as things are. -/
def spare : Piece K → ℕ
  | .missing => endgameDuplicates
  | .inFlight requesters => endgameDuplicates - requesters.length
  | .done => 0

/-- What a call, with what it returned, makes of piece `i`. -/
inductive Turns (e : Scheduler.Op K × Scheduler.Out) (i : ℕ) : Piece K → Piece K → Prop
  | same {p : Piece K} (hask : Scheduler.asksOf i e = none)
      (hback : Scheduler.takesBackOf i e = none) : Turns e i p p
  | asked {p : Piece K} {peer : K} (he : e = (.pick peer, .picked (some i))) (hnot : p ≠ .done)
      (hlt : p.requesters.length < endgameDuplicates) : Turns e i p (p.request peer)
  | completed {p : Piece K} (he : e.1 = .complete i) : Turns e i p .done
  | left {p : Piece K} {peer : K} (hask : Scheduler.asksOf i e = none)
      (hback : Scheduler.takesBackOf i e = some peer) : Turns e i p (p.without peer)

lemma without_of_not_mem {p : Piece K} {peer : K} (hne : p ≠ .inFlight [])
    (h : peer ∉ p.requesters) : p.without peer = p := by
  cases p with
  | missing | done => rfl
  | inFlight rs =>
    have hfilter : rs.filter (· ≠ peer) = rs := by
      rw [List.filter_eq_self]
      intro q hq
      simpa using fun heq : q = peer => h (heq ▸ hq)
    have hrs : rs ≠ [] := fun hnil => hne (hnil ▸ rfl)
    simp only [without, hfilter, hrs, if_false]

lemma requesters_without {p : Piece K} {peer q : K} (h : q ∈ (p.without peer).requesters) :
    q ∈ p.requesters ∧ q ≠ peer := by
  cases p with
  | missing | done => cases h
  | inFlight rs =>
    simp only [without] at h
    split_ifs at h
    · cases h
    · obtain ⟨hq, hne⟩ := List.mem_filter.1 h
      exact ⟨hq, of_decide_eq_true hne⟩

/-- A peer that is forgotten makes room for one. -/
lemma spare_without {p : Piece K} {peer : K} (h : p.requesters.Nodup) :
    (p.without peer).spare ≤ p.spare + 1 := by
  cases p with
  | missing | done => exact Nat.le_succ _
  | inFlight rs =>
    have hlen : rs.length ≤ (rs.filter (· ≠ peer)).length + 1 := by
      have hfilter : rs.filter (· ≠ peer) = rs.erase peer := by
        have hnodup : rs.Nodup := h
        rw [hnodup.erase_eq_filter]
        exact List.filter_congr fun q _ => by by_cases hq : q = peer <;> simp [hq]
      rw [hfilter, List.length_erase]
      split_ifs <;> omega
    simp only [without]
    split_ifs with hnil
    · rw [hnil] at hlen
      simp only [spare, List.length_nil] at hlen ⊢
      omega
    · simp only [spare]
      omega

end Piece

namespace Scheduler

variable {s s' : Scheduler K} {e : Op K × Out} {i : ℕ} {p : Piece K}

lemma piece_turns (hs : s.Consistent) (hstep : s.Step e s') (hp : s.pieces[i]? = some p) :
    ∃ p', s'.pieces[i]? = some p' ∧ p.Turns e i p' := by
  obtain ⟨op, out⟩ := e
  obtain ⟨hop, heq⟩ := hstep
  have hi : i < s.pieces.length := (List.getElem?_eq_some_iff.1 hp).1
  have hmap : ∀ peer, (s.pieces.map (Piece.without peer))[i]? = some (p.without peer) := by
    intro peer
    rw [List.getElem?_map, hp]
    rfl
  cases op with
  | addPeer peer held =>
    obtain ⟨s₁, hadd, -, hpieces, -⟩ := addPeer_consistent hs peer hop.1 hop.2
    simp only [apply, hadd, Option.map_some, Option.some.injEq, Prod.mk.injEq] at heq
    obtain ⟨rfl, rfl⟩ := heq
    exact ⟨_, by rw [hpieces, hmap], .left rfl rfl⟩
  | removePeer peer =>
    obtain ⟨s₁, hremove, -, hpieces, -⟩ := removePeer_consistent hs peer
    simp only [apply, hremove, Option.map_some, Option.some.injEq, Prod.mk.injEq] at heq
    obtain ⟨rfl, rfl⟩ := heq
    exact ⟨_, by rw [hpieces, hmap], .left rfl rfl⟩
  | setPeerHas peer piece =>
    obtain ⟨s₁, hset, -, hpieces, -⟩ := setPeerHas_consistent hs peer piece
    simp only [apply, hset, Option.map_some, Option.some.injEq, Prod.mk.injEq] at heq
    obtain ⟨rfl, rfl⟩ := heq
    exact ⟨p, by rw [hpieces, hp], .same rfl rfl⟩
  | complete piece =>
    obtain ⟨s₁, hcomplete, -, hpieces, -⟩ := complete_cases hs hop
    simp only [apply, hcomplete, Option.map_some, Option.some.injEq, Prod.mk.injEq] at heq
    obtain ⟨rfl, rfl⟩ := heq
    by_cases hpi : piece = i
    · subst hpi
      exact ⟨.done, by rw [hpieces, List.getElem?_set_self hi], .completed rfl⟩
    · exact ⟨p, by rw [hpieces, List.getElem?_set_ne hpi, hp], .same rfl rfl⟩
  | failed piece peer lacks =>
    obtain ⟨s₁, hfailed, -, hpieces, -⟩ := failed_consistent hs hop peer lacks
    simp only [apply, hfailed, Option.map_some, Option.some.injEq, Prod.mk.injEq] at heq
    obtain ⟨rfl, rfl⟩ := heq
    by_cases hpi : piece = i
    · subst hpi
      have hget := Option.some.inj ((List.getElem?_eq_getElem hi).symm.trans hp)
      refine ⟨p.without peer, ?_, .left rfl (if_pos rfl)⟩
      rw [hpieces, List.getElem?_set_self hi]
      exact congrArg (fun p => some (p.without peer)) hget
    · exact ⟨p, by rw [hpieces, List.getElem?_set_ne hpi, hp], .same rfl (if_neg hpi)⟩
  | pick peer =>
    obtain ⟨s₁, r, hpick, -, -, -, hcases⟩ := pick_cases hs peer
    simp only [apply, hpick, Option.map_some, Option.some.injEq, Prod.mk.injEq] at heq
    obtain ⟨rfl, rfl⟩ := heq
    rcases hcases with ⟨rfl, rfl⟩ | ⟨j, rfl, -, hj, hpieces⟩ |
      ⟨j, rs, rfl, -, -, hj, hlt, -, hpieces⟩
    · exact ⟨p, hp, .same rfl rfl⟩
    · by_cases hij : j = i
      · subst hij
        obtain rfl := Option.some.inj (hp.symm.trans hj)
        exact ⟨_, by rw [hpieces, List.getElem?_set_self hi]; rfl,
          .asked rfl (by simp) (Nat.zero_lt_succ _)⟩
      · exact ⟨p, by rw [hpieces, List.getElem?_set_ne hij, hp], .same (if_neg hij) rfl⟩
    · by_cases hij : j = i
      · subst hij
        obtain rfl := Option.some.inj (hp.symm.trans hj)
        exact ⟨_, by rw [hpieces, List.getElem?_set_self hi]; rfl, .asked rfl (by simp) hlt⟩
      · exact ⟨p, by rw [hpieces, List.getElem?_set_ne hij, hp], .same (if_neg hij) rfl⟩

/-! ## The room that is left for requests -/

omit [DecidableEq K] in
lemma takesBackOf_eq_none {peer : K} (h : asksOf i e = some peer) : takesBackOf i e = none := by
  obtain ⟨op, out⟩ := e
  cases op with
  | pick peer => rfl
  | addPeer _ _ | setPeerHas _ _ | removePeer _ | complete _ | failed _ _ _ => cases h

omit [DecidableEq K] in
lemma asksOf_complete (h : e.1 = .complete i) : asksOf i e = none := by
  obtain ⟨op, out⟩ := e
  obtain rfl : op = .complete i := h
  rfl

omit [DecidableEq K] in
lemma asksOf_pick (peer : K) (i : ℕ) : asksOf i (.pick peer, .picked (some i)) = some peer :=
  if_pos rfl

/-- What a call that asks for a piece takes of its room, and how much room it can make. -/
lemma spare_turns {asked : List K} {p' : Piece K} (h : p.Turns e i p')
    (hnodup : p.requesters.Nodup) (hne : p ≠ .inFlight []) (hasked : p.requesters ⊆ asked) :
    p'.spare + (asks i e).toNat ≤ p.spare + (givesBack i asked e).toNat := by
  cases h with
  | same hask =>
    rw [asks, hask]
    exact Nat.le_add_right _ _
  | @asked peer he hnot hlt =>
    rw [asks, he, asksOf_pick]
    refine le_trans ?_ (Nat.le_add_right _ _)
    cases p with
    | missing => exact (le_refl 3 : 2 + 1 ≤ 3)
    | inFlight rs =>
      simp only [Piece.requesters] at hlt
      simp only [Piece.request, Piece.spare, List.length_append, List.length_singleton,
        Option.isSome_some, Bool.toNat_true]
      omega
    | done => exact absurd rfl hnot
  | completed he =>
    rw [asks, asksOf_complete he]
    exact Nat.zero_le _
  | @left peer hask hback =>
    rw [asks, hask]
    by_cases hmem : peer ∈ p.requesters
    · have hgives : givesBack i asked e = true :=
        List.any_eq_true.2 ⟨peer, hasked hmem, decide_eq_true hback⟩
      rw [hgives]
      exact Piece.spare_without hnodup
    · rw [Piece.without_of_not_mem hne hmem]
      exact Nat.le_add_right _ _

/-- The requests of the peers that are asked for a piece are open. -/
lemma requesters_subset_openAfter {asked : List K} {p' : Piece K} (h : p.Turns e i p')
    (hasked : p.requesters ⊆ asked) : p'.requesters ⊆ openAfter i asked e := by
  intro q hq
  have hkept : q ∈ p.requesters → takesBackOf i e ≠ some q → q ∈ openAfter i asked e :=
    fun hmem hnot =>
      List.mem_append_left _ (List.mem_filter.2 ⟨hasked hmem, decide_eq_true hnot⟩)
  cases h with
  | same hask hback => exact hkept hq (by rw [hback]; nofun)
  | @asked peer he hnot =>
    have hask : asksOf i e = some peer := he ▸ asksOf_pick peer i
    have hnew : peer ∈ openAfter i asked e := by
      rw [openAfter, hask]
      exact List.mem_append_right _ (List.mem_singleton_self peer)
    cases p with
    | missing =>
      obtain rfl := List.mem_singleton.1 hq
      exact hnew
    | inFlight rs =>
      rcases List.mem_append.1 hq with hq | hq
      · exact hkept hq (by rw [takesBackOf_eq_none hask]; nofun)
      · obtain rfl := List.mem_singleton.1 hq
        exact hnew
    | done => exact absurd rfl hnot
  | completed => cases hq
  | left hask hback =>
    obtain ⟨hmem, hne⟩ := Piece.requesters_without hq
    exact hkept hmem fun heq => hne (Option.some.inj (heq.symm.trans hback))

lemma Consistent.step (hs : s.Consistent) (hstep : s.Step e s') : s'.Consistent := by
  obtain ⟨s₁, out, heq, hs₁, -⟩ := apply_cases hs hstep.1
  obtain ⟨rfl, -⟩ := Prod.mk.inj (Option.some.inj (heq.symm.trans hstep.2))
  exact hs₁

/-- The lists of requesters of a piece are in order. -/
lemma Consistent.requesters_nodup (hs : s.Consistent) (hp : s.pieces[i]? = some p) :
    p.requesters.Nodup ∧ p ≠ .inFlight [] := by
  cases p with
  | missing | done => exact ⟨List.nodup_nil, by simp⟩
  | inFlight rs =>
    have hok := hs.requesters i rs hp
    exact ⟨hok.nodup, fun heq => hok.ne_nil (Piece.inFlight.inj heq)⟩

/-- A piece that is done is asked for no more. -/
lemma not_asked_of_done {events : List (Op K × Out)} (hs : s.Consistent)
    (hp : s.pieces[i]? = some .done) (hrun : Run Step s events s') :
    events.countP (asks i) = 0 := by
  have hstep : ∀ (s : Scheduler K) e s', e ∈ events →
      (s.Consistent ∧ s.pieces[i]? = some .done) → s.Step e s' →
      (s'.Consistent ∧ s'.pieces[i]? = some .done) ∧ 0 + (asks i e).toNat ≤ 0 + 0 := by
    rintro s e s' - ⟨hs, hp⟩ hstep
    obtain ⟨p', hp', hturns⟩ := piece_turns hs hstep hp
    refine ⟨⟨hs.step hstep, done_of_run hs (.single hstep) hp⟩, ?_⟩
    have hnone : asksOf i e = none := by
      cases hturns with
      | same hask | left hask => exact hask
      | asked _ hnot => exact absurd rfl hnot
      | completed he => exact asksOf_complete he
    rw [asks, hnone]
    exact le_rfl
  obtain ⟨-, hle⟩ := hrun.potential (fun _ => 0) _ (fun _ => 0) hstep ⟨hs, hp⟩
  rw [sum_map_toNat, List.map_const', List.sum_replicate, smul_zero] at hle
  exact Nat.le_zero.1 (by simpa using hle)

/-- The room that is left for requests, and the requests that are given back, pay for each request
of a run. -/
lemma countP_asks_le {events : List (Op K × Out)} {asked : List K} (hrun : Run Step s events s')
    (hs : s.Consistent) (hp : s.pieces[i]? = some p) (hasked : p.requesters ⊆ asked) :
    events.countP (asks i) ≤ p.spare + givenBack i asked events := by
  induction hrun generalizing p asked with
  | nil => exact Nat.zero_le _
  | @cons s s₁ s' e events hstep _ ih =>
    obtain ⟨p₁, hp₁, hturns⟩ := piece_turns hs hstep hp
    obtain ⟨hnodup, hne⟩ := hs.requesters_nodup hp
    have hpays := spare_turns hturns hnodup hne hasked
    have hrest := ih (hs.step hstep) hp₁ (requesters_subset_openAfter hturns hasked)
    have hcount : (e :: events).countP (asks i) =
        events.countP (asks i) + (asks i e).toNat := by
      rw [List.countP_cons]
      cases asks i e <;> rfl
    rw [hcount, givenBack]
    omega

/-- A piece is asked for at most three times, and once more for each time that a request for it,
made before and open until then, failed or its peer left or sent its bitfield anew.  What is there
at the start is never asked for, and neither is a piece that was completed. -/
theorem work_bounded (held : List Bool) (window : ℕ) :
    ∃ s₀ : Scheduler K, new held window = some s₀ ∧ ∀ events s, Run Step s₀ events s →
      ∀ i < held.length,
        events.countP (asks i) ≤ endgameDuplicates + givenBack i [] events ∧
        (held[i]? = some true → events.countP (asks i) = 0) ∧
        ∀ pre first post, events = pre ++ (.complete i, .completed first) :: post →
          post.countP (asks i) = 0 := by
  obtain ⟨s₀, hnew, hs₀, hpieces, -⟩ := new_consistent (K := K) held window
  refine ⟨s₀, hnew, fun events s hrun i hi => ⟨?_, fun hheld => ?_, fun pre first post heq => ?_⟩⟩
  · obtain ⟨p₀, hp₀⟩ : ∃ p₀, s₀.pieces[i]? = some p₀ :=
      ⟨_, List.getElem?_eq_getElem (by rw [hpieces, List.length_map]; exact hi)⟩
    have hspare : p₀.spare ≤ endgameDuplicates ∧ p₀.requesters = [] := by
      rw [hpieces, List.getElem?_map] at hp₀
      obtain ⟨b, -, rfl⟩ := Option.map_eq_some_iff.1 hp₀
      cases b
      · exact ⟨le_rfl, rfl⟩
      · exact ⟨Nat.zero_le _, rfl⟩
    have hnone : p₀.requesters ⊆ [] := by rw [hspare.2]; exact List.Subset.refl _
    have hle := countP_asks_le hrun hs₀ hp₀ hnone
    have := hspare.1
    omega
  · refine not_asked_of_done hs₀ ?_ hrun
    rw [hpieces, List.getElem?_map, hheld]
    rfl
  · subst heq
    obtain ⟨s₁, hpre, hpost⟩ := hrun.of_append
    cases hpost with
    | @cons _ s₂ _ _ _ hstep hpost =>
      have hs₁ : s₁.Consistent := hpre.invariant (fun _ _ _ hs hstep => hs.step hstep) hs₀
      obtain ⟨p, hp⟩ : ∃ p, s₁.pieces[i]? = some p :=
        ⟨_, List.getElem?_eq_getElem hstep.1⟩
      obtain ⟨p', hp', hturns⟩ := piece_turns hs₁ hstep hp
      have hdone : s₂.pieces[i]? = some .done := by
        obtain ⟨s', out, heq, -, -, hdone, -⟩ := apply_cases hs₁ hstep.1
        obtain ⟨rfl, -⟩ := Prod.mk.inj (Option.some.inj (heq.symm.trans hstep.2))
        exact (hdone i).2 (.inr rfl)
      exact not_asked_of_done (hs₁.step hstep) hdone hpost

end Scheduler

end Chorrent
