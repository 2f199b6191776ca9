/-
# What `pick` and `complete` do

The inversion lemmas for the two operations that hand out pieces and take them back: which
piece `pick` may return, and when `complete` counts a piece.
-/
import Chorrent.Scheduler.Invariant

namespace Chorrent.Scheduler

open Lib

variable {K : Type} [DecidableEq K]

/-- A peer with these bits holds piece `i` and `i` is missing. -/
def IsWanted (s : Scheduler K) (bits : List Bool) (i : ℕ) : Prop :=
  bits[i]? = some true ∧ s.pieces[i]? = some .missing

instance (s : Scheduler K) (bits : List Bool) (i : ℕ) : Decidable (s.IsWanted bits i) :=
  inferInstanceAs (Decidable (_ ∧ _))

/-- A piece in flight that a peer with these bits could help with. -/
def CanHelp (s : Scheduler K) (peer : K) (bits : List Bool) (i : ℕ) (rs : List K) : Prop :=
  bits[i]? = some true ∧ s.pieces[i]? = some (.inFlight rs) ∧
    rs.length < endgameDuplicates ∧ peer ∉ rs

lemma wanted_eq {s : Scheduler K} {bits : List Bool} {i : ℕ} (hlen : bits.length = s.pieces.length)
    (hi : i < s.pieces.length) : s.wanted bits i = some (decide (s.IsWanted bits i)) := by
  have hb : bits[i]? = some bits[i] := List.getElem?_eq_getElem (by omega)
  have hp : s.pieces[i]? = some s.pieces[i] := List.getElem?_eq_getElem hi
  cases h : bits[i] <;> simp [wanted, IsWanted, hb, hp, h]

/-- A monadic search with a test that always has an answer is an ordinary search. -/
lemma findM?_eq {p : ℕ → Option Bool} {f : ℕ → Bool} : ∀ l : List ℕ,
    (∀ i ∈ l, p i = some (f i)) → l.findM? p = some (l.find? f)
  | [], _ => rfl
  | i :: l, h => by
    have ih := findM?_eq l fun j hj => h j (by simp [hj])
    cases hf : f i <;> simp [List.findM?, List.find?, h i (by simp), hf, ih]

/-- The scan of rarest-first returns what it had, or a wanted piece; it returns something
if it had something or met a wanted piece. -/
lemma rarestScan_spec {s : Scheduler K} (hs : s.Consistent) {bits : List Bool}
    (hlen : bits.length = s.pieces.length) (l : List ℕ) :
    (∀ i ∈ l, i < s.pieces.length) → ∀ best seen,
    ∃ r, s.rarestScan bits l best seen = some r ∧
      (∀ b, r = some b → best = some b ∨ s.IsWanted bits b.1) := by
  induction l with
  | nil => intro _ best seen; exact ⟨best, rfl, fun b hb => Or.inl hb⟩
  | cons i l ih =>
    intro hl best seen
    have hi := hl i (by simp)
    have ih := ih fun j hj => hl j (by simp [hj])
    by_cases hw : s.IsWanted bits i
    · have hav := hs.availability_eq i hi
      let best' := if best.all fun b => decide (s.holders i < b.2) then some (i, s.holders i)
        else best
      have hbest : ∀ b, best' = some b → best = some b ∨ s.IsWanted bits b.1 := by
        intro b hb
        simp only [best'] at hb
        split_ifs at hb
        · right
          simp only [Option.some.injEq] at hb
          rw [← hb]
          exact hw
        · exact Or.inl hb
      by_cases hstop : seen + 1 ≥ rarestSample ∨ s.holders i ≤ 1
      · refine ⟨best', ?_, hbest⟩
        simp [rarestScan, wanted_eq hlen hi, hw, hav, hstop, best']
      · obtain ⟨r, hr, hrb⟩ := ih best' (seen + 1)
        refine ⟨r, ?_, ?_⟩
        · simp only [rarestScan, wanted_eq hlen hi, hw, hav, hstop, decide_true,
            Option.bind_eq_bind, Option.bind_some, if_true, if_false]
          exact hr
        · intro b hb
          rcases hrb b hb with h | h
          · exact hbest b h
          · exact Or.inr h
    · obtain ⟨r, hr, hrb⟩ := ih best seen
      refine ⟨r, ?_, hrb⟩
      simpa [rarestScan, wanted_eq hlen hi, hw] using hr

/-- Every endgame candidate is a piece the peer can help with. -/
lemma endgameCandidates_spec {s : Scheduler K} (peer : K) {bits : List Bool}
    (hlen : bits.length = s.pieces.length) (l : List ℕ) :
    (∀ i ∈ l, i < s.pieces.length) →
    ∃ cs, s.endgameCandidates peer bits l = some cs ∧
      ∀ c ∈ cs, ∃ rs, s.CanHelp peer bits c.1 rs ∧ c.2 = rs.length := by
  induction l with
  | nil => intro _; exact ⟨[], rfl, by simp⟩
  | cons i l ih =>
    intro hl
    have hi := hl i (by simp)
    obtain ⟨cs, hcs, hmem⟩ := ih fun j hj => hl j (by simp [hj])
    have hb : bits[i]? = some bits[i] := List.getElem?_eq_getElem (by omega)
    have hp : s.pieces[i]? = some s.pieces[i] := List.getElem?_eq_getElem hi
    cases h : bits[i] with
    | false => exact ⟨cs, by simp [endgameCandidates, hb, h, hcs], hmem⟩
    | true =>
      cases hpi : s.pieces[i] with
      | missing => exact ⟨cs, by simp [endgameCandidates, hb, h, hp, hpi, hcs], hmem⟩
      | done => exact ⟨cs, by simp [endgameCandidates, hb, h, hp, hpi, hcs], hmem⟩
      | inFlight rs =>
        by_cases hok : rs.length < endgameDuplicates ∧ peer ∉ rs
        · refine ⟨(i, rs.length) :: cs, ?_, ?_⟩
          · simp [endgameCandidates, hb, h, hp, hpi, hcs, hok]
          · intro c hc
            rcases List.mem_cons.1 hc with rfl | hc
            · exact ⟨rs, ⟨by rw [hb, h], by rw [hp, hpi], hok.1, hok.2⟩, rfl⟩
            · exact hmem c hc
        · refine ⟨cs, ?_, hmem⟩
          simp only [endgameCandidates, hb, h, hp, hpi, hcs, Option.bind_eq_bind,
            Option.bind_some, if_true, hok, if_false]
          rfl

/-- A choice is a wanted piece, or in the endgame one the peer can help with. -/
lemma choose_spec {s : Scheduler K} (hs : s.Consistent) (peer : K) {bits : List Bool}
    (hlen : bits.length = s.pieces.length) :
    ∃ r, s.choose peer bits = some r ∧ ∀ i, r = some i →
      s.IsWanted bits i ∨ (s.missing = 0 ∧ ∃ rs, s.CanHelp peer bits i rs) := by
  let total := s.pieces.length
  let start := s.firstNotDone
  let window := List.range' start (min (start + s.urgentWindow) total - start)
  have hwindow : ∀ i ∈ window, i < total := by
    intro i hi
    rw [List.mem_range'_1] at hi
    omega
  have hfind : window.findM? (s.wanted bits) =
      some (window.find? fun i => decide (s.IsWanted bits i)) :=
    findM?_eq _ fun i hi => wanted_eq hlen (hwindow i hi)
  have htail : ∀ i ∈ List.range' start (total - start), i < total := by
    intro i hi
    rw [List.mem_range'_1] at hi
    omega
  have hplay : start ≤ total := by
    by_contra hlt
    have := hs.playhead.before total (by omega)
    simp [total] at this
  have hscan : ∀ i ∈ List.range' start (total - start) ++ List.range start, i < total := by
    intro i hi
    rcases List.mem_append.1 hi with h | h
    · exact htail i h
    · have := List.mem_range.1 h
      omega
  obtain ⟨r₂, hr₂, hspec₂⟩ := rarestScan_spec hs hlen _ hscan none 0
  obtain ⟨cs, hcs, hspec₃⟩ := endgameCandidates_spec peer hlen _ htail
  -- the choice of the urgent window
  cases hc₁ : window.find? fun i => decide (s.IsWanted bits i) with
  | some i =>
    refine ⟨some i, ?_, ?_⟩
    · simp only [choose]
      rw [hfind, hc₁]
      simp
    · rintro j hj
      obtain rfl := Option.some.inj hj
      exact Or.inl (by simpa using List.find?_some hc₁)
  | none =>
    by_cases hm : s.missing = 0
    · -- the endgame
      refine ⟨(cs.argmin Prod.snd).map Prod.fst, ?_, ?_⟩
      · simp only [choose]
        rw [hfind, hc₁]
        simp only [hm, lt_irrefl, and_false, false_and, if_false, Option.bind_eq_bind,
          Option.bind_some, and_self, if_true]
        rw [hcs]
        rfl
      · intro i hi
        obtain ⟨c, hc, rfl⟩ := Option.map_eq_some_iff.1 hi
        obtain ⟨rs, hrs, _⟩ := hspec₃ c (List.argmin_mem hc)
        exact Or.inr ⟨hm, rs, hrs⟩
    · by_cases ht : 0 < total
      · -- rarest first
        refine ⟨r₂.map Prod.fst, ?_, ?_⟩
        · simp only [choose]
          rw [hfind, hc₁]
          simp only [Nat.pos_of_ne_zero hm, show 0 < s.pieces.length from ht, and_self, if_true,
            Option.bind_eq_bind, Option.bind_some, hm, and_false, if_false]
          rw [hr₂]
          rfl
        · intro i hi
          obtain ⟨b, hb, rfl⟩ := Option.map_eq_some_iff.1 hi
          rcases hspec₂ b hb with h | h
          · simp at h
          · exact Or.inl h
      · refine ⟨none, ?_, by simp⟩
        simp only [choose]
        rw [hfind, hc₁]
        simp [hm, show ¬ 0 < s.pieces.length from ht]

/-- Everything `pick` can do: nothing; take a missing piece; or join the requesters of a
piece in flight when no piece is missing. -/
lemma pick_cases {s : Scheduler K} (hs : s.Consistent) (peer : K) :
    ∃ s' r, s.pick peer = some (s', r) ∧ s'.Consistent ∧ s'.peers = s.peers ∧
      s'.firstNotDone = s.firstNotDone ∧
      ((r = none ∧ s' = s) ∨
        (∃ i, r = some i ∧ peer ∈ s.peers ∧ s.pieces[i]? = some .missing ∧
          s'.pieces = s.pieces.set i (.inFlight [peer])) ∨
        (∃ i rs, r = some i ∧ peer ∈ s.peers ∧ s.missing = 0 ∧
          s.pieces[i]? = some (.inFlight rs) ∧ rs.length < endgameDuplicates ∧ peer ∉ rs ∧
          s'.pieces = s.pieces.set i (.inFlight (rs ++ [peer])))) := by
  cases h : s.peers.lookup peer with
  | none => exact ⟨s, none, by simp [pick, h], hs, rfl, rfl, Or.inl ⟨rfl, rfl⟩⟩
  | some bits =>
    have hpresent : peer ∈ s.peers := AList.lookup_isSome.1 (by simp [h])
    obtain ⟨r, hr, hspec⟩ := choose_spec hs peer (hs.bits_length peer bits h)
    cases r with
    | none => exact ⟨s, none, by simp [pick, h, hr], hs, rfl, rfl, Or.inl ⟨rfl, rfl⟩⟩
    | some i =>
      rcases hspec i rfl with ⟨_, hp⟩ | ⟨hm, rs, _, hp, hlt, hnot⟩
      · -- a missing piece
        have hcount := count_set hp .missing (.inFlight [peer])
        have hcount' := count_set hp .done (.inFlight [peer])
        simp only [reduceCtorEq, if_true, if_false, Nat.add_zero] at hcount hcount'
        have hpos : 1 ≤ s.missing := by
          rw [hs.missing_eq]
          omega
        refine ⟨{ s with pieces := s.pieces.set i (.inFlight [peer]), missing := s.missing - 1 },
          some i, ?_, ?_, rfl, rfl, Or.inr (Or.inl ⟨i, rfl, hpresent, hp, rfl⟩)⟩
        · simp [pick, h, hr, hp, checkedSub_of_le hpos]
        · refine hs.setPiece rfl rfl rfl ?_ ?_ ?_
            (hs.playhead.set hp (by simp) (by simp) rfl rfl)
          · have := hs.missing_eq
            simp only
            omega
          · exact hs.done_eq.trans hcount'.symm
          · rintro rs hrs
            obtain rfl := Piece.inFlight.inj hrs
            exact ⟨by simp, by simp, by simp [endgameDuplicates], by simpa using hpresent⟩
      · -- a piece in flight, in the endgame
        have hcount := count_set hp .missing (.inFlight (rs ++ [peer]))
        have hcount' := count_set hp .done (.inFlight (rs ++ [peer]))
        simp only [reduceCtorEq, if_false, Nat.add_zero] at hcount hcount'
        have hok := hs.requesters i rs hp
        refine ⟨{ s with pieces := s.pieces.set i (.inFlight (rs ++ [peer])) }, some i, ?_, ?_,
          rfl, rfl, Or.inr (Or.inr ⟨i, rs, rfl, hpresent, hm, hp, hlt, hnot, rfl⟩)⟩
        · simp [pick, h, hr, hp]
        · refine hs.setPiece rfl rfl rfl (hs.missing_eq.trans hcount.symm)
            (hs.done_eq.trans hcount'.symm) ?_ (hs.playhead.set hp (by simp) (by simp) rfl rfl)
          rintro rs' hrs'
          obtain rfl := Piece.inFlight.inj hrs'
          refine ⟨by simp, ?_, ?_, ?_⟩
          · rw [List.nodup_append]
            exact ⟨hok.nodup, by simp, by rintro a ha b hb rfl; simp_all⟩
          · rw [List.length_append]
            exact hlt
          · intro q hq
            rcases List.mem_append.1 hq with hq | hq
            · exact hok.present q hq
            · rw [List.mem_singleton.1 hq]
              exact hpresent

/-- `complete` makes the piece done, and returns whether it was not done before. -/
lemma complete_cases {s : Scheduler K} (hs : s.Consistent) {i : ℕ} (hi : i < s.pieces.length) :
    ∃ s', s.complete i = some (s', decide (s.pieces[i]? ≠ some .done)) ∧ s'.Consistent ∧
      s'.pieces = s.pieces.set i .done ∧ s'.peers = s.peers := by
  have hp : s.pieces[i]? = some s.pieces[i] := List.getElem?_eq_getElem hi
  have hcount := count_set hp .missing (.done)
  have hcount' := count_set hp .done (.done)
  have hmissing := hs.missing_eq
  have hdone := hs.done_eq
  have hself : (s.pieces.set i .done)[i]? = some .done := List.getElem?_set_self hi
  -- everything before the old playhead is still done
  have hbefore : ∀ j < s.firstNotDone, (s.pieces.set i .done)[j]? = some .done := by
    intro j hj
    by_cases hij : i = j
    · exact hij ▸ hself
    · rw [List.getElem?_set_ne hij]
      exact hs.playhead.before j hj
  cases hpi : s.pieces[i] with
  | done =>
    have hsame : s.pieces.set i .done = s.pieces := by rw [← hpi, List.set_getElem_self]
    refine ⟨s, ?_, hs, hsame.symm, rfl⟩
    simp [complete, hp, hpi, hsame]
  | missing =>
    simp only [hpi, reduceCtorEq, if_true, if_false, Nat.add_zero] at hcount hcount'
    have hpos : 1 ≤ s.missing := by omega
    let s₁ : Scheduler K := { s with
      pieces := s.pieces.set i .done, missing := s.missing - 1, done := s.done + 1 }
    refine ⟨s₁.advancePlayhead, ?_, ?_, rfl, rfl⟩
    · simp [complete, hp, hpi, checkedSub_of_le hpos, s₁]
    · refine hs.setPiece rfl rfl rfl ?_ ?_ (by simp) (playheadOk_advance hbefore)
      · simp only [advancePlayhead_missing, advancePlayhead_pieces, s₁]
        omega
      · simp only [advancePlayhead_done, advancePlayhead_pieces, s₁]
        omega
  | inFlight rs =>
    simp only [hpi, reduceCtorEq, if_true, if_false, Nat.add_zero] at hcount hcount'
    let s₁ : Scheduler K := { s with pieces := s.pieces.set i .done, done := s.done + 1 }
    refine ⟨s₁.advancePlayhead, ?_, ?_, rfl, rfl⟩
    · simp [complete, hp, hpi, s₁]
    · refine hs.setPiece rfl rfl rfl ?_ ?_ (by simp) (playheadOk_advance hbefore)
      · simp only [advancePlayhead_missing, advancePlayhead_pieces, s₁]
        omega
      · simp only [advancePlayhead_done, advancePlayhead_pieces, s₁]
        omega

end Chorrent.Scheduler
