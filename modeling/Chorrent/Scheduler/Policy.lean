/-
# The policy of `pick`

What `pick` is for, stated without scans: the first wanted piece of the urgent window, else the
rarest of the first few wanted pieces, else, when no piece is missing, the piece in flight that
the fewest peers are asked for.  In every reachable state `pick` returns just that piece, and
its early exits and the order of its scans make no difference.
-/
import Chorrent.Scheduler.Runs

namespace Chorrent

open Lib

variable {K : Type} [DecidableEq K]

/-- The piece with one more requester. -/
def Piece.request (peer : K) : Piece K → Piece K
  | .missing => .inFlight [peer]
  | .inFlight requesters => .inFlight (requesters ++ [peer])
  | .done => .done

namespace Scheduler

/-! ## The policy -/

/-- The number with the lowest key, and of those the lowest number. -/
def lowest (key : ℕ → ℕ) (l : List ℕ) : Option ℕ := l.argmin fun i => toLex (key i, i)

/-- The peers that are asked for piece `i`. -/
def requestersOf (s : Scheduler K) (i : ℕ) : List K :=
  match s.pieces[i]? with
  | some (.inFlight requesters) => requesters
  | _ => []

/-- The peer holds piece `i`, which is in flight, and may be asked for it too. -/
def Helpable (s : Scheduler K) (peer : K) (bits : List Bool) (i : ℕ) : Prop :=
  bits[i]? = some true ∧ s.requestersOf i ≠ [] ∧ (s.requestersOf i).length < endgameDuplicates ∧
    peer ∉ s.requestersOf i

instance (s : Scheduler K) (peer : K) (bits : List Bool) (i : ℕ) :
    Decidable (s.Helpable peer bits i) :=
  inferInstanceAs (Decidable (_ ∧ _))

/-- The pieces the peer holds and nobody is asked for, in order. -/
def wantedPieces (s : Scheduler K) (bits : List Bool) : List ℕ :=
  (List.range s.pieces.length).filter fun i => s.IsWanted bits i

def urgentChoice (s : Scheduler K) (bits : List Bool) : Option ℕ :=
  (s.wantedPieces bits).find? fun i =>
    s.firstNotDone ≤ i ∧ i < s.firstNotDone + s.urgentWindow

def rarestChoice (s : Scheduler K) (bits : List Bool) : Option ℕ :=
  lowest s.holders ((s.wantedPieces bits).take rarestSample)

def endgameChoice (s : Scheduler K) (peer : K) (bits : List Bool) : Option ℕ :=
  if .missing ∈ s.pieces then none
  else lowest (fun i => (s.requestersOf i).length)
    ((List.range s.pieces.length).filter fun i => s.Helpable peer bits i)

/-- The piece that a peer should be asked for next. -/
def policy (s : Scheduler K) (peer : K) : Option ℕ := do
  let bits ← s.peers.lookup peer
  (s.urgentChoice bits).or ((s.rarestChoice bits).or (s.endgameChoice peer bits))

/-- The peer is asked for piece `i`; nothing else changes. -/
def request (s : Scheduler K) (peer : K) (i : ℕ) : Scheduler K :=
  { s with
    pieces := s.pieces.modify i (Piece.request peer)
    missing := (s.pieces.modify i (Piece.request peer)).count .missing }

/-! ## The lowest of a list -/

/-- In an ordered list the first of the lowest is the lowest of the lowest. -/
lemma lowest_eq_argmin (key : ℕ → ℕ) {l : List ℕ} (hl : l.Pairwise (· < ·)) :
    lowest key l = l.argmin key := by
  induction l using List.reverseRecOn with
  | nil => rfl
  | append_singleton l a ih =>
    obtain ⟨hl', -, hlt⟩ := List.pairwise_append.1 hl
    rw [lowest, List.argmin_concat, List.argmin_concat, ← lowest, ih hl']
    cases hmin : l.argmin key with
    | none => rfl
    | some c =>
      have hca : c < a := hlt c (List.argmin_mem hmin) a (List.mem_singleton_self a)
      have hiff : toLex (key a, a) < toLex (key c, c) ↔ key a < key c := by
        rw [Prod.Lex.toLex_lt_toLex]
        constructor
        · rintro (h | ⟨-, h⟩)
          · exact h
          · exact absurd h (Nat.lt_asymm hca)
        · exact Or.inl
      simp only [hiff]

/-- Numbers that are not lower than the lowest so far change nothing. -/
lemma foldl_argAux_of_le {key : ℕ → ℕ} {c : ℕ} : ∀ {l : List ℕ}, (∀ i ∈ l, key c ≤ key i) →
    l.foldl (List.argAux fun a b => key a < key b) (some c) = some c
  | [], _ => rfl
  | i :: l, h => by
    have hi : ¬ key i < key c := Nat.not_lt.2 (h i (by simp))
    rw [List.foldl_cons, List.argAux]
    simp only [hi, if_false]
    exact foldl_argAux_of_le fun j hj => h j (by simp [hj])

variable {s : Scheduler K} {peer : K} {bits : List Bool}

/-! ## The scans -/

/-- The scan of rarest-first stops after a few wanted pieces, or at one that only one peer
holds, which nothing after it can beat. -/
lemma rarestScan_eq (hs : s.Consistent) (hlen : bits.length = s.pieces.length)
    (hpos : ∀ i, s.IsWanted bits i → 1 ≤ s.holders i) : ∀ {l : List ℕ},
    (∀ i ∈ l, i < s.pieces.length) → ∀ (best : Option ℕ) (seen : ℕ), seen < rarestSample →
    s.rarestScan bits l (best.map fun i => (i, s.holders i)) seen =
      some (((l.filter fun i => s.IsWanted bits i).take (rarestSample - seen)).foldl
        (List.argAux fun a b => s.holders a < s.holders b) best |>.map fun i => (i, s.holders i))
  | [], _, _, _, _ => by simp [rarestScan]
  | i :: l, hl, best, seen, hseen => by
    have ih := rarestScan_eq hs hlen hpos (l := l) fun j hj => hl j (by simp [hj])
    have hi := hl i (by simp)
    by_cases hw : s.IsWanted bits i
    · obtain ⟨n, hn⟩ : ∃ n, rarestSample - seen = n + 1 := ⟨rarestSample - seen - 1, by omega⟩
      set best' := List.argAux (fun a b => s.holders a < s.holders b) best i with hbest'
      have hbest : (if (best.map fun i => (i, s.holders i)).all fun b => s.holders i < b.2
          then some (i, s.holders i) else best.map fun i => (i, s.holders i)) =
          best'.map fun i => (i, s.holders i) := by
        cases best with
        | none => rfl
        | some c =>
          rw [hbest', List.argAux]
          by_cases hlt : s.holders i < s.holders c <;> simp [hlt]
      rw [List.filter_cons_of_pos (by simpa using hw), hn, List.take_succ_cons, List.foldl_cons,
        ← hbest']
      by_cases hstop : seen + 1 ≥ rarestSample ∨ s.holders i ≤ 1
      · -- the scan ends here, and the pieces after this one do not beat it
        have hrest : ((l.filter fun i => s.IsWanted bits i).take n).foldl
            (List.argAux fun a b => s.holders a < s.holders b) best' = best' := by
          by_cases hlast : n = 0
          · rw [hlast]
            rfl
          · have hone : s.holders i ≤ 1 := hstop.resolve_left (by omega)
            obtain ⟨c, hc, hle⟩ : ∃ c, best' = some c ∧ s.holders c ≤ 1 := by
              cases best with
              | none => exact ⟨i, rfl, hone⟩
              | some c =>
                by_cases hlt : s.holders i < s.holders c
                · exact ⟨i, by simp [hbest', List.argAux, hlt], hone⟩
                · exact ⟨c, by simp [hbest', List.argAux, hlt], by omega⟩
            rw [hc]
            refine foldl_argAux_of_le fun j hj => hle.trans (hpos j ?_)
            simpa using List.of_mem_filter (List.mem_of_mem_take hj)
        rw [hrest]
        simp only [rarestScan, wanted_eq hlen hi, hw, hs.availability_eq i hi, decide_true,
          Option.bind_eq_bind, Option.bind_some, if_true, hstop]
        rw [← hbest]
        rfl
      · have hn' : rarestSample - (seen + 1) = n := by omega
        rw [← hn', ← ih _ _ (by omega), ← hbest]
        simp only [rarestScan, wanted_eq hlen hi, hw, hs.availability_eq i hi, decide_true,
          Option.bind_eq_bind, Option.bind_some, if_true, hstop, if_false]
    · rw [List.filter_cons_of_neg (by simpa using hw), ← ih _ _ hseen]
      simp [rarestScan, wanted_eq hlen hi, hw]

/-- The candidates of the endgame are the pieces the peer can help with. -/
lemma endgameCandidates_eq (hlen : bits.length = s.pieces.length)
    (hs : s.Consistent) : ∀ {l : List ℕ}, (∀ i ∈ l, i < s.pieces.length) →
    s.endgameCandidates peer bits l = some ((l.filter fun i => s.Helpable peer bits i).map
      fun i => (i, (s.requestersOf i).length))
  | [], _ => rfl
  | i :: l, hl => by
    have ih := endgameCandidates_eq hlen hs (l := l) fun j hj => hl j (by simp [hj])
    have hi := hl i (by simp)
    have hb : bits[i]? = some bits[i] := List.getElem?_eq_getElem (by omega)
    have hp : s.pieces[i]? = some s.pieces[i] := List.getElem?_eq_getElem hi
    cases hbit : bits[i] with
    | false =>
      have hnot : ¬ s.Helpable peer bits i := fun h => by
        have hset := h.1
        simp [hb, hbit] at hset
      rw [List.filter_cons_of_neg (by simpa using hnot), ← ih]
      simp [endgameCandidates, hb, hbit]
    | true =>
      cases hpi : s.pieces[i] with
      | missing | done =>
        have hnot : ¬ s.Helpable peer bits i := fun h => h.2.1 (by simp [requestersOf, hp, hpi])
        rw [List.filter_cons_of_neg (by simpa using hnot), ← ih]
        simp [endgameCandidates, hb, hbit, hp, hpi]
      | inFlight rs =>
        have hrs : s.requestersOf i = rs := by simp [requestersOf, hp, hpi]
        have hne : rs ≠ [] := (hs.requesters i rs (hpi ▸ hp)).ne_nil
        have hiff : s.Helpable peer bits i ↔ rs.length < endgameDuplicates ∧ peer ∉ rs := by
          simp [Helpable, hrs, hb, hbit, hne]
        by_cases hok : rs.length < endgameDuplicates ∧ peer ∉ rs
        · rw [List.filter_cons_of_pos (by simpa using hiff.2 hok), List.map_cons, hrs]
          simp [endgameCandidates, hb, hbit, hp, hpi, hok, ih]
        · rw [List.filter_cons_of_neg (by simpa using fun h => hok (hiff.1 h))]
          simp only [endgameCandidates, hb, hbit, hp, hpi, ih, Option.bind_eq_bind,
            Option.bind_some, if_true, hok, if_false]
          rfl

lemma argmin_map_pair (key : ℕ → ℕ) (l : List ℕ) :
    ((l.map fun i => (i, key i)).argmin Prod.snd).map Prod.fst = l.argmin key := by
  induction l using List.reverseRecOn with
  | nil => rfl
  | append_singleton l a ih =>
    rw [List.map_append, List.map_singleton, List.argmin_concat, List.argmin_concat, ← ih]
    cases hmin : (l.map fun i => (i, key i)).argmin Prod.snd with
    | none => rfl
    | some c =>
      obtain ⟨i, -, rfl⟩ := List.mem_map.1 (List.argmin_mem hmin)
      by_cases hlt : key a < key i <;> simp [hlt]

/-! ## What `pick` chooses -/

/-- Before the playhead every piece is done. -/
lemma filter_range_of_done (hs : s.Consistent) {p : ℕ → Bool}
    (hp : ∀ i, s.pieces[i]? = some .done → p i = false) :
    (List.range s.pieces.length).filter p =
      (List.range' s.firstNotDone (s.pieces.length - s.firstNotDone)).filter p := by
  have hplay : s.firstNotDone ≤ s.pieces.length := by
    by_contra hlt
    have := hs.playhead.before s.pieces.length (by omega)
    simp at this
  have hsplit : List.range s.pieces.length = List.range s.firstNotDone ++
      List.range' s.firstNotDone (s.pieces.length - s.firstNotDone) := by
    have happend := @List.range'_append_1 0 s.firstNotDone (s.pieces.length - s.firstNotDone)
    rw [Nat.zero_add, show s.firstNotDone + (s.pieces.length - s.firstNotDone) = s.pieces.length by
      omega] at happend
    rw [List.range_eq_range', List.range_eq_range', happend]
  rw [hsplit, List.filter_append, List.filter_eq_nil_iff.2, List.nil_append]
  intro i hi
  rw [hp i (hs.playhead.before i (List.mem_range.1 hi))]
  exact Bool.false_ne_true

lemma not_wanted_of_done {i : ℕ} (h : s.pieces[i]? = some .done) : ¬ s.IsWanted bits i := by
  rintro ⟨-, hmissing⟩
  rw [h] at hmissing
  cases hmissing

lemma find_window (hs : s.Consistent) :
    (List.range' s.firstNotDone
      (min (s.firstNotDone + s.urgentWindow) s.pieces.length - s.firstNotDone)).find?
        (fun i => decide (s.IsWanted bits i)) = s.urgentChoice bits := by
  set start := s.firstNotDone with hstart
  set total := s.pieces.length with htotal
  set n := min (start + s.urgentWindow) total - start with hn
  have hsplit : List.range' start (total - start) =
      List.range' start n ++ List.range' (start + n) (total - start - n) := by
    rw [List.range'_append_1]
    congr 1
    omega
  rw [urgentChoice, wantedPieces, filter_range_of_done hs fun i hi => by
    simpa using not_wanted_of_done hi, List.find?_filter, ← hstart, ← htotal, hsplit,
    List.find?_append]
  have hbeyond : (List.range' (start + n) (total - start - n)).find? (fun i =>
      decide (decide (s.IsWanted bits i) = true ∧
        decide (start ≤ i ∧ i < start + s.urgentWindow) = true)) = none := by
    rw [List.find?_eq_none]
    intro i hi
    rw [List.mem_range'_1] at hi
    have hout : ¬ (start ≤ i ∧ i < start + s.urgentWindow) := by omega
    simp [hout]
  rw [hbeyond, Option.or_none]
  refine List.find?_congr fun i hi => ?_
  rw [List.mem_range'_1] at hi
  have hin : start ≤ i ∧ i < start + s.urgentWindow := by omega
  simp [hin]

lemma missing_mem_iff (hs : s.Consistent) : .missing ∈ s.pieces ↔ s.missing ≠ 0 := by
  rw [hs.missing_eq, ← List.count_pos_iff, Nat.pos_iff_ne_zero]

/-- A scan in ordered pieces finds what is lowest. -/
lemma lowest_filter_range (key : ℕ → ℕ) (n : ℕ) (p : ℕ → Bool) :
    lowest key ((List.range n).filter p) = ((List.range n).filter p).argmin key :=
  lowest_eq_argmin key (List.pairwise_lt_range.sublist List.filter_sublist)

/-- The choice of `pick` follows the policy. -/
lemma choose_eq (hs : s.Consistent) (hlen : bits.length = s.pieces.length)
    (hpos : ∀ i, s.IsWanted bits i → 1 ≤ s.holders i) :
    s.choose peer bits = some ((s.urgentChoice bits).or
      ((s.rarestChoice bits).or (s.endgameChoice peer bits))) := by
  have hfind : (List.range' s.firstNotDone
      (min (s.firstNotDone + s.urgentWindow) s.pieces.length - s.firstNotDone)).findM?
        (s.wanted bits) = some (s.urgentChoice bits) := by
    rw [← find_window hs]
    refine findM?_eq _ fun i hi => wanted_eq hlen ?_
    rw [List.mem_range'_1] at hi
    omega
  have htail : ∀ i ∈ List.range' s.firstNotDone (s.pieces.length - s.firstNotDone),
      i < s.pieces.length := by
    intro i hi
    rw [List.mem_range'_1] at hi
    omega
  cases hurgent : s.urgentChoice bits with
  | some i =>
    simp only [choose]
    rw [hfind, hurgent]
    simp
  | none =>
    rw [Option.none_or]
    by_cases hm : s.missing = 0
    · -- the endgame
      have hwanted : s.wantedPieces bits = [] := by
        rw [wantedPieces, List.filter_eq_nil_iff]
        intro i _ hi
        have hmissing := List.mem_of_getElem? (of_decide_eq_true hi).2
        exact (missing_mem_iff hs).1 hmissing hm
      have hnone : s.rarestChoice bits = none := by
        rw [rarestChoice, hwanted, List.take_nil]
        rfl
      have hend : s.endgameChoice peer bits =
          ((List.range' s.firstNotDone (s.pieces.length - s.firstNotDone)).filter
            fun i => s.Helpable peer bits i).argmin fun i => (s.requestersOf i).length := by
        rw [endgameChoice, if_neg fun h => (missing_mem_iff hs).1 h hm, lowest_filter_range,
          filter_range_of_done hs]
        intro i hi
        simp [Helpable, requestersOf, hi]
      simp only [choose]
      rw [hfind, hurgent]
      simp only [hm, lt_irrefl, and_false, false_and, if_false, Option.bind_eq_bind,
        Option.bind_some, and_self, if_true]
      rw [endgameCandidates_eq hlen hs htail, Option.map_some, argmin_map_pair, hnone,
        Option.none_or, hend]
    · -- rarest first
      have htotal : 0 < s.pieces.length :=
        List.length_pos_of_mem ((missing_mem_iff hs).2 hm)
      have hend : s.endgameChoice peer bits = none := by
        rw [endgameChoice, if_pos ((missing_mem_iff hs).2 hm)]
      have hall : ∀ i ∈ List.range' s.firstNotDone (s.pieces.length - s.firstNotDone) ++
          List.range s.firstNotDone, i < s.pieces.length := by
        intro i hi
        rcases List.mem_append.1 hi with hi | hi
        · exact htail i hi
        · exact (List.getElem?_eq_some_iff.1 (hs.playhead.before i (List.mem_range.1 hi))).1
      -- the wrapped part of the scan finds nothing
      have hfilter : (List.range' s.firstNotDone (s.pieces.length - s.firstNotDone) ++
          List.range s.firstNotDone).filter (fun i => decide (s.IsWanted bits i)) =
          s.wantedPieces bits := by
        have hbefore : (List.range s.firstNotDone).filter
            (fun i => decide (s.IsWanted bits i)) = [] := by
          rw [List.filter_eq_nil_iff]
          intro i hi hw
          exact not_wanted_of_done (hs.playhead.before i (List.mem_range.1 hi))
            (of_decide_eq_true hw)
        rw [List.filter_append, hbefore, List.append_nil, wantedPieces,
          filter_range_of_done hs fun i hi => by simpa using not_wanted_of_done hi]
      have hscan := rarestScan_eq hs hlen hpos hall none 0 (by decide)
      rw [hfilter, Nat.sub_zero] at hscan
      have hrarest : s.rarestChoice bits = ((s.wantedPieces bits).take rarestSample).foldl
          (List.argAux fun a b => s.holders a < s.holders b) none :=
        lowest_eq_argmin _ ((List.pairwise_lt_range.sublist List.filter_sublist).sublist
          (List.take_sublist _ _))
      simp only [choose]
      rw [hfind, hurgent]
      simp only [Nat.pos_of_ne_zero hm, htotal, and_self, if_true, Option.bind_eq_bind,
        Option.bind_some, hm, and_false, if_false]
      rw [← hrarest, Option.map_none] at hscan
      rw [hscan, hend, Option.or_none, Option.map_some, Option.map_map]
      cases s.rarestChoice bits <;> rfl

/-! ## What `pick` does -/

lemma holders_pos (h : s.peers.lookup peer = some bits) {i : ℕ}
    (hw : s.IsWanted bits i) : 1 ≤ s.holders i := by
  have hbit : bits.getD i false = true := by rw [List.getD_eq_getElem?_getD, hw.1]; rfl
  rw [holders, countValues_erase h, hbit]
  exact Nat.le_add_left _ _

lemma modify_request {i : ℕ} {p : Piece K} (hp : s.pieces[i]? = some p) :
    s.pieces.modify i (Piece.request peer) = s.pieces.set i (p.request peer) := by
  rw [List.modify_eq_set_getElem?, hp]
  rfl

/-- `pick` returns what the policy says, and asks the peer for it. -/
lemma pick_eq (hs : s.Consistent) (peer : K) :
    s.pick peer = some ((s.policy peer).elim s (s.request peer), s.policy peer) := by
  cases h : s.peers.lookup peer with
  | none => simp [pick, policy, h]
  | some bits =>
    have hlen := hs.bits_length peer bits h
    have hpolicy : s.policy peer = (s.urgentChoice bits).or
        ((s.rarestChoice bits).or (s.endgameChoice peer bits)) := by
      rw [policy, h]
      rfl
    have hchoose : s.choose peer bits = some (s.policy peer) := by
      rw [hpolicy]
      exact choose_eq hs hlen fun i hw => holders_pos h hw
    obtain ⟨r, hr, hspec⟩ := choose_spec hs peer hlen
    obtain rfl := Option.some.inj (hr.symm.trans hchoose)
    cases hchoice : s.policy peer with
    | none =>
      rw [hchoice] at hchoose
      simp [pick, h, hchoose]
    | some i =>
      rw [hchoice] at hchoose
      rcases hspec i hchoice with ⟨-, hp⟩ | ⟨-, rs, -, hp, -⟩
      · -- a missing piece
        have hcount := count_set hp .missing (.inFlight [peer])
        simp only [reduceCtorEq, if_true, if_false, Nat.add_zero] at hcount
        have hmissing := hs.missing_eq
        have hmodify : s.pieces.modify i (Piece.request peer) =
            s.pieces.set i (.inFlight [peer]) := modify_request hp
        simp only [pick, h, hchoose, hp, request, hmodify, Option.bind_eq_bind, Option.bind_some,
          Option.elim_some, checkedSub_of_le (show 1 ≤ s.missing by omega)]
        rw [show s.missing - 1 = (s.pieces.set i (.inFlight [peer])).count .missing by omega]
        rfl
      · -- a piece in flight
        have hcount := count_set hp .missing (.inFlight (rs ++ [peer]))
        simp only [reduceCtorEq, if_false, Nat.add_zero] at hcount
        have hmodify : s.pieces.modify i (Piece.request peer) =
            s.pieces.set i (.inFlight (rs ++ [peer])) := modify_request hp
        simp only [pick, h, hchoose, hp, request, hmodify, Option.bind_eq_bind, Option.bind_some,
          Option.elim_some, hcount, ← hs.missing_eq]
        rfl

/-- A peer that holds a piece that nobody is asked for is asked for something. -/
lemma policy_ne_none (h : s.peers.lookup peer = some bits) {i : ℕ} (hw : s.IsWanted bits i) :
    s.policy peer ≠ none := by
  have hmem : i ∈ s.wantedPieces bits := by
    rw [wantedPieces, List.mem_filter, List.mem_range]
    exact ⟨(List.getElem?_eq_some_iff.1 hw.2).1, by simpa using hw⟩
  have hrarest : s.rarestChoice bits ≠ none := by
    intro hnone
    have hnil := List.argmin_eq_none.1 hnone
    rw [List.take_eq_nil_iff] at hnil
    exact hnil.elim (by decide) (List.ne_nil_of_mem hmem)
  intro hnone
  rw [policy, h] at hnone
  exact hrarest (Option.or_eq_none_iff.1 (Option.or_eq_none_iff.1 hnone).2).1

/-- In every reachable state, `pick` returns what the policy says, changes nothing but that the
peer is asked for that piece, and leaves no peer idle that holds a missing piece. -/
theorem pick_policy (held : List Bool) (window : ℕ) :
    ∃ s₀ : Scheduler K, new held window = some s₀ ∧ ∀ events s, Run Step s₀ events s →
      ∀ peer, s.pick peer = some ((s.policy peer).elim s (s.request peer), s.policy peer) ∧
        ∀ bits i, s.peers.lookup peer = some bits → s.IsWanted bits i → s.policy peer ≠ none := by
  obtain ⟨s₀, hnew, hrun⟩ := run_consistent (K := K) held window
  refine ⟨s₀, hnew, fun events s hs peer => ?_⟩
  obtain ⟨-, hcons, -⟩ := hrun events s hs
  exact ⟨pick_eq hcons peer, fun bits i h hw => policy_ne_none h hw⟩

end Scheduler

end Chorrent
