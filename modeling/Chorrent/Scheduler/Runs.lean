/-
# Runs of the scheduler

Any sequence of calls the engine makes on a new scheduler: no call panics, the
representation invariant holds after every call, and a piece is completed for the first
time exactly once.
-/
import Chorrent.Scheduler.Pick

namespace Chorrent.Scheduler

open Lib

variable {K : Type} [DecidableEq K]

/-- The engine makes a call and it returns. -/
def Step (s : Scheduler K) (e : Op K × Out) (s' : Scheduler K) : Prop :=
  s.Issued e.1 ∧ s.apply e.1 = some (s', e.2)

lemma new_consistent (held : List Bool) (window : ℕ) :
    ∃ s : Scheduler K, new held window = some s ∧ s.Consistent ∧
      (s.pieces = held.map fun h => if h then .done else .missing) ∧ s.peers = ∅ := by
  let pieces : List (Piece K) := held.map fun h => if h then .done else .missing
  have hdone : pieces.count .done = (held.filter fun h => h).length := by
    rw [List.count_eq_countP, List.countP_map, ← List.countP_eq_length_filter]
    apply List.countP_congr
    intro h _
    cases h <;> simp
  have hmissing : pieces.count .missing + (held.filter fun h => h).length = pieces.length := by
    rw [← hdone, List.count_eq_countP, List.count_eq_countP,
      List.length_eq_countP_add_countP (· == Piece.missing) (l := pieces)]
    congr 1
    apply List.countP_congr
    intro p hp
    obtain ⟨h, _, rfl⟩ := List.mem_map.1 hp
    cases h <;> simp
  let s : Scheduler K :=
    { pieces := pieces, availability := List.replicate pieces.length 0, peers := ∅,
      urgentWindow := window, firstNotDone := 0,
      missing := pieces.length - (held.filter fun h => h).length,
      done := (held.filter fun h => h).length }
  refine ⟨s.advancePlayhead, ?_, ?_, rfl, rfl⟩
  · have hle : (held.filter fun h => h).length ≤ pieces.length := by omega
    simp only [new, checkedSub_of_le (show (held.filter fun h => h).length ≤
      (held.map fun h => if h then Piece.done (K := K) else .missing).length from hle)]
    rfl
  · constructor
    · show pieces.length - _ = pieces.count .missing
      omega
    · exact hdone.symm
    · intro peer bits h
      simp [s] at h
    · simp [s]
    · simp [s]
    · intro i hi
      have : i < pieces.length := hi
      simp [s, holders, this]
    · intro i rs h
      simp only [advancePlayhead_pieces, s, pieces, List.getElem?_map, Option.map_eq_some_iff] at h
      obtain ⟨h, _, hp⟩ := h
      cases h <;> simp at hp
    · exact playheadOk_advance (by simp [s])

/-- What one call of the engine does to the invariant and to the set of done pieces. -/
lemma apply_cases {s : Scheduler K} (hs : s.Consistent) {op : Op K} (hop : s.Issued op) :
    ∃ s' out, s.apply op = some (s', out) ∧ s'.Consistent ∧
      s'.pieces.length = s.pieces.length ∧
      (∀ i : ℕ, s'.pieces[i]? = some .done ↔ s.pieces[i]? = some .done ∨ op = .complete i) ∧
      (∀ i : ℕ, op = .complete i → out = .completed (decide (s.pieces[i]? ≠ some .done))) := by
  have hmap : ∀ (peer : K) (i : ℕ), (s.pieces.map (Piece.without peer))[i]? = some .done ↔
      s.pieces[i]? = some .done := fun peer i => by simp [List.getElem?_map, without_eq_done]
  -- replacing a piece that is not done by one that is not done
  have hset : ∀ {i : ℕ} {p p' : Piece K}, s.pieces[i]? = some p → p ≠ .done → p' ≠ .done →
      ∀ j : ℕ, (s.pieces.set i p')[j]? = some .done ↔ s.pieces[j]? = some .done := by
    intro i p p' hp hnd hnd' j
    by_cases hij : i = j
    · subst hij
      simp [List.getElem?_set_self (List.getElem?_eq_some_iff.1 hp).1, hp, hnd, hnd']
    · rw [List.getElem?_set_ne hij]
  cases op with
  | addPeer peer held =>
    obtain ⟨s', heq, hs', hpieces, -, -⟩ := addPeer_consistent hs peer hop.1 hop.2
    exact ⟨s', .unit, by simp [apply, heq], hs', by simp [hpieces],
      fun i => by rw [hpieces, hmap]; simp, by simp⟩
  | setPeerHas peer piece =>
    obtain ⟨s', heq, hs', hpieces, -, -⟩ := setPeerHas_consistent hs peer piece
    exact ⟨s', .unit, by simp [apply, heq], hs', by simp [hpieces],
      fun i => by simp [hpieces], by simp⟩
  | removePeer peer =>
    obtain ⟨s', heq, hs', hpieces, -, -⟩ := removePeer_consistent hs peer
    exact ⟨s', .unit, by simp [apply, heq], hs', by simp [hpieces],
      fun i => by rw [hpieces, hmap]; simp, by simp⟩
  | pick peer =>
    obtain ⟨s', r, heq, hs', -, -, hcases⟩ := pick_cases hs peer
    refine ⟨s', .picked r, by simp [apply, heq], hs', ?_, fun j => ?_, by simp⟩
    · rcases hcases with ⟨-, rfl⟩ | ⟨i, -, -, -, hp⟩ | ⟨i, rs, -, -, -, -, -, -, hp⟩
      · rfl
      · simp [hp]
      · simp [hp]
    · rcases hcases with ⟨-, rfl⟩ | ⟨i, -, -, hget, hp⟩ | ⟨i, rs, -, -, -, hget, -, -, hp⟩
      · simp
      · rw [hp, hset hget (by simp) (by simp)]
        simp
      · rw [hp, hset hget (by simp) (by simp)]
        simp
  | complete piece =>
    obtain ⟨s', heq, hs', hpieces, -⟩ := complete_cases hs hop
    refine ⟨s', .completed (decide (s.pieces[piece]? ≠ some .done)),
      by simp only [apply, heq, Option.map_some], hs', by simp [hpieces], fun j => ?_, ?_⟩
    · rw [hpieces]
      by_cases hij : piece = j
      · subst hij
        simp [List.getElem?_set_self hop]
      · simp [List.getElem?_set_ne hij, hij]
    · rintro i hi
      obtain rfl := Op.complete.inj hi
      rfl
  | failed piece peer lacks =>
    obtain ⟨s', heq, hs', hpieces, -, -⟩ := failed_consistent hs hop peer lacks
    refine ⟨s', .unit, by simp [apply, heq], hs', by simp [hpieces], fun j => ?_, by simp⟩
    have hget : s.pieces[piece]? = some s.pieces[piece] := List.getElem?_eq_getElem hop
    rw [hpieces]
    by_cases hij : piece = j
    · subst hij
      simp [List.getElem?_set_self hop, hget, without_eq_done]
    · simp [List.getElem?_set_ne hij]

/-- What a run from a new scheduler has established, seen from the calls made so far. -/
structure History (held : List Bool) (events : List (Op K × Out)) (s : Scheduler K) : Prop where
  consistent : s.Consistent
  length_eq : s.pieces.length = held.length
  done_iff : ∀ i < held.length, s.pieces[i]? = some .done ↔
    held[i]? = some true ∨ ∃ b, (Op.complete i, Out.completed b) ∈ events
  first : ∀ pre i b post, events = pre ++ (Op.complete i, Out.completed b) :: post →
    (b = true ↔ held[i]? = some false ∧ ∀ b', (Op.complete i, Out.completed b') ∉ pre)

lemma History.step {held : List Bool} {events : List (Op K × Out)} {s s' : Scheduler K}
    {e : Op K × Out} (h : History held events s) (hstep : s.Step e s') :
    History held (events ++ [e]) s' := by
  obtain ⟨op, out⟩ := e
  obtain ⟨hop, heq⟩ := hstep
  obtain ⟨s₁, out₁, heq₁, hs₁, hlen, hdone, hout⟩ := apply_cases h.consistent hop
  simp only [heq₁, Option.some.injEq, Prod.mk.injEq] at heq
  obtain ⟨rfl, rfl⟩ := heq
  refine ⟨hs₁, hlen.trans h.length_eq, ?_, ?_⟩
  · intro i hi
    rw [hdone i, h.done_iff i hi]
    constructor
    · rintro ((hheld | ⟨b, hb⟩) | rfl)
      · exact Or.inl hheld
      · exact Or.inr ⟨b, by simp [hb]⟩
      · exact Or.inr ⟨decide (s.pieces[i]? ≠ some .done), by rw [hout i rfl]; simp⟩
    · rintro (hheld | ⟨b, hb⟩)
      · exact Or.inl (Or.inl hheld)
      · rcases List.mem_append.1 hb with hb | hb
        · exact Or.inl (Or.inr ⟨b, hb⟩)
        · simp only [List.mem_singleton, Prod.mk.injEq] at hb
          exact Or.inr hb.1.symm
  · intro pre i b post hsplit
    rcases List.eq_nil_or_concat post with rfl | ⟨post', e', rfl⟩
    · -- the completion is the last call
      obtain ⟨rfl, hlast⟩ := List.append_inj' hsplit rfl
      obtain ⟨rfl, hb⟩ := Prod.mk.inj (List.singleton_inj.1 hlast)
      have hi : i < held.length := h.length_eq ▸ hop
      have hget : held[i]? = some held[i] := List.getElem?_eq_getElem hi
      rw [hout i rfl] at hb
      obtain rfl := Out.completed.inj hb
      rw [decide_eq_true_iff, Ne, h.done_iff i hi, hget]
      cases held[i] <;> simp
    · -- the completion was made earlier
      have hsplit' : events ++ [(op, out₁)] =
          (pre ++ (.complete i, .completed b) :: post') ++ [e'] := by simpa using hsplit
      obtain ⟨hevents, -⟩ := List.append_inj' hsplit' rfl
      exact h.first pre i b post' hevents

lemma History.run {held : List Bool} {events events' : List (Op K × Out)} {s s' : Scheduler K}
    (h : History held events s) (hrun : Run Step s events' s') :
    History held (events ++ events') s' :=
  hrun.invariant_history (fun _ _ _ _ h hl => History.step h hl) h

lemma isDone_iff {s : Scheduler K} (hs : s.Consistent) :
    s.isDone = true ↔ ∀ p ∈ s.pieces, p = .done := by
  rw [isDone, beq_iff_eq, hs.done_eq, List.count_eq_length]
  exact ⟨fun h p hp => (h p hp).symm, fun h p hp => (h p hp).symm⟩

/-- A piece that is done stays done. -/
lemma done_of_run {s s' : Scheduler K} (hs : s.Consistent) {events : List (Op K × Out)}
    (hrun : Run Step s events s') {i : ℕ} (hi : s.pieces[i]? = some .done) :
    s'.pieces[i]? = some .done := by
  have hstep : ∀ (s : Scheduler K) (e : Op K × Out) (s' : Scheduler K),
      (s.Consistent ∧ s.pieces[i]? = some .done) → s.Step e s' →
      s'.Consistent ∧ s'.pieces[i]? = some .done := by
    rintro s ⟨op, out⟩ s' ⟨hs, hi⟩ ⟨hop, heq⟩
    obtain ⟨s₁, out₁, heq₁, hs₁, -, hdone, -⟩ := apply_cases hs hop
    simp only [heq₁, Option.some.injEq, Prod.mk.injEq] at heq
    obtain ⟨rfl, -⟩ := heq
    exact ⟨hs₁, (hdone i).2 (Or.inl hi)⟩
  exact (hrun.invariant hstep ⟨hs, hi⟩).2

/-- Every run of engine calls on a new scheduler: the next call never panics, the redundant
fields agree with the pieces and the peers, a done piece stays done, a piece that was not
done at the start is reported as completed for the first time exactly once, and `isDone`
holds exactly when every piece is done. -/
theorem run_consistent (held : List Bool) (window : ℕ) :
    ∃ s₀ : Scheduler K, new held window = some s₀ ∧ ∀ events s, Run Step s₀ events s →
      (∀ op, s.Issued op → ∃ r, s.apply op = some r) ∧
      s.Consistent ∧
      s.pieces.length = held.length ∧
      (∀ i : ℕ, s.pieces[i]? = some .done →
        ∀ events' s', Run Step s events' s' → s'.pieces[i]? = some .done) ∧
      (∀ pre i b post, events = pre ++ (Op.complete i, Out.completed b) :: post →
        (b = true ↔ held[i]? = some false ∧
          ∀ b', (Op.complete i, Out.completed b') ∉ pre)) ∧
      (s.isDone = true ↔ ∀ p ∈ s.pieces, p = .done) := by
  obtain ⟨s₀, heq, hs₀, hpieces, -⟩ := new_consistent (K := K) held window
  refine ⟨s₀, heq, fun events s hrun => ?_⟩
  have hstart : History held [] s₀ := by
    refine ⟨hs₀, by simp [hpieces], fun i hi => ?_, by simp⟩
    rw [hpieces, List.getElem?_map, List.getElem?_eq_getElem hi]
    cases held[i] <;> simp
  have h : History held events s := by simpa using hstart.run hrun
  refine ⟨fun op hop => ?_, h.consistent, h.length_eq, fun i hi events' s' hrun' => ?_, h.first,
    isDone_iff h.consistent⟩
  · obtain ⟨s', out, hap, -⟩ := apply_cases h.consistent hop
    exact ⟨(s', out), hap⟩
  · exact done_of_run h.consistent hrun' hi

end Chorrent.Scheduler
