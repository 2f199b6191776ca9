/-
# Costs that a potential pays for

The potential method over a run: where every step pays its cost out of the credit of its label
and the fall of a potential, the costs of the whole run are paid for by the credits of its labels
and the potential at the start.
-/
import Mathlib.Tactic
import Chorrent.Lib.Run

namespace Chorrent.Lib

variable {σ ℓ ω : Type*}

/-- Numbers of labels add up to how many labels count. -/
lemma sum_map_toNat (p : ℓ → Bool) (ls : List ℓ) :
    (ls.map fun l => (p l).toNat).sum = ls.countP p := by
  induction ls with
  | nil => rfl
  | cons l ls ih =>
    rw [List.map_cons, List.sum_cons, ih, List.countP_cons, Nat.add_comm]
    cases p l <;> rfl

variable {step : σ → ℓ → σ → Prop}

/-- The potential rule. -/
lemma Run.potential {P : σ → Prop} (Φ : σ → ℕ) (cost credit : ℓ → ℕ) {s s' : σ} {ls : List ℓ}
    (h : Run step s ls s')
    (hstep : ∀ s l s', l ∈ ls → P s → step s l s' → P s' ∧ Φ s' + cost l ≤ Φ s + credit l)
    (hs : P s) : P s' ∧ Φ s' + (ls.map cost).sum ≤ Φ s + (ls.map credit).sum := by
  induction h with
  | nil => exact ⟨hs, le_rfl⟩
  | @cons s s₁ s₂ l ls hl _ ih =>
    obtain ⟨hs₁, hpay⟩ := hstep _ _ _ List.mem_cons_self hs hl
    obtain ⟨hs', hpays⟩ := ih (fun s l s' hl => hstep s l s' (List.mem_cons_of_mem _ hl)) hs₁
    refine ⟨hs', ?_⟩
    simp only [List.map_cons, List.sum_cons]
    omega

/-- The invariant rule for what is seen of a run. -/
lemma Observed.invariant {see : σ → ℓ → List ω} {P : σ → Prop} {s s' : σ} {os : List ω}
    (h : Observed step see s os s') (hstep : ∀ s l s', P s → step s l s' → P s') (hs : P s) :
    P s' := by
  induction h with
  | nil => exact hs
  | cons hl _ ih => exact ih (hstep _ _ _ hs hl)

/-- The potential rule for what is seen of a run. -/
lemma Observed.potential {see : σ → ℓ → List ω} {P : σ → Prop} (Φ : σ → ℕ) (cost credit : ω → ℕ)
    {s s' : σ} {os : List ω} (h : Observed step see s os s')
    (hstep : ∀ s l s', P s → step s l s' →
      P s' ∧ Φ s' + ((see s l).map cost).sum ≤ Φ s + ((see s l).map credit).sum) (hs : P s) :
    P s' ∧ Φ s' + (os.map cost).sum ≤ Φ s + (os.map credit).sum := by
  induction h with
  | nil => exact ⟨hs, le_rfl⟩
  | cons hl _ ih =>
    obtain ⟨hs₁, hpay⟩ := hstep _ _ _ hs hl
    obtain ⟨hs', hpays⟩ := ih hs₁
    refine ⟨hs', ?_⟩
    rw [List.map_append, List.sum_append, List.map_append, List.sum_append]
    omega

/-- The progress rule: where a few steps towards a goal are possible in every state that has not
reached it, and lower the potential, the goal is reached within so many steps. -/
lemma Run.exists_of_decreases (P Goal : σ → Prop) (Φ : σ → ℕ) (c : ℕ)
    (hstep : ∀ s, P s → ¬ Goal s → ∃ ls s', Run step s ls s' ∧ ls.length ≤ c ∧ P s' ∧ Φ s' < Φ s) :
    ∀ s, P s → ∃ ls s', Run step s ls s' ∧ ls.length ≤ c * Φ s ∧ P s' ∧ Goal s' := by
  intro s
  induction hn : Φ s using Nat.strong_induction_on generalizing s with
  | _ n ih =>
    intro hs
    by_cases hgoal : Goal s
    · exact ⟨[], s, .nil s, Nat.zero_le _, hs, hgoal⟩
    · obtain ⟨ls, s₁, hrun, hlen, hs₁, hlt⟩ := hstep s hs hgoal
      obtain ⟨ls', s', hrun', hlen', hs', hgoal'⟩ := ih (Φ s₁) (hn ▸ hlt) s₁ rfl hs₁
      refine ⟨ls ++ ls', s', hrun.append hrun', ?_, hs', hgoal'⟩
      rw [List.length_append]
      have : c * (Φ s₁ + 1) ≤ c * n := Nat.mul_le_mul_left c (hn ▸ hlt)
      rw [Nat.mul_add] at this
      omega

/-! ## Counting entries of a table -/

/-- Writing one entry of a table changes the count by that entry. -/
lemma countP_range_update {α : Type*} (p : α → Bool) (f : ℕ → α) {k n : ℕ} (hk : k < n) (a : α) :
    ((List.range n).countP fun i => p (Function.update f k a i)) + (p (f k)).toNat =
      ((List.range n).countP fun i => p (f i)) + (p a).toNat := by
  induction n with
  | zero => exact absurd hk (Nat.not_lt_zero k)
  | succ n ih =>
    simp only [List.range_succ, List.countP_append, List.countP_singleton]
    rcases Nat.lt_succ_iff_lt_or_eq.1 hk with hlt | rfl
    · have := ih hlt
      rw [Function.update_of_ne (Nat.ne_of_gt hlt)]
      omega
    · have hrest : ((List.range k).countP fun i => p (Function.update f k a i)) =
          (List.range k).countP fun i => p (f i) :=
        List.countP_congr fun i hi => by
          rw [Function.update_of_ne (Nat.ne_of_lt (List.mem_range.1 hi))]
      rw [hrest, Function.update_self]
      cases p a <;> cases p (f k) <;> simp

/-- An entry beyond the counted ones does not count. -/
lemma countP_range_update_of_le {α : Type*} (p : α → Bool) (f : ℕ → α) {k n : ℕ} (hk : n ≤ k)
    (a : α) : ((List.range n).countP fun i => p (Function.update f k a i)) =
      (List.range n).countP fun i => p (f i) :=
  List.countP_congr fun i hi => by
    rw [Function.update_of_ne (Nat.ne_of_lt ((List.mem_range.1 hi).trans_le hk))]

end Chorrent.Lib
