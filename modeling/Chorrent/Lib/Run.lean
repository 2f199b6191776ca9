/-
# Runs of a labelled transition system

A system is given by its step relation `σ → ℓ → σ → Prop`.  A *run* performs the steps of
a list of labels one after another.  The two rules proved here are the ones every safety
argument uses: an invariant preserved by each step holds at the end of every run, and the
same for an invariant that may also mention the labels seen so far.  A simulation rule
compares a system with another.
-/
import Mathlib.Data.Option.Basic

namespace Chorrent.Lib

variable {σ ℓ : Type*}

/-- `Run step s ls s'`: performing the labels `ls` from `s` may end in `s'`. -/
inductive Run (step : σ → ℓ → σ → Prop) : σ → List ℓ → σ → Prop
  | nil (s : σ) : Run step s [] s
  | cons {s s₁ s₂ : σ} {l : ℓ} {ls : List ℓ} :
      step s l s₁ → Run step s₁ ls s₂ → Run step s (l :: ls) s₂

namespace Run

variable {step : σ → ℓ → σ → Prop}

lemma single {s s' : σ} {l : ℓ} (h : step s l s') : Run step s [l] s' :=
  .cons h (.nil s')

lemma append {s s₁ s₂ : σ} {ls ls' : List ℓ} (h : Run step s ls s₁)
    (h' : Run step s₁ ls' s₂) : Run step s (ls ++ ls') s₂ := by
  induction h with
  | nil => exact h'
  | cons hl _ ih => exact .cons hl (ih h')

lemma of_append {s s₂ : σ} {ls ls' : List ℓ} (h : Run step s (ls ++ ls') s₂) :
    ∃ s₁, Run step s ls s₁ ∧ Run step s₁ ls' s₂ := by
  induction ls generalizing s with
  | nil => exact ⟨s, .nil s, h⟩
  | cons l ls ih =>
    cases h with
    | cons hl hls =>
      obtain ⟨s₁, h₁, h₂⟩ := ih hls
      exact ⟨s₁, .cons hl h₁, h₂⟩

lemma snoc {s s₁ s₂ : σ} {ls : List ℓ} {l : ℓ} (h : Run step s ls s₁) (hl : step s₁ l s₂) :
    Run step s (ls ++ [l]) s₂ :=
  h.append (single hl)

/-- Where a step is a function, labels lead to one state. -/
lemma unique {f : σ → ℓ → Option σ} {s s₁ s₂ : σ} {ls : List ℓ}
    (h₁ : Run (fun s l s' => f s l = some s') s ls s₁)
    (h₂ : Run (fun s l s' => f s l = some s') s ls s₂) : s₁ = s₂ := by
  induction h₁ with
  | nil =>
    cases h₂
    rfl
  | cons hl _ ih =>
    cases h₂ with
    | cons hl' hls =>
      cases hl.symm.trans hl'
      exact ih hls

/-- A run of a restricted system is a run of the larger one. -/
lemma mono {step' : σ → ℓ → σ → Prop} (hle : ∀ s l s', step s l s' → step' s l s')
    {s s' : σ} {ls : List ℓ} (h : Run step s ls s') : Run step' s ls s' := by
  induction h with
  | nil s => exact .nil s
  | cons hl _ ih => exact .cons (hle _ _ _ hl) ih

/-- The invariant rule: what every step preserves holds at the end of a run. -/
lemma invariant {P : σ → Prop} (hstep : ∀ s l s', P s → step s l s' → P s')
    {s s' : σ} {ls : List ℓ} (h : Run step s ls s') (hs : P s) : P s' := by
  induction h with
  | nil => exact hs
  | cons hl _ ih => exact ih (hstep _ _ _ hs hl)

/-- The invariant rule with history: the invariant may mention the labels performed so
far, which start as `pre`. -/
lemma invariant_history {P : List ℓ → σ → Prop}
    (hstep : ∀ ls s l s', P ls s → step s l s' → P (ls ++ [l]) s')
    {s s' : σ} {ls : List ℓ} (h : Run step s ls s') :
    ∀ {pre : List ℓ}, P pre s → P (pre ++ ls) s' := by
  induction h with
  | nil => intro pre hs; simpa using hs
  | cons hl _ ih =>
    intro pre hs
    simpa using ih (hstep _ _ _ _ hs hl)

/-- Perform labels one after another, where a step is a function. -/
def exec (f : σ → ℓ → Option σ) (s : σ) : List ℓ → Option σ
  | [] => some s
  | l :: ls => (f s l).bind (exec f · ls)

lemma of_exec {f : σ → ℓ → Option σ} {ls : List ℓ} {s s' : σ} (h : exec f s ls = some s') :
    Run (fun s l s' => f s l = some s') s ls s' := by
  induction ls generalizing s with
  | nil =>
    cases h
    exact .nil _
  | cons l ls ih =>
    obtain ⟨s₁, hl, hls⟩ := Option.bind_eq_some_iff.1 h
    exact .cons hl (ih hls)

/-- The simulation rule: a run of one system is matched by a run of another with the same
labels. -/
lemma simulation {τ : Type*} {step' : τ → ℓ → τ → Prop} {R : σ → τ → Prop}
    (hstep : ∀ s l s' t, R s t → step s l s' → ∃ t', step' t l t' ∧ R s' t')
    {s s' : σ} {ls : List ℓ} (h : Run step s ls s') :
    ∀ {t : τ}, R s t → ∃ t', Run step' t ls t' ∧ R s' t' := by
  induction h with
  | nil s => exact fun {t} ht => ⟨t, .nil t, ht⟩
  | cons hl _ ih =>
    intro t ht
    obtain ⟨t₁, ht₁, hR⟩ := hstep _ _ _ _ ht hl
    obtain ⟨t', ht', hR'⟩ := ih hR
    exact ⟨t', .cons ht₁ ht', hR'⟩

end Run

/-- A run of which only this is seen: `see` is what shows of a step. -/
inductive Observed {ω : Type*} (step : σ → ℓ → σ → Prop) (see : σ → ℓ → List ω) :
    σ → List ω → σ → Prop
  | nil (s : σ) : Observed step see s [] s
  | cons {s s₁ s₂ : σ} {l : ℓ} {os : List ω} :
      step s l s₁ → Observed step see s₁ os s₂ → Observed step see s (see s l ++ os) s₂

end Chorrent.Lib
