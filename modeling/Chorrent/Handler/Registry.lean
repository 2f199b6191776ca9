/-
# The registry and the registrations

A share is listed by `Registration::new`, and unlisted when its `Registration` is dropped or
when its id is removed, whichever comes first.  An entry is told from a later one under the
same id by the share it holds, so it lasts exactly as long as the registration that made it.
-/
import Chorrent.Handler.Basic
import Chorrent.Lib.Assoc
import Chorrent.Lib.Run

namespace Chorrent

open Lib

namespace Handler

variable {accessToken : List.Vector UInt8 32 → EndpointId → List.Vector UInt8 32}
  {h h' : Handler}

/-! ## What a step does to the registry -/

/-- `Registration::new` succeeds for this share. -/
def Registers (h : Handler) (o : ℕ) (s : SharedShare) : Prop :=
  h.shares[o]? = some s ∧ h.registry.lookup s.id = none

/-- What an action makes of the registry and of the registrations. -/
inductive Lists (h h' : Handler) : HandlerAction → Prop
  | register {o s} (hs : h.Registers o s) (hregistry : h'.registry = h.registry.insert s.id o) :
      Lists h h' (.register o)
  | already {o s} (hs : h.shares[o]? = some s) (hlisted : h.registry.lookup s.id ≠ none)
      (heq : h' = h) : Lists h h' (.register o)
  | drop {o s} (hs : h.shares[o]? = some s) (hlisted : h.registry.lookup s.id = some o)
      (hregistry : h'.registry = h.registry.erase s.id) : Lists h h' (.drop o)
  | stale {o s} (hs : h.shares[o]? = some s) (hlisted : h.registry.lookup s.id ≠ some o)
      (hregistry : h'.registry = h.registry) : Lists h h' (.drop o)
  | remove {id} (hregistry : h'.registry = h.registry.erase id) : Lists h h' (.remove id)
  | other {a} (hregister : ∀ o, a ≠ .register o) (hdrop : ∀ o, a ≠ .drop o)
      (hremove : ∀ id, a ≠ .remove id) (hregistry : h'.registry = h.registry) : Lists h h' a

lemma stillRegistered_eq_true {o : ℕ} {s : SharedShare} (hs : h.shares[o]? = some s) :
    h.stillRegistered o = true ↔ h.registry.lookup s.id = some o := by
  rw [stillRegistered, hs]
  exact decide_eq_true_iff

lemma step_lists {a : HandlerAction} (hstep : h.step accessToken a = some h') : h.Lists h' a := by
  cases a with
  | register o =>
    obtain ⟨s, hs, hif⟩ := Option.bind_eq_some_iff.1 hstep
    split_ifs at hif with hlisted
    · cases hif
      exact .already hs (Option.isSome_iff_ne_none.1 hlisted) rfl
    · cases hif
      exact .register ⟨hs, Option.not_isSome_iff_eq_none.1 hlisted⟩ rfl
  | drop o =>
    obtain ⟨s, hs, hif⟩ := Option.bind_eq_some_iff.1 hstep
    split_ifs at hif with _ hstill
    · cases hif
      exact .drop hs ((stillRegistered_eq_true hs).1 hstill) rfl
    · cases hif
      exact .stale hs (fun hlisted => hstill ((stillRegistered_eq_true hs).2 hlisted)) rfl
  | remove id =>
    cases hstep
    exact .remove rfl
  | create | accept =>
    cases hstep
    exact .other (by simp) (by simp) (by simp) rfl
  | setAllowed =>
    obtain ⟨_, _, heq⟩ := Option.bind_eq_some_iff.1 hstep
    cases heq
    exact .other (by simp) (by simp) (by simp) rfl
  | mark | send | stream =>
    obtain ⟨_, _, hmap⟩ := Option.bind_eq_some_iff.1 hstep
    obtain ⟨_, _, rfl⟩ := Option.map_eq_some_iff.1 hmap
    exact .other (by simp) (by simp) (by simp) rfl

/-- A share keeps its number and its id. -/
lemma step_shares {a : HandlerAction} (hstep : h.step accessToken a = some h') {o : ℕ}
    {s : SharedShare} (hs : h.shares[o]? = some s) :
    ∃ s', h'.shares[o]? = some s' ∧ s'.id = s.id := by
  have hset : ∀ o' s₁ s₂, h.shares[o']? = some s₁ → s₂.id = s₁.id →
      ∃ s', (h.setShare o' s₂).shares[o]? = some s' ∧ s'.id = s.id := by
    intro o' s₁ s₂ hs₁ hid
    by_cases ho : o' = o
    · subst ho
      cases hs.symm.trans hs₁
      exact ⟨s₂, List.getElem?_set_self (List.getElem?_eq_some_iff.1 hs).1, hid⟩
    · exact ⟨s, (List.getElem?_set_ne ho).trans hs, rfl⟩
  cases a with
  | register o' =>
    obtain ⟨_, _, hif⟩ := Option.bind_eq_some_iff.1 hstep
    split_ifs at hif <;> (cases hif; exact ⟨s, hs, rfl⟩)
  | drop o' =>
    obtain ⟨_, _, hif⟩ := Option.bind_eq_some_iff.1 hstep
    split_ifs at hif <;> (cases hif; exact ⟨s, hs, rfl⟩)
  | remove id | accept =>
    cases hstep
    exact ⟨s, hs, rfl⟩
  | create =>
    cases hstep
    have hlt := (List.getElem?_eq_some_iff.1 hs).1
    exact ⟨s, (List.getElem?_append_left hlt).trans hs, rfl⟩
  | setAllowed o' peers =>
    obtain ⟨s₁, hs₁, heq⟩ := Option.bind_eq_some_iff.1 hstep
    cases heq
    exact hset o' s₁ _ hs₁ rfl
  | mark o' piece =>
    obtain ⟨s₁, hs₁, hmap⟩ := Option.bind_eq_some_iff.1 hstep
    obtain ⟨s₂, hmark, rfl⟩ := Option.map_eq_some_iff.1 hmap
    refine hset o' s₁ s₂ hs₁ ?_
    rw [SharedShare.mark] at hmark
    split at hmark <;> cases hmark <;> rfl
  | send o' piece =>
    obtain ⟨s₁, hs₁, hmap⟩ := Option.bind_eq_some_iff.1 hstep
    obtain ⟨s₂, hsend, rfl⟩ := Option.map_eq_some_iff.1 hmap
    refine hset o' s₁ s₂ hs₁ ?_
    rw [SharedShare.send] at hsend
    split_ifs at hsend
    cases hsend
    rfl
  | stream k action =>
    obtain ⟨_, _, hmap⟩ := Option.bind_eq_some_iff.1 hstep
    obtain ⟨_, _, rfl⟩ := Option.map_eq_some_iff.1 hmap
    exact ⟨s, hs, rfl⟩

/-! ## Entries and the steps that made them -/

variable (accessToken) in
/-- The registration of this share was created in the run, and since then it was not dropped
and the id was not removed. -/
def Listed (uploadSlots : ℕ) (actions : List HandlerAction) (o : ℕ) (id : ShareId) : Prop :=
  ∃ pre post h s, actions = pre ++ .register o :: post ∧
    Run (fun h a h' => h.step accessToken a = some h') (new uploadSlots) pre h ∧
    h.Registers o s ∧ s.id = id ∧ ∀ a ∈ post, a ≠ .drop o ∧ a ≠ .remove id

lemma listed_snoc {uploadSlots : ℕ} {actions : List HandlerAction} {a : HandlerAction} {o : ℕ}
    {id : ShareId}
    (hrun : Run (fun h a h' => h.step accessToken a = some h') (new uploadSlots) actions h) :
    Listed accessToken uploadSlots (actions ++ [a]) o id ↔
      (a = .register o ∧ ∃ s, h.Registers o s ∧ s.id = id) ∨
      (Listed accessToken uploadSlots actions o id ∧ a ≠ .drop o ∧ a ≠ .remove id) := by
  constructor
  · rintro ⟨pre, post, h₀, s, hsplit, hpre, hs, hid, hpost⟩
    rcases List.eq_nil_or_concat post with rfl | ⟨post, b, rfl⟩
    · obtain ⟨rfl, hlast⟩ := List.append_inj' hsplit rfl
      cases hlast
      exact .inl ⟨rfl, s, hrun.unique hpre ▸ hs, hid⟩
    · rw [List.concat_eq_append] at hsplit hpost
      rw [← List.cons_append, ← List.append_assoc] at hsplit
      obtain ⟨rfl, hlast⟩ := List.append_inj' hsplit rfl
      cases hlast
      exact .inr ⟨⟨pre, post, h₀, s, rfl, hpre, hs, hid,
        fun a ha => hpost a (List.mem_append_left _ ha)⟩, hpost _ (by simp)⟩
  · rintro (⟨rfl, s, hs, hid⟩ | ⟨⟨pre, post, h₀, s, rfl, hpre, hs, hid, hpost⟩, ha⟩)
    · exact ⟨actions, [], h, s, rfl, hrun, hs, hid, fun a ha => absurd ha List.not_mem_nil⟩
    · refine ⟨pre, post ++ [a], h₀, s, by simp, hpre, hs, hid, fun b hb => ?_⟩
      rcases List.mem_append.1 hb with hb | hb
      · exact hpost b hb
      · exact List.mem_singleton.1 hb ▸ ha

/-- A registration of a share with this id is dropped, or the id is removed. -/
def Unlists (h : Handler) (id : ShareId) (a : HandlerAction) : Prop :=
  a = .remove id ∨ ∃ o s, a = .drop o ∧ h.shares[o]? = some s ∧ s.id = id

/-- A step that does not unlist the id. -/
def KeepsListed (accessToken : List.Vector UInt8 32 → EndpointId → List.Vector UInt8 32)
    (id : ShareId) (h : Handler) (a : HandlerAction) (h' : Handler) : Prop :=
  h.step accessToken a = some h' ∧ ¬ h.Unlists id a

/-- Whether `Registration::new` succeeds, in the calls for this id. -/
def answers (id : ShareId) (h : Handler) : HandlerAction → List Bool
  | .register o =>
      match h.shares[o]? with
      | some s => if s.id = id then [(h.registry.lookup id).isNone] else []
      | none => []
  | _ => []

/-- The answers to registrations of an id that is not unlisted meanwhile: the first succeeds, if
the id was not listed, and no other does. -/
def firstSucceeds (listed : Bool) : ℕ → List Bool
  | 0 => []
  | n + 1 => (!listed) :: List.replicate n false

/-- Either the id stays as it is, or it is registered and listed afterwards. -/
lemma KeepsListed.cases {id : ShareId} {a : HandlerAction}
    (hstep : KeepsListed accessToken id h a h') :
    (answers id h a = [] ∧ (h'.registry.lookup id).isSome = (h.registry.lookup id).isSome) ∨
    (answers id h a = [!(h.registry.lookup id).isSome] ∧
      (h'.registry.lookup id).isSome = true) := by
  obtain ⟨hstep, hkeeps⟩ := hstep
  cases step_lists hstep with
  | @register o s hs hregistry =>
    rw [answers, hs.1, hregistry]
    dsimp only
    split_ifs with hid
    · subst hid
      exact .inr ⟨by rw [hs.2]; rfl, by rw [AList.lookup_insert]; rfl⟩
    · exact .inl ⟨rfl, by rw [AList.lookup_insert_ne (Ne.symm hid)]⟩
  | @already o s hs hlisted heq =>
    subst heq
    rw [answers, hs]
    dsimp only
    split_ifs with hid
    · subst hid
      obtain ⟨o', ho'⟩ := Option.ne_none_iff_exists'.1 hlisted
      exact .inr ⟨by rw [ho']; rfl, by rw [ho']; rfl⟩
    · exact .inl ⟨rfl, rfl⟩
  | @drop o s hs _ hregistry =>
    have hid : id ≠ s.id := fun hid => hkeeps (.inr ⟨o, s, rfl, hs, hid.symm⟩)
    exact .inl ⟨rfl, by rw [hregistry, AList.lookup_erase_ne hid]⟩
  | stale _ _ hregistry => exact .inl ⟨rfl, by rw [hregistry]⟩
  | @remove id' hregistry =>
    have hid : id ≠ id' := fun hid => hkeeps (.inl (by rw [hid]))
    exact .inl ⟨rfl, by rw [hregistry, AList.lookup_erase_ne hid]⟩
  | other hregister _ _ hregistry =>
    refine .inl ⟨?_, by rw [hregistry]⟩
    cases a with
    | register o => exact absurd rfl (hregister o)
    | _ => rfl

lemma answers_eq {id : ShareId} {seen : List Bool}
    (hrun : Observed (KeepsListed accessToken id) (answers id) h seen h') :
    seen = firstSucceeds (h.registry.lookup id).isSome seen.length := by
  induction hrun with
  | nil => rfl
  | @cons h h₁ _ a seen hstep _ ih =>
    rcases hstep.cases with ⟨hanswers, hsame⟩ | ⟨hanswers, hlisted⟩
    · rw [hanswers, List.nil_append, ← hsame]
      exact ih
    · rw [hlisted] at ih
      rw [hanswers, List.singleton_append, List.length_cons, firstSucceeds]
      congr 1
      rw [ih]
      cases seen.length <;> simp [firstSucceeds, List.replicate_succ]

/-! ## The registry and its registrations agree -/

/-- What holds between a registry and the run that led to it. -/
structure Agrees (accessToken : List.Vector UInt8 32 → EndpointId → List.Vector UInt8 32)
    (uploadSlots : ℕ) (actions : List HandlerAction) (h : Handler) : Prop where
  /-- An entry is a share with this id. -/
  entry : ∀ id o, h.registry.lookup id = some o → ∃ s, h.shares[o]? = some s ∧ s.id = id
  /-- There is an entry exactly while its registration lasts. -/
  listed : ∀ o s, h.shares[o]? = some s →
    (h.registry.lookup s.id = some o ↔ Listed accessToken uploadSlots actions o s.id)
  /-- A refused registration changes nothing. -/
  refused : ∀ o s, h.shares[o]? = some s → h.registry.lookup s.id ≠ none →
    h.step accessToken (.register o) = some h
  /-- Of concurrent registrations one succeeds. -/
  concurrent : ∀ id seen h', Observed (KeepsListed accessToken id) (answers id) h seen h' →
    seen = firstSucceeds (h.registry.lookup id).isSome seen.length
  /-- A stale registration that is dropped leaves every other share listed. -/
  stale : ∀ o h', h.step accessToken (.drop o) = some h' → ∀ id o', o' ≠ o →
    h.registry.lookup id = some o' → h'.registry.lookup id = some o'
  stillRegistered : ∀ o s, h.shares[o]? = some s →
    (h.stillRegistered o = true ↔ h.registry.lookup s.id = some o)

lemma entry_step {a : HandlerAction}
    (hentry : ∀ id o, h.registry.lookup id = some o → ∃ s, h.shares[o]? = some s ∧ s.id = id)
    (hstep : h.step accessToken a = some h') (id : ShareId) (o : ℕ)
    (hlookup : h'.registry.lookup id = some o) : ∃ s, h'.shares[o]? = some s ∧ s.id = id := by
  have hold : h.registry.lookup id = some o → ∃ s, h'.shares[o]? = some s ∧ s.id = id := by
    intro hlookup
    obtain ⟨s, hs, rfl⟩ := hentry id o hlookup
    exact step_shares hstep hs
  cases step_lists hstep with
  | @register o' s hs hregistry =>
    rw [hregistry] at hlookup
    by_cases hid : id = s.id
    · rw [hid, AList.lookup_insert] at hlookup
      cases hlookup
      rw [hid]
      exact step_shares hstep hs.1
    · rw [AList.lookup_insert_ne hid] at hlookup
      exact hold hlookup
  | drop _ _ hregistry | remove hregistry =>
    rw [hregistry] at hlookup
    exact hold (lookup_of_erase hlookup)
  | already _ _ heq =>
    subst heq
    exact hentry id o hlookup
  | stale _ _ hregistry | other _ _ _ hregistry =>
    rw [hregistry] at hlookup
    exact hold hlookup

/-- What a step makes of the entry of a share. -/
lemma listed_step {a : HandlerAction} (hstep : h.step accessToken a = some h') {o : ℕ}
    {s : SharedShare} (hs : h.shares[o]? = some s) :
    h'.registry.lookup s.id = some o ↔
      (a = .register o ∧ h.Registers o s) ∨
      (h.registry.lookup s.id = some o ∧ a ≠ .drop o ∧ a ≠ .remove s.id) := by
  -- two registrations of one id are told apart by the number of the share
  cases step_lists hstep with
  | @register o' s' hs' hregistry =>
    rw [hregistry]
    by_cases hid : s.id = s'.id
    · rw [hid, AList.lookup_insert, hs'.2]
      constructor
      · intro ho
        cases ho
        cases hs.symm.trans hs'.1
        exact .inl ⟨rfl, hs'⟩
      · rintro (⟨ho, -⟩ | ⟨hnone, -⟩)
        · cases ho
          rfl
        · cases hnone
    · rw [AList.lookup_insert_ne hid]
      refine ⟨fun hlookup => .inr ⟨hlookup, by simp, by simp⟩, ?_⟩
      rintro (⟨ho, hregisters⟩ | ⟨hlookup, -⟩)
      · cases ho
        cases hs.symm.trans hs'.1
        exact absurd rfl hid
      · exact hlookup
  | @already o' s' hs' hlisted heq =>
    subst heq
    refine ⟨fun hlookup => .inr ⟨hlookup, by simp, by simp⟩, ?_⟩
    rintro (⟨ho, hregisters⟩ | ⟨hlookup, -⟩)
    · cases ho
      cases hs.symm.trans hs'
      exact absurd hregisters.2 hlisted
    · exact hlookup
  | @drop o' s' hs' hlisted hregistry =>
    rw [hregistry]
    by_cases hid : s.id = s'.id
    · rw [hid, AList.lookup_erase, hlisted]
      refine iff_of_false (by simp) ?_
      rintro (⟨ho, -⟩ | ⟨ho, hne, -⟩)
      · cases ho
      · cases ho
        exact hne rfl
    · rw [AList.lookup_erase_ne hid]
      refine ⟨fun hlookup => .inr ⟨hlookup, fun ho => ?_, by simp⟩, ?_⟩
      · cases ho
        cases hs.symm.trans hs'
        exact hid rfl
      · rintro (⟨ho, -⟩ | ⟨hlookup, -⟩)
        · cases ho
        · exact hlookup
  | @stale o' s' hs' hlisted hregistry =>
    rw [hregistry]
    refine ⟨fun hlookup => .inr ⟨hlookup, fun ho => ?_, by simp⟩, ?_⟩
    · cases ho
      cases hs.symm.trans hs'
      exact hlisted hlookup
    · rintro (⟨ho, -⟩ | ⟨hlookup, -⟩)
      · cases ho
      · exact hlookup
  | @remove id hregistry =>
    rw [hregistry]
    by_cases hid : s.id = id
    · rw [hid, AList.lookup_erase]
      refine iff_of_false (by simp) ?_
      rintro (⟨ho, -⟩ | ⟨-, -, hne⟩)
      · cases ho
      · exact hne rfl
    · rw [AList.lookup_erase_ne hid]
      refine ⟨fun hlookup => .inr ⟨hlookup, by simp, fun heq => ?_⟩, ?_⟩
      · cases heq
        exact hid rfl
      · rintro (⟨ho, -⟩ | ⟨hlookup, -⟩)
        · cases ho
        · exact hlookup
  | other hregister hdrop hremove hregistry =>
    rw [hregistry]
    refine ⟨fun hlookup => .inr ⟨hlookup, hdrop o, hremove _⟩, ?_⟩
    rintro (⟨ho, -⟩ | ⟨hlookup, -⟩)
    · exact absurd ho (hregister o)
    · exact hlookup

lemma run_shares {uploadSlots : ℕ} {o : ℕ} {id : ShareId} {actions : List HandlerAction}
    (hrun : Run (fun h a h' => h.step accessToken a = some h') (new uploadSlots) actions h)
    (hlisted : Listed accessToken uploadSlots actions o id) :
    ∃ s, h.shares[o]? = some s ∧ s.id = id := by
  obtain ⟨pre, post, h₀, s, rfl, hpre, hs, rfl, -⟩ := hlisted
  obtain ⟨h₁, hpre', hpost⟩ := hrun.of_append
  obtain rfl := hpre.unique hpre'
  refine hpost.invariant (P := fun h => ∃ s', h.shares[o]? = some s' ∧ s'.id = s.id) ?_
    ⟨s, hs.1, rfl⟩
  rintro h a h' ⟨s₁, hs₁, hid⟩ hstep
  obtain ⟨s₂, hs₂, hid'⟩ := step_shares hstep hs₁
  exact ⟨s₂, hs₂, hid'.trans hid⟩

lemma listed_of_step {uploadSlots : ℕ} {actions : List HandlerAction} {a : HandlerAction}
    (hrun : Run (fun h a h' => h.step accessToken a = some h') (new uploadSlots) actions h)
    (hentry : ∀ id o, h.registry.lookup id = some o → ∃ s, h.shares[o]? = some s ∧ s.id = id)
    (hlisted : ∀ o s, h.shares[o]? = some s →
      (h.registry.lookup s.id = some o ↔ Listed accessToken uploadSlots actions o s.id))
    (hstep : h.step accessToken a = some h') (o : ℕ) (s' : SharedShare)
    (hs' : h'.shares[o]? = some s') :
    h'.registry.lookup s'.id = some o ↔
      Listed accessToken uploadSlots (actions ++ [a]) o s'.id := by
  cases hs : h.shares[o]? with
  | some s =>
    obtain ⟨s₁, hs₁, hid⟩ := step_shares hstep hs
    cases hs'.symm.trans hs₁
    rw [hid, listed_step hstep hs, listed_snoc hrun, hlisted o s hs]
    refine or_congr_left (and_congr_right fun _ => ⟨fun h => ⟨s, h, rfl⟩, ?_⟩)
    rintro ⟨s₂, hs₂, -⟩
    cases hs.symm.trans hs₂.1
    exact hs₂
  | none =>
    -- a share that has just been created
    refine iff_of_false (fun hlookup => ?_) fun hnew => ?_
    · have hold : h.registry.lookup s'.id ≠ some o := fun hlookup => by
        obtain ⟨s, hs₁, -⟩ := hentry _ _ hlookup
        cases hs.symm.trans hs₁
      cases step_lists hstep with
      | @register o' s₁ hs₁ hregistry =>
        rw [hregistry] at hlookup
        by_cases hid : s'.id = s₁.id
        · rw [hid, AList.lookup_insert] at hlookup
          cases hlookup
          cases hs.symm.trans hs₁.1
        · rw [AList.lookup_insert_ne hid] at hlookup
          exact hold hlookup
      | drop _ _ hregistry | remove hregistry =>
        rw [hregistry] at hlookup
        exact hold (lookup_of_erase hlookup)
      | already _ _ heq =>
        subst heq
        exact hold hlookup
      | stale _ _ hregistry | other _ _ _ hregistry =>
        rw [hregistry] at hlookup
        exact hold hlookup
    · rcases (listed_snoc hrun).1 hnew with ⟨-, s, hs₁, -⟩ | ⟨hlisted, -⟩
      · cases hs.symm.trans hs₁.1
      · obtain ⟨s, hs₁, -⟩ := run_shares hrun hlisted
        cases hs.symm.trans hs₁

variable (accessToken) in
/-- What every step preserves. -/
def Entries (uploadSlots : ℕ) (actions : List HandlerAction) (h : Handler) : Prop :=
  Run (fun h a h' => h.step accessToken a = some h') (new uploadSlots) actions h ∧
  (∀ id o, h.registry.lookup id = some o → ∃ s, h.shares[o]? = some s ∧ s.id = id) ∧
  ∀ o s, h.shares[o]? = some s →
    (h.registry.lookup s.id = some o ↔ Listed accessToken uploadSlots actions o s.id)

lemma run_entries {uploadSlots : ℕ} {actions : List HandlerAction}
    (hrun : Run (fun h a h' => h.step accessToken a = some h') (new uploadSlots) actions h) :
    Entries accessToken uploadSlots actions h := by
  have hnew : Entries accessToken uploadSlots [] (new uploadSlots) := by
    refine ⟨.nil _, fun id o hlookup => ?_, fun o s hs => ?_⟩
    · cases hlookup
    · cases hs
  have hinv : Entries accessToken uploadSlots ([] ++ actions) h := by
    refine hrun.invariant_history ?_ hnew
    rintro actions h a h' ⟨hrun, hentry, hlisted⟩ hstep
    exact ⟨hrun.snoc hstep, entry_step hentry hstep, listed_of_step hrun hentry hlisted hstep⟩
  exact hinv

/-- After every run, the registry lists exactly the shares whose registrations last. -/
theorem registry_agrees {uploadSlots : ℕ} {actions : List HandlerAction}
    (hrun : Run (fun h a h' => h.step accessToken a = some h') (new uploadSlots) actions h) :
    Agrees accessToken uploadSlots actions h := by
  obtain ⟨-, hentry, hlisted⟩ := run_entries hrun
  refine ⟨hentry, hlisted, fun o s hs hne => ?_, fun id seen h' => answers_eq,
    fun o h' hstep id o' hne hlookup => ?_, fun o s hs => stillRegistered_eq_true hs⟩
  · rw [step, hs]
    exact if_pos (Option.isSome_iff_ne_none.2 hne)
  · obtain ⟨s, hs, rfl⟩ := hentry id o' hlookup
    exact (listed_step hstep hs).2 (.inr ⟨hlookup, fun heq => hne (by cases heq; rfl), by simp⟩)

/-- A share is removed and another one registered with its id; then the handle of the first is
dropped. -/
theorem registry_agrees_two_shares : ∃ h, Agrees (fun secret _ => secret) 1
    [.create (.replicate 32 1) [] none [], .create (.replicate 32 1) [] none [], .register 0,
      .register 1, .remove (.replicate 32 1), .register 1, .drop 0] h ∧
    h.registry.lookup (.replicate 32 1) = some 1 :=
  ⟨_, registry_agrees (.cons rfl <| .cons rfl <| .cons rfl <| .cons rfl <| .cons rfl <|
    .cons rfl <| .cons rfl <| .nil _), rfl⟩

end Handler

end Chorrent
