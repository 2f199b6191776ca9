/-
# Forgotten shares

`forget` takes the records of a share out of five tables.  It finds the downloads to remove in
one of them, and other tasks may commit between its transactions and after it.  What is
forgotten stays so as long as no task that is still running saves a record of the share behind
the back of `forget`, and no progress is left without its download.
-/
import Chorrent.Client.Allow

namespace Chorrent

open Lib

/-! ## The records of a share -/

namespace Tables

/-- There is a record of the share itself. -/
def HoldsShare (t : Tables) (id : ShareId) : Prop := id ∈ t.seeds ∨ id ∈ t.kinds ∨ id ∈ t.access

/-- There is a record of a download of the share to this destination. -/
def HoldsAt (t : Tables) (id : ShareId) (destDir : String) : Prop :=
  (id, destDir) ∈ t.downloads ∨ (id, destDir) ∈ t.progress

/-- Some table holds a record of the share. -/
def Holds (t : Tables) (id : ShareId) : Prop := t.HoldsShare id ∨ ∃ destDir, t.HoldsAt id destDir

/-- All records of the share are the same. -/
structure Agree (id : ShareId) (t t' : Tables) : Prop where
  seeds : t'.seeds.lookup id = t.seeds.lookup id
  kinds : t'.kinds.lookup id = t.kinds.lookup id
  access : t'.access.lookup id = t.access.lookup id
  downloads : ∀ destDir, t'.downloads.lookup (id, destDir) = t.downloads.lookup (id, destDir)
  progress : ∀ destDir, t'.progress.lookup (id, destDir) = t.progress.lookup (id, destDir)

lemma Agree.refl (id : ShareId) (t : Tables) : Agree id t t :=
  ⟨rfl, rfl, rfl, fun _ => rfl, fun _ => rfl⟩

lemma not_lists_of_not_holds {t : Tables} {id : ShareId} (h : ¬t.Holds id) : ¬t.Lists id := by
  rintro (hseed | ⟨destDir, hdownload⟩)
  · exact h (.inl (.inl hseed))
  · exact h (.inr ⟨destDir, .inl hdownload⟩)

end Tables

namespace Tx

/-- A record of the share itself is saved. -/
def putsShare : Tx → Bool
  | .putKinds _ _ | .putSeed _ _ | .putAllowed _ (some _) => true
  | _ => false

/-- A record of a download to this destination is saved. -/
def putsAt : Tx → Option String
  | .putDownload _ destDir _ | .putProgress _ destDir _ => some destDir
  | _ => none

end Tx

namespace Tables

variable {t : Tables} {id : ShareId} {tx : Tx} {destDir : String}

/-- A transaction leaves the records of other shares. -/
lemma agree_commit (h : tx.id ≠ id) : Agree id t (t.commit tx) := by
  have hid : id ≠ tx.id := h.symm
  have hkey : ∀ destDir destDir' : String, (id, destDir) ≠ (tx.id, destDir') :=
    fun _ _ heq => hid (congrArg Prod.fst heq)
  cases tx with
  | putKinds id' kinds => exact ⟨rfl, AList.lookup_insert_ne hid, rfl, fun _ => rfl, fun _ => rfl⟩
  | putSeed id' record => exact ⟨AList.lookup_insert_ne hid, rfl, rfl, fun _ => rfl, fun _ => rfl⟩
  | putAllowed id' peers =>
    cases peers with
    | none => exact ⟨rfl, rfl, AList.lookup_erase_ne hid, fun _ => rfl, fun _ => rfl⟩
    | some peers => exact ⟨rfl, rfl, AList.lookup_insert_ne hid, fun _ => rfl, fun _ => rfl⟩
  | removeShare id' =>
    exact ⟨AList.lookup_erase_ne hid, AList.lookup_erase_ne hid, AList.lookup_erase_ne hid,
      fun _ => rfl, fun _ => rfl⟩
  | putDownload id' destDir' record =>
    exact ⟨rfl, rfl, rfl, fun d => AList.lookup_insert_ne (hkey d destDir'), fun _ => rfl⟩
  | putProgress id' destDir' outboards =>
    exact ⟨rfl, rfl, rfl, fun _ => rfl, fun d => AList.lookup_insert_ne (hkey d destDir')⟩
  | removeDownload id' destDir' =>
    exact ⟨rfl, rfl, rfl, fun d => AList.lookup_erase_ne (hkey d destDir'),
      fun d => AList.lookup_erase_ne (hkey d destDir')⟩

/-- Where a record of the share itself comes from. -/
lemma holdsShare_of_commit (h : (t.commit tx).HoldsShare id) :
    t.HoldsShare id ∨ tx.id = id ∧ tx.putsShare = true := by
  cases tx with
  | putKinds id' kinds =>
    rcases h with h | h | h
    · exact .inl (.inl h)
    · rcases AList.mem_insert _ |>.1 h with rfl | h
      · exact .inr ⟨rfl, rfl⟩
      · exact .inl (.inr (.inl h))
    · exact .inl (.inr (.inr h))
  | putSeed id' record =>
    rcases h with h | h
    · rcases AList.mem_insert _ |>.1 h with rfl | h
      · exact .inr ⟨rfl, rfl⟩
      · exact .inl (.inl h)
    · exact .inl (.inr h)
  | putAllowed id' peers =>
    cases peers with
    | none =>
      rcases h with h | h | h
      · exact .inl (.inl h)
      · exact .inl (.inr (.inl h))
      · exact .inl (.inr (.inr (AList.mem_erase.1 h).2))
    | some peers =>
      rcases h with h | h | h
      · exact .inl (.inl h)
      · exact .inl (.inr (.inl h))
      · rcases AList.mem_insert _ |>.1 h with rfl | h
        · exact .inr ⟨rfl, rfl⟩
        · exact .inl (.inr (.inr h))
  | removeShare id' =>
    exact .inl (h.imp (fun h => (AList.mem_erase.1 h).2)
      (Or.imp (fun h => (AList.mem_erase.1 h).2) fun h => (AList.mem_erase.1 h).2))
  | putDownload | putProgress | removeDownload => exact .inl h

/-- Where a record of a download comes from. -/
lemma holdsAt_of_commit (h : (t.commit tx).HoldsAt id destDir) :
    t.HoldsAt id destDir ∨ tx.id = id ∧ tx.putsAt = some destDir := by
  cases tx with
  | putAllowed id' peers => cases peers <;> exact .inl h
  | putDownload id' destDir' record =>
    rcases h with h | h
    · rcases AList.mem_insert _ |>.1 h with heq | h
      · cases heq
        exact .inr ⟨rfl, rfl⟩
      · exact .inl (.inl h)
    · exact .inl (.inr h)
  | putProgress id' destDir' outboards =>
    rcases h with h | h
    · exact .inl (.inl h)
    · rcases AList.mem_insert _ |>.1 h with heq | h
      · cases heq
        exact .inr ⟨rfl, rfl⟩
      · exact .inl (.inr h)
  | removeDownload id' destDir' =>
    exact .inl (h.imp (fun h => (AList.mem_erase.1 h).2) fun h => (AList.mem_erase.1 h).2)
  | putKinds | putSeed | removeShare => exact .inl h

lemma not_holdsShare_removeShare : ¬(t.commit (.removeShare id)).HoldsShare id := by
  rintro (h | h | h)
  · exact (AList.mem_erase.1 h).1 rfl
  · exact (AList.mem_erase.1 h).1 rfl
  · exact (AList.mem_erase.1 h).1 rfl

lemma not_holdsAt_removeDownload : ¬(t.commit (.removeDownload id destDir)).HoldsAt id destDir := by
  rintro (h | h)
  · exact (AList.mem_erase.1 h).1 rfl
  · exact (AList.mem_erase.1 h).1 rfl

end Tables

/-! ## What a running `forget` has left to do -/

/-- A `forget` that has come this far removes what the transaction saves. -/
def TaskStage.Removes (tx : Tx) : TaskStage → Prop
  | .listingDownloads => tx.putsShare = false
  | .forgettingDownloads dests =>
      tx.putsShare = false ∧ ∀ destDir, tx.putsAt = some destDir → destDir ∈ dests
  | _ => True

lemma TaskStage.removes_of_not_forgets {tx : Tx} {stage : TaskStage} (h : stage.forgets = false) :
    stage.Removes tx := by
  cases stage with
  | listingDownloads | forgettingDownloads => cases h
  | _ => trivial

lemma TaskStage.removes_of_removal {tx : Tx} {stage : TaskStage} (hshare : tx.putsShare = false)
    (hat : tx.putsAt = none) : stage.Removes tx := by
  cases stage with
  | listingDownloads => exact hshare
  | forgettingDownloads dests =>
    refine ⟨hshare, fun destDir h => ?_⟩
    rw [hat] at h
    cases h
  | _ => trivial

/-- All records that are left of the share are ones that the `forget` removes. -/
def Tables.Left (t : Tables) (id : ShareId) : TaskStage → Prop
  | .listingDownloads => ¬t.HoldsShare id
  | .forgettingDownloads dests => ¬t.HoldsShare id ∧ ∀ destDir, t.HoldsAt id destDir →
      destDir ∈ dests
  | _ => True

lemma Tables.Left.commit {t : Tables} {id : ShareId} {tx : Tx} {stage : TaskStage}
    (h : t.Left id stage) (htx : tx.id = id → stage.Removes tx) : (t.commit tx).Left id stage := by
  have hshare : ¬t.HoldsShare id → (tx.id = id → tx.putsShare = false) →
      ¬(t.commit tx).HoldsShare id := by
    intro hnot hputs hholds
    rcases Tables.holdsShare_of_commit hholds with hholds | ⟨hid, hput⟩
    · exact hnot hholds
    · rw [hputs hid] at hput
      cases hput
  cases stage with
  | listingDownloads => exact hshare h htx
  | forgettingDownloads dests =>
    refine ⟨hshare h.1 fun hid => (htx hid).1, fun destDir hholds => ?_⟩
    rcases Tables.holdsAt_of_commit hholds with hholds | ⟨hid, hput⟩
    · exact h.2 destDir hholds
    · exact (htx hid).2 destDir hput
  | _ => trivial

/-- A client, and beside it the shares that were forgotten and of which no transfer was started
since. -/
structure Forgetting where
  client : Client
  forgotten : Finset ShareId

namespace Forgetting

def new (reseed encrypted : Bool) : Forgetting := ⟨.new reseed encrypted, ∅⟩

/-- What an action makes of the shares that are forgotten: `forget` returns, or a transfer is
started. -/
def note (w : Forgetting) : ClientAction → Finset ShareId
  | .seed id _ _ _ | .resumeSeed id _ _ | .download id _ _ | .resumeDownload id _ _ =>
      w.forgotten.erase id
  | .task k (.next _) =>
      match w.client.tasks[k]? with
      | none => w.forgotten
      | some task =>
          if task.stage = .forgettingDownloads [] then insert task.id w.forgotten else w.forgotten
  | _ => w.forgotten

def step (w : Forgetting) (a : ClientAction) : Option Forgetting :=
  (w.client.step a).map fun client => ⟨client, w.note a⟩

/-- A running task saves no record of a share that is forgotten, or that a `forget` has come too
far to remove; and the progress that a `forget` finds has its download. -/
def Safe (w : Forgetting) : ClientAction → Prop
  | .task k action => ∀ task, w.client.tasks[k]? = some task →
      (∀ tx, task.tx action = some tx →
        (tx.id ∈ w.forgotten → tx.putsShare = false ∧ tx.putsAt = none) ∧
          ∀ other ∈ w.client.tasks, other.id = tx.id → other.stage.Removes tx) ∧
      (task.stage = .listingDownloads → action = .next false →
        ∀ destDir, (task.id, destDir) ∈ w.client.tables.progress →
          (task.id, destDir) ∈ w.client.tables.downloads)
  | _ => True

/-- What is forgotten is gone, and what is being forgotten is gone up to what is still to be
removed. -/
structure Sound (w : Forgetting) : Prop where
  gone : ∀ id ∈ w.forgotten, ¬w.client.tables.Holds id
  left : ∀ task ∈ w.client.tasks, w.client.tables.Left task.id task.stage

end Forgetting

/-! ## Steps -/

lemma Tables.left_of_not_forgets {t : Tables} {id : ShareId} {stage : TaskStage}
    (h : stage.forgets = false) : t.Left id stage := by
  cases stage with
  | listingDownloads | forgettingDownloads => cases h
  | _ => trivial

lemma Tables.mem_destsOf_of_holdsAt {t : Tables} {id : ShareId} {destDir : String}
    (horphan : (id, destDir) ∈ t.progress → (id, destDir) ∈ t.downloads)
    (h : t.HoldsAt id destDir) : destDir ∈ t.destsOf id :=
  Tables.mem_destsOf.2 (h.elim (fun h => h) horphan)

namespace Client

variable {c c' : Client} {k : ℕ} {task : Task} {action : TaskAction}

/-- A step of `forget` leaves only what is still to be removed. -/
lemma left_next {fails : Bool} (hleft : c.tables.Left task.id task.stage)
    (horphan : task.stage = .listingDownloads → fails = false → ∀ destDir,
      (task.id, destDir) ∈ c.tables.progress → (task.id, destDir) ∈ c.tables.downloads)
    (hforgets : task.stage.forgets = true) (hnext : c.next k task fails = some c') :
    ∃ task', c'.tasks = c.tasks.set k task' ∧ task'.id = task.id ∧
      c'.tables.Left task.id task'.stage := by
  -- a step that fails ends the task
  have hends : ∃ task', (c.finish k task).tasks = c.tasks.set k task' ∧ task'.id = task.id ∧
      (c.finish k task).tables.Left task.id task'.stage :=
    ⟨{ task with stage := .ended }, rfl, rfl, trivial⟩
  cases hstage : task.stage <;> simp only [next, hstage] at hnext
  case forgetting =>
    cases hnext
    rw [transact]
    split_ifs
    · exact hends
    · exact ⟨{ task with stage := .listingDownloads }, rfl, rfl, Tables.not_holdsShare_removeShare⟩
  case listingDownloads =>
    cases hnext
    split_ifs with hfails
    · exact hends
    · refine ⟨{ task with stage := .forgettingDownloads (c.tables.destsOf task.id) }, rfl, rfl, ?_⟩
      rw [hstage] at hleft
      exact ⟨hleft, fun destDir h => Tables.mem_destsOf_of_holdsAt
        (horphan hstage (Bool.eq_false_of_not_eq_true hfails) destDir) h⟩
  case forgettingDownloads dests =>
    cases dests with
    | nil =>
      cases hnext
      exact hends
    | cons destDir dests =>
      cases hnext
      rw [transact]
      split_ifs
      · exact hends
      · refine ⟨{ task with stage := .forgettingDownloads dests }, rfl, rfl, ?_⟩
        rw [hstage] at hleft
        refine ⟨fun h => ?_, fun destDir' h => ?_⟩
        · rcases Tables.holdsShare_of_commit h with h | ⟨-, hput⟩
          · exact hleft.1 h
          · cases hput
        · have hne : destDir' ≠ destDir := by
            rintro rfl
            exact Tables.not_holdsAt_removeDownload h
          rcases Tables.holdsAt_of_commit h with h | ⟨-, hput⟩
          · exact (List.mem_cons.1 (hleft.2 destDir' h)).resolve_left hne
          · cases hput
  all_goals simp [hstage, TaskStage.forgets] at hforgets

/-- Of the share of a task, the records are left that its `forget` still has to remove. -/
lemma left_act (htask : c.tasks[k]? = some task) (hleft : c.tables.Left task.id task.stage)
    (horphan : task.stage = .listingDownloads → action = .next false → ∀ destDir,
      (task.id, destDir) ∈ c.tables.progress → (task.id, destDir) ∈ c.tables.downloads)
    (hact : c.act k task action = some c') :
    ∃ task', c'.tasks = c.tasks.set k task' ∧ task'.id = task.id ∧
      c'.tables.Left task.id task'.stage := by
  obtain ⟨task', htasks, hbecomes⟩ := becomes_act htask hact
  cases hforgets : task.stage.forgets with
  | false =>
    exact ⟨task', htasks, hbecomes.id_eq,
      Tables.left_of_not_forgets (hbecomes.forgets_eq_false hforgets)⟩
  | true =>
    -- besides its next step, a `forget` can only end, or have its handle dropped
    cases hbecomes with
    | ends => exact ⟨_, htasks, rfl, trivial⟩
    | goesOn fails =>
      exact left_next hleft (fun hstage hfails => horphan hstage (by rw [hfails])) hforgets hact
    | cancelled | dropped =>
      exact ⟨_, htasks, rfl, by rw [tables_act hact]; exact hleft⟩
    | loads _ hstage | laysOut _ _ _ hstage | stores _ hstage | savesProgress _ _ hstage
    | savesLast _ _ hstage | finished hstage | keepsAllowed _ _ hstage | setsAllowed _ _ hstage =>
      rw [hstage] at hforgets
      cases hforgets

/-- A task leaves the records of every share but its own. -/
lemma agree_act {id : ShareId} (hid : id ≠ task.id) (hact : c.act k task action = some c') :
    Tables.Agree id c.tables c'.tables := by
  rw [tables_act hact]
  cases htx : task.tx action with
  | none => exact .refl id c.tables
  | some tx =>
    refine Tables.agree_commit fun h => hid ?_
    exact h.symm.trans (Task.id_of_tx htx)

end Client

namespace Forgetting

variable {w w' : Forgetting}

/-! ## Runs -/

lemma Sound.keep {c : Client} {forgotten : Finset ShareId} (h : w.Sound)
    (htables : c.tables = w.client.tables) (hforgotten : forgotten ⊆ w.forgotten)
    (htasks : ∀ task ∈ c.tasks, task ∈ w.client.tasks ∨ task.stage.forgets = false ∨
      task.stage = .forgetting) : Sound ⟨c, forgotten⟩ where
  gone id hid := by
    rw [htables]
    exact h.gone id (hforgotten hid)
  left task ht := by
    rw [htables]
    rcases htasks task ht with ht | hstage | hstage
    · exact h.left task ht
    · exact Tables.left_of_not_forgets hstage
    · rw [hstage]
      trivial

/-- A call that starts a task changes no record. -/
lemma Sound.spawn {c : Client} {task : Task} {forgotten : Finset ShareId} (h : w.Sound)
    (htables : c.tables = w.client.tables) (htasks : c.tasks = w.client.tasks)
    (hforgotten : forgotten ⊆ w.forgotten)
    (hstage : task.stage.forgets = false ∨ task.stage = .forgetting) :
    Sound ⟨c.spawn task, forgotten⟩ := by
  refine h.keep (c := c.spawn task) htables hforgotten fun t ht => ?_
  rcases List.mem_append.1 ht with ht | ht
  · exact .inl (htasks ▸ ht)
  · obtain rfl := List.mem_singleton.1 ht
    exact .inr hstage

lemma Sound.task {k : ℕ} {task : Task} {action : TaskAction} {c' : Client} (h : w.Sound)
    (hsafe : w.Safe (.task k action)) (htask : w.client.tasks[k]? = some task)
    (hact : w.client.act k task action = some c') : Sound ⟨c', w.note (.task k action)⟩ := by
  obtain ⟨hputs, horphan⟩ := hsafe task htask
  have hmem : task ∈ w.client.tasks := List.mem_of_getElem? htask
  have htables := Client.tables_act hact
  -- what is gone stays gone
  have hgone : ∀ id ∈ w.forgotten, ¬c'.tables.Holds id := by
    intro id hid hholds
    rw [htables] at hholds
    cases htx : task.tx action with
    | none =>
      rw [htx] at hholds
      exact h.gone id hid hholds
    | some tx =>
      rw [htx] at hholds
      rcases hholds with hholds | ⟨destDir, hholds⟩
      · rcases Tables.holdsShare_of_commit hholds with hholds | ⟨rfl, hput⟩
        · exact h.gone id hid (.inl hholds)
        · rw [((hputs tx htx).1 hid).1] at hput
          cases hput
      · rcases Tables.holdsAt_of_commit hholds with hholds | ⟨rfl, hput⟩
        · exact h.gone id hid (.inr ⟨destDir, hholds⟩)
        · rw [((hputs tx htx).1 hid).2] at hput
          cases hput
  constructor
  · intro id hid
    have hcases : id ∈ w.forgotten ∨
        id = task.id ∧ task.stage = .forgettingDownloads [] ∧ ∃ fails, action = .next fails := by
      cases action with
      | next fails =>
        simp only [note, htask] at hid
        split_ifs at hid with hstage
        · rcases Finset.mem_insert.1 hid with rfl | hid
          · exact .inr ⟨rfl, hstage, fails, rfl⟩
          · exact .inl hid
        · exact .inl hid
      | _ => exact .inl hid
    rcases hcases with hid | ⟨rfl, hstage, fails, rfl⟩
    · exact hgone id hid
    · -- `forget` returns, with nothing left to remove
      have hleft := h.left task hmem
      have hsame : c'.tables = w.client.tables := by
        rw [htables, Task.tx, Task.nextTx, hstage]
        cases fails <;> rfl
      rw [hstage] at hleft
      rw [hsame]
      rintro (hholds | ⟨destDir, hholds⟩)
      · exact hleft.1 hholds
      · cases hleft.2 destDir hholds
  · intro other hother
    obtain ⟨task', htasks, hid', hleft'⟩ :=
      Client.left_act htask (h.left task hmem) horphan hact
    have hother' : other ∈ w.client.tasks.set k task' := htasks ▸ hother
    rcases List.mem_or_eq_of_mem_set hother' with hother | rfl
    · rw [htables]
      cases htx : task.tx action with
      | none => exact h.left other hother
      | some tx =>
        exact (h.left other hother).commit fun hid => (hputs tx htx).2 other hother hid.symm
    · exact hid' ▸ hleft'

lemma Sound.step {a : ClientAction} (h : w.Sound) (hsafe : w.Safe a)
    (hstep : w.step a = some w') : w'.Sound := by
  obtain ⟨client, hclient, rfl⟩ := Option.map_eq_some_iff.1 hstep
  cases a with
  | task k action =>
    obtain ⟨task, htask, hact⟩ := Option.bind_eq_some_iff.1 hclient
    exact h.task hsafe htask hact
  | seed | download =>
    cases hclient
    exact h.spawn rfl rfl (Finset.erase_subset _ _) (.inl rfl)
  | forget | remove =>
    cases hclient
    exact h.spawn rfl rfl (Finset.Subset.refl _) (.inr rfl)
  | resumeSeed =>
    simp only [Client.step] at hclient
    split_ifs at hclient
    cases hclient
    exact h.spawn rfl rfl (Finset.erase_subset _ _) (.inl rfl)
  | resumeDownload =>
    obtain ⟨record, -, heq⟩ := Option.bind_eq_some_iff.1 hclient
    cases heq
    exact h.spawn rfl rfl (Finset.erase_subset _ _) (.inl rfl)
  | restart =>
    cases hclient
    exact h.keep rfl (Finset.Subset.refl _) fun task ht => by cases ht

lemma new_sound (reseed encrypted : Bool) : (new reseed encrypted).Sound where
  gone id hid := by cases hid
  left task ht := by cases ht

/-- In a run whose steps are safe, what is forgotten has no record and is not listed, and each
step of a task, a `forget` among them, leaves the records of all other shares. -/
theorem forgotten_until_transfer {reseed encrypted : Bool} {actions : List ClientAction}
    (hrun : Run (fun w a w' => w.step a = some w' ∧ w.Safe a) (new reseed encrypted) actions w) :
    (∀ id ∈ w.forgotten, ¬w.client.tables.Holds id ∧ ¬w.client.tables.Lists id) ∧
      ∀ k action task w', w.client.tasks[k]? = some task → w.step (.task k action) = some w' →
        ∀ id ≠ task.id, Tables.Agree id w.client.tables w'.client.tables := by
  have hsound : w.Sound := hrun.invariant (fun _ _ _ h hstep => h.step hstep.2 hstep.1)
    (new_sound reseed encrypted)
  constructor
  · intro id hid
    have hgone := hsound.gone id hid
    exact ⟨hgone, Tables.not_lists_of_not_holds hgone⟩
  · intro k action task w' htask hstep id hid
    obtain ⟨client, hclient, rfl⟩ := Option.map_eq_some_iff.1 hstep
    obtain ⟨task', htask', hact⟩ := Option.bind_eq_some_iff.1 hclient
    cases htask.symm.trans htask'
    exact Client.agree_act hid hact

/-! ## A share that is served and forgotten, and a download that runs on -/

section

variable {k : ℕ} {task : Task} {action : TaskAction}

lemma safe_of_tx {tx : Tx} (htask : w.client.tasks[k]? = some task) (htx : task.tx action = some tx)
    (hforgotten : tx.id ∉ w.forgotten)
    (hremoves : ∀ other ∈ w.client.tasks, other.stage.Removes tx) : w.Safe (.task k action) := by
  intro task' htask'
  cases htask.symm.trans htask'
  refine ⟨fun tx' htx' => ?_, fun hstage haction => ?_⟩
  · cases htx.symm.trans htx'
    exact ⟨fun h => absurd h hforgotten, fun other hother _ => hremoves other hother⟩
  · rw [haction, Task.tx, Task.nextTx, hstage] at htx
    cases htx

lemma safe_of_no_tx (htask : w.client.tasks[k]? = some task) (htx : task.tx action = none)
    (hprogress : w.client.tables.progress = ∅) : w.Safe (.task k action) := by
  intro task' htask'
  cases htask.symm.trans htask'
  refine ⟨fun tx htx' => ?_, fun _ _ destDir hmem => ?_⟩
  · cases htx.symm.trans htx'
  · rw [hprogress] at hmem
    exact absurd hmem (AList.notMem_empty _)

end

def lent : ShareId := List.Vector.replicate 32 6

/-- A seed until it is served, and its share forgotten. -/
def servedAndForgotten : List ClientAction :=
  [.seed lent ⟨"notes.txt", none, [], [], []⟩ [false] none, .task 0 (.next false),
    .task 0 (.next false), .task 0 (.next false), .task 0 (.next false), .forget lent,
    .task 1 (.next false), .task 1 (.next false), .task 1 (.next false)]

/-- What was served has a record, and has none when it is forgotten. -/
theorem forgotten_until_transfer_served :
    (∃ w, Run (fun w a w' => w.step a = some w') (new true false) (servedAndForgotten.take 5) w ∧
      w.client.tables.Holds lent) ∧
    ∃ w, Run (fun w a w' => w.step a = some w' ∧ w.Safe a) (new true false) servedAndForgotten w ∧
      lent ∈ w.forgotten ∧ ¬w.client.tables.Holds lent := by
  refine ⟨⟨_, .cons rfl <| .cons rfl <| .cons rfl <| .cons rfl <| .cons rfl <| .nil _,
    .inl (.inl (AList.mem_insert _ |>.2 (.inl rfl)))⟩, ?_⟩
  have halone : ∀ {task : Task} {tx : Tx}, task.stage.forgets = false →
      ∀ other ∈ [task], other.stage.Removes tx := by
    rintro task tx hstage other hother
    exact List.mem_singleton.1 hother ▸ TaskStage.removes_of_not_forgets hstage
  have hrun : ∃ w, Run (fun w a w' => w.step a = some w' ∧ w.Safe a) (new true false)
      servedAndForgotten w ∧ lent ∈ w.forgotten := by
    refine ⟨_, .cons ⟨rfl, trivial⟩ <|
      .cons ⟨rfl, safe_of_tx rfl rfl (by decide) (halone rfl)⟩ <|
      .cons ⟨rfl, safe_of_no_tx rfl rfl rfl⟩ <|
      .cons ⟨rfl, safe_of_tx rfl rfl (by decide) (halone rfl)⟩ <|
      .cons ⟨rfl, safe_of_tx rfl rfl (by decide) (halone rfl)⟩ <|
      .cons ⟨rfl, trivial⟩ <|
      .cons ⟨rfl, safe_of_tx rfl rfl (by decide) fun _ _ => TaskStage.removes_of_removal rfl rfl⟩ <|
      .cons ⟨rfl, safe_of_no_tx rfl rfl rfl⟩ <|
      .cons ⟨rfl, safe_of_no_tx rfl rfl rfl⟩ <| .nil _, Finset.mem_insert_self lent _⟩
  obtain ⟨w, hrun, hmem⟩ := hrun
  exact ⟨w, hrun, hmem, ((forgotten_until_transfer hrun).1 lent hmem).1⟩

/-- A download that runs while its share is forgotten, saves its progress, and is taken by the
one who waits for it. -/
def forgottenWhileRunning : List ClientAction :=
  [.download lent ⟨"chr2", "out"⟩ none,
    .task 0 (.layOut ⟨"out/notes.txt", none, [], [], []⟩ [false] [false])] ++
    List.replicate 3 (.task 0 (.next false)) ++
    .forget lent :: List.replicate 3 (.task 1 (.next false)) ++
    [.task 1 (.next false), .task 0 (.saveProgress [] false)]

/-- The rest of it. -/
def finishedAfterwards : List ClientAction :=
  [.task 0 (.storePiece 0), .task 0 (.next false), .task 0 (.saveProgress [] false),
    .task 0 (.next false), .task 0 .finished, .task 0 (.next false), .task 0 (.next false)]

/-- The progress is saved again after `forget` has returned, and the share is offered again when
the download has ended. -/
theorem running_download_remembered :
    (∃ w, Run (fun w a w' => w.step a = some w') (new true false) forgottenWhileRunning w ∧
      lent ∈ w.forgotten ∧ w.client.tables.Holds lent) ∧
    ∃ w, Run (fun w a w' => w.step a = some w') (new true false)
        (forgottenWhileRunning ++ finishedAfterwards) w ∧
      lent ∈ w.forgotten ∧ w.client.tables.Lists lent := by
  constructor
  · have hexec : (Run.exec step (new true false) forgottenWhileRunning).map (fun w =>
        (w.forgotten, w.client.tables.progress.keys)) = some ({lent}, [(lent, "out")]) := by decide
    obtain ⟨w, hexec, hw⟩ := Option.map_eq_some_iff.1 hexec
    obtain ⟨hforgotten, hprogress⟩ := Prod.mk.inj hw
    refine ⟨w, Run.of_exec hexec, ?_, .inr ⟨"out", .inr ?_⟩⟩
    · rw [hforgotten]
      exact Finset.mem_singleton_self lent
    · rw [AList.mem_keys, hprogress]
      exact List.mem_singleton_self _
  · have hexec : (Run.exec step (new true false) (forgottenWhileRunning ++ finishedAfterwards)).map
        (fun w => (w.forgotten, w.client.tables.seeds.keys)) = some ({lent}, [lent]) := by decide
    obtain ⟨w, hexec, hw⟩ := Option.map_eq_some_iff.1 hexec
    obtain ⟨hforgotten, hseeds⟩ := Prod.mk.inj hw
    refine ⟨w, Run.of_exec hexec, ?_, .inl ?_⟩
    · rw [hforgotten]
      exact Finset.mem_singleton_self lent
    · rw [AList.mem_keys, hseeds]
      exact List.mem_singleton_self _

end Forgetting

end Chorrent
