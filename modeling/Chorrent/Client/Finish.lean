/-
# Finished downloads

When a download has all its pieces, its record is taken out of the saved state by the task
that ran it, and the record of the seed is saved only later, by whoever awaits its handle, and
not at all for a plain download that does not reseed.  So a finished download stays listed
exactly when it was listed otherwise at that moment.
-/
import Chorrent.Client.Basic
import Chorrent.Lib.Run

namespace Chorrent

open Lib

/-! ## Records that list a share -/

/-- A transaction that may take a share out of the saved state. -/
def Tx.Unlists (id : ShareId) : Tx → Prop
  | .removeShare id' | .removeDownload id' _ => id' = id
  | _ => False

lemma Tables.Lists.commit {t : Tables} {id : ShareId} {tx : Tx} (h : t.Lists id)
    (htx : ¬ tx.Unlists id) : (t.commit tx).Lists id := by
  rcases h with hseed | ⟨destDir, hdownload⟩
  · left
    cases tx with
    | putSeed id' record => exact AList.mem_insert _ |>.2 (.inr hseed)
    | putAllowed id' peers => cases peers <;> exact hseed
    | removeShare id' => exact AList.mem_erase.2 ⟨fun heq => htx heq.symm, hseed⟩
    | _ => exact hseed
  · right
    refine ⟨destDir, ?_⟩
    cases tx with
    | putDownload id' destDir' record => exact AList.mem_insert _ |>.2 (.inr hdownload)
    | putAllowed id' peers => cases peers <;> exact hdownload
    | removeDownload id' destDir' =>
      exact AList.mem_erase.2 ⟨fun heq => htx (Prod.ext_iff.1 heq).1.symm, hdownload⟩
    | _ => exact hdownload

/-- The share is listed, and not only as the download to this destination. -/
def Tables.ListsOtherwise (t : Tables) (id : ShareId) (destDir : String) : Prop :=
  id ∈ t.seeds ∨ ∃ destDir', destDir' ≠ destDir ∧ (id, destDir') ∈ t.downloads

lemma Tables.lists_removeDownload {t : Tables} {id : ShareId} {destDir : String} :
    (t.commit (.removeDownload id destDir)).Lists id ↔ t.ListsOtherwise id destDir := by
  refine or_congr Iff.rfl (exists_congr fun destDir' => ?_)
  rw [Tables.commit, AList.mem_erase]
  simp

/-! ## Shares that were completed -/

/-- A client, and beside it the shares of which a download had all pieces and that were not
forgotten or removed since. -/
structure Finishing where
  client : Client
  complete : Finset ShareId

/-- All pieces are here with this action. -/
def Task.completes (task : Task) : TaskAction → Bool
  | .layOut _ _ held => held.all fun has => has
  | .storePiece piece => (task.held.set piece true).all fun has => has
  | _ => false

namespace Finishing

def new (reseed encrypted : Bool) : Finishing := ⟨.new reseed encrypted, ∅⟩

/-- What an action makes of the shares that were completed. -/
def note (w : Finishing) : ClientAction → Finset ShareId
  | .forget id | .remove id => w.complete.erase id
  | .task k action =>
      match w.client.tasks[k]? with
      | none => w.complete
      | some task =>
          if task.stage.forgets then w.complete.erase task.id
          else if task.completes action then insert task.id w.complete
          else w.complete
  | _ => w.complete

def step (w : Finishing) (a : ClientAction) : Option Finishing :=
  (w.client.step a).map fun client => ⟨client, w.note a⟩

/-- Every share that was completed is listed, as a seed or as an unfinished download. -/
def NeverLost (w : Finishing) : Prop := ∀ id ∈ w.complete, w.client.tables.Lists id

/-- A share is completed only while it is listed, and the record of a completed download is
taken out only while the share is listed otherwise. -/
def Safe (w : Finishing) : ClientAction → Prop
  | .task k action => ∀ task, w.client.tasks[k]? = some task → task.stage.forgets = false →
      (task.completes action = true → w.client.tables.Lists task.id) ∧
      (task.stage = .completing → action = .next false → task.id ∈ w.complete →
        w.client.tables.ListsOtherwise task.id task.download.destDir)
  | _ => True

end Finishing

/-- Besides `forget`, only a download that is completing takes a share out of the tables. -/
lemma Task.tx_cases {task : Task} {action : TaskAction} {tx : Tx} (h : task.tx action = some tx)
    (hforgets : task.stage.forgets = false) :
    (∀ id, ¬ tx.Unlists id) ∨ task.stage = .completing ∧ action = .next false ∧
      tx = .removeDownload task.id task.download.destDir := by
  cases action with
  | next fails =>
    rw [Task.tx] at h
    split_ifs at h with hfails
    rw [Task.nextTx] at h
    cases hstage : task.stage <;> simp only [hstage, reduceCtorEq, Option.some.injEq] at h
    case completing => exact .inr ⟨rfl, by simpa using hfails, h.symm⟩
    case forgetting | forgettingDownloads =>
      rw [hstage] at hforgets
      cases hforgets
    all_goals
      subst h
      exact .inl fun _ hnot => hnot
  | saveProgress outboards fails | setAllowed peers fails =>
    rw [Task.tx] at h
    split_ifs at h
    cases h
    exact .inl fun _ hnot => hnot
  | _ => cases h

lemma Tx.Unlists.id_eq {tx : Tx} {id : ShareId} (h : tx.Unlists id) : tx.id = id := by
  cases tx with
  | removeShare | removeDownload => exact h
  | putKinds | putSeed | putAllowed | putDownload | putProgress => cases h

/-- A task takes out its own share only. -/
lemma Task.unlists_of_tx {task : Task} {action : TaskAction} {tx : Tx} {id : ShareId}
    (h : task.tx action = some tx) (hunlists : tx.Unlists id) : task.id = id :=
  (Task.id_of_tx h).symm.trans hunlists.id_eq

namespace Finishing

variable {w w' : Finishing}

/-- A task other than one of `forget` acts. -/
lemma step_task_iff {k : ℕ} {action : TaskAction} {task : Task} {client : Client}
    (htask : w.client.tasks[k]? = some task) (hforgets : task.stage.forgets = false)
    (hact : w.client.act k task action = some client) (hbefore : w.NeverLost) :
    NeverLost ⟨client, if task.completes action then insert task.id w.complete else w.complete⟩ ↔
      w.Safe (.task k action) := by
  have htables := Client.tables_act hact
  have hsafe : w.Safe (.task k action) ↔
      (task.completes action = true → w.client.tables.Lists task.id) ∧
      (task.stage = .completing → action = .next false → task.id ∈ w.complete →
        w.client.tables.ListsOtherwise task.id task.download.destDir) := by
    refine ⟨fun h => h task htask hforgets, fun h task' htask' _ => ?_⟩
    cases htask.symm.trans htask'
    exact h
  rw [hsafe]
  cases htx : task.tx action with
  | none =>
    rw [htx] at htables
    have hstage : ¬ (task.stage = .completing ∧ action = .next false) := by
      rintro ⟨hstage, rfl⟩
      simp [Task.tx, Task.nextTx, hstage] at htx
    have hsame : ∀ id, client.tables.Lists id ↔ w.client.tables.Lists id :=
        fun id => by rw [htables]; rfl
    cases hcompletes : task.completes action with
    | true =>
      refine ⟨fun h => ⟨fun _ => (hsame _).1 (h _ (by simp)), fun hs ha => absurd ⟨hs, ha⟩ hstage⟩,
        fun h id hid => (hsame id).2 ?_⟩
      rcases Finset.mem_insert.1 hid with rfl | hid
      · exact h.1 rfl
      · exact hbefore id hid
    | false =>
      refine iff_of_true (fun id hid => (hsame id).2 (hbefore id hid))
        ⟨fun h => absurd h (by simp), fun hs ha => absurd ⟨hs, ha⟩ hstage⟩
  | some tx =>
    rw [htx] at htables
    have hcompletes : task.completes action = false := by
      cases action <;> first | rfl | cases htx
    simp only [hcompletes, Bool.false_eq_true, if_false, false_imp_iff, true_and]
    rcases Task.tx_cases htx hforgets with hkeeps | ⟨hstage, rfl, rfl⟩
    · have hstage : ¬ (task.stage = .completing ∧ action = .next false) := by
        rintro ⟨hstage, rfl⟩
        rw [Task.tx, if_neg (by simp), Task.nextTx, hstage] at htx
        cases htx
        exact hkeeps task.id rfl
      refine iff_of_true (fun id hid => ?_) fun hs ha => absurd ⟨hs, ha⟩ hstage
      show client.tables.Lists id
      rw [htables]
      exact (hbefore id hid).commit (hkeeps id)
    · constructor
      · intro h _ _ hid
        have hlists : client.tables.Lists task.id := h task.id hid
        rw [htables] at hlists
        exact Tables.lists_removeDownload.1 hlists
      · intro h id hid
        show client.tables.Lists id
        rw [htables]
        by_cases heq : task.id = id
        · subst heq
          exact Tables.lists_removeDownload.2 (h hstage rfl hid)
        · have hkeeps : ¬ Tx.Unlists id (.removeDownload task.id task.download.destDir) := heq
          exact (hbefore id hid).commit hkeeps

/-- From a state in which nothing is lost, a step loses nothing exactly when it is safe. -/
lemma step_iff {a : ClientAction} (hstep : w.step a = some w') (hbefore : w.NeverLost) :
    w'.NeverLost ↔ w.Safe a := by
  obtain ⟨client, hclient, rfl⟩ := Option.map_eq_some_iff.1 hstep
  -- a call that starts leaves the tables
  have hkeeps : ∀ c, c.tables = w.client.tables → ∀ complete ⊆ w.complete,
      NeverLost ⟨c, complete⟩ := by
    intro c hc complete hsub id hid
    have := hbefore id (hsub hid)
    rwa [← hc] at this
  cases a with
  | task k action =>
    obtain ⟨task, htask, hact⟩ := Option.bind_eq_some_iff.1 hclient
    simp only [note, htask]
    cases hforgets : task.stage.forgets with
    | false =>
      simp only [Bool.false_eq_true, if_false]
      exact step_task_iff htask hforgets hact hbefore
    | true =>
      simp only [if_true]
      refine iff_of_true (fun id hid => ?_) fun task' htask' hnot => ?_
      · obtain ⟨hne, hid⟩ := Finset.mem_erase.1 hid
        show client.tables.Lists id
        rw [Client.tables_act hact]
        cases htx : task.tx action with
        | none => exact hbefore id hid
        | some tx =>
          exact (hbefore id hid).commit fun hunlists => hne (Task.unlists_of_tx htx hunlists).symm
      · cases htask.symm.trans htask'
        rw [hforgets] at hnot
        cases hnot
  | seed | download =>
    cases hclient
    exact iff_of_true (hkeeps _ rfl _ (Finset.Subset.refl _)) trivial
  | forget | remove =>
    cases hclient
    exact iff_of_true (hkeeps _ rfl _ (Finset.erase_subset _ _)) trivial
  | restart =>
    cases hclient
    exact iff_of_true (hkeeps _ rfl _ (Finset.Subset.refl _)) trivial
  | resumeSeed =>
    simp only [Client.step] at hclient
    split_ifs at hclient
    cases hclient
    exact iff_of_true (hkeeps _ rfl _ (Finset.Subset.refl _)) trivial
  | resumeDownload =>
    obtain ⟨record, -, heq⟩ := Option.bind_eq_some_iff.1 hclient
    cases heq
    exact iff_of_true (hkeeps _ rfl _ (Finset.Subset.refl _)) trivial

/-- In a run, no completed share is ever lost from the saved state exactly when every step is
safe. -/
theorem never_lost_iff {reseed encrypted : Bool} {actions : List ClientAction} :
    Run (fun w a w' => w.step a = some w' ∧ w'.NeverLost) (new reseed encrypted) actions w ↔
      Run (fun w a w' => w.step a = some w' ∧ w.Safe a) (new reseed encrypted) actions w := by
  have hiff : ∀ actions (s : Finishing), s.NeverLost →
      (Run (fun w a w' => w.step a = some w' ∧ w'.NeverLost) s actions w ↔
        Run (fun w a w' => w.step a = some w' ∧ w.Safe a) s actions w) := by
    intro actions
    induction actions with
    | nil =>
      intro s hs
      constructor <;> (intro h; cases h; exact .nil _)
    | cons a actions ih =>
      intro s hs
      constructor
      · rintro (_ | ⟨⟨hstep, hafter⟩, hrest⟩)
        exact .cons ⟨hstep, (step_iff hstep hs).1 hafter⟩ ((ih _ hafter).1 hrest)
      · rintro (_ | ⟨⟨hstep, hsafe⟩, hrest⟩)
        have hafter := (step_iff hstep hs).2 hsafe
        exact .cons ⟨hstep, hafter⟩ ((ih _ hafter).2 hrest)
  exact hiff actions _ fun id hid => by cases hid

/-- A share that is listed can be picked up after a restart. -/
theorem resumes_of_lists {c : Client} {id : ShareId} (h : c.tables.Lists id) :
    ∃ c', c.step .restart = some c' ∧
      ((∀ record kinds, (c'.step (.resumeSeed id record kinds)).isSome) ∨
        ∃ destDir, (c'.step (.resumeDownload id destDir false)).isSome) := by
  refine ⟨_, rfl, ?_⟩
  rcases h with hseed | ⟨destDir, hdownload⟩
  · left
    intro record kinds
    rw [Client.step, if_pos hseed]
    rfl
  · right
    obtain ⟨record, hrecord⟩ := Option.isSome_iff_exists.1 (AList.lookup_isSome.2 hdownload)
    refine ⟨destDir, ?_⟩
    simp only [Client.step, hrecord]
    rfl

/-! ## A download into the encrypted store -/

def stored : ShareId := List.Vector.replicate 32 5

/-- A download of one piece, up to where its outcome waits to be taken. -/
def downloaded : List ClientAction :=
  [.download stored ⟨"chr2", "blobs/5"⟩ none,
    .task 0 (.layOut ⟨"blobs/5", none, [], [], []⟩ [true] [false])] ++
    List.replicate 3 (.task 0 (.next false)) ++
    [.task 0 (.storePiece 0), .task 0 (.next false), .task 0 (.saveProgress [] false),
      .task 0 (.next false)]

/-- Before the outcome is taken, nothing in the saved state tells of the share. -/
theorem finished_download_lost : ∃ w, Run (fun w a w' => w.step a = some w') (new true true)
    downloaded w ∧ stored ∈ w.complete ∧ ¬ w.client.tables.Lists stored ∧ ¬ w.NeverLost := by
  have hexec : (Run.exec step (new true true) downloaded).map (fun w =>
      (w.complete, w.client.tables.seeds.keys, w.client.tables.downloads.keys)) =
      some ({stored}, [], []) := by decide
  obtain ⟨w, hexec, hw⟩ := Option.map_eq_some_iff.1 hexec
  simp only [Prod.mk.injEq] at hw
  obtain ⟨hcomplete, hseeds, hdownloads⟩ := hw
  have hmem : stored ∈ w.complete := by
    rw [hcomplete]
    exact Finset.mem_singleton_self stored
  have hnot : ¬ w.client.tables.Lists stored := by
    rintro (hseed | ⟨destDir, hdownload⟩)
    · rw [AList.mem_keys, hseeds] at hseed
      cases hseed
    · rw [AList.mem_keys, hdownloads] at hdownload
      cases hdownload
  exact ⟨w, Run.of_exec hexec, hmem, hnot, fun h => hnot (h stored hmem)⟩

end Finishing

end Chorrent
