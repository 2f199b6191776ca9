/-
# The client

The calls of a client with a data dir (`client.rs`, `download.rs`), as one step relation.  A
call is a task that runs beside others; each transaction of the database, each look at the
registry and each wait is a step of its own.  When the process ends, the tables stay and
everything else is gone.
-/
import Chorrent.Client.Tables

namespace Chorrent

open Lib

/-- Where a task is. -/
inductive TaskStage where
  /-- `finish_seed`: about to save the allowlist. -/
  | savingAllowed
  /-- `load_seed`: has read the record of the seed, about to read the allowlist. -/
  | loadingAllowed
  /-- `start_seed`: about to register the share. -/
  | registering
  /-- At the start of `remember_seed`. -/
  | savingKinds
  | savingSeed
  /-- There is a `SeedHandle`. -/
  | serving
  /-- A download looks for a peer that has the manifest, and lays out its files. -/
  | connecting
  | savingDownload
  | savingDownloadAllowed
  /-- A download is about to register its share, if it reseeds. -/
  | joining
  | swarming
  /-- All pieces are here and whole files were checked. -/
  | verified
  | completing
  /-- The download has an outcome that nobody has awaited yet. -/
  | outcome
  | forgetting
  | listingDownloads
  | forgettingDownloads (dests : List String)
  | ended
deriving DecidableEq

/-- The call that a task carries out. -/
inductive TaskKind where
  | seed
  | resumeSeed
  | download
  | resumeDownload
  | forget
deriving DecidableEq

def TaskKind.isDownload : TaskKind → Bool
  | .download | .resumeDownload => true
  | .seed | .resumeSeed | .forget => false

structure Task where
  kind : TaskKind
  id : ShareId
  /-- Whom the share lets in; anyone if there is no list. -/
  allow : Option (List EndpointId)
  /-- What `remember_seed` saves of the share. -/
  record : SeedRecord
  kinds : List Bool
  /-- What `remember_download` saves. -/
  download : DownloadRecord
  held : List Bool
  /-- Whether the `DownloadHandle` is still there. -/
  handle : Bool
  cancelled : Bool
  stage : TaskStage

namespace Task

/-- A task of which nothing but its share is known. -/
def new (kind : TaskKind) (id : ShareId) (stage : TaskStage) : Task :=
  { kind, id, allow := none, record := ⟨"", none, [], [], []⟩, kinds := [], download := ⟨"", ""⟩,
    held := [], handle := true, cancelled := false, stage }

/-- `seed_with` or `seed_reader`, from `finish_seed` on. -/
def seed (id : ShareId) (record : SeedRecord) (kinds : List Bool)
    (allow : Option (List EndpointId)) : Task :=
  { Task.new .seed id .savingAllowed with record, kinds, allow }

def resumeSeed (id : ShareId) (record : SeedRecord) (kinds : List Bool) : Task :=
  { Task.new .resumeSeed id .loadingAllowed with record, kinds }

/-- `download_with`, for `resume` too. -/
def startDownload (kind : TaskKind) (id : ShareId) (download : DownloadRecord)
    (allow : Option (List EndpointId)) : Task :=
  { Task.new kind id .connecting with download, allow }

def forget (id : ShareId) : Task := Task.new .forget id .forgetting

end Task

inductive TaskAction where
  /-- The next transaction, or another thing that may fail. -/
  | next (fails : Bool)
  /-- A download has a manifest and laid out its files, of which some pieces are here. -/
  | layOut (record : SeedRecord) (kinds held : List Bool)
  | storePiece (piece : ℕ)
  | saveProgress (outboards : List Bytes) (fails : Bool)
  /-- A download ends early. -/
  | stop
  | cancel
  /-- `DownloadHandle::finished`, once the download has ended. -/
  | finished
  /-- The handle is dropped. -/
  | drop
  /-- `SeedHandle::set_allowed_peers` -/
  | setAllowed (peers : Option (List EndpointId)) (fails : Bool)

inductive ClientAction where
  /-- `seed_with` or `seed_reader`, with a share that fits the join code. -/
  | seed (id : ShareId) (record : SeedRecord) (kinds : List Bool) (allow : Option (List EndpointId))
  /-- `resume` of a saved seed; the record of a file that changed is made anew. -/
  | resumeSeed (id : ShareId) (record : SeedRecord) (kinds : List Bool)
  | download (id : ShareId) (record : DownloadRecord) (allow : Option (List EndpointId))
  /-- `resume` of a saved download, which reads the allowlist. -/
  | resumeDownload (id : ShareId) (destDir : String) (fails : Bool)
  | forget (id : ShareId)
  /-- `remove`, but for the folder it deletes. -/
  | remove (id : ShareId)
  | task (number : ℕ) (action : TaskAction)
  /-- The process ends, and is started again. -/
  | restart

structure Client where
  reseed : Bool
  /-- Whether the store is encrypted. -/
  encrypted : Bool
  tables : Tables
  /-- The tasks whose shares are being served, by id. -/
  registry : AList fun _ : ShareId => ℕ
  tasks : List Task

namespace Client

def new (reseed encrypted : Bool) : Client :=
  { reseed, encrypted, tables := .empty, registry := ∅, tasks := [] }

def spawn (c : Client) (task : Task) : Client := { c with tasks := c.tasks ++ [task] }

def setTask (c : Client) (k : ℕ) (task : Task) : Client := { c with tasks := c.tasks.set k task }

def commit (c : Client) (tx : Tx) : Client := { c with tables := c.tables.commit tx }

def register (c : Client) (id : ShareId) (k : ℕ) : Client :=
  { c with registry := c.registry.insert id k }

/-- A `Registration` is dropped, if there is one. -/
def unregister (c : Client) (id : ShareId) (k : ℕ) : Client :=
  { c with registry := if c.registry.lookup id = some k then c.registry.erase id else c.registry }

/-- A task ends; its share is no longer served. -/
def finish (c : Client) (k : ℕ) (task : Task) : Client :=
  (c.unregister task.id k).setTask k { task with stage := .ended }

/-- A transaction that a task waits for, and where the task goes on. -/
def transact (c : Client) (k : ℕ) (task : Task) (fails : Bool) (tx : Tx)
    (stage : TaskStage) : Client :=
  if fails then c.finish k task else (c.commit tx).setTask k { task with stage }

/-- The next thing a task does. -/
def next (c : Client) (k : ℕ) (task : Task) (fails : Bool) : Option Client :=
  match task.stage with
  | .savingAllowed => some (c.transact k task fails (.putAllowed task.id task.allow) .registering)
  | .loadingAllowed =>
      -- a list that cannot be read counts as none
      let allow := if fails then none else c.tables.access.lookup task.id
      some (c.setTask k { task with allow, stage := .registering })
  | .registering =>
      if task.id ∈ c.registry then some (c.finish k task)
      else some ((c.register task.id k).setTask k { task with stage := .savingKinds })
  | .savingKinds => some (c.transact k task fails (.putKinds task.id task.kinds) .savingSeed)
  | .savingSeed =>
      some (c.transact k task fails (.putSeed task.id task.record)
        -- a download that does not reseed is only made findable
        (if task.kind.isDownload && !c.reseed then .ended else .serving))
  | .savingDownload =>
      some (c.transact k task fails (.putDownload task.id task.download.destDir task.download)
        .savingDownloadAllowed)
  | .savingDownloadAllowed =>
      some (c.transact k task fails (.putAllowed task.id task.allow) .joining)
  | .joining =>
      if c.reseed then
        if task.id ∈ c.registry then some (c.finish k task)
        else some ((c.register task.id k).setTask k { task with stage := .swarming })
      else some (c.setTask k { task with stage := .swarming })
  | .swarming =>
      if task.held.all fun has => has then
        some (if fails then c.finish k task else c.setTask k { task with stage := .verified })
      else none
  | .completing =>
      if task.handle then
        some (c.transact k task fails (.removeDownload task.id task.download.destDir) .outcome)
      else
        -- nobody is there to take the outcome
        some (if fails then c.finish k task
          else (c.commit (.removeDownload task.id task.download.destDir)).finish k task)
  | .forgetting => some (c.transact k task fails (.removeShare task.id) .listingDownloads)
  | .listingDownloads =>
      some (if fails then c.finish k task
        else c.setTask k { task with stage := .forgettingDownloads (c.tables.destsOf task.id) })
  | .forgettingDownloads [] => some (c.finish k task)
  | .forgettingDownloads (destDir :: dests) =>
      some (c.transact k task fails (.removeDownload task.id destDir) (.forgettingDownloads dests))
  | .serving | .connecting | .verified | .outcome | .ended => none

/-- An action of a task, or of whoever holds its handle. -/
def act (c : Client) (k : ℕ) (task : Task) : TaskAction → Option Client
  | .next fails => c.next k task fails
  | .layOut record kinds held =>
      if task.stage = .connecting then
        some (c.setTask k { task with record, kinds, held, stage := .savingDownload })
      else none
  | .storePiece piece =>
      if task.stage = .swarming then
        some (c.setTask k { task with held := task.held.set piece true })
      else none
  | .saveProgress outboards fails =>
      let saved :=
        if fails then c else c.commit (.putProgress task.id task.download.destDir outboards)
      match task.stage with
      | .swarming => some saved
      | .verified => some (saved.setTask k { task with stage := .completing })
      | _ => none
  | .stop =>
      if task.stage = .connecting ∨ task.stage = .swarming ∧ task.cancelled then
        some (c.finish k task)
      else none
  | .cancel =>
      if task.kind.isDownload && task.handle then some (c.setTask k { task with cancelled := true })
      else none
  | .finished =>
      if task.stage = .outcome then
        if c.reseed ∨ c.encrypted then
          some (c.setTask k { task with handle := false, stage := .savingKinds })
        else some (c.finish k task)
      else none
  | .drop =>
      if task.stage = .serving ∨ task.stage = .outcome then some (c.finish k task)
      else if task.kind.isDownload && task.handle then
        some (c.setTask k { task with handle := false, cancelled := true })
      else none
  | .setAllowed peers fails =>
      if task.stage = .serving then
        some (if fails then c
          else (c.commit (.putAllowed task.id peers)).setTask k { task with allow := peers })
      else none

def step (c : Client) : ClientAction → Option Client
  | .seed id record kinds allow => some (c.spawn (.seed id record kinds allow))
  | .resumeSeed id record kinds =>
      if id ∈ c.tables.seeds then some (c.spawn (.resumeSeed id record kinds)) else none
  | .download id record allow => some (c.spawn (.startDownload .download id record allow))
  | .resumeDownload id destDir fails => do
      let record ← c.tables.downloads.lookup (id, destDir)
      let allow := if fails then none else c.tables.access.lookup id
      some (c.spawn (.startDownload .resumeDownload id record allow))
  | .forget id => some (c.spawn (.forget id))
  | .remove id => some ({ c with registry := c.registry.erase id }.spawn (.forget id))
  | .task k action => do c.act k (← c.tasks[k]?) action
  | .restart => some { c with registry := ∅, tasks := [] }

/-- One step of the client. -/
def Step (c : Client) (a : ClientAction) (c' : Client) : Prop := c.step a = some c'

end Client

/-! ## What a task commits -/

/-- A task of `forget`. -/
def TaskStage.forgets : TaskStage → Bool
  | .forgetting | .listingDownloads | .forgettingDownloads _ => true
  | _ => false

/-- The transaction that comes next. -/
def Task.nextTx (task : Task) : Option Tx :=
  match task.stage with
  | .savingAllowed | .savingDownloadAllowed => some (.putAllowed task.id task.allow)
  | .savingKinds => some (.putKinds task.id task.kinds)
  | .savingSeed => some (.putSeed task.id task.record)
  | .savingDownload => some (.putDownload task.id task.download.destDir task.download)
  | .completing => some (.removeDownload task.id task.download.destDir)
  | .forgetting => some (.removeShare task.id)
  | .forgettingDownloads (destDir :: _) => some (.removeDownload task.id destDir)
  | _ => none

/-- The transaction that an action commits. -/
def Task.tx (task : Task) : TaskAction → Option Tx
  | .next fails => if fails then none else task.nextTx
  | .saveProgress outboards fails =>
      if fails then none else some (.putProgress task.id task.download.destDir outboards)
  | .setAllowed peers fails => if fails then none else some (.putAllowed task.id peers)
  | _ => none

/-- The share whose records a transaction changes. -/
def Tx.id : Tx → ShareId
  | .putKinds id _ | .putSeed id _ | .putAllowed id _ | .removeShare id | .putDownload id _ _
  | .putProgress id _ _ | .removeDownload id _ => id

/-- A task saves and removes records of its own share. -/
lemma Task.id_of_tx {task : Task} {action : TaskAction} {tx : Tx} (h : task.tx action = some tx) :
    tx.id = task.id := by
  cases action with
  | next fails =>
    rw [Task.tx, Task.nextTx] at h
    cases fails with
    | true => cases h
    | false =>
      cases hstage : task.stage <;>
        simp only [hstage, Bool.false_eq_true, if_false, reduceCtorEq] at h
      case forgettingDownloads dests =>
        cases dests <;> cases h
        rfl
      all_goals
        cases h
        rfl
  | saveProgress outboards fails | setAllowed peers fails =>
    rw [Task.tx] at h
    split_ifs at h
    cases h
    rfl
  | _ => cases h

namespace Client

variable {c c' : Client} {k : ℕ} {task : Task} {action : TaskAction}

@[simp] lemma tables_setTask : (c.setTask k task).tables = c.tables := rfl

@[simp] lemma tables_finish : (c.finish k task).tables = c.tables := rfl

@[simp] lemma tables_commit (tx : Tx) : (c.commit tx).tables = c.tables.commit tx := rfl

lemma tables_transact (fails : Bool) (tx : Tx) (stage : TaskStage) :
    (c.transact k task fails tx stage).tables = if fails then c.tables else c.tables.commit tx := by
  rw [transact]
  split_ifs <;> rfl

lemma tables_next {fails : Bool} (h : c.next k task fails = some c') :
    c'.tables = if fails then c.tables else task.nextTx.elim c.tables c.tables.commit := by
  rw [Task.nextTx]
  cases hstage : task.stage <;> simp only [next, hstage, reduceCtorEq] at h
  case registering | joining =>
    split_ifs at h <;> (cases h; simp [register])
  case swarming =>
    split_ifs at h <;> (cases h; simp)
  case completing =>
    split_ifs at h with hhandle hfails
    · cases h
      simp [tables_transact]
    · cases h
      simp [hfails]
    · cases h
      simp [hfails]
  case forgettingDownloads dests =>
    cases dests <;> (cases h; simp [tables_transact])
  case loadingAllowed | listingDownloads =>
    cases h
    cases fails <;> simp
  all_goals
    cases h
    rw [tables_transact]
    simp

/-- An action changes the tables by the transaction it commits, if any. -/
lemma tables_act (h : c.act k task action = some c') :
    c'.tables = (task.tx action).elim c.tables c.tables.commit := by
  cases action with
  | next fails =>
    rw [tables_next h]
    cases fails <;> rfl
  | saveProgress outboards fails =>
    rw [act] at h
    cases hstage : task.stage <;> simp only [hstage, reduceCtorEq] at h
    all_goals
      cases h
      cases fails <;> rfl
  | setAllowed peers fails =>
    rw [act] at h
    split_ifs at h with hstage hfails
    · cases h
      simp [Task.tx, hfails]
    · cases h
      simp [Task.tx, hfails]
  | _ =>
    rw [act] at h
    split_ifs at h <;> (cases h; rfl)

end Client

/-! ## What an action makes of its task -/

/-- Where a task goes on when what it does next works. -/
inductive TaskStage.GoesOn : TaskStage → TaskStage → Prop
  | allowed : GoesOn .savingAllowed .registering
  | registered : GoesOn .registering .savingKinds
  | kinds : GoesOn .savingKinds .savingSeed
  | served : GoesOn .savingSeed .serving
  | findable : GoesOn .savingSeed .ended
  | download : GoesOn .savingDownload .savingDownloadAllowed
  | downloadAllowed : GoesOn .savingDownloadAllowed .joining
  | joined : GoesOn .joining .swarming
  | verified : GoesOn .swarming .verified
  | completed : GoesOn .completing .outcome
  | forgot : GoesOn .forgetting .listingDownloads
  | listed (dests : List String) : GoesOn .listingDownloads (.forgettingDownloads dests)
  | forgotDownload (destDir : String) (dests : List String) :
      GoesOn (.forgettingDownloads (destDir :: dests)) (.forgettingDownloads dests)

/-- The task after an action. -/
inductive Task.Becomes (c : Client) (task : Task) : TaskAction → Task → Prop
  | ends {action : TaskAction} (h : task.stage ≠ .loadingAllowed) :
      Becomes c task action { task with stage := .ended }
  | loads (fails : Bool) (h : task.stage = .loadingAllowed) :
      Becomes c task (.next fails) { task with
        allow := if fails then none else c.tables.access.lookup task.id, stage := .registering }
  | goesOn (fails : Bool) {stage : TaskStage} (h : task.stage.GoesOn stage) :
      Becomes c task (.next fails) { task with stage }
  | laysOut (record : SeedRecord) (kinds held : List Bool) (h : task.stage = .connecting) :
      Becomes c task (.layOut record kinds held)
        { task with record, kinds, held, stage := .savingDownload }
  | stores (piece : ℕ) (h : task.stage = .swarming) :
      Becomes c task (.storePiece piece) { task with held := task.held.set piece true }
  | savesProgress (outboards : List Bytes) (fails : Bool) (h : task.stage = .swarming) :
      Becomes c task (.saveProgress outboards fails) task
  | savesLast (outboards : List Bytes) (fails : Bool) (h : task.stage = .verified) :
      Becomes c task (.saveProgress outboards fails) { task with stage := .completing }
  | cancelled : Becomes c task .cancel { task with cancelled := true }
  | finished (h : task.stage = .outcome) :
      Becomes c task .finished { task with handle := false, stage := .savingKinds }
  | dropped : Becomes c task .drop { task with handle := false, cancelled := true }
  | keepsAllowed (peers : Option (List EndpointId)) (fails : Bool) (h : task.stage = .serving) :
      Becomes c task (.setAllowed peers fails) task
  | setsAllowed (peers : Option (List EndpointId)) (fails : Bool) (h : task.stage = .serving) :
      Becomes c task (.setAllowed peers fails) { task with allow := peers }

lemma TaskStage.GoesOn.ne_loadingAllowed {stage stage' : TaskStage} (h : stage.GoesOn stage') :
    stage ≠ .loadingAllowed ∧ stage' ≠ .loadingAllowed := by
  cases h <;> simp

lemma TaskStage.GoesOn.ne_connecting {stage stage' : TaskStage} (h : stage.GoesOn stage') :
    stage' ≠ .connecting ∧ stage' ≠ .savingDownload := by
  cases h <;> simp

namespace Task.Becomes

variable {c : Client} {task task' : Task} {action : TaskAction}

lemma id_eq (h : task.Becomes c action task') : task'.id = task.id := by
  cases h <;> rfl

lemma kind_eq (h : task.Becomes c action task') : task'.kind = task.kind := by
  cases h <;> rfl

lemma download_eq (h : task.Becomes c action task') : task'.download = task.download := by
  cases h <;> rfl

/-- Only `forget` leads to a stage of `forget`. -/
lemma forgets_eq_false (h : task.Becomes c action task') (hforgets : task.stage.forgets = false) :
    task'.stage.forgets = false := by
  cases h with
  | goesOn fails hstage =>
    cases hstage' : task.stage <;> rw [hstage'] at hstage hforgets <;> cases hstage <;>
      first | rfl | cases hforgets
  | _ => first | rfl | exact hforgets

lemma stage_ne_loadingAllowed (h : task.Becomes c action task')
    (hstage : task.stage ≠ .loadingAllowed) : task'.stage ≠ .loadingAllowed := by
  cases h with
  | goesOn fails hgoes => exact hgoes.ne_loadingAllowed.2
  | stores | savesProgress | cancelled | dropped | keepsAllowed | setsAllowed => exact hstage
  | ends | loads | laysOut | savesLast | finished => simp

/-- The list of a task stays, but for a task that has just loaded it, and for `setAllowed`. -/
lemma allow_eq (h : task.Becomes c action task')
    (hset : ∀ peers fails, action ≠ .setAllowed peers fails) :
    task'.allow = task.allow ∧ (task'.stage = .loadingAllowed ↔ task.stage = .loadingAllowed) ∨
      task.stage = .loadingAllowed ∧ task'.stage ≠ .loadingAllowed ∧ ∃ fails,
        action = .next fails ∧
          task'.allow = if fails then none else c.tables.access.lookup task.id := by
  cases h with
  | loads fails hstage => exact .inr ⟨hstage, by simp, fails, rfl, rfl⟩
  | goesOn fails hgoes =>
    exact .inl ⟨rfl, iff_of_false hgoes.ne_loadingAllowed.2 hgoes.ne_loadingAllowed.1⟩
  | ends hstage | laysOut _ _ _ hstage | savesLast _ _ hstage | finished hstage =>
    exact .inl ⟨rfl, by simp [hstage]⟩
  | stores | savesProgress | cancelled | dropped => exact .inl ⟨rfl, Iff.rfl⟩
  | keepsAllowed peers fails | setsAllowed peers fails => exact absurd rfl (hset peers fails)

/-- No task comes to lay out a download but from there. -/
lemma connecting_of (h : task.Becomes c action task')
    (hstage : task'.stage = .connecting ∨ task'.stage = .savingDownload) :
    task.stage = .connecting ∨ task.stage = .savingDownload := by
  cases h with
  | goesOn fails hgoes => exact (hstage.elim hgoes.ne_connecting.1 hgoes.ne_connecting.2).elim
  | laysOut _ _ _ hconnecting => exact .inl hconnecting
  | ends | loads | savesLast | finished => rcases hstage with hs | hs <;> cases hs
  | stores | savesProgress | cancelled | dropped | keepsAllowed | setsAllowed => exact hstage

end Task.Becomes

namespace Client

variable {c c' : Client} {k : ℕ} {task : Task} {action : TaskAction}

lemma becomes_finish {c₁ : Client} (htasks : c₁.tasks = c.tasks)
    (h : task.stage ≠ .loadingAllowed) :
    ∃ task', (c₁.finish k task).tasks = c.tasks.set k task' ∧ task.Becomes c action task' :=
  ⟨_, congrArg (List.set · k _) htasks, .ends h⟩

lemma becomes_transact {fails : Bool} {tx : Tx} {stage : TaskStage} (h : task.stage.GoesOn stage) :
    ∃ task', (c.transact k task fails tx stage).tasks = c.tasks.set k task' ∧
      task.Becomes c (.next fails) task' := by
  rw [transact]
  split_ifs
  · exact becomes_finish rfl h.ne_loadingAllowed.1
  · exact ⟨_, rfl, .goesOn _ h⟩

lemma becomes_next {fails : Bool} (hnext : c.next k task fails = some c') :
    ∃ task', c'.tasks = c.tasks.set k task' ∧ task.Becomes c (.next fails) task' := by
  have hgoes : ∀ {stage stage' : TaskStage}, task.stage = stage → stage.GoesOn stage' →
      task.stage.GoesOn stage' := fun hstage h => hstage ▸ h
  cases hstage : task.stage <;> simp only [next, hstage, reduceCtorEq] at hnext
  case savingAllowed =>
    cases hnext
    exact becomes_transact (hgoes hstage .allowed)
  case loadingAllowed =>
    cases hnext
    exact ⟨_, rfl, .loads fails hstage⟩
  case registering =>
    split_ifs at hnext
    · cases hnext
      exact becomes_finish rfl (by simp [hstage])
    · cases hnext
      exact ⟨_, rfl, .goesOn fails (hgoes hstage .registered)⟩
  case savingKinds =>
    cases hnext
    exact becomes_transact (hgoes hstage .kinds)
  case savingSeed =>
    cases hnext
    split_ifs
    · exact becomes_transact (hgoes hstage .findable)
    · exact becomes_transact (hgoes hstage .served)
  case savingDownload =>
    cases hnext
    exact becomes_transact (hgoes hstage .download)
  case savingDownloadAllowed =>
    cases hnext
    exact becomes_transact (hgoes hstage .downloadAllowed)
  case joining =>
    split_ifs at hnext
    · cases hnext
      exact becomes_finish rfl (by simp [hstage])
    · cases hnext
      exact ⟨_, rfl, .goesOn fails (hgoes hstage .joined)⟩
    · cases hnext
      exact ⟨_, rfl, .goesOn fails (hgoes hstage .joined)⟩
  case swarming =>
    split_ifs at hnext
    · cases hnext
      exact becomes_finish rfl (by simp [hstage])
    · cases hnext
      exact ⟨_, rfl, .goesOn fails (hgoes hstage .verified)⟩
  case completing =>
    split_ifs at hnext
    · cases hnext
      exact becomes_transact (hgoes hstage .completed)
    · cases hnext
      exact becomes_finish rfl (by simp [hstage])
    · cases hnext
      exact becomes_finish rfl (by simp [hstage])
  case forgetting =>
    cases hnext
    exact becomes_transact (hgoes hstage .forgot)
  case listingDownloads =>
    split_ifs at hnext
    · cases hnext
      exact becomes_finish rfl (by simp [hstage])
    · cases hnext
      exact ⟨_, rfl, .goesOn fails (hgoes hstage (.listed _))⟩
  case forgettingDownloads dests =>
    cases dests with
    | nil =>
      cases hnext
      exact becomes_finish rfl (by simp [hstage])
    | cons destDir dests =>
      cases hnext
      exact becomes_transact (hgoes hstage (.forgotDownload destDir dests))

/-- An action changes its own task only, and only so. -/
lemma becomes_act (htask : c.tasks[k]? = some task) (hact : c.act k task action = some c') :
    ∃ task', c'.tasks = c.tasks.set k task' ∧ task.Becomes c action task' := by
  have hself : c.tasks = c.tasks.set k task := by
    obtain ⟨hk, rfl⟩ := List.getElem?_eq_some_iff.1 htask
    exact (List.set_getElem_self hk).symm
  cases action with
  | next fails => exact becomes_next hact
  | layOut record kinds held =>
    rw [act] at hact
    split_ifs at hact with hstage
    cases hact
    exact ⟨_, rfl, .laysOut record kinds held hstage⟩
  | storePiece piece =>
    rw [act] at hact
    split_ifs at hact with hstage
    cases hact
    exact ⟨_, rfl, .stores piece hstage⟩
  | saveProgress outboards fails =>
    rw [act] at hact
    have htasks : (if fails then c
        else c.commit (.putProgress task.id task.download.destDir outboards)).tasks = c.tasks := by
      split_ifs <;> rfl
    cases hstage : task.stage <;> simp only [hstage, reduceCtorEq] at hact
    case swarming =>
      cases hact
      exact ⟨task, htasks.trans hself, .savesProgress outboards fails hstage⟩
    case verified =>
      cases hact
      exact ⟨_, congrArg (List.set · k _) htasks, .savesLast outboards fails hstage⟩
  | stop =>
    rw [act] at hact
    split_ifs at hact with hstage
    cases hact
    exact becomes_finish rfl (by rcases hstage with hs | ⟨hs, -⟩ <;> simp [hs])
  | cancel =>
    rw [act] at hact
    split_ifs at hact
    cases hact
    exact ⟨_, rfl, .cancelled⟩
  | finished =>
    rw [act] at hact
    split_ifs at hact with hstage
    · cases hact
      exact ⟨_, rfl, .finished hstage⟩
    · cases hact
      exact becomes_finish rfl (by simp [hstage])
  | drop =>
    rw [act] at hact
    split_ifs at hact with hstage
    · cases hact
      exact becomes_finish rfl (by rcases hstage with hs | hs <;> simp [hs])
    · cases hact
      exact ⟨_, rfl, .dropped⟩
  | setAllowed peers fails =>
    rw [act] at hact
    split_ifs at hact with hstage
    · cases hact
      exact ⟨task, hself, .keepsAllowed peers _ hstage⟩
    · cases hact
      exact ⟨_, rfl, .setsAllowed peers fails hstage⟩

/-! ## What it makes of the registry -/

lemma lookup_of_unregister {id : ShareId} {j : ℕ}
    (h : (c.unregister task.id k).registry.lookup id = some j) : c.registry.lookup id = some j := by
  rw [unregister] at h
  dsimp only at h
  split_ifs at h
  · by_cases hid : id = task.id
    · rw [hid, AList.lookup_erase] at h
      cases h
    · rwa [AList.lookup_erase_ne hid] at h
  · exact h

lemma registry_transact {fails : Bool} {tx : Tx} {stage : TaskStage} :
    (c.transact k task fails tx stage).registry = c.registry ∨
      (c.transact k task fails tx stage).registry = (c.unregister task.id k).registry := by
  rw [transact]
  split_ifs
  · exact .inr rfl
  · exact .inl rfl

/-- An action leaves the registry, or takes the registration of its task out. Only a task that
comes to register its share makes one. -/
lemma registry_act (hact : c.act k task action = some c') :
    c'.registry = c.registry ∨ c'.registry = (c.unregister task.id k).registry ∨
      (task.stage = .registering ∨ task.stage = .joining) ∧
        c'.registry = c.registry.insert task.id k := by
  cases action with
  | next fails =>
    have htransact : ∀ {tx : Tx} {stage : TaskStage}, c' = c.transact k task fails tx stage →
        c'.registry = c.registry ∨ c'.registry = (c.unregister task.id k).registry ∨
          (task.stage = .registering ∨ task.stage = .joining) ∧
            c'.registry = c.registry.insert task.id k := by
      rintro tx stage rfl
      exact registry_transact.imp_right .inl
    rw [act] at hact
    cases hstage : task.stage <;> simp only [next, hstage, reduceCtorEq] at hact
    case registering =>
      split_ifs at hact
      · cases hact
        exact .inr (.inl rfl)
      · cases hact
        exact .inr (.inr ⟨.inl rfl, rfl⟩)
    case joining =>
      split_ifs at hact
      · cases hact
        exact .inr (.inl rfl)
      · cases hact
        exact .inr (.inr ⟨.inr rfl, rfl⟩)
      · cases hact
        exact .inl rfl
    case swarming | listingDownloads =>
      split_ifs at hact
      · cases hact
        exact .inr (.inl rfl)
      · cases hact
        exact .inl rfl
    case completing =>
      split_ifs at hact
      · rw [hstage] at htransact
        exact htransact (Option.some.inj hact).symm
      · cases hact
        exact .inr (.inl rfl)
      · cases hact
        exact .inr (.inl rfl)
    case loadingAllowed =>
      cases hact
      exact .inl rfl
    case forgettingDownloads dests =>
      cases dests with
      | nil =>
        cases hact
        exact .inr (.inl rfl)
      | cons destDir dests =>
        rw [hstage] at htransact
        exact htransact (Option.some.inj hact).symm
    all_goals
      rw [hstage] at htransact
      exact htransact (Option.some.inj hact).symm
  | saveProgress outboards fails =>
    rw [act] at hact
    cases hstage : task.stage <;> simp only [hstage, reduceCtorEq] at hact
    all_goals
      cases hact
      left
      cases fails <;> rfl
  | stop =>
    rw [act] at hact
    split_ifs at hact
    cases hact
    exact .inr (.inl rfl)
  | finished | drop =>
    rw [act] at hact
    split_ifs at hact
    all_goals
      cases hact
      first | exact .inl rfl | exact .inr (.inl rfl)
  | layOut | storePiece | cancel | setAllowed =>
    rw [act] at hact
    split_ifs at hact
    all_goals
      cases hact
      exact .inl rfl

end Client

end Chorrent
