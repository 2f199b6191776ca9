/-
# Where downloads go

The destination of a download is worked out anew whenever it is started or resumed, and its
text is part of the names under which the download and its progress are saved.  Without a
storage key the saved destination is used again; with one it is made from the data dir, as that
is spelled when the client is started (on Unix).
-/
import Chorrent.Absolute
import Chorrent.Client.Allow

namespace Chorrent

open Lib

/-- The current dir of the process, if it can be told; it is absolute and has no `.` in it. -/
abbrev CurrentDir := IoResult { p : Path // p.Normal }

def CurrentDir.path (dir : CurrentDir) : IoResult Path := dir.map Subtype.val

/-- Where new share data is kept. -/
structure StoreConfig (Key : Type) where
  blobs : Path
  key : Option Key

section

variable {Key : Type} (keyedHash : Key → ShareId → List.Vector UInt8 32)

namespace StoreConfig

/-- What `build` makes of the data dir and the storage key. -/
def new (dataDir : String) (key : Option Key) : StoreConfig Key :=
  ⟨(Path.parse .unix dataDir).join .unix "blobs", key⟩

/-- The folder a download goes to; with a key, its name is a keyed hash. -/
def downloadDir (cfg : StoreConfig Key) (id : ShareId) : Path :=
  match cfg.key with
  | none => cfg.blobs.join .unix id.text
  | some key => cfg.blobs.join .unix (hex (keyedHash key id).toList)

/-- The destination that `download_with` works out. -/
def downloadDest (cfg : StoreConfig Key) (dir : CurrentDir) (id : ShareId)
    (destDir : Option String) :
    Result Path :=
  match cfg.key, destDir with
  | some _, some _ => .error (.fail (.storage .destDirGiven))
  | some _, none => .ok (cfg.downloadDir keyedHash id)
  | none, destDir =>
      let dest := Path.parse .unix (destDir.getD ".")
      (dest.absolute dir.path).orError (.io dest)

/-- The destination of a saved download that is resumed. -/
def resumeDest (cfg : StoreConfig Key) (dir : CurrentDir) (id : ShareId) (saved : String) :
    Result Path :=
  cfg.downloadDest keyedHash dir id (if cfg.key.isSome then none else some saved)

end StoreConfig

/-! ## A data dir that is opened again and again -/

/-- A client, how its data dir is spelled, and how it was spelled before. -/
structure Process (Key : Type) where
  key : Option Key
  dataDir : String
  earlier : List String
  client : Client

inductive ProcessAction where
  /-- The process ends, and the data dir is opened again. -/
  | reopen (dataDir : String) (reseed : Bool)
  /-- `download_with` -/
  | download (dir : CurrentDir) (id : ShareId) (code : String) (destDir : Option String)
      (allow : Option (List EndpointId))
  /-- `resume` of the download that is saved under this name. -/
  | resume (dir : CurrentDir) (id : ShareId) (name : String) (fails : Bool)
  /-- Anything else that is called, or that a task does. -/
  | other (a : ClientAction)

/-- Actions that start a download, or end the process. -/
def ClientAction.opens : ClientAction → Bool
  | .download _ _ _ | .resumeDownload _ _ _ | .restart => true
  | _ => false

def ProcessAction.stays : ProcessAction → Bool
  | .reopen _ _ => false
  | _ => true

namespace Process

def new (key : Option Key) (dataDir : String) (reseed : Bool) : Process Key :=
  ⟨key, dataDir, [], .new reseed key.isSome⟩

variable (w : Process Key)

def cfg : StoreConfig Key := .new w.dataDir w.key

/-- The same store, opened by another process. -/
def reopen (dataDir : String) (reseed : Bool) : Process Key :=
  { w with
    dataDir, earlier := w.dataDir :: w.earlier
    client := { w.client with reseed, registry := ∅, tasks := [] } }

def step : ProcessAction → Option (Process Key)
  | .reopen dataDir reseed => some (w.reopen dataDir reseed)
  | .download dir id code destDir allow =>
      match w.cfg.downloadDest keyedHash dir id destDir with
      | .error _ => some w
      | .ok dest => some { w with
          client := w.client.spawn (.startDownload .download id ⟨code, dest.display⟩ allow) }
  | .resume dir id name fails => do
      let record ← w.client.tables.downloads.lookup (id, name)
      match w.cfg.resumeDest keyedHash dir id record.destDir with
      | .error _ => some w
      | .ok dest =>
          let allow := if fails then none else w.client.tables.access.lookup id
          some { w with
            client := w.client.spawn
              (.startDownload .resumeDownload id ⟨record.code, dest.display⟩ allow) }
  | .other a => if a.opens then none else (w.client.step a).map fun client => { w with client }

/-- One step. -/
def Step (w : Process Key) (a : ProcessAction) (w' : Process Key) : Prop :=
  w.step keyedHash a = some w'

end Process

end

/-- `saved` offers a download of the share into this destination. -/
def Tables.OffersAt (t : Tables) (id : ShareId) (destDir : String) : Prop :=
  ∃ name record, t.downloads.lookup (id, name) = some record ∧ record.destDir = destDir

/-! ## What tasks make of their destinations -/

namespace Client

variable {c c' : Client} {k : ℕ} {task : Task} {action : TaskAction}

/-- A task keeps its destination, and saves no download but the one it laid out. -/
def Keeps (c : Client) (k : ℕ) (task : Task) (c' : Client) : Prop :=
  ∃ task', c'.tasks = c.tasks.set k task' ∧ task'.id = task.id ∧ task'.download = task.download ∧
    (task'.stage = .connecting ∨ task'.stage = .savingDownload →
      task.stage = .connecting ∨ task.stage = .savingDownload)

lemma keeps_act (htask : c.tasks[k]? = some task) (hact : c.act k task action = some c') :
    c.Keeps k task c' := by
  obtain ⟨task', htasks, hbecomes⟩ := becomes_act htask hact
  exact ⟨task', htasks, hbecomes.id_eq, hbecomes.download_eq, hbecomes.connecting_of⟩

end Client

/-- Only a download that has laid out its files saves a record of a download. -/
lemma Task.tx_putDownload {task : Task} {action : TaskAction} {id : ShareId} {name : String}
    {record : DownloadRecord} (h : task.tx action = some (.putDownload id name record)) :
    task.stage = .savingDownload ∧ id = task.id ∧ name = task.download.destDir ∧
      record = task.download := by
  cases action with
  | next fails =>
    cases fails with
    | true => cases h
    | false =>
      simp only [Task.tx, Bool.false_eq_true, if_false, Task.nextTx] at h
      cases hstage : task.stage <;> simp only [hstage, reduceCtorEq, Option.some.injEq] at h
      case savingDownload =>
        cases h
        exact ⟨rfl, rfl, rfl, rfl⟩
      case forgettingDownloads dests => cases dests <;> cases h
  | saveProgress outboards fails => cases fails <;> cases h
  | setAllowed peers fails => cases fails <;> cases h
  | _ => cases h

lemma Tables.lookup_of_commit {t : Tables} {tx : Tx} {id : ShareId} {name : String}
    {record : DownloadRecord} (h : (t.commit tx).downloads.lookup (id, name) = some record) :
    t.downloads.lookup (id, name) = some record ∨ tx = .putDownload id name record := by
  cases tx with
  | putDownload id' name' record' =>
    by_cases heq : (id, name) = (id', name')
    · cases heq
      rw [Tables.commit, AList.lookup_insert] at h
      cases h
      exact .inr rfl
    · rw [Tables.commit, AList.lookup_insert_ne heq] at h
      exact .inl h
  | removeDownload id' name' => exact .inl (lookup_of_erase h)
  | putAllowed id' peers => cases peers <;> exact .inl h
  | _ => exact .inl h

/-! ## What is saved under which name -/

namespace Process

section

variable {Key : Type} (keyedHash : Key → ShareId → List.Vector UInt8 32)

/-- A destination that was worked out while the data dir was spelled like this. -/
def MadeIn (key : Option Key) (dataDir : String) (id : ShareId) (destDir : String) : Prop :=
  ∃ dir given dest, (StoreConfig.new dataDir key).downloadDest keyedHash dir id given = .ok dest ∧
    destDir = dest.display

/-- Downloads are saved under their destinations, and every destination was worked out in one of
the ways the data dir was spelled. -/
structure Sound (w : Process Key) : Prop where
  records : ∀ id name record, w.client.tables.downloads.lookup (id, name) = some record →
    record.destDir = name ∧ ∃ dataDir ∈ w.dataDir :: w.earlier,
      MadeIn keyedHash w.key dataDir id name
  tasks : ∀ task ∈ w.client.tasks, task.stage = .connecting ∨ task.stage = .savingDownload →
    ∃ dataDir ∈ w.dataDir :: w.earlier, MadeIn keyedHash w.key dataDir task.id task.download.destDir

variable {keyedHash} {w w' : Process Key}

lemma Sound.spawn {c : Client} {task : Task} (h : w.Sound keyedHash)
    (htables : c.tables = w.client.tables) (htasks : c.tasks = w.client.tasks)
    (hmade : task.stage = .connecting ∨ task.stage = .savingDownload →
      MadeIn keyedHash w.key w.dataDir task.id task.download.destDir) :
    Sound keyedHash { w with client := c.spawn task } where
  records id name record hlookup := h.records id name record (htables ▸ hlookup)
  tasks t ht hstage := by
    rcases List.mem_append.1 ht with ht | ht
    · exact h.tasks t (htasks ▸ ht) hstage
    · obtain rfl := List.mem_singleton.1 ht
      exact ⟨w.dataDir, List.mem_cons_self, hmade hstage⟩

lemma Sound.act {k : ℕ} {task : Task} {action : TaskAction} {c : Client} (h : w.Sound keyedHash)
    (htask : w.client.tasks[k]? = some task) (hact : w.client.act k task action = some c) :
    Sound keyedHash { w with client := c } where
  records id name record hlookup := by
    have hlookup' : ((task.tx action).elim w.client.tables w.client.tables.commit).downloads.lookup
        (id, name) = some record := Client.tables_act hact ▸ hlookup
    cases htx : task.tx action with
    | none =>
      rw [htx] at hlookup'
      exact h.records id name record hlookup'
    | some tx =>
      rw [htx] at hlookup'
      rcases Tables.lookup_of_commit hlookup' with hbefore | rfl
      · exact h.records id name record hbefore
      · obtain ⟨hstage, rfl, rfl, rfl⟩ := Task.tx_putDownload htx
        exact ⟨rfl, h.tasks task (List.mem_of_getElem? htask) (.inr hstage)⟩
  tasks t ht hstage := by
    obtain ⟨task', htasks, hid, hdownload, hearlier⟩ := Client.keeps_act htask hact
    have ht' : t ∈ w.client.tasks.set k task' := htasks ▸ ht
    rcases List.mem_or_eq_of_mem_set ht' with ht' | rfl
    · exact h.tasks t ht' hstage
    · rw [hid, hdownload]
      exact h.tasks task (List.mem_of_getElem? htask) (hearlier hstage)

/-- A resumed download goes to a destination worked out now. -/
lemma madeIn_of_resumeDest {dir : CurrentDir} {id : ShareId} {saved : String} {dest : Path}
    (h : w.cfg.resumeDest keyedHash dir id saved = .ok dest) :
    MadeIn keyedHash w.key w.dataDir id dest.display :=
  ⟨dir, _, dest, h, rfl⟩

lemma Sound.step {a : ProcessAction} (h : w.Sound keyedHash) (hstep : w.Step keyedHash a w') :
    w'.Sound keyedHash := by
  cases a with
  | reopen dataDir reseed =>
    cases hstep
    constructor
    · intro id name record hlookup
      obtain ⟨hname, dataDir', hmem, hmade⟩ := h.records id name record hlookup
      exact ⟨hname, dataDir', List.mem_cons_of_mem _ hmem, hmade⟩
    · intro task ht
      cases ht
  | download dir id code given allow =>
    rw [Step, Process.step] at hstep
    -- a destination that is refused starts no task
    cases hdest : w.cfg.downloadDest keyedHash dir id given with
    | error e =>
      rw [hdest] at hstep
      cases hstep
      exact h
    | ok dest =>
      rw [hdest] at hstep
      cases hstep
      exact h.spawn rfl rfl fun _ => ⟨dir, given, dest, hdest, rfl⟩
  | resume dir id name fails =>
    obtain ⟨record, hrecord, hstep⟩ := Option.bind_eq_some_iff.1 hstep
    cases hdest : w.cfg.resumeDest keyedHash dir id record.destDir with
    | error e =>
      rw [hdest] at hstep
      cases hstep
      exact h
    | ok dest =>
      rw [hdest] at hstep
      cases hstep
      exact h.spawn rfl rfl fun _ => madeIn_of_resumeDest hdest
  | other a =>
    rw [Step, Process.step] at hstep
    split_ifs at hstep with hopens
    obtain ⟨client, hclient, rfl⟩ := Option.map_eq_some_iff.1 hstep
    cases a with
    | task k action =>
      obtain ⟨task, htask, hact⟩ := Option.bind_eq_some_iff.1 hclient
      exact h.act htask hact
    | seed | forget | remove =>
      cases hclient
      exact h.spawn rfl rfl fun hstage => by rcases hstage with hs | hs <;> cases hs
    | resumeSeed =>
      simp only [Client.step] at hclient
      split_ifs at hclient
      cases hclient
      exact h.spawn rfl rfl fun hstage => by rcases hstage with hs | hs <;> cases hs
    | download | resumeDownload | restart => exact absurd rfl hopens

lemma new_sound (key : Option Key) (dataDir : String) (reseed : Bool) :
    (new key dataDir reseed).Sound keyedHash where
  records id name record h := by cases h
  tasks task ht := by cases ht

/-! ## Destinations that are worked out again -/

lemma hexDigits_ordinary {bytes : Bytes} :
    ∀ c ∈ hexDigits bytes, c ≠ '/' ∧ c ≠ '\\' ∧ c ≠ ':' ∧ c ≠ '.' := by
  have hdigit : ∀ n < 16, Nat.digitChar n ≠ '/' ∧ Nat.digitChar n ≠ '\\' ∧ Nat.digitChar n ≠ ':' ∧
      Nat.digitChar n ≠ '.' := by decide
  intro c hc
  obtain ⟨b, -, hc⟩ := List.mem_flatMap.1 hc
  have hlt : b.toNat < 256 := b.toNat_lt
  rcases List.mem_cons.1 hc with rfl | hc
  · exact hdigit _ (by omega)
  · rw [List.mem_singleton.1 hc]
    exact hdigit _ (by omega)

lemma ordinary_hex {bytes : Bytes} (h : bytes ≠ []) : Path.Ordinary (hex bytes) := by
  have hchars : ∀ c ∈ (hex bytes).toList, c ≠ '/' ∧ c ≠ '\\' ∧ c ≠ ':' ∧ c ≠ '.' := by
    rw [hex, String.toList_ofList]
    exact hexDigits_ordinary
  refine ⟨fun hempty => ?_, fun hdot => ?_, fun hdots => ?_, fun c hc => ?_⟩
  · obtain ⟨b, rest, rfl⟩ := List.exists_cons_of_ne_nil h
    have := congrArg String.toList hempty
    rw [hex, String.toList_ofList] at this
    cases this
  · exact (hchars '.' (by rw [hdot]; decide)).2.2.2 rfl
  · exact (hchars '.' (by rw [hdots]; decide)).2.2.2 rfl
  · exact ⟨(hchars c hc).1, (hchars c hc).2.1, (hchars c hc).2.2.1⟩

/-- The folder in the encrypted store, as the data dir is spelled. -/
lemma display_downloadDir (dataDir : String) (key : Key) (id : ShareId) :
    ((StoreConfig.new dataDir (some key)).downloadDir keyedHash id).display =
      (StoreConfig.new dataDir (some key)).blobs.display ++
        ("/" ++ hex (keyedHash key id).toList) := by
  have hname : Path.Ordinary (hex (keyedHash key id).toList) := by
    refine ordinary_hex fun hnil => ?_
    have := (keyedHash key id).toList_length
    rw [hnil] at this
    cases this
  have hblobs : (StoreConfig.new dataDir (some key)).blobs =
      { Path.parse .unix dataDir with
        segments := (Path.parse .unix dataDir).base ++ ["blobs"] } := by
    have hparse : Path.parse .unix "blobs" = ⟨none, false, ["blobs"]⟩ :=
      Path.parse_ordinary .unix (by decide)
    rw [StoreConfig.new, Path.join, hparse, Path.push_ordinary .unix _ (by decide)]
  have hbase : (StoreConfig.new dataDir (some key)).blobs.base =
      (Path.parse .unix dataDir).base ++ ["blobs"] := by
    rw [hblobs, Path.base]
    simp [Path.isVerbatim, Path.parse]
  change ((StoreConfig.new dataDir (some key)).blobs.join .unix _).display = _
  rw [Path.join, Path.parse_ordinary .unix hname, Path.push_ordinary .unix _ (by simpa using hname),
    hbase, hblobs, Path.display, Path.display,
    String.intercalate_append_of_ne_nil (by simp) (by simp), String.intercalate_singleton]
  simp [String.append_assoc]

/-- Without a key, a saved destination is used as it is. -/
lemma resumeDest_plain {dataDir dataDir₀ : String} {id : ShareId} {name : String} (dir : CurrentDir)
    (h : MadeIn keyedHash none dataDir₀ id name) :
    ∃ dest, (StoreConfig.new dataDir none).resumeDest keyedHash dir id name = .ok dest ∧
      dest.display = name := by
  obtain ⟨dir₀, given, dest, hdest, rfl⟩ := h
  have habsolute : (Path.parse .unix (given.getD ".")).absolute dir₀.path = .ok dest :=
    IoResult.orError_eq_ok.1 hdest
  have hnormal : dest.Normal := by
    refine Path.absolute_normal (fun c hc => ?_) Path.not_mem_of_mem_parse habsolute
    obtain ⟨c, -, rfl⟩ := except_map_eq_ok.1 hc
    exact c.2
  refine ⟨dest, ?_, rfl⟩
  refine IoResult.orError_eq_ok.2 ?_
  change (Path.parse .unix dest.display).absolute dir.path = .ok dest
  rw [Path.parse_display_normal hnormal]
  exact Path.absolute_of_normal hnormal dir.path

/-- With a key, a saved destination is found again where the data dir is spelled as it was. -/
lemma resumeDest_encrypted {dataDir₀ : String} {key : Key} {id : ShareId} {name : String}
    (dataDir : String) (dir : CurrentDir) (h : MadeIn keyedHash (some key) dataDir₀ id name) :
    ∃ dest, (StoreConfig.new dataDir (some key)).resumeDest keyedHash dir id name = .ok dest ∧
      (dest.display = name ↔ (StoreConfig.new dataDir₀ (some key)).blobs.display =
        (StoreConfig.new dataDir (some key)).blobs.display) := by
  obtain ⟨dir₀, given, dest, hdest, rfl⟩ := h
  refine ⟨_, rfl, ?_⟩
  cases given with
  | some given => cases hdest
  | none =>
    cases hdest
    rw [display_downloadDir, display_downloadDir, String.append_left_inj]
    exact eq_comm

/-! ## A download that is resumed -/

variable (keyedHash) in
/-- A run of one process. -/
def Within (w : Process Key) (actions : List ProcessAction) (w' : Process Key) : Prop :=
  Run (fun w a w' => w.Step keyedHash a w' ∧ a.stays = true) w actions w'

variable (keyedHash) in
/-- Whenever this process resumes the download that is saved under this name, it loads the
progress saved under this name, and when it ends well, no such download is offered. -/
def Clears (w : Process Key) (id : ShareId) (name : String) : Prop :=
  ∀ before w₁ record dir fails, Within keyedHash w before w₁ →
    w₁.client.tables.downloads.lookup (id, name) = some record →
    ∃ w₂ task₂, w₁.Step keyedHash (.resume dir id name fails) w₂ ∧
      w₂.client.tasks = w₁.client.tasks ++ [task₂] ∧ task₂.stage = .connecting ∧
      ∀ after w₃ task, Within keyedHash w₂ after w₃ →
        w₃.client.tasks[w₁.client.tasks.length]? = some task →
        (task.stage = .connecting →
          w₃.client.tables.progress.lookup (task.id, task.download.destDir) =
            w₃.client.tables.progress.lookup (id, name)) ∧
        (task.stage = .completing → ∀ w₄,
          w₃.Step keyedHash (.other (.task w₁.client.tasks.length (.next false))) w₄ →
          ¬w₄.client.tables.OffersAt id record.destDir)

/-- What a process keeps: the key, the way its data dir is spelled, and the destination of every
task. -/
lemma kept {a : ProcessAction} (hstep : w.Step keyedHash a w') (hstays : a.stays = true) :
    w'.key = w.key ∧ w'.dataDir = w.dataDir ∧ w'.earlier = w.earlier ∧
      ∀ (k : ℕ) (task : Task), w.client.tasks[k]? = some task → ∃ task',
        w'.client.tasks[k]? = some task' ∧ task'.id = task.id ∧ task'.download = task.download := by
  have hspawn : ∀ (c : Client) (task : Task) (k : ℕ) (t : Task), c.tasks = w.client.tasks →
      w.client.tasks[k]? = some t → ∃ task', (c.spawn task).tasks[k]? = some task' ∧
        task'.id = t.id ∧ task'.download = t.download := by
    intro c task k t htasks ht
    refine ⟨t, ?_, rfl, rfl⟩
    change (c.tasks ++ [task])[k]? = some t
    rw [htasks, List.getElem?_append_left (List.getElem?_eq_some_iff.1 ht).1, ht]
  cases a with
  | reopen => cases hstays
  | download dir id code given allow =>
    rw [Step, Process.step] at hstep
    cases hdest : w.cfg.downloadDest keyedHash dir id given with
    | error e =>
      rw [hdest] at hstep
      cases hstep
      exact ⟨rfl, rfl, rfl, fun k t ht => ⟨t, ht, rfl, rfl⟩⟩
    | ok dest =>
      rw [hdest] at hstep
      cases hstep
      exact ⟨rfl, rfl, rfl, fun k t => hspawn _ _ k t rfl⟩
  | resume dir id name fails =>
    obtain ⟨record, hrecord, hstep⟩ := Option.bind_eq_some_iff.1 hstep
    cases hdest : w.cfg.resumeDest keyedHash dir id record.destDir with
    | error e =>
      rw [hdest] at hstep
      cases hstep
      exact ⟨rfl, rfl, rfl, fun k t ht => ⟨t, ht, rfl, rfl⟩⟩
    | ok dest =>
      rw [hdest] at hstep
      cases hstep
      exact ⟨rfl, rfl, rfl, fun k t => hspawn _ _ k t rfl⟩
  | other a =>
    rw [Step, Process.step] at hstep
    split_ifs at hstep with hopens
    obtain ⟨client, hclient, rfl⟩ := Option.map_eq_some_iff.1 hstep
    refine ⟨rfl, rfl, rfl, fun k t ht => ?_⟩
    cases a with
    | task j action =>
      obtain ⟨task, htask, hact⟩ := Option.bind_eq_some_iff.1 hclient
      obtain ⟨task', htasks, hid, hdownload, -⟩ := Client.keeps_act htask hact
      change ∃ task', client.tasks[k]? = some task' ∧ _
      rw [htasks]
      by_cases hjk : j = k
      · subst hjk
        cases htask.symm.trans ht
        exact ⟨task', List.getElem?_set_self (List.getElem?_eq_some_iff.1 ht).1, hid, hdownload⟩
      · exact ⟨t, (List.getElem?_set_ne hjk).trans ht, rfl, rfl⟩
    | seed | forget | remove =>
      cases hclient
      exact hspawn _ _ k t rfl ht
    | resumeSeed =>
      simp only [Client.step] at hclient
      split_ifs at hclient
      cases hclient
      exact hspawn _ _ k t rfl ht
    | download | resumeDownload | restart => exact absurd rfl hopens

/-- What holds of a task through the rest of a process. -/
lemma Within.kept {actions : List ProcessAction} {k : ℕ} {task : Task}
    (hrun : Within keyedHash w actions w') (hsound : w.Sound keyedHash)
    (htask : w.client.tasks[k]? = some task) :
    w'.Sound keyedHash ∧ ∃ task', w'.client.tasks[k]? = some task' ∧ task'.id = task.id ∧
      task'.download = task.download := by
  refine Run.invariant (P := fun w' => w'.Sound keyedHash ∧ ∃ task',
    w'.client.tasks[k]? = some task' ∧ task'.id = task.id ∧ task'.download = task.download) ?_ hrun
    ⟨hsound, task, htask, rfl, rfl⟩
  rintro v a v' ⟨hv, t, ht, hid, hdownload⟩ ⟨hstep, hstays⟩
  obtain ⟨-, -, -, htasks⟩ := Process.kept hstep hstays
  obtain ⟨t', ht', hid', hdownload'⟩ := htasks k t ht
  exact ⟨hv.step hstep, t', ht', hid'.trans hid, hdownload'.trans hdownload⟩

lemma Within.sound {actions : List ProcessAction} (hrun : Within keyedHash w actions w')
    (hsound : w.Sound keyedHash) :
    w'.Sound keyedHash ∧ w'.key = w.key ∧ w'.dataDir = w.dataDir ∧ w'.earlier = w.earlier := by
  refine Run.invariant (P := fun w' => w'.Sound keyedHash ∧ w'.key = w.key ∧
    w'.dataDir = w.dataDir ∧ w'.earlier = w.earlier) ?_ hrun ⟨hsound, rfl, rfl, rfl⟩
  rintro v a v' ⟨hv, hkey, hdataDir, hearlier⟩ ⟨hstep, hstays⟩
  obtain ⟨hkey', hdataDir', hearlier', -⟩ := Process.kept hstep hstays
  exact ⟨hv.step hstep, hkey'.trans hkey, hdataDir'.trans hdataDir, hearlier'.trans hearlier⟩

/-- Where the destination is worked out as it was saved, the resumed download clears it. -/
lemma clears_of_dest {id : ShareId} {name : String} (hsound : w.Sound keyedHash)
    (hdest : ∀ dir, ∃ dest, w.cfg.resumeDest keyedHash dir id name = .ok dest ∧
      dest.display = name) :
    w.Clears keyedHash id name := by
  intro before w₁ record dir fails hbefore hrecord
  obtain ⟨hsound₁, hkey, hdataDir, hearlier⟩ := hbefore.sound hsound
  obtain ⟨hname, -⟩ := hsound₁.records id name record hrecord
  have hcfg : w₁.cfg = w.cfg := by rw [cfg, cfg, hkey, hdataDir]
  obtain ⟨dest, hdest, hdisplay⟩ := hdest dir
  obtain ⟨w₂, task₂, hstep, htasks, hid, hdownload, hstage⟩ : ∃ w₂ task₂,
      w₁.Step keyedHash (.resume dir id name fails) w₂ ∧
      w₂.client.tasks = w₁.client.tasks ++ [task₂] ∧ task₂.id = id ∧
      task₂.download.destDir = name ∧ task₂.stage = .connecting := by
    let task := Task.startDownload .resumeDownload id ⟨record.code, dest.display⟩
      (if fails then none else w₁.client.tables.access.lookup id)
    refine ⟨{ w₁ with client := w₁.client.spawn task }, task, ?_, rfl, rfl, hdisplay, rfl⟩
    rw [Step, Process.step, hrecord, Option.bind_eq_bind, Option.bind_some, hname, hcfg, hdest]
  refine ⟨w₂, task₂, hstep, htasks, hstage, fun after w₃ task hafter htask => ?_⟩
  have htask₂ : w₂.client.tasks[w₁.client.tasks.length]? = some task₂ := by
    rw [htasks, List.getElem?_append_right le_rfl, Nat.sub_self]
    rfl
  obtain ⟨hsound₃, task', htask', hid', hdownload'⟩ := hafter.kept (hsound₁.step hstep) htask₂
  cases htask.symm.trans htask'
  have hname' : task.download.destDir = name := by rw [hdownload', hdownload]
  rw [hid'.trans hid, hname']
  refine ⟨fun _ => rfl, fun hcompleting w₄ hlast => ?_⟩
  rintro ⟨name', record', hlookup, hoffers⟩
  obtain ⟨hname'', -⟩ := (hsound₃.step hlast).records id name' record' hlookup
  -- the record that is left would have the name that was removed
  have hremoved : w₄.client.tables.downloads.lookup (id, name) = none := by
    rw [Step, Process.step, if_neg (by simp [ClientAction.opens])] at hlast
    obtain ⟨client, hclient, rfl⟩ := Option.map_eq_some_iff.1 hlast
    obtain ⟨t, ht, hact⟩ := Option.bind_eq_some_iff.1 hclient
    cases htask.symm.trans ht
    change client.tables.downloads.lookup (id, name) = none
    rw [Client.tables_act hact, Task.tx, Task.nextTx, hcompleting, hid'.trans hid, hname']
    exact AList.lookup_erase _ _
  rw [← hname'', hoffers, hname, hremoved] at hlookup
  cases hlookup

variable (keyedHash) in
/-- A download can run to its end, all by itself. -/
lemma runs_to_end (id : ShareId) (record : DownloadRecord) (allow : Option (List EndpointId))
    (htasks : w.client.tasks = []) (hregistry : w.client.registry = ∅) :
    ∃ after w₃ task w₄,
      Within keyedHash { w with
        client := w.client.spawn (.startDownload .resumeDownload id record allow) } after w₃ ∧
      w₃.client.tasks[0]? = some task ∧ task.stage = .completing ∧
      w₃.Step keyedHash (.other (.task 0 (.next false))) w₄ ∧
      w₄.client.tables.downloads =
        (w.client.tables.downloads.insert (id, record.destDir) record).erase
          (id, record.destDir) := by
  obtain ⟨key, dataDir, earlier, ⟨reseed, encrypted, tables, registry, tasks⟩⟩ := w
  cases htasks
  cases hregistry
  have hsaved : ((tables.commit (.putDownload id record.destDir record)).commit
      (.putAllowed id allow)).downloads = tables.downloads.insert (id, record.destDir) record := by
    cases allow <;> rfl
  have hremoved := congrArg (AList.erase (id, record.destDir)) hsaved
  refine ⟨[.other (.task 0 (.layOut ⟨"", none, [], [], []⟩ [] [])), .other (.task 0 (.next false)),
    .other (.task 0 (.next false)), .other (.task 0 (.next false)), .other (.task 0 (.next false)),
    .other (.task 0 (.saveProgress [] false))], ?_⟩
  cases reseed with
  | true =>
    exact ⟨_, _, _, .cons ⟨rfl, rfl⟩ <| .cons ⟨rfl, rfl⟩ <| .cons ⟨rfl, rfl⟩ <| .cons ⟨rfl, rfl⟩ <|
      .cons ⟨rfl, rfl⟩ <| .cons ⟨rfl, rfl⟩ <| .nil _, rfl, rfl, rfl, hremoved⟩
  | false =>
    exact ⟨_, _, _, .cons ⟨rfl, rfl⟩ <| .cons ⟨rfl, rfl⟩ <| .cons ⟨rfl, rfl⟩ <| .cons ⟨rfl, rfl⟩ <|
      .cons ⟨rfl, rfl⟩ <| .cons ⟨rfl, rfl⟩ <| .nil _, rfl, rfl, rfl, hremoved⟩

/-- Where the destination comes out otherwise, the saved download stays when the resumed one has
ended. -/
lemma not_clears_of_dest {id : ShareId} {name : String} {record : DownloadRecord} {dir : CurrentDir}
    {dest : Path} (hsound : w.Sound keyedHash) (htasks : w.client.tasks = [])
    (hregistry : w.client.registry = ∅)
    (hrecord : w.client.tables.downloads.lookup (id, name) = some record)
    (hdest : w.cfg.resumeDest keyedHash dir id name = .ok dest) (hne : dest.display ≠ name) :
    ¬w.Clears keyedHash id name := by
  intro hclears
  obtain ⟨hname, -⟩ := hsound.records id name record hrecord
  obtain ⟨w₂, -, hstep, -, -, hafter⟩ := hclears [] w record dir false (.nil _) hrecord
  rw [Step, Process.step, hrecord, Option.bind_eq_bind, Option.bind_some, hname, hdest] at hstep
  cases hstep
  rw [htasks] at hafter
  obtain ⟨after, w₃, task, w₄, hrun, htask, hcompleting, hlast, hdownloads⟩ :=
    runs_to_end keyedHash id ⟨record.code, dest.display⟩ (w.client.tables.access.lookup id) htasks
      hregistry
  refine (hafter after w₃ task hrun htask).2 hcompleting w₄ hlast ⟨name, record, ?_, rfl⟩
  have hkey : (id, name) ≠ (id, dest.display) := fun h => hne (Prod.ext_iff.1 h).2.symm
  rw [hdownloads, AList.lookup_erase_ne hkey, AList.lookup_insert_ne hkey, hrecord]

variable (keyedHash) in
/-- Every saved download was saved under a destination worked out for some spelling of the data
dir.  When the data dir is opened again, resuming it uses and clears what was saved exactly when
there is no storage key, or the folder in the data dir is spelled as it was then. -/
theorem resume_clears_iff {key : Option Key} {dataDir : String} {reseed : Bool}
    {actions : List ProcessAction} {w : Process Key} {id : ShareId} {name : String}
    {record : DownloadRecord} (hrun : Run (Step keyedHash) (new key dataDir reseed) actions w)
    (hsaved : w.client.tables.downloads.lookup (id, name) = some record) :
    record.destDir = name ∧ ∃ dataDir₀ ∈ w.dataDir :: w.earlier,
      MadeIn keyedHash w.key dataDir₀ id name ∧ ∀ dataDir' reseed',
        ((w.reopen dataDir' reseed').Clears keyedHash id name ↔
          w.key = none ∨ (StoreConfig.new dataDir₀ w.key).blobs.display =
            (StoreConfig.new dataDir' w.key).blobs.display) := by
  have hsound : w.Sound keyedHash :=
    hrun.invariant (fun _ _ _ h hstep => h.step hstep) (new_sound key dataDir reseed)
  obtain ⟨hname, dataDir₀, hmem, hmade⟩ := hsound.records id name record hsaved
  refine ⟨hname, dataDir₀, hmem, hmade, fun dataDir' reseed' => ?_⟩
  have hsound' : (w.reopen dataDir' reseed').Sound keyedHash :=
    hsound.step (a := .reopen dataDir' reseed') rfl
  cases hkey : w.key with
  | none =>
    refine iff_of_true (clears_of_dest hsound' fun dir => ?_) (.inl rfl)
    have hcfg : (w.reopen dataDir' reseed').cfg = .new dataDir' none := by rw [cfg, ← hkey]; rfl
    rw [hcfg]
    exact resumeDest_plain dir (hkey ▸ hmade)
  | some k =>
    have hcfg : (w.reopen dataDir' reseed').cfg = .new dataDir' (some k) := by rw [cfg, ← hkey]; rfl
    constructor
    · intro hclears
      by_contra hnot
      obtain ⟨dest, hdest, hiff⟩ := resumeDest_encrypted dataDir'
        (.error (.fail .other)) (hkey ▸ hmade)
      refine not_clears_of_dest hsound' rfl rfl hsaved (hcfg ▸ hdest) (fun heq => ?_) hclears
      exact hnot (.inr (hiff.1 heq))
    · intro hspelled
      refine clears_of_dest hsound' fun dir => ?_
      rw [hcfg]
      obtain ⟨dest, hdest, hiff⟩ := resumeDest_encrypted dataDir' dir (hkey ▸ hmade)
      exact ⟨dest, hdest, hiff.2 (hspelled.resolve_left (by simp))⟩

end

/-! ## A data dir that is spelled in two ways -/

def chapter : ShareId := List.Vector.replicate 32 7

/-- The current dir `/home`. -/
def home : CurrentDir := .ok ⟨.normal false ["home"] false, _, _, _, by simp [Path.IsName], rfl⟩

/-- A download that is laid out and saved, and cut off by the end of the process. -/
def cutOff (given : Option String) : List ProcessAction :=
  [.download home chapter "chr2" given none,
    .other (.task 0 (.layOut ⟨"", none, [], [], []⟩ [] [])), .other (.task 0 (.next false))]

theorem resume_clears_iff_plain : ∃ w : Process Unit,
    Run (Step fun _ id => id) (new none "state" true) (cutOff (some "out")) w ∧
      (w.reopen "./state" true).Clears (fun _ id => id) chapter "/home/out" := by
  have hrun : ∃ w : Process Unit, ∃ record,
      Run (Step fun _ id => id) (new none "state" true) (cutOff (some "out")) w ∧ w.key = none ∧
        w.client.tables.downloads.lookup (chapter, "/home/out") = some record :=
    ⟨_, _, .cons rfl <| .cons rfl <| .cons rfl <| .nil _, rfl, rfl⟩
  obtain ⟨w, record, hrun, hkey, hsaved⟩ := hrun
  obtain ⟨-, dataDir₀, -, -, hiff⟩ := resume_clears_iff (fun _ id => id) hrun hsaved
  exact ⟨w, hrun, (hiff "./state" true).2 (.inl hkey)⟩

/-- The folder of the share in the encrypted store, as the data dir was spelled first. -/
def savedFolder : String :=
  ((StoreConfig.new "state" (some ())).downloadDir (fun _ id => id) chapter).display

/-- With a key, a download that was saved in `state` is not cleared in `/home/state`: its folder
is looked for under another name, and the saved one is still offered at the end. -/
theorem respelled_dir_keeps_download : ∃ w : Process Unit,
    Run (Step fun _ id => id) (new (some ()) "state" true) (cutOff none) w ∧
      w.client.tables.OffersAt chapter savedFolder ∧
      ¬(w.reopen "/home/state" true).Clears (fun _ id => id) chapter savedFolder := by
  have hrun : ∃ w : Process Unit, ∃ record,
      Run (Step fun _ id => id) (new (some ()) "state" true) (cutOff none) w ∧ w.key = some () ∧
        w.client.tables.downloads.lookup (chapter, savedFolder) = some record ∧
        record.destDir = savedFolder :=
    ⟨_, _, .cons rfl <| .cons rfl <| .cons rfl <| .nil _, rfl, rfl, rfl⟩
  obtain ⟨w, record, hrun, hkey, hsaved, hname⟩ := hrun
  refine ⟨w, hrun, ⟨savedFolder, record, hsaved, hname⟩, ?_⟩
  have hsound : w.Sound fun _ id => id :=
    hrun.invariant (fun _ _ _ h hstep => h.step hstep) (new_sound _ _ _)
  have hmade : MadeIn (fun _ id => id) (some ()) "state" chapter savedFolder :=
    ⟨home, none, _, rfl, rfl⟩
  obtain ⟨dest, hdest, hiff⟩ := resumeDest_encrypted "/home/state" home hmade
  have hcfg : (w.reopen "/home/state" true).cfg = .new "/home/state" (some ()) := by
    rw [cfg, ← hkey]
    rfl
  refine not_clears_of_dest (hsound.step (a := .reopen "/home/state" true) rfl) rfl rfl hsaved
    (hcfg ▸ hdest) fun heq => ?_
  exact absurd (hiff.1 heq) (by decide)

end Process

end Chorrent
