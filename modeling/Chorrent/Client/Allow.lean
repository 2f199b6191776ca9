/-
# Saved allowlists

Who may download a share is saved by each call that gives a list, apart from the records that
make the share come back after a restart.  In a run whose steps meet the conditions below the
saved list of a share that is saved never admits a peer that the last successful call leaves
out, or a task is under way that accounts for it; and what is resumed after a restart is served
to nobody else.
-/
import Chorrent.Client.Basic
import Chorrent.Lib.Run

namespace Chorrent

open Lib

/-! ## Lists -/

/-- Whom a list lets in; anyone if there is no list. -/
def Admits (allow : Option (List EndpointId)) (peer : EndpointId) : Prop :=
  ∀ peers, allow = some peers → peer ∈ peers

/-- A list lets in nobody that another one leaves out. -/
def NoWider (allow allow' : Option (List EndpointId)) : Prop :=
  ∀ peer, Admits allow peer → Admits allow' peer

/-- The list that the last successful call gave for each share, if there was one. -/
abbrev GivenLists := ShareId → Option (Option (List EndpointId))

/-- A list lets in nobody that the last successful call for the share leaves out. -/
def GivenLists.Cover (given : GivenLists) (id : ShareId)
    (allow : Option (List EndpointId)) : Prop :=
  ∀ allow', given id = some allow' → NoWider allow allow'

lemma NoWider.refl (allow : Option (List EndpointId)) : NoWider allow allow := fun _ h => h

lemma GivenLists.Cover.mono {given : GivenLists} {id : ShareId}
    {allow allow' : Option (List EndpointId)} (h : given.Cover id allow')
    (hle : NoWider allow allow') :
    given.Cover id allow := fun last hlast peer hpeer => h last hlast peer (hle peer hpeer)

/-- The saved list of a share that is saved lets in nobody that the last call leaves out. -/
def Tables.Covered (t : Tables) (given : GivenLists) (id : ShareId) : Prop :=
  t.Lists id → given.Cover id (t.access.lookup id)

/-! ## Tasks that are under way -/

/-- A task between saving a list and giving it, between giving a list and saving it, or between
forgetting a list and forgetting the downloads: it accounts for the saved list being another
one. -/
def Task.Excuses (t : Tables) (given : GivenLists) (task : Task) : Prop :=
  match task.stage with
  | .registering | .savingKinds | .savingSeed =>
      task.kind = .seed ∧ t.access.lookup task.id = task.allow
  | .connecting | .savingDownload | .savingDownloadAllowed => given.Cover task.id task.allow
  | .listingDownloads => t.access.lookup task.id = none ∧ task.id ∉ t.seeds
  | .forgettingDownloads dests =>
      t.access.lookup task.id = none ∧ task.id ∉ t.seeds ∧
        ∀ destDir, (task.id, destDir) ∈ t.downloads → destDir ∈ dests
  | _ => False

/-- If a task ends here, what it leaves behind is no wider than what was given: the list it
saved for the share, the list it has yet to replace, or that the share has no list. -/
def Task.Harmless (t : Tables) (given : GivenLists) (task : Task) : Prop :=
  match task.stage with
  | .registering | .savingKinds | .savingSeed =>
      task.kind = .seed → t.Lists task.id → t.access.lookup task.id = task.allow →
        given.Cover task.id task.allow
  | .connecting | .savingDownload | .savingDownloadAllowed =>
      t.Lists task.id → NoWider (t.access.lookup task.id) task.allow
  | .listingDownloads | .forgettingDownloads _ =>
      t.Lists task.id → t.access.lookup task.id = none → given.Cover task.id none
  | _ => True

/-- The conditions on what a task does next. -/
def Task.SafeNext (c : Client) (given : GivenLists) (task : Task) (fails : Bool) : Prop :=
  match task.stage with
  -- the list of a seed can be read
  | .loadingAllowed => fails = true → given.Cover task.id none
  | .registering => task.id ∈ c.registry → task.Harmless c.tables given
  | .savingKinds | .listingDownloads | .forgettingDownloads _ =>
      fails = true → task.Harmless c.tables given
  -- a share is saved while the list it was started with is, and no later call gave another
  | .savingSeed =>
      if fails then task.Harmless c.tables given
      else
        NoWider (c.tables.access.lookup task.id) task.allow ∧
          (task.kind ≠ .seed → given.Cover task.id task.allow)
  | .savingDownload | .savingDownloadAllowed =>
      if fails then task.Harmless c.tables given else given.Cover task.id task.allow
  | _ => True

lemma Task.Harmless.covered {t : Tables} {given : GivenLists} {task : Task}
    (h : task.Harmless t given) (hexcuses : task.Excuses t given) : t.Covered given task.id := by
  intro hlists
  rw [Task.Harmless] at h
  rw [Task.Excuses] at hexcuses
  cases hstage : task.stage <;> simp only [hstage] at h hexcuses
  case registering | savingKinds | savingSeed =>
    rw [hexcuses.2]
    exact h hexcuses.1 hlists hexcuses.2
  case connecting | savingDownload | savingDownloadAllowed => exact hexcuses.mono (h hlists)
  case listingDownloads | forgettingDownloads =>
    rw [hexcuses.1]
    exact h hlists hexcuses.1

/-! ## Tables that say no more of a share -/

/-- The share has the same list as before, and no records that it had not. -/
structure Tables.Shrinks (t t' : Tables) (id : ShareId) : Prop where
  access : t'.access.lookup id = t.access.lookup id
  seeds : id ∈ t'.seeds → id ∈ t.seeds
  downloads : ∀ destDir, (id, destDir) ∈ t'.downloads → (id, destDir) ∈ t.downloads

namespace Tables.Shrinks

variable {t t' : Tables} {id : ShareId} {given given' : GivenLists}

lemma refl (t : Tables) (id : ShareId) : t.Shrinks t id := ⟨rfl, fun h => h, fun _ h => h⟩

lemma lists (h : t.Shrinks t' id) (hlists : t'.Lists id) : t.Lists id :=
  hlists.imp h.seeds fun ⟨destDir, hmem⟩ => ⟨destDir, h.downloads destDir hmem⟩

lemma covered (h : t.Shrinks t' id) (hgiven : given' id = given id)
    (hcovered : t.Covered given id) :
    t'.Covered given' id := by
  intro hlists allow hallow
  rw [h.access]
  exact hcovered (h.lists hlists) allow (hgiven ▸ hallow)

lemma excuses {task : Task} (h : t.Shrinks t' task.id) (hgiven : given' task.id = given task.id)
    (hexcuses : task.Excuses t given) : task.Excuses t' given' := by
  rw [Task.Excuses] at hexcuses ⊢
  cases hstage : task.stage <;> simp only [hstage] at hexcuses ⊢ <;> try exact hexcuses
  case registering | savingKinds | savingSeed => exact ⟨hexcuses.1, h.access.trans hexcuses.2⟩
  case connecting | savingDownload | savingDownloadAllowed =>
    exact fun allow hallow => hexcuses allow (hgiven ▸ hallow)
  case listingDownloads =>
    exact ⟨h.access.trans hexcuses.1, fun hmem => hexcuses.2 (h.seeds hmem)⟩
  case forgettingDownloads dests =>
    exact ⟨h.access.trans hexcuses.1, fun hmem => hexcuses.2.1 (h.seeds hmem),
      fun destDir hmem => hexcuses.2.2 destDir (h.downloads destDir hmem)⟩

end Tables.Shrinks

/-- A transaction leaves the other shares alone. -/
lemma Tables.shrinks_commit {t : Tables} {tx : Tx} {id : ShareId} (h : id ≠ tx.id) :
    t.Shrinks (t.commit tx) id := by
  cases tx with
  | putKinds | putProgress => exact ⟨rfl, fun h => h, fun _ h => h⟩
  | putSeed id' record =>
    exact ⟨rfl, fun hmem => (AList.mem_insert _).1 hmem |>.resolve_left h, fun _ h => h⟩
  | putAllowed id' peers =>
    cases peers with
    | none => exact ⟨AList.lookup_erase_ne h, fun h => h, fun _ h => h⟩
    | some peers => exact ⟨AList.lookup_insert_ne h, fun h => h, fun _ h => h⟩
  | removeShare id' =>
    exact ⟨AList.lookup_erase_ne h, fun hmem => (AList.mem_erase.1 hmem).2, fun _ h => h⟩
  | putDownload id' destDir record =>
    refine ⟨rfl, fun h => h, fun destDir' hmem => ?_⟩
    exact ((AList.mem_insert _).1 hmem).resolve_left fun heq => h (Prod.ext_iff.1 heq).1
  | removeDownload id' destDir =>
    exact ⟨rfl, fun h => h, fun destDir' hmem => (AList.mem_erase.1 hmem).2⟩

/-! ## A client and the lists that were given -/

structure Listing where
  client : Client
  given : GivenLists

namespace Listing

def new (reseed encrypted : Bool) : Listing := ⟨.new reseed encrypted, fun _ => none⟩

/-- What an action makes of the lists: a download has succeeded when its handle is returned, a
seed when its record is saved. -/
def note (w : Listing) : ClientAction → GivenLists
  | .download id _ allow => Function.update w.given id (some allow)
  | .task k action =>
      match w.client.tasks[k]? with
      | none => w.given
      | some task =>
          match action with
          | .next false =>
              if task.stage = .savingSeed ∧ task.kind = .seed then
                Function.update w.given task.id (some task.allow)
              else w.given
          | .setAllowed peers false => Function.update w.given task.id (some peers)
          | _ => w.given
  | _ => w.given

def step (w : Listing) (a : ClientAction) : Option Listing :=
  (w.client.step a).map fun client => ⟨client, w.note a⟩

/-- The conditions on a step.  No call fails or is cut off while it leaves a wider list behind,
a list that is saved late is still no wider than the last one given, and lists can be read. -/
def Safe (w : Listing) : ClientAction → Prop
  | .resumeDownload id _ fails => fails = true → w.given.Cover id none
  | .task k action => ∀ task, w.client.tasks[k]? = some task →
      match action with
      | .next fails => task.SafeNext w.client w.given fails
      | .stop => task.Harmless w.client.tables w.given
      | _ => True
  | .restart => ∀ task ∈ w.client.tasks, task.Harmless w.client.tables w.given
  | _ => True

def SafeStep (w : Listing) (a : ClientAction) (w' : Listing) : Prop :=
  w.step a = some w' ∧ w.Safe a

/-- Every share that is saved has a saved list that is covered, or a task accounts for it. -/
structure Inv (w : Listing) : Prop where
  covered : ∀ id, w.client.tables.Covered w.given id ∨
    ∃ task ∈ w.client.tasks, task.id = id ∧ task.Excuses w.client.tables w.given
  kinds : ∀ task ∈ w.client.tasks, task.stage = .savingAllowed → task.kind = .seed

variable {w w' : Listing} {c' : Client} {given' : GivenLists} {k : ℕ} {task task' : Task}

/-- Besides the share of the task that acts nothing changes; of that share, the saved list is
covered, the task accounts for it, or it is as it was. -/
lemma Inv.update (h : w.Inv) (htask : w.client.tasks[k]? = some task)
    (htasks : c'.tasks = w.client.tasks.set k task') (hid : task'.id = task.id)
    (hkind : task'.stage = .savingAllowed → task'.kind = .seed)
    (hother : ∀ id ≠ task.id, w.client.tables.Shrinks c'.tables id ∧ given' id = w.given id)
    (hown : c'.tables.Covered given' task.id ∨ task'.Excuses c'.tables given' ∨
      w.client.tables.Shrinks c'.tables task.id ∧ given' task.id = w.given task.id ∧
        (task.Excuses w.client.tables w.given →
          c'.tables.Covered given' task.id ∨ task'.Excuses c'.tables given')) :
    Inv ⟨c', given'⟩ := by
  have hmem : task' ∈ c'.tasks := by
    rw [htasks]
    exact List.mem_set (List.getElem?_eq_some_iff.1 htask).1 task'
  have hstays : ∀ t ∈ w.client.tasks, t = task ∨ t ∈ c'.tasks := by
    intro t ht
    obtain ⟨j, hj⟩ := List.mem_iff_getElem?.1 ht
    by_cases hjk : k = j
    · subst hjk
      exact .inl (Option.some.inj (hj.symm.trans htask))
    · right
      rw [htasks]
      exact List.mem_of_getElem? ((List.getElem?_set_ne hjk).trans hj)
  refine ⟨fun id => ?_, fun t ht => ?_⟩
  · by_cases hne : id = task.id
    · subst hne
      rcases hown with hcovered | hexcuses | ⟨hshrinks, hgiven, hkeeps⟩
      · exact .inl hcovered
      · exact .inr ⟨task', hmem, hid, hexcuses⟩
      · rcases h.covered task.id with hcovered | ⟨t, ht, htid, hexcuses⟩
        · exact .inl (hshrinks.covered hgiven hcovered)
        · rcases hstays t ht with rfl | ht
          · exact (hkeeps hexcuses).imp_right fun h => ⟨task', hmem, hid, h⟩
          · rw [← htid] at hshrinks hgiven
            exact .inr ⟨t, ht, htid, hshrinks.excuses hgiven hexcuses⟩
    · obtain ⟨hshrinks, hgiven⟩ := hother id hne
      rcases h.covered id with hcovered | ⟨t, ht, rfl, hexcuses⟩
      · exact .inl (hshrinks.covered hgiven hcovered)
      · rcases hstays t ht with rfl | ht
        · exact absurd rfl hne
        · exact .inr ⟨t, ht, rfl, hshrinks.excuses hgiven hexcuses⟩
  · rw [htasks] at ht
    rcases List.mem_or_eq_of_mem_set ht with ht | rfl
    · exact h.kinds t ht
    · exact hkind

/-- Nothing changes but tables that say no more than before. -/
lemma Inv.same (h : w.Inv) (htasks : c'.tasks = w.client.tasks)
    (hshrinks : ∀ id, w.client.tables.Shrinks c'.tables id) : Inv ⟨c', w.given⟩ := by
  refine ⟨fun id => (h.covered id).imp ((hshrinks id).covered rfl) ?_, fun task ht => ?_⟩
  · rintro ⟨task, ht, hid, hexcuses⟩
    exact ⟨task, htasks ▸ ht, hid, (hshrinks task.id).excuses rfl hexcuses⟩
  · exact h.kinds task (htasks ▸ ht)

/-- A task goes on, or ends, and the tables say no more than before. -/
lemma Inv.update_shrinks (h : w.Inv) (htask : w.client.tasks[k]? = some task)
    (htasks : c'.tasks = w.client.tasks.set k task') (hid : task'.id = task.id)
    (hkind : task'.stage = .savingAllowed → task'.kind = .seed)
    (hshrinks : ∀ id, w.client.tables.Shrinks c'.tables id)
    (hkeeps : task.Excuses w.client.tables w.given →
      c'.tables.Covered w.given task.id ∨ task'.Excuses c'.tables w.given) :
    Inv ⟨c', w.given⟩ :=
  h.update htask htasks hid hkind (fun id _ => ⟨hshrinks id, rfl⟩)
    (.inr (.inr ⟨hshrinks task.id, rfl, hkeeps⟩))

/-- A task ends and leaves nothing wider behind. -/
lemma Inv.finish (h : w.Inv) (htask : w.client.tasks[k]? = some task)
    (hharmless : task.Harmless w.client.tables w.given) :
    Inv ⟨w.client.finish k task, w.given⟩ :=
  h.update_shrinks htask rfl rfl (fun h => by cases h) (fun id => .refl _ id)
    fun hexcuses => .inl (hharmless.covered hexcuses)

/-- A task that accounts for nothing changes in memory only. -/
lemma Inv.idle (h : w.Inv) (htask : w.client.tasks[k]? = some task)
    (htasks : c'.tasks = w.client.tasks.set k task') (hid : task'.id = task.id)
    (hkind : task'.stage = .savingAllowed → task'.kind = .seed)
    (hshrinks : ∀ id, w.client.tables.Shrinks c'.tables id)
    (hidle : ¬ task.Excuses w.client.tables w.given) : Inv ⟨c', w.given⟩ :=
  h.update_shrinks htask htasks hid hkind hshrinks fun hexcuses => absurd hexcuses hidle

/-- A task commits a transaction about its share, and is done with the saved list or accounts
for it. -/
lemma Inv.commit (h : w.Inv) (htask : w.client.tasks[k]? = some task) (tx : Tx)
    (htx : tx.id = task.id) (htables : c'.tables = w.client.tables.commit tx)
    (htasks : c'.tasks = w.client.tasks.set k task') (hid : task'.id = task.id)
    (hkind : task'.stage = .savingAllowed → task'.kind = .seed)
    (hgiven : ∀ id ≠ task.id, given' id = w.given id)
    (hown : c'.tables.Covered given' task.id ∨ task'.Excuses c'.tables given') :
    Inv ⟨c', given'⟩ := by
  refine h.update htask htasks hid hkind (fun id hne => ⟨?_, hgiven id hne⟩) (hown.imp_right .inl)
  rw [htables]
  exact Tables.shrinks_commit (htx ▸ hne)

lemma harmless_of_idle {t : Tables} {given : GivenLists} {stage : TaskStage}
    (hstage : task.stage = stage)
    (hidle : stage ∈ [.savingAllowed, .completing, .forgetting, .serving, .outcome]) :
    task.Harmless t given := by
  rw [Task.Harmless, hstage]
  simp only [List.mem_cons, List.not_mem_nil, or_false] at hidle
  rcases hidle with rfl | rfl | rfl | rfl | rfl <;> trivial

lemma Inv.next (h : w.Inv) {fails : Bool} (htask : w.client.tasks[k]? = some task)
    (hnext : w.client.next k task fails = some c')
    (hsafe : task.SafeNext w.client w.given fails) :
    Inv ⟨c', if fails = false ∧ task.stage = .savingSeed ∧ task.kind = .seed then
      Function.update w.given task.id (some task.allow) else w.given⟩ := by
  have hkinds := h.kinds task (List.mem_of_getElem? htask)
  rw [Task.SafeNext] at hsafe
  have hidle : (match task.stage with
      | .savingAllowed | .loadingAllowed | .joining | .swarming | .completing | .forgetting => True
      | _ => False) → ¬ task.Excuses w.client.tables w.given := by
    rw [Task.Excuses]
    cases task.stage <;> simp
  have hgiven : task.stage ≠ .savingSeed → (if fails = false ∧ task.stage = .savingSeed ∧
      task.kind = .seed then Function.update w.given task.id (some task.allow) else w.given) =
      w.given := fun hne => if_neg fun h => hne h.2.1
  cases hstage : task.stage <;> simp only [Client.next, hstage, reduceCtorEq] at hnext hsafe hidle
  case savingAllowed =>
    rw [← hstage, hgiven (by simp [hstage])]
    cases fails with
    | true =>
      cases hnext
      exact h.finish htask (harmless_of_idle hstage (by simp))
    | false =>
      cases hnext
      refine h.commit htask (.putAllowed task.id task.allow) rfl rfl rfl rfl (fun h => by cases h)
        (fun _ _ => rfl) (.inr ?_)
      exact ⟨hkinds hstage, Tables.lookup_putAllowed _ _ _⟩
  case loadingAllowed =>
    rw [← hstage, hgiven (by simp [hstage])]
    cases hnext
    exact h.idle htask rfl rfl (fun h => by cases h) (fun id => .refl _ id) (hidle trivial)
  case registering =>
    rw [← hstage, hgiven (by simp [hstage])]
    split_ifs at hnext with hlisted
    · cases hnext
      exact h.finish htask (hsafe hlisted)
    · cases hnext
      refine h.update_shrinks htask rfl rfl (fun h => by cases h)
        (fun id => .refl _ id) fun hex => ?_
      rw [Task.Excuses, hstage] at hex
      exact .inr hex
  case savingKinds =>
    rw [← hstage, hgiven (by simp [hstage])]
    cases fails with
    | true =>
      cases hnext
      exact h.finish htask (hsafe rfl)
    | false =>
      cases hnext
      refine h.update_shrinks htask rfl rfl (fun h => by cases h)
        (fun id => ⟨rfl, fun h => h, fun _ h => h⟩) fun hex => ?_
      rw [Task.Excuses, hstage] at hex
      exact .inr hex
  case savingSeed =>
    cases fails with
    | true =>
      cases hnext
      simp only [Bool.true_eq_false, false_and, if_false]
      exact h.finish htask hsafe
    | false =>
      cases hnext
      obtain ⟨hle, hcover⟩ := hsafe
      refine h.commit htask (.putSeed task.id task.record) rfl rfl rfl rfl ?_ ?_ (.inl fun _ => ?_)
      · split_ifs <;> (intro h; cases h)
      · intro id hne
        split_ifs
        · exact Function.update_of_ne hne _ _
        · rfl
      · change GivenLists.Cover _ _ (w.client.tables.access.lookup task.id)
        by_cases hseed : task.kind = .seed
        · rw [if_pos ⟨rfl, rfl, hseed⟩]
          intro allow hallow
          rw [Function.update_self] at hallow
          cases hallow
          exact hle
        · rw [if_neg fun h => hseed h.2.2]
          exact (hcover hseed).mono hle
  case savingDownload =>
    rw [← hstage, hgiven (by simp [hstage])]
    cases fails with
    | true =>
      cases hnext
      exact h.finish htask hsafe
    | false =>
      cases hnext
      exact h.commit htask (.putDownload task.id task.download.destDir task.download)
        rfl rfl rfl rfl
        (fun h => by cases h) (fun _ _ => rfl) (.inr hsafe)
  case savingDownloadAllowed =>
    rw [← hstage, hgiven (by simp [hstage])]
    cases fails with
    | true =>
      cases hnext
      exact h.finish htask hsafe
    | false =>
      cases hnext
      refine h.commit htask (.putAllowed task.id task.allow) rfl rfl rfl rfl (fun h => by cases h)
        (fun _ _ => rfl) (.inl fun _ => ?_)
      have hlookup :
          (w.client.tables.commit (.putAllowed task.id task.allow)).access.lookup task.id =
          task.allow := Tables.lookup_putAllowed _ _ _
      rw [← hlookup] at hsafe
      exact hsafe
  case joining =>
    rw [← hstage, hgiven (by simp [hstage])]
    split_ifs at hnext
    all_goals
      cases hnext
      exact h.idle htask rfl rfl (fun h => by cases h) (fun id => .refl _ id) (hidle trivial)
  case swarming =>
    rw [← hstage, hgiven (by simp [hstage])]
    split_ifs at hnext
    all_goals
      cases hnext
      exact h.idle htask rfl rfl (fun h => by cases h) (fun id => .refl _ id) (hidle trivial)
  case completing =>
    rw [← hstage, hgiven (by simp [hstage])]
    have hshrinks : ∀ id, w.client.tables.Shrinks
        (w.client.tables.commit (.removeDownload task.id task.download.destDir)) id :=
      fun id => ⟨rfl, fun h => h, fun _ hmem => (AList.mem_erase.1 hmem).2⟩
    split_ifs at hnext with hhandle hfails
    · cases fails with
      | true =>
        cases hnext
        exact h.finish htask (harmless_of_idle hstage (by simp))
      | false =>
        cases hnext
        exact h.idle htask rfl rfl (fun h => by cases h) hshrinks (hidle trivial)
    · cases hnext
      exact h.finish htask (harmless_of_idle hstage (by simp))
    · cases hnext
      exact h.idle htask rfl rfl (fun h => by cases h) hshrinks (hidle trivial)
  case forgetting =>
    rw [← hstage, hgiven (by simp [hstage])]
    cases fails with
    | true =>
      cases hnext
      exact h.finish htask (harmless_of_idle hstage (by simp))
    | false =>
      cases hnext
      refine h.commit htask (.removeShare task.id) rfl rfl rfl rfl (fun h => by cases h)
        (fun _ _ => rfl) (.inr ?_)
      exact ⟨AList.lookup_erase _ _, fun hmem => (AList.mem_erase.1 hmem).1 rfl⟩
  case listingDownloads =>
    rw [← hstage, hgiven (by simp [hstage])]
    cases fails with
    | true =>
      cases hnext
      exact h.finish htask (hsafe rfl)
    | false =>
      cases hnext
      refine h.update_shrinks htask rfl rfl (fun h => by cases h)
        (fun id => .refl _ id) fun hex => ?_
      rw [Task.Excuses, hstage] at hex
      exact .inr ⟨hex.1, hex.2, fun destDir hmem => Tables.mem_destsOf.2 hmem⟩
  case forgettingDownloads dests =>
    rw [← hstage, hgiven (by simp [hstage])]
    cases dests with
    | nil =>
      cases hnext
      refine h.update_shrinks htask rfl rfl (fun h => by cases h)
        (fun id => .refl _ id) fun hex => ?_
      rw [Task.Excuses, hstage] at hex
      -- nothing of the share is left
      refine .inl fun hlists => ?_
      rcases hlists with hseed | ⟨destDir, hmem⟩
      · exact absurd hseed hex.2.1
      · cases hex.2.2 destDir hmem
    | cons destDir dests =>
      cases fails with
      | true =>
        cases hnext
        exact h.finish htask (hsafe rfl)
      | false =>
        cases hnext
        refine h.update_shrinks htask rfl rfl (fun h => by cases h)
          (fun id => ⟨rfl, fun h => h, fun _ hmem => (AList.mem_erase.1 hmem).2⟩) fun hex => ?_
        rw [Task.Excuses, hstage] at hex
        refine .inr ⟨hex.1, hex.2.1, fun destDir' hmem => ?_⟩
        obtain ⟨hne, hmem⟩ := AList.mem_erase.1 hmem
        refine (List.mem_cons.1 (hex.2.2 destDir' hmem)).resolve_left fun heq => hne ?_
        rw [heq]

/-- Other actions of a task, or of whoever holds its handle. -/
lemma Inv.act (h : w.Inv) {action : TaskAction} (htask : w.client.tasks[k]? = some task)
    (hact : w.client.act k task action = some c')
    (hsafe : w.Safe (.task k action)) : Inv ⟨c', w.note (.task k action)⟩ := by
  have hkinds := h.kinds task (List.mem_of_getElem? htask)
  have hsafe := hsafe task htask
  simp only [note, htask]
  cases action with
  | next fails =>
    have hnext := h.next htask hact hsafe
    cases fails with
    | true => simpa using hnext
    | false => simpa using hnext
  | layOut record kinds held =>
    rw [Client.act] at hact
    split_ifs at hact with hstage
    cases hact
    refine h.update_shrinks htask rfl rfl (fun h => by cases h) (fun id => .refl _ id) fun hex => ?_
    rw [Task.Excuses, hstage] at hex
    exact .inr hex
  | storePiece piece =>
    rw [Client.act] at hact
    split_ifs at hact with hstage
    cases hact
    exact h.update_shrinks htask rfl rfl hkinds (fun id => .refl _ id) fun hex => .inr hex
  | saveProgress outboards fails =>
    have hshrinks : ∀ id, w.client.tables.Shrinks (if fails then w.client
        else w.client.commit (.putProgress task.id task.download.destDir outboards)).tables id := by
      intro id
      split_ifs <;> exact ⟨rfl, fun h => h, fun _ h => h⟩
    rw [Client.act] at hact
    cases hstage : task.stage <;> simp only [hstage, reduceCtorEq] at hact
    case swarming =>
      cases hact
      exact h.same (by split_ifs <;> rfl) hshrinks
    case verified =>
      cases hact
      have htasks : (if fails then w.client
          else w.client.commit (.putProgress task.id task.download.destDir outboards)).tasks =
          w.client.tasks := by split_ifs <;> rfl
      refine h.idle htask (congrArg (List.set · k _) htasks) rfl (fun h => by cases h) hshrinks
        fun hex => ?_
      rw [Task.Excuses, hstage] at hex
      exact hex
  | stop =>
    rw [Client.act] at hact
    split_ifs at hact
    cases hact
    exact h.finish htask hsafe
  | cancel =>
    rw [Client.act] at hact
    split_ifs at hact
    cases hact
    exact h.update_shrinks htask rfl rfl hkinds (fun id => .refl _ id) fun hex => .inr hex
  | finished =>
    rw [Client.act] at hact
    split_ifs at hact with hstage
    · cases hact
      refine h.idle htask rfl rfl (fun h => by cases h) (fun id => .refl _ id) fun hex => ?_
      rw [Task.Excuses, hstage] at hex
      exact hex
    · cases hact
      exact h.finish htask (harmless_of_idle hstage (by simp))
  | drop =>
    rw [Client.act] at hact
    split_ifs at hact with hstage
    · cases hact
      exact h.finish htask (hstage.elim (fun hs => harmless_of_idle hs (by simp))
        fun hs => harmless_of_idle hs (by simp))
    · cases hact
      exact h.update_shrinks htask rfl rfl hkinds (fun id => .refl _ id) fun hex => .inr hex
  | setAllowed peers fails =>
    rw [Client.act] at hact
    split_ifs at hact with hstage hfails
    · cases hact
      rw [hfails]
      exact h
    · cases hact
      obtain rfl := Bool.eq_false_iff.2 hfails
      refine h.commit htask (.putAllowed task.id peers) rfl rfl rfl rfl hkinds
        (fun id hne => Function.update_of_ne hne _ _) (.inl fun _ allow hallow => ?_)
      have hself : some allow = some peers :=
        (show Function.update w.given task.id (some peers) task.id =
          some allow from hallow).symm.trans
          (Function.update_self _ _ _)
      cases hself
      change NoWider
        ((w.client.tables.commit (.putAllowed task.id peers)).access.lookup task.id) peers
      rw [Tables.lookup_putAllowed]
      exact .refl peers

lemma Inv.spawn (h : w.Inv) (htasks : c'.tasks = w.client.tasks ++ [task'])
    (htables : c'.tables = w.client.tables)
    (hkind : task'.stage = .savingAllowed → task'.kind = .seed)
    (hgiven : ∀ id, given' id = w.given id ∨
      id = task'.id ∧ task'.Excuses w.client.tables given') : Inv ⟨c', given'⟩ := by
  refine ⟨fun id => ?_, fun t ht => ?_⟩
  · rcases hgiven id with hsame | ⟨rfl, hexcuses⟩
    · refine (h.covered id).imp (fun hcovered => ?_) ?_
      · exact htables ▸ (Tables.Shrinks.refl _ id).covered hsame hcovered
      · rintro ⟨t, ht, rfl, hexcuses⟩
        refine ⟨t, by rw [htasks]; exact List.mem_append_left _ ht, rfl, ?_⟩
        exact htables ▸ (Tables.Shrinks.refl _ t.id).excuses hsame hexcuses
    · refine .inr ⟨task', by rw [htasks]; simp, rfl, ?_⟩
      rwa [← htables] at hexcuses
  · rw [htasks] at ht
    rcases List.mem_append.1 ht with ht | ht
    · exact h.kinds t ht
    · cases List.mem_singleton.1 ht
      exact hkind

lemma Inv.step {a : ClientAction} (h : w.Inv) (hstep : SafeStep w a w') : w'.Inv := by
  obtain ⟨hmap, hsafe⟩ := hstep
  obtain ⟨c', hstep, rfl⟩ := Option.map_eq_some_iff.1 hmap
  cases a with
  | seed id record kinds allow =>
    cases hstep
    exact h.spawn rfl rfl (fun _ => rfl) fun _ => .inl rfl
  | resumeSeed id record kinds =>
    simp only [Client.step] at hstep
    split_ifs at hstep
    cases hstep
    exact h.spawn rfl rfl (fun h => by cases h) fun _ => .inl rfl
  | download id record allow =>
    cases hstep
    refine h.spawn rfl rfl (fun h => by cases h) fun id' => ?_
    by_cases hid : id' = id
    · subst hid
      refine .inr ⟨rfl, fun allow' hallow' => ?_⟩
      have hself : some allow' = some allow := hallow'.symm.trans (Function.update_self _ _ _)
      cases hself
      exact .refl _
    · exact .inl (Function.update_of_ne hid _ _)
  | resumeDownload id destDir fails =>
    obtain ⟨record, -, heq⟩ := Option.bind_eq_some_iff.1 hstep
    cases heq
    exact h.spawn rfl rfl (fun h => by cases h) fun _ => .inl rfl
  | forget id =>
    cases hstep
    exact h.spawn rfl rfl (fun h => by cases h) fun _ => .inl rfl
  | remove id =>
    cases hstep
    exact h.spawn rfl rfl (fun h => by cases h) fun _ => .inl rfl
  | task k action =>
    obtain ⟨task, htask, hact⟩ := Option.bind_eq_some_iff.1 hstep
    exact h.act htask hact hsafe
  | restart =>
    cases hstep
    refine ⟨fun id => .inl ?_, fun task ht => by cases ht⟩
    rcases h.covered id with hcovered | ⟨task, ht, rfl, hexcuses⟩
    · exact hcovered
    · exact (hsafe task ht).covered hexcuses

lemma new_inv (reseed encrypted : Bool) : (new reseed encrypted).Inv where
  covered id := .inl fun _ allow hallow => by cases hallow
  kinds task ht := by cases ht

/-! ## After a restart -/

end Listing

/-- What an action makes of its task and of the registry: the task keeps its list, or has just
loaded it, and is registered under its own share only. -/
def Client.Moves (c : Client) (k : ℕ) (task : Task) (action : TaskAction) (c' : Client) : Prop :=
  ∃ task', c'.tasks = c.tasks.set k task' ∧ task'.id = task.id ∧ task'.kind = task.kind ∧
    task'.stage.forgets = false ∧
    (task'.allow = task.allow ∧ (task'.stage = .loadingAllowed ↔ task.stage = .loadingAllowed) ∨
      task.stage = .loadingAllowed ∧ task'.stage ≠ .loadingAllowed ∧ ∃ fails,
        action = .next fails ∧
          task'.allow = if fails then none else c.tables.access.lookup task.id) ∧
    ∀ id j, c'.registry.lookup id = some j → c.registry.lookup id = some j ∨
      id = task.id ∧ j = k ∧ task'.stage ≠ .loadingAllowed

namespace Client

variable {c c' : Client} {k : ℕ} {task task' : Task} {action : TaskAction}

lemma moves_act (htask : c.tasks[k]? = some task) (hact : c.act k task action = some c')
    (hset : ∀ peers fails, action ≠ .setAllowed peers fails)
    (hforgets : task.stage.forgets = false) :
    c.Moves k task action c' := by
  obtain ⟨task', htasks, hbecomes⟩ := becomes_act htask hact
  refine ⟨task', htasks, hbecomes.id_eq, hbecomes.kind_eq, hbecomes.forgets_eq_false hforgets,
    hbecomes.allow_eq hset, fun id j h => ?_⟩
  rcases registry_act hact with hregistry | hregistry | ⟨hstage, hregistry⟩ <;> rw [hregistry] at h
  · exact .inl h
  · exact .inl (lookup_of_unregister h)
  · by_cases hid : id = task.id
    · rw [hid, AList.lookup_insert] at h
      cases h
      exact .inr ⟨hid, rfl,
        hbecomes.stage_ne_loadingAllowed (by rcases hstage with hs | hs <;> simp [hs])⟩
    · rw [AList.lookup_insert_ne hid] at h
      exact .inl h

end Client

namespace Listing

variable {w w' : Listing}

/-- The actions by which saved transfers are picked up again, and what their tasks do. -/
def Resumes : ClientAction → Prop
  | .resumeSeed _ _ _ | .resumeDownload _ _ _ => True
  | .task _ (.setAllowed _ _) => False
  | .task _ _ => True
  | _ => False

/-- Whatever is saved, and whatever is being picked up, is covered. -/
structure Resumed (w : Listing) : Prop where
  covered : ∀ id, w.client.tables.Lists id ∨ (∃ task ∈ w.client.tasks, task.id = id) →
    w.given.Cover id (w.client.tables.access.lookup id)
  kinds : ∀ task ∈ w.client.tasks, task.kind ≠ .seed ∧ task.stage.forgets = false
  allow : ∀ task ∈ w.client.tasks, task.stage ≠ .loadingAllowed → w.given.Cover task.id task.allow
  registry : ∀ id k, w.client.registry.lookup id = some k → ∃ task, w.client.tasks[k]? = some task ∧
    task.id = id ∧ task.stage ≠ .loadingAllowed

@[simp] lemma note_resumes {a : ClientAction} (ha : Resumes a) (h : w.Resumed) :
    w.note a = w.given := by
  cases a with
  | task k action =>
    rw [note]
    cases htask : w.client.tasks[k]? with
    | none => rfl
    | some task =>
      have hkind := (h.kinds task (List.mem_of_getElem? htask)).1
      cases action with
      | next fails =>
        cases fails with
        | true => rfl
        | false => exact if_neg fun hs => hkind hs.2
      | setAllowed peers fails => cases ha
      | _ => rfl
  | resumeSeed | resumeDownload => rfl
  | _ => cases ha

/-- A restart leaves what is saved covered. -/
lemma Inv.resumed (h : w.Inv) (hstep : SafeStep w .restart w') : w'.Resumed := by
  have hinv := h.step hstep
  obtain ⟨c', hc, rfl⟩ := Option.map_eq_some_iff.1 hstep.1
  cases hc
  refine ⟨fun id hid => ?_, fun task ht => (by cases ht), fun task ht => (by cases ht),
    fun id k hk => (by cases hk)⟩
  rcases hid with hlists | ⟨task, ht, -⟩
  · rcases hinv.covered id with hcovered | ⟨task, ht, -⟩
    · exact hcovered hlists
    · cases ht
  · cases ht

/-- A task is started for a share that is saved. -/
lemma Resumed.spawn (h : w.Resumed) {task : Task} (hlists : w.client.tables.Lists task.id)
    (hkind : task.kind ≠ .seed ∧ task.stage.forgets = false)
    (hallow : task.stage ≠ .loadingAllowed → w.given.Cover task.id task.allow) :
    Resumed ⟨w.client.spawn task, w.given⟩ := by
  have hmem : ∀ t, t ∈ w.client.tasks ++ [task] → t ∈ w.client.tasks ∨ t = task := fun t ht =>
    (List.mem_append.1 ht).imp_right List.mem_singleton.1
  refine ⟨fun id hid => h.covered id ?_, fun t ht => ?_, fun t ht => ?_, fun id k hk => ?_⟩
  · rcases hid with hid | ⟨t, ht, rfl⟩
    · exact .inl hid
    · rcases hmem t ht with ht | rfl
      · exact .inr ⟨t, ht, rfl⟩
      · exact .inl hlists
  · rcases hmem t ht with ht | rfl
    · exact h.kinds t ht
    · exact hkind
  · rcases hmem t ht with ht | rfl
    · exact h.allow t ht
    · exact hallow
  · obtain ⟨t, ht, hrest⟩ := h.registry id k hk
    refine ⟨t, ?_, hrest⟩
    change (w.client.tasks ++ [task])[k]? = some t
    rw [List.getElem?_append_left (List.getElem?_eq_some_iff.1 ht).1, ht]

/-- A task that picks up a share leaves the saved lists, or saves its own. -/
lemma Task.tx_resumes {task : Task} {action : TaskAction} {tx : Tx} (h : task.tx action = some tx)
    (hset : ∀ peers fails, action ≠ .setAllowed peers fails)
    (hforgets : task.stage.forgets = false) :
    tx.id = task.id ∧ ((∀ t : Tables, (t.commit tx).access = t.access) ∨
      tx = .putAllowed task.id task.allow ∧ task.stage ≠ .loadingAllowed) := by
  cases action with
  | next fails =>
    cases fails with
    | true => cases h
    | false =>
      simp only [Task.tx, Bool.false_eq_true, if_false, Task.nextTx] at h
      cases hstage : task.stage <;> simp only [hstage, reduceCtorEq] at h
      case forgetting | forgettingDownloads => simp [hstage, TaskStage.forgets] at hforgets
      case savingAllowed | savingDownloadAllowed =>
        cases h
        exact ⟨rfl, .inr ⟨rfl, by simp⟩⟩
      all_goals
        cases h
        exact ⟨rfl, .inl fun _ => rfl⟩
  | saveProgress outboards fails =>
    cases fails with
    | true => cases h
    | false =>
      cases h
      exact ⟨rfl, .inl fun _ => rfl⟩
  | setAllowed peers fails => exact absurd rfl (hset peers fails)
  | _ => cases h

lemma Task.access_tx {t : Tables} {task : Task} {action : TaskAction}
    (hset : ∀ peers fails, action ≠ .setAllowed peers fails) (hforgets : task.stage.forgets = false)
    (id : ShareId) :
    (((task.tx action).elim t t.commit).access.lookup id = t.access.lookup id ∨
      id = task.id ∧ task.stage ≠ .loadingAllowed ∧
        ((task.tx action).elim t t.commit).access.lookup id = task.allow) ∧
    (((task.tx action).elim t t.commit).Lists id → t.Lists id ∨ id = task.id) := by
  cases htx : task.tx action with
  | none => exact ⟨.inl rfl, .inl⟩
  | some tx =>
    obtain ⟨hid, haccess⟩ := Task.tx_resumes htx hset hforgets
    refine ⟨?_, fun hlists => ?_⟩
    · rcases haccess with haccess | ⟨rfl, hstage⟩
      · exact .inl (congrArg (AList.lookup id) (haccess t))
      · by_cases heq : id = task.id
        · subst heq
          exact .inr ⟨rfl, hstage, Tables.lookup_putAllowed _ _ _⟩
        · exact .inl (Tables.shrinks_commit heq).access
    · by_cases heq : id = task.id
      · exact .inr heq
      · exact .inl ((Tables.shrinks_commit (hid ▸ heq)).lists hlists)

lemma Resumed.act (h : w.Resumed) {k : ℕ} {task : Task} {action : TaskAction} {c' : Client}
    (htask : w.client.tasks[k]? = some task) (hact : w.client.act k task action = some c')
    (hset : ∀ peers fails, action ≠ .setAllowed peers fails)
    (hload : task.stage = .loadingAllowed → action = .next true → w.given.Cover task.id none) :
    Resumed ⟨c', w.given⟩ := by
  have hmem := List.mem_of_getElem? htask
  obtain ⟨hkind, hforgets⟩ := h.kinds task hmem
  obtain ⟨task', htasks, hid, hkind', hforgets', hallow, hregistry⟩ :=
    Client.moves_act htask hact hset hforgets
  have htables := Client.tables_act hact
  have hk := (List.getElem?_eq_some_iff.1 htask).1
  have hmem' : ∀ t ∈ c'.tasks, t ∈ w.client.tasks ∨ t = task' := fun t ht =>
    List.mem_or_eq_of_mem_set (htasks ▸ ht)
  have hlist : w.given.Cover task.id (w.client.tables.access.lookup task.id) :=
    h.covered task.id (.inr ⟨task, hmem, rfl⟩)
  refine ⟨fun id hlists => ?_, fun t ht => ?_, fun t ht hstage => ?_, fun id j hj => ?_⟩
  · obtain ⟨haccess, hold⟩ := Task.access_tx (t := w.client.tables) hset hforgets id
    dsimp only at hlists ⊢
    rw [htables] at hlists ⊢
    rcases haccess with haccess | ⟨rfl, hstage, haccess⟩
    · rw [haccess]
      refine h.covered id ?_
      rcases hlists with hlists | ⟨t, ht, rfl⟩
      · exact (hold hlists).imp_right fun heq => ⟨task, hmem, heq.symm⟩
      · rcases hmem' t ht with ht | rfl
        · exact .inr ⟨t, ht, rfl⟩
        · exact .inr ⟨task, hmem, hid.symm⟩
    · rw [haccess]
      exact h.allow task hmem hstage
  · rcases hmem' t ht with ht | rfl
    · exact h.kinds t ht
    · exact ⟨hkind' ▸ hkind, hforgets'⟩
  · rcases hmem' t ht with ht | rfl
    · exact h.allow t ht hstage
    · rw [hid]
      -- the task either keeps its list, or has just loaded one
      rcases hallow with ⟨hallow, hiff⟩ | ⟨hstage', -, fails, rfl, hallow⟩
      · rw [hallow]
        exact h.allow task hmem fun hs => hstage (hiff.2 hs)
      · rw [hallow]
        cases fails with
        | true => exact hload hstage' rfl
        | false => exact hlist
  · change ∃ t, c'.tasks[j]? = some t ∧ _
    rw [htasks]
    rcases hregistry id j hj with hj | ⟨rfl, rfl, hstage⟩
    · obtain ⟨t, ht, htid, htstage⟩ := h.registry id j hj
      by_cases hjk : k = j
      · subst hjk
        cases htask.symm.trans ht
        refine ⟨task', List.getElem?_set_self hk, hid.trans htid, ?_⟩
        rcases hallow with ⟨-, hiff⟩ | ⟨-, hne, -⟩
        · exact fun hs => htstage (hiff.1 hs)
        · exact hne
      · exact ⟨t, by rw [List.getElem?_set_ne hjk, ht], htid, htstage⟩
    · exact ⟨task', List.getElem?_set_self hk, hid, hstage⟩

lemma Resumed.step {a : ClientAction} (h : w.Resumed) (ha : Resumes a) (hstep : SafeStep w a w') :
    w'.Resumed := by
  obtain ⟨hmap, hsafe⟩ := hstep
  obtain ⟨c', hstep, rfl⟩ := Option.map_eq_some_iff.1 hmap
  rw [note_resumes ha h]
  cases a with
  | resumeSeed id record kinds =>
    simp only [Client.step] at hstep
    split_ifs at hstep with hmem
    cases hstep
    exact h.spawn (.inl hmem) ⟨by simp [Task.resumeSeed, Task.new], rfl⟩ fun hne => absurd rfl hne
  | resumeDownload id destDir fails =>
    obtain ⟨record, hrecord, heq⟩ := Option.bind_eq_some_iff.1 hstep
    cases heq
    have hlists : w.client.tables.Lists id :=
      .inr ⟨destDir, AList.lookup_isSome.1 (by rw [hrecord]; rfl)⟩
    refine h.spawn hlists ⟨by simp [Task.startDownload, Task.new], rfl⟩ fun _ => ?_
    cases fails with
    | true => exact hsafe rfl
    | false => exact h.covered id (.inl hlists)
  | task k action =>
    obtain ⟨task, htask, hact⟩ := Option.bind_eq_some_iff.1 hstep
    refine h.act htask hact (by rintro peers fails rfl; exact ha) fun hstage heq => ?_
    have hnext := hsafe task htask
    rw [heq] at hnext
    simp only [Task.SafeNext, hstage] at hnext
    exact hnext trivial
  | _ => cases ha

/-- In a safe run, whoever is served after a restart is let in by the last list that was given. -/
theorem resumed_never_wider {reseed encrypted : Bool} {actions resumes : List ClientAction}
    {w₁ : Listing} (hrun : Run SafeStep (new reseed encrypted) actions w)
    (hrestart : SafeStep w .restart w₁)
    (hresumes : Run (fun w a w' => SafeStep w a w' ∧ Resumes a) w₁ resumes w') {id : ShareId}
    {k : ℕ} {task : Task} (hserved : w'.client.registry.lookup id = some k)
    (htask : w'.client.tasks[k]? = some task) : w'.given.Cover id task.allow := by
  have hinv : w.Inv := hrun.invariant (fun _ _ _ h hstep => h.step hstep) (new_inv reseed encrypted)
  have hresumed : w'.Resumed := hresumes.invariant (fun _ _ _ h hstep => h.step hstep.2 hstep.1)
    (hinv.resumed hrestart)
  obtain ⟨task', htask', rfl, hstage⟩ := hresumed.registry id k hserved
  cases htask.symm.trans htask'
  exact hresumed.allow task (List.mem_of_getElem? htask) hstage

def restricted : ShareId := List.Vector.replicate 32 6

def friend : EndpointId := List.Vector.replicate 32 1

def stranger : EndpointId := List.Vector.replicate 32 2

/-- A share is seeded for one peer. -/
def seeding : List ClientAction :=
  .seed restricted ⟨"chr3", none, [], [], []⟩ [true] (some [friend]) ::
    List.replicate 4 (.task 0 (.next false))

def resuming : List ClientAction :=
  .resumeSeed restricted ⟨"chr3", none, [], [], []⟩ [true] ::
    List.replicate 2 (.task 0 (.next false))

theorem resumed_never_wider_friend : ∃ w w₁ w' task, Run SafeStep (new true false) seeding w ∧
    SafeStep w .restart w₁ ∧ Run (fun w a w' => SafeStep w a w' ∧ Resumes a) w₁ resuming w' ∧
    w'.client.registry.lookup restricted = some 0 ∧ w'.client.tasks[0]? = some task ∧
    task.allow = some [friend] ∧ w'.given.Cover restricted task.allow := by
  have hsteps : ∀ {w : Listing} {k : ℕ} {task : Task}, w.client.tasks[k]? = some task →
      task.SafeNext w.client w.given false → w.Safe (.task k (.next false)) := by
    intro w k task htask hsafe task' htask'
    cases htask.symm.trans htask'
    exact hsafe
  have hruns : ∃ w w₁ w' task, Run SafeStep (new true false) seeding w ∧ SafeStep w .restart w₁ ∧
      Run (fun w a w' => SafeStep w a w' ∧ Resumes a) w₁ resuming w' ∧
      w'.client.registry.lookup restricted = some 0 ∧ w'.client.tasks[0]? = some task ∧
      task.allow = some [friend] := by
    refine ⟨_, _, _, _, .cons ⟨rfl, trivial⟩ (.cons ⟨rfl, hsteps rfl trivial⟩
      (.cons ⟨rfl, hsteps rfl ?_⟩
        (.cons ⟨rfl, hsteps rfl ?_⟩ (.cons ⟨rfl, hsteps rfl ?_⟩ (.nil _))))),
      ⟨rfl, ?_⟩, .cons ⟨⟨rfl, trivial⟩, trivial⟩ (.cons ⟨⟨rfl, hsteps rfl ?_⟩, trivial⟩
      (.cons ⟨⟨rfl, hsteps rfl ?_⟩, trivial⟩ (.nil _))), rfl, rfl, rfl⟩
    · intro h
      cases h
    · intro h
      cases h
    · exact ⟨.refl _, fun h => absurd rfl h⟩
    · intro task ht
      cases List.mem_singleton.1 ht
      trivial
    · intro h
      cases h
    · intro h
      cases h
  obtain ⟨w, w₁, w', task, hrun, hrestart, hresumes, hserved, htask, hallow⟩ := hruns
  exact ⟨w, w₁, w', task, hrun, hrestart, hresumes, hserved, htask, hallow,
    resumed_never_wider hrun hrestart hresumes hserved htask⟩

/-- Seeding again without a list fails, as the share is being served, but has saved that it is
for anyone. -/
theorem failed_seed_widens : ∃ w' task, Run (fun w a w' => w.step a = some w') (new true false)
    (seeding ++ [.seed restricted ⟨"chr3", none, [], [], []⟩ [true] none,
      .task 1 (.next false), .task 1 (.next false), .restart] ++ resuming) w' ∧
    w'.client.registry.lookup restricted = some 0 ∧ w'.client.tasks[0]? = some task ∧
    w'.given restricted = some (some [friend]) ∧ Admits task.allow stranger ∧
    ¬ w'.given.Cover restricted task.allow := by
  have hexec : (Run.exec step (new true false)
      (seeding ++ [.seed restricted ⟨"chr3", none, [], [], []⟩ [true] none,
        .task 1 (.next false), .task 1 (.next false), .restart] ++ resuming)).map (fun w =>
      (w.client.registry.lookup restricted, w.client.tasks.map Task.allow, w.given restricted)) =
      some (some 0, [none], some (some [friend])) := rfl
  obtain ⟨w, hexec, hw⟩ := Option.map_eq_some_iff.1 hexec
  simp only [Prod.mk.injEq] at hw
  obtain ⟨hserved, hallows, hgiven⟩ := hw
  obtain ⟨task, htasks, hallow⟩ := List.map_eq_singleton_iff.1 hallows
  refine ⟨w, task, Run.of_exec hexec, hserved, by rw [htasks]; rfl, hgiven, ?_, fun hcover => ?_⟩
  · rw [hallow]
    intro peers h
    cases h
  · rw [hallow] at hcover
    have hmem := hcover _ hgiven stranger (fun peers h => by cases h) _ rfl
    exact absurd hmem (by decide)

end Listing

end Chorrent
