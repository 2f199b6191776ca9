/-
# What an operation leaves alone

A record that no operation touches stays what it is, over any use of the data dir: other
operations that succeed or fail, closing it and opening it again.
-/
import Chorrent.Store.View

namespace Chorrent

open Lib

variable {StorageKey Key NameKey Code : Type} {S : Sealing StorageKey Key NameKey}
  {F : Formats Code} {sealer : Option (Sealer Key NameKey)} {db db' : Database Key NameKey}
  {dir dir' : DataDir Key NameKey} {table : Table} {name : String}

/-- The names whose values an operation may change. -/
def Op.Touches (F : Formats Code) (table : Table) (name : String) : Op Code → Prop
  | .nodeKey _ => table = .meta ∧ name = nodeKeyName
  | .rememberSeed id _ _ => table ∈ [Table.kinds, .seeds] ∧ name = id.text
  | .rememberAllowed id _ => table = .access ∧ name = id.text
  | .forget id =>
      (table ∈ [Table.seeds, .access, .kinds] ∧ name = id.text) ∨
        (table ∈ [Table.downloads, .progress] ∧ startsWith name (downloadStart id) = true)
  | .rememberDownload code destDir =>
      table = .downloads ∧ name = downloadKey (F.codeId code) destDir
  | .saveProgress id destDir _ => table = .progress ∧ name = downloadKey id destDir
  | .markComplete id destDir =>
      table ∈ [Table.downloads, .progress] ∧ name = downloadKey id destDir
  | .seedRoot _ | .loadAllowed _ | .loadProgress _ _ | .saved => False

lemma Op.touches_of_mem_puts {op : Op Code} {value : Bytes}
    (h : (table, name, value) ∈ op.puts F) : op.Touches F table name := by
  cases op with
  | rememberSeed id record kinds =>
    rcases List.mem_cons.1 h with h | h
    · cases h
      exact ⟨List.mem_cons_self, rfl⟩
    · cases List.mem_singleton.1 h
      exact ⟨List.mem_cons_of_mem _ List.mem_cons_self, rfl⟩
  | rememberAllowed id peers =>
    cases peers with
    | none => cases h
    | some peers =>
      cases List.mem_singleton.1 h
      exact ⟨rfl, rfl⟩
  | nodeKey | rememberDownload | saveProgress =>
    cases List.mem_singleton.1 h
    exact ⟨rfl, rfl⟩
  | forget | markComplete | seedRoot | loadAllowed | loadProgress | saved => cases h

lemma Op.Removes.touches {op : Op Code} {tables : List Table} (h : op.Removes tables name)
    (htable : table ∈ tables) : op.Touches F table name := by
  cases h with
  | rememberAllowed id => exact ⟨List.mem_singleton.1 htable, rfl⟩
  | forget id => exact Or.inl ⟨htable, rfl⟩
  | forgetDownload id hstart => exact Or.inr ⟨htable, hstart⟩
  | markComplete id destDir => exact ⟨htable, rfl⟩

/-- After an operation the database shows a map that differs in the names it touches only. -/
lemma Op.exists_shows {V : View} (h : Shows S sealer db V) (op : Op Code) (env : ℕ → TxEnv) :
    ∃ V', Shows S sealer (op.apply S F sealer env db).1 V' ∧
      ∀ table name, ¬ op.Touches F table name → V' table name = V table name := by
  have hrespects : Respects S F sealer op fun db db' => ∀ V, Shows S sealer db V →
      ∃ V', Shows S sealer db' V' ∧
        ∀ table name, ¬ op.Touches F table name → V' table name = V table name := by
    refine ⟨fun db V h => ⟨V, h, fun _ _ _ => rfl⟩, fun h h' V hV => ?_,
      fun env db table name value hputs V hV => ?_, fun env db tables name hremoves V hV => ?_⟩
    · obtain ⟨V₁, hV₁, hsame₁⟩ := h V hV
      obtain ⟨V₂, hV₂, hsame₂⟩ := h' V₁ hV₁
      exact ⟨V₂, hV₂, fun table name hnot =>
        (hsame₂ table name hnot).trans (hsame₁ table name hnot)⟩
    · refine ⟨_, hV.put env (eq_nodeKeyName_of_mem_puts hputs) value, fun table' name' hnot => ?_⟩
      split_ifs
      · rfl
      · refine if_neg ?_
        rintro ⟨rfl, rfl⟩
        exact hnot (touches_of_mem_puts hputs)
    · refine ⟨_, hV.remove env tables name, fun table' name' hnot => ?_⟩
      split_ifs
      · rfl
      · refine if_neg ?_
        rintro ⟨htable, rfl⟩
        exact hnot (hremoves.touches htable)
  exact Op.respects hrespects env V h

/-! ## A saved record -/

/-- The sealer of a store that opens a database with these markers. -/
def OpensWith (S : Sealing StorageKey Key NameKey) (db : Database Key NameKey)
    (sealer : Option (Sealer Key NameKey)) : Prop :=
  (db.fingerprint = none ∧ db.format = none ∧ sealer = none) ∨
    ∃ key, db.fingerprint = some (S.fingerprint key) ∧ db.format = some sealedV1 ∧
      sealer = some (.new S key)

/-- A value is saved under a name: the stores that open the data dir see it. -/
def Saved (S : Sealing StorageKey Key NameKey) (dir : DataDir Key NameKey) (table : Table)
    (name : String) (value : Bytes) : Prop :=
  ∃ sealer V, Shows S sealer dir.db V ∧ V table name = some value ∧ OpensWith S dir.db sealer ∧
    (dir.session = none ∨ dir.session = some sealer)

variable {value : Bytes}

lemma Shows.hasRecords {V : View} (h : Shows S sealer db V) (htable : table ≠ .meta)
    (hvalue : V table name = some value) : db.HasRecords := by
  have hrel := h.lookup table name (isName_of_ne htable)
  rw [hvalue] at hrel
  generalize hlookup :
      (db.tables table).lookup (Store.storedName S sealer table name) = found at hrel
  cases hrel with
  | some => exact ⟨table, _, _, hlookup, fun hmarker => htable hmarker.1⟩

/-- An attempt to open the data dir leaves the database alone. -/
lemma Saved.opened {failed : Prop} {storageKey : Option StorageKey}
    {r : Result (Option (Sealer Key NameKey))} (htable : table ≠ .meta)
    (h : Saved S ⟨db, none⟩ table name value) (hopen : Opened S failed db storageKey db' r) :
    Saved S ⟨db', r.toOption⟩ table name value := by
  obtain ⟨sealer, V, hshows, hvalue, hwith, -⟩ := h
  cases hopen with
  | failed | refused => exact ⟨sealer, V, hshows, hvalue, hwith, Or.inl rfl⟩
  | plain _ hfingerprint =>
    rcases hwith with ⟨hnone, hformat, rfl⟩ | ⟨key, hsome, -⟩
    · exact ⟨none, V, hshows, hvalue, Or.inl ⟨hnone, hformat, rfl⟩, Or.inr rfl⟩
    · cases hfingerprint.symm.trans hsome
  | again key hformat hfingerprint =>
    rcases hwith with ⟨-, hnone, -⟩ | ⟨key', hsome, hsealed, rfl⟩
    · cases hformat.symm.trans hnone
    · have hkey : key = key' := by
        rcases hfingerprint with hnone | hsame
        · cases hnone.symm.trans hsome
        · exact S.fingerprint_injective (Option.some.inj (hsame.symm.trans hsome))
      subst hkey
      exact ⟨_, V, hshows, hvalue, Or.inr ⟨key, hsome, hsealed, rfl⟩, Or.inr rfl⟩
  | half _ _ _ hrecords | set _ _ hrecords =>
      exact absurd (hshows.hasRecords htable hvalue) hrecords

lemma Saved.step {event : DirEvent StorageKey Code} (htable : table ≠ .meta)
    (hnot : ∀ op env, event = .call op env → ¬ op.Touches F table name)
    (h : Saved S dir table name value) (hstep : DirStep S F dir event dir') :
    Saved S dir' table name value := by
  obtain ⟨db, session⟩ := dir
  cases hstep with
  | «open» storageKey env =>
    rw [DataDir.open]
    cases session with
    | some sealer => exact h
    | none =>
      have hopen := h.opened htable (Store.open_opened S db env storageKey)
      obtain ⟨⟨db', r⟩, hres⟩ : ∃ opened, Store.open S env db storageKey = opened := ⟨_, rfl⟩
      rw [hres] at hopen
      simp only [hres]
      cases r <;> exact hopen
  | @call op env sealer hsession =>
    obtain ⟨sealer', V, hshows, hvalue, hwith, hopened⟩ := h
    obtain rfl : session = some sealer := hsession
    obtain rfl : sealer = sealer' := Option.some.inj (hopened.resolve_left (by simp))
    obtain ⟨V', hshows', hsame⟩ := op.exists_shows (F := F) hshows env
    have hmarker := (Op.accesses S F sealer db op env).keepsUniform.marker
    refine ⟨sealer, V', hshows', (hsame table name (hnot op env rfl)).trans hvalue, ?_, Or.inr rfl⟩
    have hformat := hmarker formatName isMarker_format
    have hfingerprint := hmarker fingerprintName isMarker_fingerprint
    rcases hwith with hplain | hsealed
    · obtain ⟨hf, hm, hs⟩ := hplain
      exact Or.inl ⟨hfingerprint.trans hf, hformat.trans hm, hs⟩
    · obtain ⟨key, hf, hm, hs⟩ := hsealed
      exact Or.inr ⟨key, hfingerprint.trans hf, hformat.trans hm, hs⟩
  | close =>
    obtain ⟨sealer, V, hshows, hvalue, hwith, -⟩ := h
    exact ⟨sealer, V, hshows, hvalue, hwith, Or.inl rfl⟩

/-- A record that no operation touches is read as it was saved, also after a restart. -/
lemma Saved.run {events : List (DirEvent StorageKey Code)} (htable : table ≠ .meta)
    (hnot : ∀ op env, .call op env ∈ events → ¬ op.Touches F table name)
    (h : Saved S dir table name value) (hrun : Run (DirStep S F) dir events dir') :
    Saved S dir' table name value := by
  induction hrun with
  | nil => exact h
  | cons hstep _ ih =>
    refine ih (fun op env hcall => hnot op env (List.mem_cons_of_mem _ hcall)) ?_
    exact h.step htable (fun op env heq => hnot op env (heq ▸ List.mem_cons_self)) hstep

lemma Saved.get {env : TxEnv} (htable : table ≠ .meta) (h : Saved S dir table name value)
    (hsession : dir.session = some sealer) (henv : env.fails = false) :
    Store.get S sealer env dir.db table name = .ok (some value) := by
  obtain ⟨sealer', V, hshows, hvalue, -, hopened⟩ := h
  rw [hsession] at hopened
  obtain rfl : sealer = sealer' := Option.some.inj (hopened.resolve_left (by simp))
  rw [hshows.get env (isName_of_ne htable), henv, hvalue]
  rfl

/-- What a store of a used data dir puts is saved. -/
lemma saved_put {events : List (DirEvent StorageKey Code)} {env : TxEnv} (htable : table ≠ .meta)
    (hrun : Run (DirStep S F) .fresh events dir) (hsession : dir.session = some sealer)
    (henv : env.fails = false) :
    Saved S ⟨(Store.put S sealer env dir.db table name value).1, some sealer⟩ table name value := by
  have hmarker := (Accesses.put S sealer dir.db env table name value
    (isName_of_ne htable)).keepsUniform.marker
  have hformat := hmarker formatName isMarker_format
  have hfingerprint := hmarker fingerprintName isMarker_fingerprint
  have hinv := sealedOrPlain_of_run hrun
  have hputs : ∀ V, Shows S sealer dir.db V →
      Shows S sealer (Store.put S sealer env dir.db table name value).1
        (V.set table name value) := by
    intro V hshows
    have hput := hshows.put env (isName_of_ne htable : IsName table name) value
    rwa [henv] at hput
  cases hinv with
  | plain hf hp hrecords hs =>
    obtain rfl : sealer = none :=
      Option.some.inj (hsession.symm.trans (hs.resolve_left (by simp [hsession])))
    obtain ⟨V, hshows⟩ := hrecords.exists_shows
    exact ⟨none, _, hputs V hshows, if_pos ⟨rfl, rfl⟩,
      Or.inl ⟨hfingerprint.trans hp, hformat.trans hf, rfl⟩, Or.inr rfl⟩
  | sealed key hp hrecords hf hs =>
    obtain rfl : sealer = some (.new S key) :=
      Option.some.inj (hsession.symm.trans (hs.resolve_left (by simp [hsession])))
    have hf := hf.resolve_left fun hclosed => by simp [hsession] at hclosed
    obtain ⟨V, hshows⟩ := hrecords.exists_shows
    exact ⟨_, _, hputs V hshows, if_pos ⟨rfl, rfl⟩,
      Or.inr ⟨key, hfingerprint.trans hp, hformat.trans hf, rfl⟩, Or.inr rfl⟩

end Chorrent
