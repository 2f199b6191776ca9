/-
# Accesses to the database

Every operation on an open store is a sequence of puts and removals, so what these keep to,
all operations keep to.  What is stored is what was put: each record of a database is in the
place, and has the bytes, of some put.
-/
import Mathlib.Logic.Relation
import Chorrent.Store.Records

namespace Chorrent

open Lib

variable {StorageKey Key NameKey Code : Type} {S : Sealing StorageKey Key NameKey}
  {F : Formats Code} {sealer : Option (Sealer Key NameKey)} {db db' : Database Key NameKey}

/-! ## One put, one removal -/

namespace Put

variable (S) (p : Put Key NameKey)

/-- Where the record goes. -/
def storedName : String := Store.storedName S p.sealer p.table p.name

/-- What is stored there. -/
def bytes : Bytes :=
  match p.sealer with
  | none => p.value
  | some sealer => sealer.seal S p.nonce p.table (p.storedName S) p.name p.value

end Put

/-- The database after a call of `put`. -/
def Database.record (S : Sealing StorageKey Key NameKey) (db : Database Key NameKey) (fails : Bool)
    (p : Put Key NameKey) : Database Key NameKey where
  tables :=
    if fails then db.tables
    else
      Function.update db.tables p.table
        ((db.tables p.table).insert (p.storedName S) (p.bytes S))
  puts := p :: db.puts

lemma Store.put_eq (env : TxEnv) (table : Table) (name : String) (value : Bytes) :
    Store.put S sealer env db table name value =
      (db.record S env.fails ⟨sealer, env.nonce, table, name, value⟩,
        if env.fails then .error (storageErr .database) else .ok ()) := by
  cases sealer <;> cases hfails : env.fails <;>
    simp [Store.put, Database.rawPut, Database.record, Put.storedName, Put.bytes, hfails]

lemma Store.remove_eq (env : TxEnv) (tables : List Table) (name : String) :
    Store.remove S sealer env db tables name =
      if env.fails then (db, .error (storageErr .database))
      else
        ({ db with
            tables := fun table =>
              if table ∈ tables then (db.tables table).erase (Store.storedName S sealer table name)
              else db.tables table }, .ok ()) := rfl

/-- A record after a put is the one put or one that was there. -/
lemma Database.lookup_record {fails : Bool} {p : Put Key NameKey} {table : Table} {stored : String}
    {bytes : Bytes} (h : ((db.record S fails p).tables table).lookup stored = some bytes) :
    (p.table = table ∧ p.storedName S = stored ∧ p.bytes S = bytes) ∨
      (db.tables table).lookup stored = some bytes := by
  cases fails with
  | true => exact Or.inr h
  | false =>
    by_cases htable : table = p.table
    · subst htable
      simp only [record, Bool.false_eq_true, if_false, Function.update_self] at h
      by_cases hstored : stored = p.storedName S
      · subst hstored
        rw [AList.lookup_insert] at h
        exact Or.inl ⟨rfl, rfl, Option.some.inj h⟩
      · rw [AList.lookup_insert_ne hstored] at h
        exact Or.inr h
    · simp only [record, Bool.false_eq_true, if_false, Function.update_of_ne htable] at h
      exact Or.inr h

/-! ## What every operation preserves -/

/-- The values an operation puts, each under its table and name. -/
def Op.puts (F : Formats Code) : Op Code → List (Table × String × Bytes)
  | .nodeKey generated => [(.meta, nodeKeyName, generated.toList)]
  | .rememberSeed id record kinds =>
      [(.kinds, id.text, F.kinds.encode kinds), (.seeds, id.text, F.seed.encode record)]
  | .rememberAllowed id (some peers) => [(.access, id.text, F.allowed.encode peers)]
  | .rememberDownload code destDir =>
      [(.downloads, downloadKey (F.codeId code) destDir,
        F.download.encode ⟨F.codeText code, destDir⟩)]
  | .saveProgress id destDir outboards =>
      [(.progress, downloadKey id destDir, F.outboards.encode outboards)]
  | _ => []

/-- In the table `meta` an operation puts only the node's key. -/
lemma Op.eq_nodeKeyName_of_mem_puts {op : Op Code} {table : Table} {name : String} {value : Bytes}
    (h : (table, name, value) ∈ op.puts F) (hmeta : table = .meta) : name = nodeKeyName := by
  subst hmeta
  cases op with
  | nodeKey generated =>
    cases List.mem_singleton.1 h
    rfl
  | rememberAllowed id peers => cases peers <;> simp [puts] at h
  | _ => simp [puts] at h

/-- The removals an operation may make: from which tables, and under which name. -/
inductive Op.Removes : Op Code → List Table → String → Prop
  | rememberAllowed (id : ShareId) : Removes (.rememberAllowed id none) [.access] id.text
  | forget (id : ShareId) : Removes (.forget id) [.seeds, .access, .kinds] id.text
  | forgetDownload (id : ShareId) {key : String} (h : startsWith key (downloadStart id) = true) :
      Removes (.forget id) [.downloads, .progress] key
  | markComplete (id : ShareId) (destDir : String) :
      Removes (.markComplete id destDir) [.downloads, .progress] (downloadKey id destDir)

/-- From the table `meta` an operation removes nothing. -/
lemma Op.Removes.meta_notMem {op : Op Code} {tables : List Table} {name : String}
    (h : op.Removes tables name) : .meta ∉ tables := by
  cases h <;> decide

/-- A preorder of databases that the puts and the removals of an operation keep to. -/
structure Respects (S : Sealing StorageKey Key NameKey) (F : Formats Code)
    (sealer : Option (Sealer Key NameKey)) (op : Op Code)
    (R : Database Key NameKey → Database Key NameKey → Prop) : Prop where
  refl : ∀ db, R db db
  trans : ∀ {db₁ db₂ db₃}, R db₁ db₂ → R db₂ db₃ → R db₁ db₃
  put : ∀ (env : TxEnv) db {table name value}, (table, name, value) ∈ op.puts F →
    R db (Store.put S sealer env db table name value).1
  remove : ∀ (env : TxEnv) db {tables name}, op.Removes tables name →
    R db (Store.remove S sealer env db tables name).1

section

variable {R : Database Key NameKey → Database Key NameKey → Prop}

lemma Respects.nodeKey {generated : List.Vector UInt8 32}
    (h : Respects S F sealer (.nodeKey generated) R) (env : ℕ → TxEnv) :
    R db (Store.nodeKey S sealer env db generated).1 := by
  have hput := h.put (env 1) db (List.mem_singleton_self _)
  rw [Store.nodeKey]
  split
  · exact h.refl db
  · split
    · exact h.refl db
    · split <;> rename_i hstep <;> rw [hstep] at hput <;> exact hput

lemma Respects.rememberSeed {id : ShareId} {record : SeedRecord} {kinds : List Bool}
    (h : Respects S F sealer (.rememberSeed id record kinds) R) (env : ℕ → TxEnv) :
    R db (Store.rememberSeed S F sealer env db id record kinds).1 := by
  have hkinds := h.put (env 0) db List.mem_cons_self
  rw [Store.rememberSeed]
  split <;> rename_i hstep <;> rw [hstep] at hkinds
  · exact hkinds
  · exact h.trans hkinds (h.put (env 1) _ (List.mem_cons_of_mem _ (List.mem_singleton_self _)))

lemma Respects.forgetDownloads {id : ShareId} (h : Respects S F sealer (.forget id) R)
    (listed : List (String × Bytes)) : ∀ (env : ℕ → TxEnv) (db : Database Key NameKey),
      R db (Store.forgetDownloads S sealer id env db listed).1 := by
  induction listed with
  | nil => exact fun _ db => h.refl db
  | cons entry listed ih =>
    intro env db
    rw [Store.forgetDownloads]
    split
    · rename_i hstart
      have hremove := h.remove (env 0) db (.forgetDownload id hstart)
      split <;> rename_i hstep <;> rw [hstep] at hremove
      · exact hremove
      · exact h.trans hremove (ih _ _)
    · exact ih _ _

lemma Respects.forget {id : ShareId} (h : Respects S F sealer (.forget id) R) (env : ℕ → TxEnv) :
    R db (Store.forget S sealer env db id).1 := by
  have hremove := h.remove (env 0) db (.forget id)
  rw [Store.forget]
  split <;> rename_i hstep <;> rw [hstep] at hremove
  · exact hremove
  · split
    · exact hremove
    · exact h.trans hremove (h.forgetDownloads _ _ _)

/-- What its puts and removals keep to, an operation keeps to, also when it fails halfway. -/
lemma Op.respects {op : Op Code} (h : Respects S F sealer op R) (env : ℕ → TxEnv) :
    R db (op.apply S F sealer env db).1 := by
  cases op with
  | nodeKey generated => exact h.nodeKey env
  | rememberSeed id record kinds => exact h.rememberSeed env
  | rememberAllowed id peers =>
    cases peers with
    | none => exact h.remove (env 0) db (.rememberAllowed id)
    | some peers => exact h.put (env 0) db (List.mem_singleton_self _)
  | forget id => exact h.forget env
  | rememberDownload | saveProgress => exact h.put (env 0) db (List.mem_singleton_self _)
  | markComplete id destDir => exact h.remove (env 0) db (.markComplete id destDir)
  | seedRoot | loadAllowed | loadProgress | saved => exact h.refl db

end

/-! ## Sequences of accesses -/

/-- A put or a removal by an open store.  Of the table `meta` only the node's key is put, and
nothing is removed from it. -/
inductive Access (S : Sealing StorageKey Key NameKey) (sealer : Option (Sealer Key NameKey))
    (db : Database Key NameKey) : Database Key NameKey → Prop
  | put (env : TxEnv) (table : Table) (name : String) (value : Bytes)
      (h : table = .meta → name = nodeKeyName) :
      Access S sealer db (Store.put S sealer env db table name value).1
  | remove (env : TxEnv) (tables : List Table) (name : String) (h : .meta ∉ tables) :
      Access S sealer db (Store.remove S sealer env db tables name).1

/-- Any number of accesses. -/
abbrev Accesses (S : Sealing StorageKey Key NameKey) (sealer : Option (Sealer Key NameKey)) :
    Database Key NameKey → Database Key NameKey → Prop :=
  Relation.ReflTransGen (Access S sealer)

variable (S sealer db) in
lemma Accesses.put (env : TxEnv) (table : Table) (name : String) (value : Bytes)
    (h : table = .meta → name = nodeKeyName) :
    Accesses S sealer db (Store.put S sealer env db table name value).1 :=
  .single (.put env table name value h)

variable (S F sealer db) in
/-- Every operation is a sequence of accesses. -/
lemma Op.accesses (op : Op Code) (env : ℕ → TxEnv) :
    Accesses S sealer db (op.apply S F sealer env db).1 :=
  Op.respects
    { refl := fun _ => .refl
      trans := .trans
      put := fun env db _ _ _ h => .put S sealer db env _ _ _ (Op.eq_nodeKeyName_of_mem_puts h)
      remove := fun env _ _ _ h => .single (.remove env _ _ h.meta_notMem) } env

/-! ## What is stored -/

/-- The two markers, which are stored as they are. -/
def IsMarker (table : Table) (stored : String) : Prop :=
  table = .meta ∧ (stored = formatName ∨ stored = fingerprintName)

/-- Every record apart from the markers was put by a store with this sealer, or by one without
a key: it is where that put stored it, and has its bytes. -/
def Uniform (S : Sealing StorageKey Key NameKey) (sealer : Option (Sealer Key NameKey))
    (db : Database Key NameKey) : Prop :=
  ∀ (table : Table) (stored : String) (bytes : Bytes),
    (db.tables table).lookup stored = some bytes → ¬ IsMarker table stored →
    ∃ p ∈ db.puts, p.sealer = sealer ∧ p.table = table ∧ p.storedName S = stored ∧
      p.bytes S = bytes

variable (S sealer) in
/-- A name that is put is not stored where a marker is. -/
lemma storedName_ne_marker {table : Table} {name : String}
    (h : table = .meta → name = nodeKeyName) :
    ¬ IsMarker table (Store.storedName S sealer table name) := by
  rintro ⟨htable, hmarker⟩
  cases sealer with
  | none =>
    rw [Store.storedName, h htable] at hmarker
    revert hmarker
    decide
  | some sealer =>
    rcases hmarker with hmarker | hmarker
    · exact hex_ne_of_ofHex_eq_none (by decide) _ hmarker
    · exact hex_ne_of_ofHex_eq_none (by decide) _ hmarker

/-- An access leaves the markers alone and puts with its own sealer. -/
structure KeepsUniform (S : Sealing StorageKey Key NameKey) (sealer : Option (Sealer Key NameKey))
    (db db' : Database Key NameKey) : Prop where
  marker : ∀ stored, IsMarker .meta stored →
    (db'.tables .meta).lookup stored = (db.tables .meta).lookup stored
  uniform : Uniform S sealer db → Uniform S sealer db'

lemma Access.keepsUniform (h : Access S sealer db db') : KeepsUniform S sealer db db' := by
  cases h with
  | put env table name value h =>
    rw [Store.put_eq]
    refine ⟨fun stored hmarker => ?_, fun huniform table' stored bytes hlookup hmarker => ?_⟩
    · have hne := storedName_ne_marker S sealer h
      by_cases htable : table = .meta
      · subst htable
        have hstored : stored ≠ Store.storedName S sealer .meta name := by
          rintro rfl
          exact hne hmarker
        cases env.fails <;>
          simp [Database.record, Put.storedName, AList.lookup_insert_ne hstored]
      · cases env.fails <;>
          simp [Database.record, Function.update_of_ne (Ne.symm htable)]
    · rcases Database.lookup_record hlookup with ⟨htable, hstored, hbytes⟩ | hold
      · exact ⟨_, List.mem_cons_self, rfl, htable, hstored, hbytes⟩
      · obtain ⟨p, hp, hput⟩ := huniform table' stored bytes hold hmarker
        exact ⟨p, List.mem_cons_of_mem _ hp, hput⟩
  | remove env tables name h =>
    rw [Store.remove_eq]
    cases env.fails with
    | true => exact ⟨fun _ _ => rfl, id⟩
    | false =>
      refine ⟨fun stored _ => by simp [h], fun huniform table' stored bytes hlookup hmarker => ?_⟩
      refine huniform table' stored bytes ?_ hmarker
      simp only [Bool.false_eq_true, if_false] at hlookup
      split_ifs at hlookup
      · by_cases hstored : stored = Store.storedName S sealer table' name
        · subst hstored
          rw [AList.lookup_erase] at hlookup
          cases hlookup
        · rwa [AList.lookup_erase_ne hstored] at hlookup
      · exact hlookup

lemma Accesses.keepsUniform (h : Accesses S sealer db db') : KeepsUniform S sealer db db' := by
  induction h with
  | refl => exact ⟨fun _ _ => rfl, id⟩
  | tail _ hstep ih =>
    have hlast := hstep.keepsUniform
    exact ⟨fun stored hmarker => (hlast.marker stored hmarker).trans (ih.marker stored hmarker),
      fun huniform => hlast.uniform (ih.uniform huniform)⟩

end Chorrent
