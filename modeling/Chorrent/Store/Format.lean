/-
# Sealed or plain

A data dir over its whole life: it is opened with any keys or none, used and closed, and the
process may end between any two transactions.  Either it has no marker and all records are
plain, or it has the fingerprint of one key and all records are sealed under that key.
-/
import Chorrent.Lib.Run
import Chorrent.Store.Access
import Chorrent.Store.Reference

namespace Chorrent

open Lib

variable {StorageKey Key NameKey Code : Type} {S : Sealing StorageKey Key NameKey}
  {F : Formats Code} {sealer : Option (Sealer Key NameKey)} {db db' : Database Key NameKey}
  {storageKey : Option StorageKey}

/-! ## Markers and records -/

namespace Database

/-- The format marker. -/
def format (db : Database Key NameKey) : Option Bytes := (db.tables .meta).lookup formatName

/-- The marker that says which key the database was set up with. -/
def fingerprint (db : Database Key NameKey) : Option Bytes :=
  (db.tables .meta).lookup fingerprintName

/-- There is a record besides the markers. -/
def HasRecords (db : Database Key NameKey) : Prop :=
  ∃ table stored bytes, (db.tables table).lookup stored = some bytes ∧ ¬ IsMarker table stored

/-- The database with a marker written. -/
def mark (db : Database Key NameKey) (name : String) (value : Bytes) : Database Key NameKey :=
  { db with tables := Function.update db.tables .meta ((db.tables .meta).insert name value) }

@[simp] lemma format_mark_format (value : Bytes) :
    (db.mark formatName value).format = some value := by
  simp [format, mark]

@[simp] lemma fingerprint_mark_fingerprint (value : Bytes) :
    (db.mark fingerprintName value).fingerprint = some value := by
  simp [fingerprint, mark]

@[simp] lemma format_mark_fingerprint (value : Bytes) :
    (db.mark fingerprintName value).format = db.format := by
  simp [format, mark, formatName, fingerprintName]

@[simp] lemma fingerprint_mark_format (value : Bytes) :
    (db.mark formatName value).fingerprint = db.fingerprint := by
  simp [fingerprint, mark, formatName, fingerprintName]

/-- A marker is no record. -/
lemma lookup_mark {name stored : String} {value : Bytes} {table : Table}
    (hname : IsMarker .meta name) (hstored : ¬ IsMarker table stored) :
    ((db.mark name value).tables table).lookup stored = (db.tables table).lookup stored := by
  by_cases htable : table = .meta
  · subst htable
    have hne : stored ≠ name := by
      rintro rfl
      exact hstored hname
    simp [mark, AList.lookup_insert_ne hne]
  · simp [mark, Function.update_of_ne htable]

lemma hasRecords_mark {name : String} (value : Bytes) (hname : IsMarker .meta name) :
    (db.mark name value).HasRecords ↔ db.HasRecords := by
  constructor
  · rintro ⟨table, stored, bytes, hlookup, hmarker⟩
    exact ⟨table, stored, bytes, by rwa [lookup_mark hname hmarker] at hlookup, hmarker⟩
  · rintro ⟨table, stored, bytes, hlookup, hmarker⟩
    exact ⟨table, stored, bytes, by rwa [lookup_mark hname hmarker], hmarker⟩

end Database

lemma Uniform.of_not_hasRecords (h : ¬ db.HasRecords) : Uniform S sealer db :=
  fun table stored bytes hlookup hmarker => absurd ⟨table, stored, bytes, hlookup, hmarker⟩ h

lemma Records.mem_iter {records : Records} {stored : String} {bytes : Bytes} :
    (stored, bytes) ∈ records.iter ↔ records.lookup stored = some bytes := by
  rw [Records.iter, (List.perm_insertionSort _ _).mem_iff, List.mem_map]
  constructor
  · rintro ⟨⟨name, value⟩, hmem, heq⟩
    obtain ⟨rfl, rfl⟩ := Prod.mk.inj heq
    exact AList.mem_lookup_iff.2 hmem
  · exact fun h => ⟨⟨stored, bytes⟩, AList.mem_lookup_iff.1 h, rfl⟩

lemma Records.isEmpty_eq_false {records : Records} :
    records.entries.isEmpty = false ↔ ∃ stored bytes, records.lookup stored = some bytes := by
  rw [List.isEmpty_eq_false_iff_exists_mem]
  constructor
  · rintro ⟨⟨stored, bytes⟩, hmem⟩
    exact ⟨stored, bytes, AList.mem_lookup_iff.2 hmem⟩
  · rintro ⟨stored, bytes, hlookup⟩
    exact ⟨_, AList.mem_lookup_iff.1 hlookup⟩

lemma Table.mem_recordTables {table : Table} : table ∈ recordTables ↔ table ≠ .meta := by
  cases table <;> decide

/-- `has_records` looks at all tables, and passes over the markers. -/
lemma Database.hasRecords_eq_ok {env : TxEnv} {b : Bool} :
    db.hasRecords env = .ok b ↔ env.fails = false ∧ (b = true ↔ db.HasRecords) := by
  have htables : (recordTables.any fun table => !(db.tables table).entries.isEmpty) = true ↔
      ∃ table ≠ .meta, ∃ stored bytes, (db.tables table).lookup stored = some bytes := by
    simp only [List.any_eq_true, Table.mem_recordTables, Bool.not_eq_true',
      Records.isEmpty_eq_false]
  have hmeta : ((db.tables .meta).iter.any fun entry =>
      decide (entry.1 ≠ formatName) && decide (entry.1 ≠ fingerprintName)) = true ↔
      ∃ stored bytes, (db.tables .meta).lookup stored = some bytes ∧ ¬ IsMarker .meta stored := by
    simp only [List.any_eq_true, Prod.exists, Records.mem_iter, Bool.and_eq_true,
      decide_eq_true_eq, IsMarker, true_and, not_or]
  have hiff : db.HasRecords ↔
      (recordTables.any fun table => !(db.tables table).entries.isEmpty) = true ∨
      ((db.tables .meta).iter.any fun entry =>
        decide (entry.1 ≠ formatName) && decide (entry.1 ≠ fingerprintName)) = true := by
    rw [htables, hmeta]
    constructor
    · rintro ⟨table, stored, bytes, hlookup, hmarker⟩
      by_cases htable : table = .meta
      · subst htable
        exact Or.inr ⟨stored, bytes, hlookup, hmarker⟩
      · exact Or.inl ⟨table, htable, stored, bytes, hlookup⟩
    · rintro (⟨table, htable, stored, bytes, hlookup⟩ | ⟨stored, bytes, hlookup, hmarker⟩)
      · exact ⟨table, stored, bytes, hlookup, fun hmarker => htable hmarker.1⟩
      · exact ⟨.meta, stored, bytes, hlookup, hmarker⟩
  rw [hasRecords, hiff]
  generalize (recordTables.any fun table => !(db.tables table).entries.isEmpty) = inTables
  generalize ((db.tables .meta).iter.any _) = inMeta
  cases env.fails <;> cases inTables <;> cases inMeta <;> simp

/-! ## Opening -/

/-- Why a database is not opened with a key, or without one. -/
def Refuses (S : Sealing StorageKey Key NameKey) (db : Database Key NameKey) :
    Option StorageKey → Prop
  | some key =>
      (db.fingerprint ≠ none ∧ db.fingerprint ≠ some (S.fingerprint key)) ∨
        (db.format ≠ none ∧ db.format ≠ some sealedV1) ∨ (db.format = none ∧ db.HasRecords)
  | none => db.format ≠ none ∨ db.fingerprint ≠ none

/-- What opening a database can come to.  `failed` stands for a transaction that fails. -/
inductive Opened (S : Sealing StorageKey Key NameKey) (failed : Prop) (db : Database Key NameKey) :
    Option StorageKey → Database Key NameKey → Result (Option (Sealer Key NameKey)) → Prop
  | failed (storageKey : Option StorageKey) (h : failed) :
      Opened S failed db storageKey db (.error (storageErr .database))
  | refused {storageKey : Option StorageKey} (e : Stop Error) (h : Refuses S db storageKey) :
      Opened S failed db storageKey db (.error e)
  | plain (hformat : db.format = none) (hfingerprint : db.fingerprint = none) :
      Opened S failed db none db (.ok none)
  | again (key : StorageKey) (hformat : db.format = some sealedV1)
      (hfingerprint : db.fingerprint = none ∨ db.fingerprint = some (S.fingerprint key)) :
      Opened S failed db (some key) db (.ok (some (.new S key)))
  /-- The process may end between the two markers. -/
  | half (key : StorageKey) (h : failed) (hformat : db.format = none) (hrecords : ¬ db.HasRecords)
      (hfingerprint : db.fingerprint = none ∨ db.fingerprint = some (S.fingerprint key)) :
      Opened S failed db (some key) (db.mark fingerprintName (S.fingerprint key))
        (.error (storageErr .database))
  | set (key : StorageKey) (hformat : db.format = none) (hrecords : ¬ db.HasRecords)
      (hfingerprint : db.fingerprint = none ∨ db.fingerprint = some (S.fingerprint key)) :
      Opened S failed db (some key)
        ((db.mark fingerprintName (S.fingerprint key)).mark formatName sealedV1)
        (.ok (some (.new S key)))

lemma Opened.mono {failed failed' : Prop} {r : Result (Option (Sealer Key NameKey))}
    (h : Opened S failed db storageKey db' r) (himp : failed → failed') :
    Opened S failed' db storageKey db' r := by
  cases h with
  | failed _ hf => exact .failed _ (himp hf)
  | refused e h => exact .refused e h
  | plain hformat hfingerprint => exact .plain hformat hfingerprint
  | again key hformat hfingerprint => exact .again key hformat hfingerprint
  | half key hf hformat hrecords hfingerprint =>
    exact .half key (himp hf) hformat hrecords hfingerprint
  | set key hformat hrecords hfingerprint => exact .set key hformat hrecords hfingerprint

namespace Database

lemma rawGet_format (env : TxEnv) : db.rawGet env .meta formatName =
    if env.fails then .error (storageErr .database) else .ok db.format := rfl

lemma rawGet_fingerprint (env : TxEnv) : db.rawGet env .meta fingerprintName =
    if env.fails then .error (storageErr .database) else .ok db.fingerprint := rfl

lemma rawPut_meta (env : TxEnv) (name : String) (value : Bytes) :
    db.rawPut env .meta name value =
      if env.fails then (db, .error (storageErr .database)) else (db.mark name value, .ok ()) := rfl

lemma any_ne_iff {fingerprint : Option Bytes} {expected : Bytes} :
    fingerprint.any (fun saved => decide (saved ≠ expected)) = true ↔
      fingerprint ≠ none ∧ fingerprint ≠ some expected := by
  cases fingerprint <;> simp

/-- A database without a format marker, given a key whose fingerprint is not in the way. -/
lemma checkFormat_unset {env : ℕ → TxEnv} {key : StorageKey} (h₀ : (env 0).fails = false)
    (h₁ : (env 1).fails = false) (hformat : db.format = none)
    (hfingerprint : db.fingerprint = none ∨ db.fingerprint = some (S.fingerprint key)) :
    Opened S (∃ n, (env n).fails = true) db (some key) (db.checkFormat S env (some key)).1
      ((db.checkFormat S env (some key)).2.map fun _ => some (.new S key)) := by
  have hany : ¬ db.fingerprint.any (fun saved => decide (saved ≠ S.fingerprint key)) = true := by
    rw [any_ne_iff]
    tauto
  rw [checkFormat]
  simp only [rawGet_format, rawGet_fingerprint, h₀, h₁, Bool.false_eq_true, if_false, hany, hformat]
  cases hhas : db.hasRecords (env 2) with
  | error e =>
    rw [hasRecords] at hhas
    split_ifs at hhas with h₂
    obtain rfl := Except.error.inj hhas
    exact .failed _ ⟨2, h₂⟩
  | ok b =>
    obtain ⟨-, hb⟩ := hasRecords_eq_ok.1 hhas
    cases b with
    | true => exact .refused _ (Or.inr (Or.inr ⟨hformat, hb.1 rfl⟩))
    | false =>
      have hrecords : ¬ db.HasRecords := fun h => by cases hb.2 h
      simp only [rawPut_meta]
      cases h₃ : (env 3).fails with
      | true => exact .failed _ ⟨3, h₃⟩
      | false =>
        simp only [Bool.false_eq_true, if_false]
        cases h₄ : (env 4).fails with
        | true => exact .half key ⟨4, h₄⟩ hformat hrecords hfingerprint
        | false => exact .set key hformat hrecords hfingerprint

variable (S db) in
lemma checkFormat_opened (env : ℕ → TxEnv) (storageKey : Option StorageKey) :
    Opened S (∃ n, (env n).fails = true) db storageKey (db.checkFormat S env storageKey).1
      ((db.checkFormat S env storageKey).2.map fun _ => storageKey.map (Sealer.new S)) := by
  cases h₀ : (env 0).fails with
  | true =>
    simp only [checkFormat, rawGet_format, h₀, if_true]
    exact .failed _ ⟨0, h₀⟩
  | false =>
  cases h₁ : (env 1).fails with
  | true =>
    simp only [checkFormat, rawGet_format, rawGet_fingerprint, h₀, h₁, Bool.false_eq_true, if_false,
      if_true]
    exact .failed _ ⟨1, h₁⟩
  | false =>
  cases storageKey with
  | none =>
    simp only [checkFormat, rawGet_format, rawGet_fingerprint, h₀, h₁, Bool.false_eq_true, if_false]
    split_ifs with hmarker
    · refine .refused _ ?_
      simpa [Refuses, Option.isSome_iff_ne_none] using hmarker
    · simp only [Bool.or_eq_true, Option.isSome_iff_ne_none, not_or, not_not] at hmarker
      exact .plain hmarker.1 hmarker.2
  | some key =>
    by_cases hany : db.fingerprint.any (fun saved => decide (saved ≠ S.fingerprint key)) = true
    · simp only [checkFormat, rawGet_format, rawGet_fingerprint, h₀, h₁, Bool.false_eq_true,
        if_false, hany, if_true]
      exact .refused _ (Or.inl (any_ne_iff.1 hany))
    · have hfingerprint : db.fingerprint = none ∨ db.fingerprint = some (S.fingerprint key) := by
        rw [any_ne_iff] at hany
        tauto
      cases hformat : db.format with
      | none => exact checkFormat_unset h₀ h₁ hformat hfingerprint
      | some format =>
        simp only [checkFormat, rawGet_format, rawGet_fingerprint, h₀, h₁, Bool.false_eq_true,
          if_false, hany, hformat]
        split_ifs with hsealed
        · exact .again key (by rw [hformat, hsealed]) hfingerprint
        · exact .refused _ (Or.inr (Or.inl ⟨by simp [hformat], by simpa [hformat] using hsealed⟩))

end Database

variable (S db) in
/-- Opening a database comes to one of the six. -/
lemma Store.open_opened (env : ℕ → TxEnv) (storageKey : Option StorageKey) :
    Opened S (∃ n, (env n).fails = true) db storageKey (Store.open S env db storageKey).1
      (Store.open S env db storageKey).2 := by
  rw [Store.open]
  split_ifs with h₀
  · exact .failed _ ⟨0, h₀⟩
  have hmono : (∃ n, (env (n + 1)).fails = true) → ∃ n, (env n).fails = true :=
    fun ⟨n, h⟩ => ⟨n + 1, h⟩
  have hcheck := Database.checkFormat_opened S db (fun n => env (n + 1)) storageKey
  obtain ⟨⟨db', r⟩, hres⟩ :
      ∃ checked, db.checkFormat S (fun n => env (n + 1)) storageKey = checked := ⟨_, rfl⟩
  rw [hres] at hcheck ⊢
  cases r with
  | error e => exact hcheck.mono hmono
  | ok u => exact hcheck.mono hmono

/-! ## A data dir -/

/-- A data dir: its database, and the sealer of the store that has it open, if one has. -/
structure DataDir (Key NameKey : Type) where
  db : Database Key NameKey
  session : Option (Option (Sealer Key NameKey))

/-- A fresh data dir. -/
def DataDir.fresh : DataDir Key NameKey := ⟨.empty, none⟩

/-- Open the data dir, which only one store can have open. -/
def DataDir.open (S : Sealing StorageKey Key NameKey) (env : ℕ → TxEnv)
    (dir : DataDir Key NameKey) (storageKey : Option StorageKey) :
    DataDir Key NameKey × Result Unit :=
  match dir.session with
  | some _ => (dir, .error (.fail .dataDirInUse))
  | none =>
      match Store.open S env dir.db storageKey with
      | (db, .error e) => (⟨db, none⟩, .error e)
      | (db, .ok sealer) => (⟨db, some sealer⟩, .ok ())

/-- What happens to a data dir. -/
inductive DirEvent (StorageKey Code : Type) where
  | open (storageKey : Option StorageKey) (env : ℕ → TxEnv)
  | call (op : Op Code) (env : ℕ → TxEnv)
  /-- The store is closed, or its process ends. -/
  | close

inductive DirStep (S : Sealing StorageKey Key NameKey) (F : Formats Code)
    (dir : DataDir Key NameKey) : DirEvent StorageKey Code → DataDir Key NameKey → Prop
  | open (storageKey : Option StorageKey) (env : ℕ → TxEnv) :
      DirStep S F dir (.open storageKey env) (dir.open S env storageKey).1
  | call (op : Op Code) (env : ℕ → TxEnv) {sealer : Option (Sealer Key NameKey)}
      (h : dir.session = some sealer) :
      DirStep S F dir (.call op env) ⟨(op.apply S F sealer env dir.db).1, some sealer⟩
  | close : DirStep S F dir .close ⟨dir.db, none⟩

/-- Either there are no markers, all records are plain, and so is the open store; or all is
under one key. -/
inductive SealedOrPlain (S : Sealing StorageKey Key NameKey) (dir : DataDir Key NameKey) : Prop
  | plain (hformat : dir.db.format = none) (hfingerprint : dir.db.fingerprint = none)
      (hrecords : Uniform S none dir.db) (hsession : dir.session = none ∨ dir.session = some none)
  | sealed (key : StorageKey) (hfingerprint : dir.db.fingerprint = some (S.fingerprint key))
      (hrecords : Uniform S (some (.new S key)) dir.db)
      (hformat : (dir.db.format = none ∧ ¬ dir.db.HasRecords ∧ dir.session = none) ∨
        dir.db.format = some sealedV1)
      (hsession : dir.session = none ∨ dir.session = some (some (.new S key)))

variable {dir dir' : DataDir Key NameKey}

lemma isMarker_format : IsMarker .meta formatName := ⟨rfl, Or.inl rfl⟩

lemma isMarker_fingerprint : IsMarker .meta fingerprintName := ⟨rfl, Or.inr rfl⟩

/-- A closed data dir after an attempt to open it. -/
lemma SealedOrPlain.opened {failed : Prop} {r : Result (Option (Sealer Key NameKey))}
    (h : SealedOrPlain S ⟨db, none⟩) (hopen : Opened S failed db storageKey db' r) :
    SealedOrPlain S ⟨db', r.toOption⟩ := by
  cases hopen with
  | failed | refused => exact h
  | plain hformat hfingerprint =>
    cases h with
    | plain _ _ hrecords _ => exact .plain hformat hfingerprint hrecords (Or.inr rfl)
    | sealed key hkey _ _ _ => rw [hfingerprint] at hkey; cases hkey
  | again key hformat hfingerprint =>
    cases h with
    | plain hnone _ _ _ => rw [hformat] at hnone; cases hnone
    | sealed key' hkey hrecords _ _ =>
      rcases hfingerprint with hnone | hsome
      · rw [hnone] at hkey; cases hkey
      · obtain rfl := S.fingerprint_injective (Option.some.inj (hkey.symm.trans hsome))
        exact .sealed key' hkey hrecords (Or.inr hformat) (Or.inr rfl)
  | half key _ hformat hrecords _ =>
    have hnone := mt (Database.hasRecords_mark (S.fingerprint key) isMarker_fingerprint).1 hrecords
    exact .sealed key (by simp) (.of_not_hasRecords hnone)
      (Or.inl ⟨by simpa using hformat, hnone, rfl⟩) (Or.inl rfl)
  | set key _ hrecords _ =>
    have hnone := mt (Database.hasRecords_mark (S.fingerprint key) isMarker_fingerprint).1 hrecords
    have hnone' := mt (Database.hasRecords_mark sealedV1 isMarker_format).1 hnone
    exact .sealed key (by simp) (.of_not_hasRecords hnone') (Or.inr (by simp)) (Or.inr rfl)

lemma SealedOrPlain.step {event : DirEvent StorageKey Code} (h : SealedOrPlain S dir)
    (hstep : DirStep S F dir event dir') : SealedOrPlain S dir' := by
  obtain ⟨db, session⟩ := dir
  cases hstep with
  | «open» storageKey env =>
    rw [DataDir.open]
    cases session with
    | some sealer => exact h
    | none =>
      have hopen := h.opened (Store.open_opened S db env storageKey)
      obtain ⟨⟨db', r⟩, hres⟩ : ∃ opened, Store.open S env db storageKey = opened := ⟨_, rfl⟩
      rw [hres] at hopen
      simp only [hres]
      cases r <;> exact hopen
  | @call op env sealer hsession =>
    obtain rfl : session = some sealer := hsession
    have hkeeps := (Op.accesses S F sealer db op env).keepsUniform
    have hformat := hkeeps.marker formatName isMarker_format
    have hfingerprint := hkeeps.marker fingerprintName isMarker_fingerprint
    cases h with
    | plain hf hp hrecords hs =>
      obtain rfl : sealer = none := Option.some.inj (hs.resolve_left (by simp))
      exact .plain (hformat.trans hf) (hfingerprint.trans hp) (hkeeps.uniform hrecords) (Or.inr rfl)
    | sealed key hp hrecords hf hs =>
      obtain rfl : sealer = some (.new S key) := Option.some.inj (hs.resolve_left (by simp))
      refine .sealed key (hfingerprint.trans hp) (hkeeps.uniform hrecords) (Or.inr ?_) (Or.inr rfl)
      rcases hf with ⟨-, -, hclosed⟩ | hf
      · cases hclosed
      · exact hformat.trans hf
  | close =>
    cases h with
    | plain hf hp hrecords _ => exact .plain hf hp hrecords (Or.inl rfl)
    | sealed key hp hrecords hf _ =>
      exact .sealed key hp hrecords (hf.imp_left fun hf => ⟨hf.1, hf.2.1, rfl⟩) (Or.inl rfl)

lemma sealedOrPlain_of_run {events : List (DirEvent StorageKey Code)}
    (hrun : Run (DirStep S F) .fresh events dir) : SealedOrPlain S dir := by
  refine hrun.invariant (P := SealedOrPlain S) (fun _ _ _ h hstep => h.step hstep) ?_
  exact .plain rfl rfl (fun _ _ _ h => by cases h) (Or.inl rfl)

/-- An open with another key, or without one, is refused and changes nothing. -/
lemma DataDir.open_other {key : StorageKey} (h : dir.db.fingerprint = some (S.fingerprint key))
    (hother : storageKey ≠ some key) (env : ℕ → TxEnv) :
    (dir.open S env storageKey).1 = dir ∧ ∃ e, (dir.open S env storageKey).2 = .error e := by
  obtain ⟨db, session⟩ := dir
  rw [DataDir.open]
  cases session with
  | some sealer => exact ⟨rfl, _, rfl⟩
  | none =>
    have hopen := Store.open_opened S db env storageKey
    obtain ⟨⟨db', r⟩, hres⟩ : ∃ opened, Store.open S env db storageKey = opened := ⟨_, rfl⟩
    rw [hres] at hopen
    simp only [hres]
    have hkey : ∀ key', db.fingerprint = none ∨ db.fingerprint = some (S.fingerprint key') →
        key' = key := by
      rintro key' (hnone | hsome)
      · cases hnone.symm.trans h
      · exact S.fingerprint_injective (Option.some.inj (hsome.symm.trans h))
    cases hopen with
    | failed | refused => exact ⟨rfl, _, rfl⟩
    | plain _ hfingerprint => cases hfingerprint.symm.trans h
    | again key' _ hfingerprint | half key' _ _ _ hfingerprint | set key' _ _ hfingerprint =>
      exact absurd (congrArg some (hkey key' hfingerprint)) hother

/-- A data dir that was set up with a key opens with it, unless the database fails. -/
lemma DataDir.open_same {key : StorageKey} (hinv : SealedOrPlain S dir)
    (h : dir.db.fingerprint = some (S.fingerprint key)) (hclosed : dir.session = none)
    (env : ℕ → TxEnv) :
    (dir.open S env (some key)).2 = .ok () ∨ (∃ n, (env n).fails = true) ∧
      (dir.open S env (some key)).2 = .error (storageErr .database) := by
  obtain ⟨db, session⟩ := dir
  obtain rfl : session = none := hclosed
  rw [DataDir.open]
  have hopen := Store.open_opened S db env (some key)
  obtain ⟨⟨db', r⟩, hres⟩ : ∃ opened, Store.open S env db (some key) = opened := ⟨_, rfl⟩
  rw [hres] at hopen
  simp only [hres]
  cases hopen with
  | failed _ hf => exact Or.inr ⟨hf, rfl⟩
  | half _ hf => exact Or.inr ⟨hf, rfl⟩
  | again | set => exact Or.inl rfl
  | refused e hrefuses =>
    -- the format marker is missing only as long as there are no records
    exfalso
    cases hinv with
    | plain _ hnone _ _ => cases hnone.symm.trans h
    | sealed key' _ _ hformat _ =>
      rcases hrefuses with ⟨-, hne⟩ | ⟨hsome, hne⟩ | ⟨hnone, hrecords⟩
      · exact hne h
      · rcases hformat with ⟨hnone, -, -⟩ | hsealed
        · exact hsome hnone
        · exact hne hsealed
      · rcases hformat with ⟨-, hno, -⟩ | hsealed
        · exact hno hrecords
        · cases hnone.symm.trans hsealed

/-- A database is sealed or plain, never a mix.  In every state of a data dir, either there is
no marker and all records are plain, or there is the fingerprint of one key and all records are
sealed under it; with another key or none it is then not opened, and not changed; with the
key it is always opened, unless the database fails. -/
theorem sealed_or_plain (S : Sealing StorageKey Key NameKey) (F : Formats Code)
    {events : List (DirEvent StorageKey Code)} (hrun : Run (DirStep S F) .fresh events dir) :
    ((dir.db.format = none ∧ dir.db.fingerprint = none ∧ Uniform S none dir.db) ∨
      ∃ key, dir.db.fingerprint = some (S.fingerprint key) ∧
        Uniform S (some (.new S key)) dir.db) ∧
      ∀ key, dir.db.fingerprint = some (S.fingerprint key) → ∀ env : ℕ → TxEnv,
        (∀ storageKey, storageKey ≠ some key → (dir.open S env storageKey).1 = dir ∧
          ∃ e, (dir.open S env storageKey).2 = .error e) ∧
        (dir.session = none → (dir.open S env (some key)).2 = .ok () ∨
          (∃ n, (env n).fails = true) ∧
            (dir.open S env (some key)).2 = .error (storageErr .database)) := by
  have hinv := sealedOrPlain_of_run hrun
  refine ⟨?_, fun key hkey env => ⟨fun storageKey hother => DataDir.open_other hkey hother env,
    fun hclosed => DataDir.open_same hinv hkey hclosed env⟩⟩
  cases hinv with
  | plain hformat hfingerprint hrecords _ => exact Or.inl ⟨hformat, hfingerprint, hrecords⟩
  | sealed key hfingerprint hrecords _ _ => exact Or.inr ⟨key, hfingerprint, hrecords⟩

/-! ## A data dir set up with a key -/

namespace SetUp

def env (_ : ℕ) : TxEnv := ⟨false, ⟨List.replicate 24 7, rfl⟩⟩

def key : Bytes := [1, 2, 3]

/-- A fresh data dir, opened with the key and closed. -/
def closed : DataDir Bytes Bytes :=
  ⟨(DataDir.open referenceSealing env .fresh (some key)).1.db, none⟩

lemma run_closed : Run (DirStep referenceSealing referenceFormats) .fresh
    [.open (some key) env, .close] closed :=
  .cons (.open (some key) env) (.cons .close (.nil _))

lemma fingerprint_closed : closed.db.fingerprint = some key := rfl

end SetUp

open SetUp in
/-- It is opened with the key, and not without. -/
theorem sealed_or_plain_set_up :
    ((closed.open referenceSealing SetUp.env (some key)).2 = .ok () ∨
      (∃ n, (SetUp.env n).fails = true) ∧
        (closed.open referenceSealing SetUp.env (some key)).2 = .error (storageErr .database)) ∧
      ∃ e, (closed.open referenceSealing SetUp.env none).2 = .error e := by
  obtain ⟨-, hopen⟩ := sealed_or_plain referenceSealing referenceFormats run_closed
  obtain ⟨hother, hsame⟩ := hopen key fingerprint_closed SetUp.env
  exact ⟨hsame rfl, (hother none (by simp)).2⟩

end Chorrent
