/-
# Sealing is transparent

The operations of the store, on the map that a database shows: what they change in it and what
they answer.  A store does the same to the map whether its database is sealed or plain, so the
two give the same results, up to the order in which records are listed.
-/
import Chorrent.Store.View

namespace Chorrent

open Lib

variable {StorageKey Key NameKey Code : Type} {S : Sealing StorageKey Key NameKey}
  {F : Formats Code} {sealer : Option (Sealer Key NameKey)} {db db' : Database Key NameKey}

/-! ## The operations on the map -/

namespace View

/-- No values for the downloads of a share and their progress. -/
def clearDownloads (V : View) (id : ShareId) : View := fun t n =>
  if t ∈ [Table.downloads, .progress] ∧ startsWith n (downloadStart id) = true ∧
    (V .downloads n).isSome then none
  else V t n

/-- The node's key. -/
def nodeKey (V : View) : Option (List.Vector UInt8 32) :=
  (V .meta nodeKeyName).bind (toVector 32)

end View

/-- What an operation makes of the map; `fails` tells which of its transactions fail. -/
def Op.effect (F : Formats Code) (fails : ℕ → Bool) (V : View) : Op Code → View
  | .nodeKey generated =>
      if fails 0 || V.nodeKey.isSome || fails 1 then V
      else V.set .meta nodeKeyName generated.toList
  | .rememberSeed id record kinds =>
      if fails 0 then V
      else
        let V := V.set .kinds id.text (F.kinds.encode kinds)
        if fails 1 then V else V.set .seeds id.text (F.seed.encode record)
  | .rememberAllowed id none => if fails 0 then V else V.clear [.access] id.text
  | .rememberAllowed id (some peers) =>
      if fails 0 then V else V.set .access id.text (F.allowed.encode peers)
  | .forget id =>
      if fails 0 then V
      else
        let V := V.clear [.seeds, .access, .kinds] id.text
        if fails 1 then V else V.clearDownloads id
  | .rememberDownload code destDir =>
      if fails 0 then V
      else V.set .downloads (downloadKey (F.codeId code) destDir)
        (F.download.encode ⟨F.codeText code, destDir⟩)
  | .saveProgress id destDir outboards =>
      if fails 0 then V else V.set .progress (downloadKey id destDir) (F.outboards.encode outboards)
  | .markComplete id destDir =>
      if fails 0 then V else V.clear [.downloads, .progress] (downloadKey id destDir)
  | .seedRoot _ | .loadAllowed _ | .loadProgress _ _ | .saved => V

/-- What an operation answers, given the lists of the seeds and of the downloads. -/
def Op.answer (F : Formats Code) (fails : ℕ → Bool) (V : View)
    (seeds downloads : List (String × Bytes)) : Op Code → Result (Output Code)
  | .nodeKey generated =>
      if fails 0 then .error (storageErr .database)
      else
        match V.nodeKey with
        | some key => .ok (.key key)
        | none => if fails 1 then .error (storageErr .database) else .ok (.key generated)
  | .rememberSeed _ _ _ | .forget _ =>
      if fails 0 || fails 1 then .error (storageErr .database) else .ok .done
  | .rememberAllowed _ _ | .rememberDownload _ _ | .markComplete _ _ =>
      if fails 0 then .error (storageErr .database) else .ok .done
  | .saveProgress _ _ _ => .ok .done
  | .seedRoot id =>
      .ok (.root (if fails 0 then none else
        (V .seeds id.text).bind fun bytes => (F.seed.decode bytes).map fun r => r.1.root))
  | .loadAllowed id =>
      .ok (.allowed (if fails 0 then none else
        (V .access id.text).bind fun bytes => (F.allowed.decode bytes).map fun r =>
          (r.1.filter fun p => F.isPublicKey p).toFinset))
  | .loadProgress id destDir =>
      .ok (.progress (if fails 0 then none else
        (V .progress (downloadKey id destDir)).bind fun bytes =>
          (F.outboards.decode bytes).map Prod.fst))
  | .saved =>
      if fails 0 || fails 1 then .error (storageErr .database)
      else
        .ok (.saved (seeds.filterMap (Store.savedSeed F) ++
          downloads.filterMap (Store.savedDownload F)))

/-! ## The operations on a database -/

/-- What an operation on a database that shows the map does. -/
structure Acts (S : Sealing StorageKey Key NameKey) (F : Formats Code)
    (sealer : Option (Sealer Key NameKey)) (V : View) (op : Op Code) (env : ℕ → TxEnv)
    (result : Database Key NameKey × Result (Output Code)) : Prop where
  shows : Shows S sealer result.1 (op.effect F (fun n => (env n).fails) V)
  answers : ∃ seeds downloads, V.Lists .seeds seeds ∧ V.Lists .downloads downloads ∧
    result.2 = op.answer F (fun n => (env n).fails) V seeds downloads

/-- Only the operation that lists what is saved needs the lists. -/
lemma Acts.of_answer {V : View} {op : Op Code} {env : ℕ → TxEnv} {db' : Database Key NameKey}
    {r : Result (Output Code)} (h : Shows S sealer db V)
    (hshows : Shows S sealer db' (op.effect F (fun n => (env n).fails) V))
    (hanswer : ∀ seeds downloads, r = op.answer F (fun n => (env n).fails) V seeds downloads) :
    Acts S F sealer V op env (db', r) := by
  obtain ⟨seeds, hseeds, -⟩ := h.entries (by decide : Table.seeds ≠ .meta)
  obtain ⟨downloads, hdownloads, -⟩ := h.entries (by decide : Table.downloads ≠ .meta)
  exact ⟨hshows, seeds, downloads, hseeds, hdownloads, hanswer seeds downloads⟩

lemma acts_nodeKey {V : View} (h : Shows S sealer db V) (env : ℕ → TxEnv)
    (generated : List.Vector UInt8 32) :
    Acts S F sealer V (.nodeKey generated) env
      ((Op.nodeKey generated).apply S F sealer env db) := by
  have hname : IsName .meta nodeKeyName := fun _ => rfl
  have hget := h.get (env 0) hname
  have hput := h.put (env 1) hname generated.toList
  have hresult : Store.nodeKey S sealer env db generated =
      if (env 0).fails then (db, .error (storageErr .database))
      else
        match V.nodeKey with
        | some key => (db, .ok key)
        | none => ((Store.put S sealer (env 1) db .meta nodeKeyName generated.toList).1,
            if (env 1).fails then .error (storageErr .database) else .ok generated) := by
    rw [Store.nodeKey, hget]
    cases (env 0).fails with
    | true => rfl
    | false =>
      simp only [Bool.false_eq_true, if_false]
      rw [← View.nodeKey]
      cases V.nodeKey with
      | some key => rfl
      | none =>
        rw [Store.put_eq]
        cases (env 1).fails <;> rfl
  rw [Op.apply, hresult]
  cases h₀ : (env 0).fails with
  | true =>
    exact .of_answer h (by simpa [Op.effect, h₀] using h) fun _ _ => by
      simp [Op.answer, h₀, Except.map]
  | false =>
    cases hkey : V.nodeKey with
    | some key =>
      exact .of_answer h (by simpa [Op.effect, hkey] using h) fun _ _ => by
        simp [Op.answer, h₀, hkey, Except.map]
    | none =>
      refine .of_answer h ?_ fun _ _ => ?_
      · cases h₁ : (env 1).fails <;> simpa [Op.effect, h₀, hkey, h₁] using hput
      · cases h₁ : (env 1).fails <;> simp [Op.answer, h₀, hkey, h₁, Except.map]

lemma acts_rememberSeed {V : View} (h : Shows S sealer db V) (env : ℕ → TxEnv) (id : ShareId)
    (record : SeedRecord) (kinds : List Bool) :
    Acts S F sealer V (.rememberSeed id record kinds) env
      ((Op.rememberSeed id record kinds).apply S F sealer env db) := by
  have hkinds := h.put (env 0) (isName_of_ne (by decide : Table.kinds ≠ .meta)
    : IsName .kinds id.text) (F.kinds.encode kinds)
  rw [Op.apply, Store.rememberSeed]
  rw [Store.put_eq] at hkinds ⊢
  cases h₀ : (env 0).fails with
  | true =>
    rw [h₀] at hkinds
    exact .of_answer h (by simpa [Op.effect, h₀] using hkinds) fun _ _ => by
      simp [Op.answer, h₀, Except.map]
  | false =>
    rw [h₀] at hkinds
    have hseeds := hkinds.put (env 1) (isName_of_ne (by decide : Table.seeds ≠ .meta)
      : IsName .seeds id.text) (F.seed.encode record)
    rw [Store.put_eq] at hseeds
    simp only [Bool.false_eq_true, if_false, Store.put_eq] at hseeds ⊢
    refine .of_answer h (by simpa [Op.effect, h₀] using hseeds) fun _ _ => ?_
    cases h₁ : (env 1).fails <;> simp [Op.answer, h₀, h₁, Except.map]

/-- An operation that is one put. -/
lemma acts_put {V : View} {op : Op Code} {env : ℕ → TxEnv} {table : Table} {name : String}
    {value : Bytes} (h : Shows S sealer db V) (htable : table ≠ .meta)
    (heffect : op.effect F (fun n => (env n).fails) V =
      if (env 0).fails then V else V.set table name value)
    (hanswer : ∀ seeds downloads, op.answer F (fun n => (env n).fails) V seeds downloads =
      if (env 0).fails then .error (storageErr .database) else .ok .done) :
    Acts S F sealer V op env
      ((Store.put S sealer (env 0) db table name value).1,
        (Store.put S sealer (env 0) db table name value).2.map fun _ => .done) := by
  refine .of_answer h ?_ fun seeds downloads => ?_
  · rw [heffect]
    exact h.put (env 0) (isName_of_ne htable) value
  · rw [hanswer, Store.put_eq]
    cases (env 0).fails <;> rfl

/-- An operation that is one removal. -/
lemma acts_remove {V : View} {op : Op Code} {env : ℕ → TxEnv} {tables : List Table} {name : String}
    (h : Shows S sealer db V)
    (heffect : op.effect F (fun n => (env n).fails) V =
      if (env 0).fails then V else V.clear tables name)
    (hanswer : ∀ seeds downloads, op.answer F (fun n => (env n).fails) V seeds downloads =
      if (env 0).fails then .error (storageErr .database) else .ok .done) :
    Acts S F sealer V op env
      ((Store.remove S sealer (env 0) db tables name).1,
        (Store.remove S sealer (env 0) db tables name).2.map fun _ => .done) := by
  refine .of_answer h ?_ fun seeds downloads => ?_
  · rw [heffect]
    exact h.remove (env 0) tables name
  · rw [hanswer, Store.remove_eq]
    cases (env 0).fails <;> rfl

/-- The loop of `forget`, when nothing fails. -/
lemma Shows.forgetDownloads (id : ShareId) (listed : List (String × Bytes)) :
    ∀ (env : ℕ → TxEnv) (db : Database Key NameKey) (V : View), Shows S sealer db V →
      (∀ n, (env n).fails = false) →
      Shows S sealer (Store.forgetDownloads S sealer id env db listed).1 (fun t n =>
        if t ∈ [Table.downloads, .progress] ∧ startsWith n (downloadStart id) = true ∧
          n ∈ listed.map Prod.fst then none else V t n) ∧
        (Store.forgetDownloads S sealer id env db listed).2 = .ok () := by
  induction listed with
  | nil => exact fun env db V h _ => ⟨by simpa [Store.forgetDownloads] using h, rfl⟩
  | cons entry listed ih =>
    intro env db V h henv
    obtain ⟨name, value⟩ := entry
    rw [Store.forgetDownloads]
    split
    · rename_i hstart
      have hremove := h.remove (env 0) [.downloads, .progress] name
      rw [henv 0] at hremove
      have hok : (Store.remove S sealer (env 0) db [.downloads, .progress] name).2 = .ok () := by
        rw [Store.remove_eq, henv 0]
        rfl
      obtain ⟨⟨db', r⟩, hres⟩ : ∃ removed,
          Store.remove S sealer (env 0) db [.downloads, .progress] name = removed := ⟨_, rfl⟩
      rw [hres] at hremove hok ⊢
      obtain rfl : r = .ok () := hok
      obtain ⟨hshows, hr⟩ := ih (fun n => env (n + 1)) db' _ hremove fun n => henv (n + 1)
      refine ⟨?_, hr⟩
      convert hshows using 3 with t n
      simp only [List.map_cons, List.mem_cons, Bool.false_eq_true, if_false, View.clear]
      by_cases hname : n = name
      · subst hname
        simp only [hstart, true_or, true_and, and_true]
        split_ifs <;> tauto
      · simp only [hname, false_or, and_false, if_false]
    · rename_i hstart
      obtain ⟨hshows, hr⟩ := ih env db V h henv
      refine ⟨?_, hr⟩
      convert hshows using 3 with t n
      simp only [List.map_cons, List.mem_cons]
      by_cases hname : n = name
      · subst hname
        simp [hstart]
      · simp only [hname, false_or]

/-- A name is listed when it has a value. -/
lemma View.Lists.mem_map_fst {V : View} {table : Table} {listed : List (String × Bytes)}
    (h : V.Lists table listed) {name : String} :
    name ∈ listed.map Prod.fst ↔ (V table name).isSome = true := by
  rw [List.mem_map, Option.isSome_iff_exists]
  constructor
  · rintro ⟨⟨name, value⟩, hmem, rfl⟩
    exact ⟨value, (h.mem_iff _ _).1 hmem⟩
  · rintro ⟨value, hvalue⟩
    exact ⟨(name, value), (h.mem_iff _ _).2 hvalue, rfl⟩

/-- A `forget` that has begun to remove downloads is not cut short: in which order it removes
them depends on how the names are stored. -/
def Op.Unbroken (op : Op Code) (env : ℕ → TxEnv) : Prop :=
  ∀ id, op = .forget id → ∀ n, (env (n + 2)).fails = false

lemma acts_forget {V : View} (h : Shows S sealer db V) (env : ℕ → TxEnv) (id : ShareId)
    (hunbroken : (Op.forget id : Op Code).Unbroken env) :
    Acts S F sealer V (.forget id) env ((Op.forget id).apply S F sealer env db) := by
  have hremove := h.remove (env 0) [.seeds, .access, .kinds] id.text
  rw [Op.apply, Store.forget]
  rw [Store.remove_eq] at hremove ⊢
  cases h₀ : (env 0).fails with
  | true =>
    rw [h₀] at hremove
    exact .of_answer h (by simpa [Op.effect, h₀] using hremove) fun _ _ => by
      simp [Op.answer, h₀, Except.map]
  | false =>
    rw [h₀] at hremove
    simp only [Bool.false_eq_true, if_false] at hremove ⊢
    obtain ⟨listed, hlists, hentries⟩ := hremove.entries (by decide : Table.downloads ≠ .meta)
    rw [hentries]
    cases h₁ : (env 1).fails with
    | true =>
      exact .of_answer h (by simpa [Op.effect, h₀, h₁] using hremove) fun _ _ => by
        simp [Op.answer, h₀, h₁, Except.map]
    | false =>
      obtain ⟨hshows, hr⟩ := Shows.forgetDownloads id listed (fun n => env (n + 2)) _ _ hremove
        (hunbroken id rfl)
      simp only [hlists.mem_map_fst] at hshows
      simp only [Bool.false_eq_true, if_false]
      refine .of_answer h ?_ fun _ _ => ?_
      · simp only [Op.effect, h₀, h₁, Bool.false_eq_true, if_false]
        exact hshows
      · simp only [Op.answer, h₀, h₁, Bool.or_self, Bool.false_eq_true, if_false]
        rw [hr]
        rfl

lemma acts_saved {V : View} (h : Shows S sealer db V) (env : ℕ → TxEnv) :
    Acts S F sealer V .saved env (Op.saved.apply S F sealer env db) := by
  obtain ⟨seeds, hseeds, hentries⟩ := h.entries (by decide : Table.seeds ≠ .meta)
  obtain ⟨downloads, hdownloads, hentries'⟩ := h.entries (by decide : Table.downloads ≠ .meta)
  refine ⟨h, seeds, downloads, hseeds, hdownloads, ?_⟩
  rw [Op.apply, Store.saved, hentries, hentries']
  cases h₀ : (env 0).fails with
  | true => simp [Op.answer, h₀, Except.map, bind, Except.bind]
  | false =>
    cases h₁ : (env 1).fails <;>
      simp [Op.answer, h₀, h₁, Except.map, bind, Except.bind, pure, Except.pure]

/-- What an operation does to the map and answers, however the database is stored. -/
lemma Op.acts {V : View} (h : Shows S sealer db V) (op : Op Code) (env : ℕ → TxEnv)
    (hunbroken : op.Unbroken env) : Acts S F sealer V op env (op.apply S F sealer env db) := by
  cases op with
  | nodeKey generated => exact acts_nodeKey h env generated
  | rememberSeed id record kinds => exact acts_rememberSeed h env id record kinds
  | rememberAllowed id peers =>
    cases peers with
    | none => exact acts_remove h rfl fun _ _ => rfl
    | some peers => exact acts_put h (by decide) rfl fun _ _ => rfl
  | forget id => exact acts_forget h env id hunbroken
  | rememberDownload code destDir => exact acts_put h (by decide) rfl fun _ _ => rfl
  | saveProgress id destDir outboards =>
    exact .of_answer h (h.put (env 0) (isName_of_ne (by decide)) _) fun _ _ => rfl
  | markComplete id destDir => exact acts_remove h rfl fun _ _ => rfl
  | saved => exact acts_saved h env
  | seedRoot id =>
    refine .of_answer h h fun _ _ => ?_
    rw [Op.answer, Store.seedRoot, h.get (env 0) (isName_of_ne (by decide))]
    cases (env 0).fails with
    | true => rfl
    | false => cases V .seeds id.text <;> rfl
  | loadAllowed id =>
    refine .of_answer h h fun _ _ => ?_
    rw [Op.answer, Store.loadAllowed, h.get (env 0) (isName_of_ne (by decide))]
    cases (env 0).fails with
    | true => rfl
    | false => cases V .access id.text <;> rfl
  | loadProgress id destDir =>
    refine .of_answer h h fun _ _ => ?_
    rw [Op.answer, Store.loadProgress, h.get (env 0) (isName_of_ne (by decide))]
    cases (env 0).fails with
    | true => rfl
    | false => cases V .progress (downloadKey id destDir) <;> rfl

/-! ## Two stores -/

/-- Results that differ in the order of the listed transfers only. -/
inductive SameResult : Result (Output Code) → Result (Output Code) → Prop
  | equal (r : Result (Output Code)) : SameResult r r
  | saved {transfers transfers' : List (SavedTransfer Code)} (h : transfers.Perm transfers') :
      SameResult (.ok (.saved transfers)) (.ok (.saved transfers'))

lemma Acts.same {V : View} {op : Op Code} {env : ℕ → TxEnv} {sealer' : Option (Sealer Key NameKey)}
    {result result' : Database Key NameKey × Result (Output Code)}
    (h : Acts S F sealer V op env result) (h' : Acts S F sealer' V op env result') :
    SameResult result.2 result'.2 := by
  obtain ⟨seeds, downloads, hseeds, hdownloads, hr⟩ := h.answers
  obtain ⟨seeds', downloads', hseeds', hdownloads', hr'⟩ := h'.answers
  rw [hr, hr']
  cases op with
  | saved =>
    rw [Op.answer, Op.answer]
    split_ifs
    · exact .equal _
    · exact .saved (((hseeds.perm hseeds').filterMap _).append
        ((hdownloads.perm hdownloads').filterMap _))
  | nodeKey | rememberSeed | seedRoot | rememberAllowed | loadAllowed | forget | rememberDownload
    | saveProgress | loadProgress | markComplete => exact .equal _

/-- A call of an operation. -/
structure Call (Code : Type) where
  op : Op Code
  env : ℕ → TxEnv
  unbroken : op.Unbroken env

/-- The calls one after another, with their results. -/
def Store.run (S : Sealing StorageKey Key NameKey) (F : Formats Code)
    (sealer : Option (Sealer Key NameKey)) :
    Database Key NameKey → List (Call Code) → Database Key NameKey × List (Result (Output Code))
  | db, [] => (db, [])
  | db, call :: calls =>
      let (db, r) := call.op.apply S F sealer call.env db
      let (db, rs) := Store.run S F sealer db calls
      (db, r :: rs)

/-- The map after the calls: of each name the value last put and not removed since. -/
def View.run (F : Formats Code) : View → List (Call Code) → View
  | V, [] => V
  | V, call :: calls => (call.op.effect F (fun n => (call.env n).fails) V).run F calls

/-- Two databases that show the same map go on doing so, and give the same results. -/
lemma Shows.run {sealer' : Option (Sealer Key NameKey)} (calls : List (Call Code)) :
    ∀ {V : View} {db db' : Database Key NameKey}, Shows S sealer db V → Shows S sealer' db' V →
      List.Forall₂ SameResult (Store.run S F sealer db calls).2
        (Store.run S F sealer' db' calls).2 ∧
      Shows S sealer (Store.run S F sealer db calls).1 (V.run F calls) ∧
      Shows S sealer' (Store.run S F sealer' db' calls).1 (V.run F calls) := by
  induction calls with
  | nil => exact fun h h' => ⟨.nil, h, h'⟩
  | cons call calls ih =>
    intro V db db' h h'
    have hacts := call.op.acts (F := F) h call.env call.unbroken
    have hacts' := call.op.acts (F := F) h' call.env call.unbroken
    obtain ⟨hresults, hshows, hshows'⟩ := ih hacts.shows hacts'.shows
    exact ⟨.cons (hacts.same hacts') hresults, hshows, hshows'⟩

/-- A database just created shows no values. -/
lemma shows_opened {storageKey : Option StorageKey} {env : ℕ → TxEnv}
    (h : Store.open S env .empty storageKey = (db, .ok sealer)) :
    Shows S sealer db fun _ _ => none := by
  have hopen := Store.open_opened S (.empty : Database Key NameKey) env storageKey
  rw [h] at hopen
  have hnone : ∀ {table stored}, ¬ IsMarker table stored →
      (db.tables table).lookup stored = none := by
    intro table stored hmarker
    cases hopen with
    | plain => rfl
    | again _ hformat => cases hformat
    | set =>
      exact (Database.lookup_mark isMarker_format hmarker).trans
        (Database.lookup_mark isMarker_fingerprint hmarker)
  refine ⟨fun table name hname => ?_, fun table stored htable hmem => ?_⟩
  · rw [hnone (storedName_ne_marker S sealer hname)]
    exact .none
  · have hsome := AList.lookup_isSome.2 hmem
    rw [hnone fun hmarker => htable hmarker.1] at hsome
    cases hsome

/-- Sealing is transparent.  A store opened with a key and one opened without give the same
results, whatever is called; and in both, of each table and name the value is read that the
calls put there last and did not remove since. -/
theorem sealing_transparent (S : Sealing StorageKey Key NameKey) (F : Formats Code)
    {key : StorageKey} {env env' : ℕ → TxEnv} {sealedDb plainDb : Database Key NameKey}
    {plainSealer : Option (Sealer Key NameKey)}
    (hsealed : Store.open S env .empty (some key) = (sealedDb, .ok sealer))
    (hplain : Store.open S env' .empty none = (plainDb, .ok plainSealer))
    (calls : List (Call Code)) :
    List.Forall₂ SameResult (Store.run S F sealer sealedDb calls).2
        (Store.run S F plainSealer plainDb calls).2 ∧
      ∀ (table : Table) (name : String) (env : TxEnv), IsName table name → env.fails = false →
        Store.get S sealer env (Store.run S F sealer sealedDb calls).1 table name =
          .ok (View.run F (fun _ _ => none) calls table name) ∧
        Store.get S plainSealer env (Store.run S F plainSealer plainDb calls).1 table name =
          .ok (View.run F (fun _ _ => none) calls table name) := by
  obtain ⟨hresults, hshows, hshows'⟩ :=
    Shows.run calls (shows_opened hsealed) (shows_opened hplain)
  refine ⟨hresults, fun table name env hname henv => ?_⟩
  rw [hshows.get env hname, hshows'.get env hname, henv]
  exact ⟨rfl, rfl⟩

namespace TwoStores

def sealedDb : Database Bytes Bytes :=
  (Store.open referenceSealing SetUp.env .empty (some SetUp.key)).1

def plainDb : Database Bytes Bytes := (Store.open referenceSealing SetUp.env .empty none).1

lemma open_sealedDb : Store.open referenceSealing SetUp.env .empty (some SetUp.key) =
    (sealedDb, .ok (some (.new referenceSealing SetUp.key))) := rfl

lemma open_plainDb :
    Store.open referenceSealing SetUp.env .empty none = (plainDb, .ok none) := rfl

def gone : ShareId := List.Vector.replicate 32 5

def kept : ShareId := List.Vector.replicate 32 6

/-- Two shares are saved, the first is forgotten, and what is saved is listed. -/
def calls : List (Call ShareId) :=
  [⟨.rememberAllowed gone (some []), SetUp.env, nofun⟩,
    ⟨.rememberDownload gone "d", SetUp.env, nofun⟩,
    ⟨.rememberAllowed kept (some [List.Vector.replicate 32 1]), SetUp.env, nofun⟩,
    ⟨.forget gone, SetUp.env, fun _ _ _ => rfl⟩, ⟨.saved, SetUp.env, nofun⟩]

end TwoStores

open TwoStores in
/-- Both stores give the same results, keep the allowlist of the second share and hold nothing of
the first. -/
theorem sealing_transparent_two_stores :
    List.Forall₂ SameResult
        (Store.run referenceSealing referenceFormats (some (.new referenceSealing SetUp.key))
          sealedDb calls).2
        (Store.run referenceSealing referenceFormats none plainDb calls).2 ∧
      Store.get referenceSealing (some (.new referenceSealing SetUp.key)) (SetUp.env 0)
          (Store.run referenceSealing referenceFormats (some (.new referenceSealing SetUp.key))
            sealedDb calls).1 .access kept.text =
        .ok (some (referenceFormats.allowed.encode [List.Vector.replicate 32 1])) ∧
      Store.get referenceSealing none (SetUp.env 0)
          (Store.run referenceSealing referenceFormats none plainDb calls).1 .downloads
            (downloadKey gone "d") = .ok none := by
  obtain ⟨hresults, hgets⟩ :=
    sealing_transparent referenceSealing referenceFormats open_sealedDb open_plainDb calls
  have hkept : View.run referenceFormats (fun _ _ => none) calls .access kept.text =
      some (referenceFormats.allowed.encode [List.Vector.replicate 32 1]) := by
    decide +kernel
  have hgone : View.run referenceFormats (fun _ _ => none) calls .downloads
      (downloadKey gone "d") = none := by
    decide +kernel
  exact ⟨hresults, hkept ▸ (hgets .access kept.text (SetUp.env 0) (isName_of_ne (by decide)) rfl).1,
    hgone ▸ (hgets .downloads (downloadKey gone "d") (SetUp.env 0)
      (isName_of_ne (by decide)) rfl).2⟩

end Chorrent
