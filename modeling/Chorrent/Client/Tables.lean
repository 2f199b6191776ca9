/-
# Saved state, record by record

The tables of the database with their records as the client means them, and the transactions
that `client.rs` and `download.rs` are made of: `remember_seed` is two of them and `forget` one
for each download besides its own, so that a crash may come between.  Every transaction does to
these tables what the operations of the store do to the database.
-/
import Chorrent.Store.View

namespace Chorrent

open Lib

structure Tables where
  seeds : AList fun _ : ShareId => SeedRecord
  kinds : AList fun _ : ShareId => List Bool
  /-- The list stands for a set, in any order. -/
  access : AList fun _ : ShareId => List EndpointId
  /-- By share and destination. -/
  downloads : AList fun _ : ShareId × String => DownloadRecord
  progress : AList fun _ : ShareId × String => List Bytes

inductive Tx where
  /-- The first half of `remember_seed`. -/
  | putKinds (id : ShareId) (kinds : List Bool)
  /-- The second half. -/
  | putSeed (id : ShareId) (record : SeedRecord)
  /-- `remember_allowed` -/
  | putAllowed (id : ShareId) (peers : Option (List EndpointId))
  /-- The first transaction of `forget`. -/
  | removeShare (id : ShareId)
  /-- `remember_download` -/
  | putDownload (id : ShareId) (destDir : String) (record : DownloadRecord)
  /-- `save_progress` -/
  | putProgress (id : ShareId) (destDir : String) (outboards : List Bytes)
  /-- `mark_complete`, and one round of `forget`. -/
  | removeDownload (id : ShareId) (destDir : String)

namespace Tables

def empty : Tables := ⟨∅, ∅, ∅, ∅, ∅⟩

def commit (t : Tables) : Tx → Tables
  | .putKinds id kinds => { t with kinds := t.kinds.insert id kinds }
  | .putSeed id record => { t with seeds := t.seeds.insert id record }
  | .putAllowed id none => { t with access := t.access.erase id }
  | .putAllowed id (some peers) => { t with access := t.access.insert id peers }
  | .removeShare id =>
      { t with
        seeds := t.seeds.erase id, access := t.access.erase id, kinds := t.kinds.erase id }
  | .putDownload id destDir record =>
      { t with downloads := t.downloads.insert (id, destDir) record }
  | .putProgress id destDir outboards =>
      { t with progress := t.progress.insert (id, destDir) outboards }
  | .removeDownload id destDir =>
      { t with
        downloads := t.downloads.erase (id, destDir), progress := t.progress.erase (id, destDir) }

/-- The destinations of a share's saved downloads. -/
def destsOf (t : Tables) (id : ShareId) : List String :=
  t.downloads.keys.filterMap fun key => if key.1 = id then some key.2 else none

/-- `saved` lists the share, as a seed or as an unfinished download. -/
def Lists (t : Tables) (id : ShareId) : Prop :=
  id ∈ t.seeds ∨ ∃ destDir, (id, destDir) ∈ t.downloads

lemma mem_destsOf {t : Tables} {id : ShareId} {destDir : String} :
    destDir ∈ t.destsOf id ↔ (id, destDir) ∈ t.downloads := by
  rw [destsOf, List.mem_filterMap]
  constructor
  · rintro ⟨⟨id', dest'⟩, hmem, hif⟩
    split_ifs at hif with hid
    cases hif
    cases hid
    exact AList.mem_keys.2 hmem
  · exact fun hmem => ⟨(id, destDir), AList.mem_keys.1 hmem, by simp⟩

lemma lookup_putAllowed (t : Tables) (id : ShareId) (peers : Option (List EndpointId)) :
    (t.commit (.putAllowed id peers)).access.lookup id = peers := by
  cases peers with
  | none => exact AList.lookup_erase _ _
  | some peers => exact AList.lookup_insert _

end Tables

/-! ## Transactions on a database -/

section

variable {StorageKey Key NameKey Code : Type} (S : Sealing StorageKey Key NameKey)
  (F : Formats Code) (sealer : Option (Sealer Key NameKey))

/-- The transaction, as the store carries it out. -/
def Tx.run (env : TxEnv) (db : Database Key NameKey) : Tx → Database Key NameKey × Result Unit
  | .putKinds id kinds => Store.put S sealer env db .kinds id.text (F.kinds.encode kinds)
  | .putSeed id record => Store.put S sealer env db .seeds id.text (F.seed.encode record)
  | .putAllowed id peers => Store.rememberAllowed S F sealer env db id peers
  | .removeShare id => Store.remove S sealer env db [.seeds, .access, .kinds] id.text
  | .putDownload id destDir record =>
      Store.put S sealer env db .downloads (downloadKey id destDir) (F.download.encode record)
  | .putProgress id destDir outboards =>
      (Store.saveProgress S F sealer env db id destDir outboards, .ok ())
  | .removeDownload id destDir => Store.markComplete S sealer env db id destDir

end

/-- The records of the tables, in the form in which they are stored. -/
structure Encodes {Code : Type} (F : Formats Code) (t : Tables) (V : View) : Prop where
  seeds : ∀ id : ShareId, V .seeds id.text = (t.seeds.lookup id).map F.seed.encode
  kinds : ∀ id : ShareId, V .kinds id.text = (t.kinds.lookup id).map F.kinds.encode
  access : ∀ id : ShareId, V .access id.text = (t.access.lookup id).map F.allowed.encode
  downloads : ∀ id destDir,
    V .downloads (downloadKey id destDir) = (t.downloads.lookup (id, destDir)).map F.download.encode
  progress : ∀ id destDir,
    V .progress (downloadKey id destDir) = (t.progress.lookup (id, destDir)).map F.outboards.encode

lemma ShareId.text_injective : Function.Injective ShareId.text := fun _ _ h =>
  List.Vector.toList_injective (hex_injective h)

lemma ShareId.length_text (id : ShareId) : id.text.toList.length = 64 := by
  have h : (hexDigits id.toList).length = 2 * id.toList.length := by
    induction id.toList with
    | nil => rfl
    | cons b bytes ih =>
      rw [hexDigits, List.flatMap_cons, ← hexDigits, List.length_append, ih]
      simp only [List.length_cons, List.length_nil]
      omega
  rw [text, hex, String.toList_ofList, h, id.toList_length]

/-- The text of an id has a fixed length, so it can be told from what follows. -/
lemma downloadKey_inj {id id' : ShareId} {destDir destDir' : String} :
    downloadKey id destDir = downloadKey id' destDir' ↔ id = id' ∧ destDir = destDir' := by
  constructor
  · intro h
    have hlist := congrArg String.toList h
    simp only [downloadKey, downloadStart, String.toList_append, List.append_assoc] at hlist
    obtain ⟨htext, hrest⟩ := List.append_inj hlist (by rw [id.length_text, id'.length_text])
    refine ⟨ShareId.text_injective (String.toList_injective htext), ?_⟩
    exact String.toList_injective (List.append_cancel_left hrest)
  · rintro ⟨rfl, rfl⟩
    rfl

variable {StorageKey Key NameKey Code : Type} {S : Sealing StorageKey Key NameKey}
  {F : Formats Code} {sealer : Option (Sealer Key NameKey)} {db : Database Key NameKey} {t : Tables}
  {V : View}

lemma View.set_map {ι β : Type} [DecidableEq ι] {table : Table} {name : ι → String}
    (hname : Function.Injective name) {m : AList fun _ : ι => β} {enc : β → Bytes}
    (h : ∀ i, V table (name i) = (m.lookup i).map enc) (i : ι) (b : β) (j : ι) :
    V.set table (name i) (enc b) table (name j) = ((m.insert i b).lookup j).map enc := by
  by_cases hij : j = i
  · subst hij
    rw [AList.lookup_insert, View.set, if_pos ⟨rfl, rfl⟩, Option.map_some]
  · rw [AList.lookup_insert_ne hij, View.set, if_neg fun hsame => hij (hname hsame.2), h]

lemma View.clear_map {ι β : Type} [DecidableEq ι] {tables : List Table} {table : Table}
    {name : ι → String} (hname : Function.Injective name) {m : AList fun _ : ι => β}
    {enc : β → Bytes} (h : ∀ i, V table (name i) = (m.lookup i).map enc) (htable : table ∈ tables)
    (i j : ι) : V.clear tables (name i) table (name j) = ((m.erase i).lookup j).map enc := by
  by_cases hij : j = i
  · subst hij
    rw [AList.lookup_erase, View.clear, if_pos ⟨htable, rfl⟩, Option.map_none]
  · rw [AList.lookup_erase_ne hij, View.clear, if_neg fun hsame => hij (hname hsame.2), h]

/-- What a transaction that commits makes of the map a database shows. -/
def Tx.effect (F : Formats Code) (V : View) : Tx → View
  | .putKinds id kinds => V.set .kinds id.text (F.kinds.encode kinds)
  | .putSeed id record => V.set .seeds id.text (F.seed.encode record)
  | .putAllowed id none => V.clear [.access] id.text
  | .putAllowed id (some peers) => V.set .access id.text (F.allowed.encode peers)
  | .removeShare id => V.clear [.seeds, .access, .kinds] id.text
  | .putDownload id destDir record =>
      V.set .downloads (downloadKey id destDir) (F.download.encode record)
  | .putProgress id destDir outboards =>
      V.set .progress (downloadKey id destDir) (F.outboards.encode outboards)
  | .removeDownload id destDir => V.clear [.downloads, .progress] (downloadKey id destDir)

lemma Shows.tx (h : Shows S sealer db V) (tx : Tx) (env : TxEnv) :
    Shows S sealer (tx.run S F sealer env db).1 (if env.fails then V else tx.effect F V) := by
  cases tx with
  | putAllowed id peers =>
    cases peers with
    | none => exact h.remove env _ _
    | some peers => exact h.put env (fun heq => by cases heq) _
  | removeShare | removeDownload => exact h.remove env _ _
  | _ => exact h.put env (fun heq => by cases heq) _

lemma Encodes.commit (h : Encodes F t V) (tx : Tx) : Encodes F (t.commit tx) (tx.effect F V) := by
  have hkey : Function.Injective fun key : ShareId × String => downloadKey key.1 key.2 :=
    fun a b heq => Prod.ext_iff.2 (downloadKey_inj.1 heq)
  have hdownloads : ∀ key : ShareId × String, V .downloads (downloadKey key.1 key.2) =
      (t.downloads.lookup key).map F.download.encode := fun key => h.downloads key.1 key.2
  have hprogress : ∀ key : ShareId × String, V .progress (downloadKey key.1 key.2) =
      (t.progress.lookup key).map F.outboards.encode := fun key => h.progress key.1 key.2
  cases tx with
  | putKinds id kinds =>
    exact { h with kinds := fun id' => View.set_map ShareId.text_injective h.kinds id kinds id' }
  | putSeed id record =>
    exact { h with seeds := fun id' => View.set_map ShareId.text_injective h.seeds id record id' }
  | putAllowed id peers =>
    cases peers with
    | none =>
      exact { h with access := View.clear_map ShareId.text_injective h.access (by simp) id }
    | some peers =>
      exact { h with access := View.set_map ShareId.text_injective h.access id peers }
  | removeShare id =>
    exact { h with
      seeds := View.clear_map ShareId.text_injective h.seeds (by simp) id
      access := View.clear_map ShareId.text_injective h.access (by simp) id
      kinds := View.clear_map ShareId.text_injective h.kinds (by simp) id }
  | putDownload id destDir record =>
    exact { h with
      downloads := fun id' dest' =>
        View.set_map hkey hdownloads (id, destDir) record (id', dest') }
  | putProgress id destDir outboards =>
    exact { h with
      progress := fun id' dest' =>
        View.set_map hkey hprogress (id, destDir) outboards (id', dest') }
  | removeDownload id destDir =>
    exact { h with
      downloads := fun id' dest' =>
        View.clear_map hkey hdownloads (by simp) (id, destDir) (id', dest')
      progress := fun id' dest' =>
        View.clear_map hkey hprogress (by simp) (id, destDir) (id', dest') }

/-- The tables are what the database holds. -/
def Tables.Kept (S : Sealing StorageKey Key NameKey) (F : Formats Code)
    (sealer : Option (Sealer Key NameKey)) (t : Tables) (db : Database Key NameKey) : Prop :=
  ∃ V, Shows S sealer db V ∧ Encodes F t V

/-- A transaction does to the tables what the operation of the store does to the database. -/
theorem Tables.Kept.run (h : t.Kept S F sealer db) (tx : Tx) (env : TxEnv) :
    (if env.fails then t else t.commit tx).Kept S F sealer (tx.run S F sealer env db).1 := by
  obtain ⟨V, hshows, hstores⟩ := h
  refine ⟨_, hshows.tx tx env, ?_⟩
  split_ifs
  · exact hstores
  · exact hstores.commit tx

end Chorrent
