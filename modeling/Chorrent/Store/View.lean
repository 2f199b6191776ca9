/-
# What a store holds

To its caller a store is a map from tables and names to values.  A database shows such a map
through a sealer, or without one: under the stored name of each name that has a value lies a
record that reads as it, and nothing else lies there.  The operations of the store act on the
map, whichever way the database is stored.
-/
import Chorrent.Lib.Except
import Chorrent.Store.Format

namespace Chorrent

open Lib

variable {StorageKey Key NameKey Code : Type} {S : Sealing StorageKey Key NameKey}
  {F : Formats Code} {sealer : Option (Sealer Key NameKey)} {db db' : Database Key NameKey}
  {table : Table} {name : String} {value : Bytes}

/-- The value of each name in each table. -/
abbrev View := Table → String → Option Bytes

namespace View

def set (V : View) (table : Table) (name : String) (value : Bytes) : View := fun t n =>
  if t = table ∧ n = name then some value else V t n

/-- No value for a name in some tables. -/
def clear (V : View) (tables : List Table) (name : String) : View := fun t n =>
  if t ∈ tables ∧ n = name then none else V t n

/-- All names of a table that have a value, with it. -/
structure Lists (V : View) (table : Table) (listed : List (String × Bytes)) : Prop where
  nodup : (listed.map Prod.fst).Nodup
  mem_iff : ∀ name value, (name, value) ∈ listed ↔ V table name = some value

/-- Two lists of the same table differ in their order only. -/
lemma Lists.perm {V : View} {listed listed' : List (String × Bytes)} (h : V.Lists table listed)
    (h' : V.Lists table listed') : listed.Perm listed' := by
  rw [List.perm_ext_iff_of_nodup h.nodup.of_map h'.nodup.of_map]
  rintro ⟨name, value⟩
  rw [h.mem_iff, h'.mem_iff]

end View

/-- A name as the program uses it: of the table `meta` it only knows the node's key. -/
def IsName (table : Table) (name : String) : Prop := table = .meta → name = nodeKeyName

lemma isName_of_ne {table : Table} {name : String} (h : table ≠ .meta) : IsName table name :=
  fun htable => absurd htable h

/-- The record that stands for a name and a value. -/
def Holds (S : Sealing StorageKey Key NameKey) (sealer : Option (Sealer Key NameKey))
    (table : Table) (name : String) (value bytes : Bytes) : Prop :=
  match sealer with
  | none => bytes = value
  | some sealer => ∃ nonce, bytes = sealer.seal S nonce table (sealer.name S table name) name value

/-- The database shows the map. -/
structure Shows (S : Sealing StorageKey Key NameKey) (sealer : Option (Sealer Key NameKey))
    (db : Database Key NameKey) (V : View) : Prop where
  lookup : ∀ table name, IsName table name →
    Option.Rel (fun bytes value => Holds S sealer table name value bytes)
      ((db.tables table).lookup (Store.storedName S sealer table name)) (V table name)
  named : ∀ table stored, table ≠ .meta → stored ∈ db.tables table →
    ∃ name, stored = Store.storedName S sealer table name

/-! ## Names and records -/

variable (S sealer table) in
lemma storedName_injective : Function.Injective (Store.storedName S sealer table) := by
  intro a b h
  cases sealer with
  | none => exact h
  | some sealer =>
    have hjoin := S.keyedHash_injective _ (hex_injective h)
    exact (joinZero_inj table.zero_notMem_name table.zero_notMem_name hjoin).2

/-- What was sealed is opened. -/
lemma Sealer.open_seal (sealer : Sealer Key NameKey) (nonce : List.Vector UInt8 nonceSize)
    (stored : String) :
    sealer.open S table stored (sealer.seal S nonce table stored name value) =
      .ok (name, value) := by
  have hlen : nonce.toList.length = nonceSize := nonce.toList_length
  rw [Sealer.open, Sealer.seal, if_neg (by rw [List.length_append, hlen]; omega)]
  simp only [List.take_left' hlen, List.drop_left' hlen, S.cipher.decrypt_encrypt, S.unpack_pack]

lemma Put.holds (p : Put Key NameKey) :
    Holds S p.sealer p.table p.name p.value (p.bytes S) := by
  obtain ⟨sealer, nonce, table, name, value⟩ := p
  cases sealer with
  | none => exact rfl
  | some sealer => exact ⟨nonce, rfl⟩

/-- A database in which everything is where it was put shows some map. -/
lemma Uniform.exists_shows (h : Uniform S sealer db) : ∃ V, Shows S sealer db V := by
  have hvalue : ∀ table name, ∃ value, IsName table name →
      Option.Rel (fun bytes value => Holds S sealer table name value bytes)
        ((db.tables table).lookup (Store.storedName S sealer table name)) value := by
    intro table name
    by_cases hname : IsName table name
    · cases hlookup : (db.tables table).lookup (Store.storedName S sealer table name) with
      | none => exact ⟨none, fun _ => .none⟩
      | some bytes =>
        obtain ⟨p, -, rfl, rfl, hstored, rfl⟩ :=
          h table _ bytes hlookup (storedName_ne_marker S sealer hname)
        have hsame : p.name = name := storedName_injective S p.sealer p.table hstored
        exact ⟨some p.value, fun _ => .some (hsame ▸ p.holds)⟩
    · exact ⟨none, fun hn => absurd hn hname⟩
  choose V hV using hvalue
  refine ⟨V, hV, fun table stored htable hmem => ?_⟩
  obtain ⟨bytes, hlookup⟩ := Option.isSome_iff_exists.1 (AList.lookup_isSome.2 hmem)
  obtain ⟨p, -, rfl, rfl, rfl, -⟩ := h table stored bytes hlookup fun hmarker => htable hmarker.1
  exact ⟨p.name, rfl⟩

/-! ## The three accesses and the listing -/

lemma Shows.get {V : View} (h : Shows S sealer db V) (env : TxEnv) (hname : IsName table name) :
    Store.get S sealer env db table name =
      if env.fails then .error (storageErr .database) else .ok (V table name) := by
  have hrel := h.lookup table name hname
  rw [Store.get, Database.rawGet]
  generalize (db.tables table).lookup (Store.storedName S sealer table name) = found at hrel ⊢
  generalize V table name = expected at hrel ⊢
  cases env.fails with
  | true => rfl
  | false =>
    cases hrel with
    | none => rfl
    | @some bytes value hholds =>
      cases sealer with
      | none =>
        obtain rfl : bytes = value := hholds
        rfl
      | some sealer =>
        obtain ⟨nonce, rfl⟩ := hholds
        simp only [Store.storedName, Sealer.open_seal, Bool.false_eq_true, ne_eq, not_true_eq_false,
          if_false]

lemma Shows.put {V : View} (h : Shows S sealer db V) (env : TxEnv) (hname : IsName table name)
    (value : Bytes) :
    Shows S sealer (Store.put S sealer env db table name value).1
      (if env.fails then V else V.set table name value) := by
  rw [Store.put_eq]
  cases hfails : env.fails with
  | true => exact ⟨h.lookup, h.named⟩
  | false =>
    refine ⟨fun t n hn => ?_, fun t stored ht hmem => ?_⟩
    · by_cases htable : t = table
      · subst htable
        by_cases hsame : n = name
        · subst hsame
          simp only [Database.record, Bool.false_eq_true, if_false, Function.update_self,
            Put.storedName, AList.lookup_insert, View.set, and_self, if_true]
          exact .some (Put.holds ⟨sealer, env.nonce, t, n, value⟩)
        · have hne := (storedName_injective S sealer t).ne hsame
          simp only [Database.record, Bool.false_eq_true, if_false, Function.update_self,
            Put.storedName, AList.lookup_insert_ne hne, View.set, hsame, and_false]
          exact h.lookup t n hn
      · simp only [Database.record, Bool.false_eq_true, if_false, Function.update_of_ne htable,
          View.set, htable, false_and]
        exact h.lookup t n hn
    · simp only [Database.record, Bool.false_eq_true, if_false] at hmem
      by_cases htable : t = table
      · subst htable
        rw [Function.update_self, AList.mem_insert] at hmem
        rcases hmem with rfl | hmem
        · exact ⟨name, rfl⟩
        · exact h.named t stored ht hmem
      · rw [Function.update_of_ne htable] at hmem
        exact h.named t stored ht hmem

lemma Shows.remove {V : View} (h : Shows S sealer db V) (env : TxEnv) (tables : List Table)
    (name : String) :
    Shows S sealer (Store.remove S sealer env db tables name).1
      (if env.fails then V else V.clear tables name) := by
  rw [Store.remove_eq]
  cases hfails : env.fails with
  | true => exact ⟨h.lookup, h.named⟩
  | false =>
    simp only [Bool.false_eq_true, if_false]
    refine ⟨fun t n hn => ?_, fun t stored ht hmem => ?_⟩
    · by_cases htable : t ∈ tables
      · simp only [htable, if_true, View.clear, true_and]
        by_cases hsame : n = name
        · rw [if_pos hsame, hsame, AList.lookup_erase]
          exact .none
        · have hne := (storedName_injective S sealer t).ne hsame
          rw [if_neg hsame, AList.lookup_erase_ne hne]
          exact h.lookup t n hn
      · simp only [htable, if_false, View.clear, false_and]
        exact h.lookup t n hn
    · refine h.named t stored ht ?_
      dsimp only at hmem
      split_ifs at hmem
      · exact (AList.mem_erase.1 hmem).2
      · exact hmem

lemma Records.nodup_iter (records : Records) : (records.iter.map Prod.fst).Nodup := by
  have hperm : (records.iter.map Prod.fst).Perm records.keys := by
    rw [Records.iter]
    refine ((List.perm_insertionSort _ _).map Prod.fst).trans ?_
    rw [List.map_map]
    exact .refl _
  exact hperm.nodup_iff.2 records.nodupKeys

/-- A record of a table reads as a name with its value. -/
lemma Shows.open_entry {V : View} (h : Shows S sealer db V) (htable : table ≠ .meta)
    (entry : String × Bytes) (hentry : entry ∈ (db.tables table).iter) :
    ∃ r, Store.openEntry S sealer table entry = .ok r ∧
      entry.1 = Store.storedName S sealer table r.1 ∧ V table r.1 = some r.2 := by
  obtain ⟨stored, bytes⟩ := entry
  have hlookup := Records.mem_iter.1 hentry
  obtain ⟨name, rfl⟩ := h.named table stored htable (AList.lookup_isSome.1 (by simp [hlookup]))
  have hrel := h.lookup table name fun h => absurd h htable
  rw [hlookup] at hrel
  obtain ⟨value, hvalue, hholds⟩ : ∃ value, V table name = some value ∧
      Holds S sealer table name value bytes := by
    generalize V table name = expected at hrel ⊢
    cases hrel with
    | some hholds => exact ⟨_, rfl, hholds⟩
  refine ⟨(name, value), ?_, rfl, hvalue⟩
  cases sealer with
  | none =>
    obtain rfl : bytes = value := hholds
    rfl
  | some sealer =>
    obtain ⟨nonce, rfl⟩ := hholds
    exact sealer.open_seal nonce _

/-- A listing is of the map. -/
lemma Shows.entries {V : View} (h : Shows S sealer db V) (htable : table ≠ .meta) :
    ∃ listed, V.Lists table listed ∧ ∀ env, Store.entries S sealer env db table =
      if env.fails then .error (storageErr .database) else .ok listed := by
  have hopen := h.open_entry htable
  choose! read hread hstored hvalue using hopen
  refine ⟨(db.tables table).iter.map read, ⟨?_, fun name value => ?_⟩, fun env => ?_⟩
  · refine List.Nodup.of_map (Store.storedName S sealer table) ?_
    rw [List.map_map, List.map_map]
    have hkeys : (db.tables table).iter.map
        ((Store.storedName S sealer table ∘ Prod.fst) ∘ read) =
        (db.tables table).iter.map Prod.fst :=
      List.map_congr_left fun entry hentry => (hstored entry hentry).symm
    rw [hkeys]
    exact Records.nodup_iter _
  · constructor
    · intro hmem
      obtain ⟨entry, hentry, heq⟩ := List.mem_map.1 hmem
      have := hvalue entry hentry
      rwa [heq] at this
    · intro hsome
      have hrel := h.lookup table name fun h => absurd h htable
      rw [hsome] at hrel
      obtain ⟨bytes, hlookup⟩ : ∃ bytes, (db.tables table).lookup
          (Store.storedName S sealer table name) = some bytes := by
        generalize (db.tables table).lookup (Store.storedName S sealer table name) = found at hrel ⊢
        cases hrel with
        | some hholds => exact ⟨_, rfl⟩
      have hentry := Records.mem_iter.2 hlookup
      have hname := storedName_injective S sealer table (hstored _ hentry)
      have hsame := hvalue _ hentry
      rw [← hname, hsome] at hsame
      exact List.mem_map.2 ⟨_, hentry, Prod.ext hname.symm (Option.some.inj hsame).symm⟩
  · rw [Store.entries]
    cases env.fails with
    | true => rfl
    | false =>
      simp only [Bool.false_eq_true, if_false]
      rw [mapM_eq_ok_iff, List.forall₂_map_right_iff, List.forall₂_same]
      exact hread

end Chorrent
