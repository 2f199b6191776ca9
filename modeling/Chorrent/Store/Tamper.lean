/-
# A tampered database

Somebody without the storage key may change a sealed database in any way.  By the
authenticity of the cipher, what still decrypts was sealed before, bound to the table and the
name it was stored under; so whatever a store then reads was put under the table and name it
is read as.
-/
import Chorrent.Lib.Except
import Chorrent.Store.Format

namespace Chorrent

open Lib

variable {StorageKey Key NameKey Code : Type} {S : Sealing StorageKey Key NameKey}
  {F : Formats Code} {sealer : Option (Sealer Key NameKey)} {db db' : Database Key NameKey}
  {dir : DataDir Key NameKey}

/-! ## What was put -/

/-- The puts of `db'` that are not in `db` are of the listed values. -/
def PutsOnly (values : List (Table × String × Bytes)) (db db' : Database Key NameKey) : Prop :=
  ∀ p ∈ db'.puts, p ∈ db.puts ∨ (p.table, p.name, p.value) ∈ values

lemma Op.putsOnly (op : Op Code) (env : ℕ → TxEnv) :
    PutsOnly (op.puts F) db (op.apply S F sealer env db).1 := by
  refine Op.respects ⟨fun _ _ => Or.inl, fun h h' p hp => (h' p hp).elim (h p) Or.inr,
    fun env db table name value h => ?_, fun env db tables name _ => ?_⟩ env
  · rw [Store.put_eq]
    intro p hp
    rcases List.mem_cons.1 hp with rfl | hp
    · exact Or.inr h
    · exact Or.inl hp
  · rw [Store.remove_eq]
    split_ifs <;> exact fun _ => Or.inl

lemma Opened.puts_eq {failed : Prop} {storageKey : Option StorageKey}
    {r : Result (Option (Sealer Key NameKey))} (h : Opened S failed db storageKey db' r) :
    db'.puts = db.puts := by
  cases h <;> rfl

lemma DataDir.puts_open (env : ℕ → TxEnv) (storageKey : Option StorageKey) :
    (dir.open S env storageKey).1.db.puts = dir.db.puts := by
  rw [DataDir.open]
  split
  · rfl
  · have hopen := (Store.open_opened S dir.db env storageKey).puts_eq
    split <;> rename_i hres <;> rw [hres] at hopen <;> exact hopen

/-- Everything that was put was put by some operation. -/
lemma exists_call_of_mem_puts {events : List (DirEvent StorageKey Code)}
    (hrun : Run (DirStep S F) .fresh events dir) : ∀ p ∈ dir.db.puts, ∃ op env,
      .call op env ∈ events ∧ (p.table, p.name, p.value) ∈ op.puts F := by
  let P := fun (events : List (DirEvent StorageKey Code)) (dir : DataDir Key NameKey) =>
    ∀ p ∈ dir.db.puts, ∃ op env, DirEvent.call op env ∈ events ∧
      (p.table, p.name, p.value) ∈ op.puts F
  have hfresh : P [] .fresh := fun p hp => by cases hp
  refine hrun.invariant_history (P := P) (fun events dir event dir' ih hstep p hp => ?_) hfresh
  have hold : p ∈ dir.db.puts → ∃ op env, DirEvent.call op env ∈ events ++ [event] ∧
      (p.table, p.name, p.value) ∈ op.puts F := fun hmem => by
    obtain ⟨op, env, hcall, hput⟩ := ih p hmem
    exact ⟨op, env, List.mem_append_left _ hcall, hput⟩
  cases hstep with
  | «open» storageKey env =>
    rw [DataDir.puts_open] at hp
    exact hold hp
  | @call op env sealer hsession =>
    rcases op.putsOnly env p hp with hmem | hput
    · exact hold hmem
    · exact ⟨op, env, by simp, hput⟩
  | close => exact hold hp

/-! ## Reading a tampered database -/

/-- Authenticity of the cipher: a record of the tables that decrypts under the key, with
whatever associated data, was sealed under it before, with that associated data. -/
def AuthenticTables (S : Sealing StorageKey Key NameKey) (key : StorageKey)
    (puts : List (Put Key NameKey)) (tables : Table → Records) : Prop :=
  ∀ (table : Table) (stored : String) (bytes aad plain : Bytes),
    (tables table).lookup stored = some bytes →
    S.cipher.decrypt (S.valuesKey key) (bytes.take nonceSize) aad (bytes.drop nonceSize) =
      some plain →
    ∃ p ∈ puts, p.sealer = some (.new S key) ∧ aad = joinZero p.table.name (p.storedName S) ∧
      plain = S.pack p.name p.value

lemma Sealer.open_eq_ok {sealer : Sealer Key NameKey} {table : Table} {stored name : String}
    {bytes value : Bytes} (h : sealer.open S table stored bytes = .ok (name, value)) :
    ∃ plain, S.cipher.decrypt sealer.cipher (bytes.take nonceSize) (joinZero table.name stored)
      (bytes.drop nonceSize) = some plain ∧ S.unpack plain = some (name, value) := by
  rw [Sealer.open] at h
  split_ifs at h
  simp only at h
  split at h
  · cases h
  · rename_i plain hdecrypt
    split at h
    · cases h
    · rename_i r hunpack
      obtain rfl := Except.ok.inj h
      exact ⟨plain, hdecrypt, hunpack⟩

/-- A record that opens has the name and the value of a put under its table. -/
lemma AuthenticTables.of_open {key : StorageKey} {puts : List (Put Key NameKey)}
    {tables : Table → Records} (hauth : AuthenticTables S key puts tables) {table : Table}
    {stored name : String} {bytes value : Bytes}
    (hlookup : (tables table).lookup stored = some bytes)
    (hopen : (Sealer.new S key).open S table stored bytes = .ok (name, value)) :
    ∃ p ∈ puts, p.table = table ∧ p.name = name ∧ p.value = value := by
  obtain ⟨plain, hdecrypt, hunpack⟩ := Sealer.open_eq_ok hopen
  obtain ⟨p, hp, -, haad, rfl⟩ := hauth table stored bytes _ plain hlookup hdecrypt
  rw [S.unpack_pack] at hunpack
  obtain ⟨hname, hvalue⟩ := Prod.mk.inj (Option.some.inj hunpack)
  obtain ⟨htable, -⟩ := joinZero_inj table.zero_notMem_name p.table.zero_notMem_name haad
  exact ⟨p, hp, Table.name_injective htable.symm, hname, hvalue⟩

/-- The value was put under the table and the name, by an operation of the history. -/
def PutBefore (F : Formats Code) (events : List (DirEvent StorageKey Code))
    (puts : List (Put Key NameKey)) (table : Table) (name : String) (value : Bytes) : Prop :=
  (∃ op env, .call op env ∈ events ∧ (table, name, value) ∈ op.puts F) ∧
    ∃ p ∈ puts, p.table = table ∧ p.name = name ∧ p.value = value

/-- A tampered sealed database cannot supply foreign values.  Whatever somebody without the key
made of the tables, every value read was put under exactly that table and name, and so was
every value listed. -/
theorem tampered_supplies_nothing (S : Sealing StorageKey Key NameKey) (F : Formats Code)
    {events : List (DirEvent StorageKey Code)} (hrun : Run (DirStep S F) .fresh events dir)
    {key : StorageKey} {tables : Table → Records} (hauth : AuthenticTables S key dir.db.puts tables)
    (env : TxEnv) (table : Table) :
    (∀ name value, Store.get S (some (.new S key)) env { dir.db with tables } table name =
      .ok (some value) → PutBefore F events dir.db.puts table name value) ∧
      ∀ listed, Store.entries S (some (.new S key)) env { dir.db with tables } table =
        .ok listed → ∀ name value, (name, value) ∈ listed →
        PutBefore F events dir.db.puts table name value := by
  have hput : ∀ {stored name bytes value}, (tables table).lookup stored = some bytes →
      (Sealer.new S key).open S table stored bytes = .ok (name, value) →
      PutBefore F events dir.db.puts table name value := by
    intro stored name bytes value hlookup hopen
    obtain ⟨p, hp, rfl, rfl, rfl⟩ := hauth.of_open hlookup hopen
    exact ⟨exists_call_of_mem_puts hrun p hp, p, hp, rfl, rfl, rfl⟩
  refine ⟨fun name value hget => ?_, fun listed hlisted name value hmem => ?_⟩
  · rw [Store.get, Database.rawGet] at hget
    split_ifs at hget
    simp only at hget
    cases hlookup : (tables table).lookup (Store.storedName S (some (.new S key)) table name) with
    | none =>
      simp only [hlookup] at hget
      cases hget
    | some bytes =>
      simp only [hlookup] at hget
      split at hget
      · cases hget
      · rename_i realName value' hopen
        split_ifs at hget with hname
        obtain rfl := Option.some.inj (Except.ok.inj hget)
        rw [not_not] at hname
        subst hname
        exact hput hlookup hopen
  · rw [Store.entries] at hlisted
    split_ifs at hlisted
    obtain ⟨⟨stored, bytes⟩, hentry, hopen⟩ := exists_of_mem_mapM hlisted hmem
    exact hput (Records.mem_iter.1 hentry) hopen

/-! ## A record moved to another table -/

namespace Moved

def id : ShareId := ⟨List.replicate 32 5, rfl⟩

/-- The associated data of the only record. -/
def aad : Bytes :=
  joinZero "access" ((Sealer.new referenceSealing SetUp.key).name referenceSealing .access id.text)

/-- A cipher that tells these data from all others. -/
def cipher : Aead Bytes 16 :=
  .ofTag (fun _ a => List.replicate 16 (if a = aad then 1 else 0)) fun _ _ => by simp

def sealing : Sealing Bytes Bytes Bytes := { referenceSealing with cipher := cipher }

def events : List (DirEvent Bytes ShareId) :=
  [.open (some SetUp.key) SetUp.env, .call (.rememberAllowed id (some [])) SetUp.env]

def storeSealer : Option (Sealer Bytes Bytes) := some (.new sealing SetUp.key)

def opened : DataDir Bytes Bytes := (DataDir.open sealing SetUp.env .fresh (some SetUp.key)).1

/-- The data dir with the allowlist of one share. -/
def honest : DataDir Bytes Bytes :=
  ⟨((Op.rememberAllowed id (some [])).apply sealing referenceFormats storeSealer SetUp.env
    opened.db).1, some storeSealer⟩

lemma run_honest : Run (DirStep sealing referenceFormats) .fresh events honest :=
  .cons (.open (some SetUp.key) SetUp.env)
    (.cons (.call (.rememberAllowed id (some [])) SetUp.env rfl) (.nil _))

/-- The record of the allowlist, also copied to the table of the seeds. -/
def tables : Table → Records :=
  Function.update honest.db.tables .seeds (honest.db.tables .access)

/-- The sealed record. -/
def record : Bytes :=
  (⟨storeSealer, (SetUp.env 0).nonce, .access, id.text, [0]⟩ : Put Bytes Bytes).bytes sealing

lemma mem_tables (table : Table) :
    ∀ e ∈ (tables table).entries, e.2 ∈ [sealedV1, SetUp.key, record] := by
  cases table <;> decide +kernel

lemma authentic : AuthenticTables sealing SetUp.key honest.db.puts tables := by
  intro table stored bytes a plain hlookup hdecrypt
  have hmem := mem_tables table _ (AList.mem_lookup_iff.1 hlookup)
  simp only [List.mem_cons, List.not_mem_nil, or_false] at hmem
  have hshort : ∀ c : Bytes, c = [] →
      cipher.decrypt SetUp.key (bytes.take nonceSize) a c = none := by
    rintro c rfl
    by_cases ha : a = aad <;> simp [cipher, Aead.ofTag, ha, List.replicate]
  rcases hmem with rfl | rfl | rfl
  · cases (hshort _ rfl).symm.trans hdecrypt
  · cases (hshort _ rfl).symm.trans hdecrypt
  · have hsealed : record.drop nonceSize =
        packName (utf8 Moved.id.text) [0] ++ List.replicate 16 1 := by decide +kernel
    have hencrypt : record.drop nonceSize = plain ++ List.replicate 16 (if a = aad then 1 else 0) :=
      (cipher.decrypt_eq_some _ _ _ _ _).1 hdecrypt
    obtain ⟨rfl, htag⟩ := List.append_inj' (hsealed.symm.trans hencrypt) (by simp)
    have ha : a = aad := by
      by_contra hne
      rw [if_neg hne] at htag
      exact absurd htag (by decide)
    exact ⟨_, List.mem_singleton_self _, rfl, ha, rfl⟩

end Moved

open Moved in
/-- The record is read as what was put, and not from where it was copied to. -/
theorem tampered_supplies_nothing_moved :
    PutBefore referenceFormats events honest.db.puts .access Moved.id.text [0] ∧
      Store.get sealing storeSealer (SetUp.env 0) { honest.db with tables } .seeds Moved.id.text =
        .ok none :=
  ⟨(tampered_supplies_nothing sealing referenceFormats run_honest authentic (SetUp.env 0)
    .access).1 _ _ (by decide +kernel), by decide +kernel⟩

end Chorrent
