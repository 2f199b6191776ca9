/-
# What is listed of a folder

`collect` lists exactly the files at and below a place, sorted by their names, unless something
there cannot be read or has a name that not every system supports.
-/
import Chorrent.Manifest.FromDisk

namespace Chorrent

open Lib

namespace Tree

/-- What stands at these names below a place. -/
inductive At : Tree → DiskNames → Tree → Prop
  | here (t : Tree) : At t [] t
  | inside {entries : List (Bytes × Tree)} {name : Bytes} {t s : Tree} {names : DiskNames}
      (hmem : (name, t) ∈ entries) (h : At t names s) : At (.dir entries) (name :: names) s

/-- Everything can be read and has a name that every system supports. -/
structure Portable (t : Tree) : Prop where
  readable : ∀ names, ¬ t.At names .unreadable
  named : ∀ names s, t.At names s →
    ∀ name ∈ names, ∃ text, ofUtf8 name = some text ∧ nameProblem text = none

/-- No folder has two entries of one name. -/
def Distinct (t : Tree) : Prop :=
  ∀ names entries, t.At names (.dir entries) → (entries.map Prod.fst).Nodup

/-- The rule of induction: a folder is above its entries. -/
lemma induct {P : Tree → Prop} (hfile : P .file)
    (hdir : ∀ entries, (∀ entry ∈ entries, P entry.2) → P (.dir entries)) (hother : P .other)
    (hunreadable : P .unreadable) : ∀ t, P t := by
  intro t
  refine Tree.rec (motive_1 := P) (motive_2 := fun entries => ∀ entry ∈ entries, P entry.2)
    (motive_3 := fun entry => P entry.2) hfile hdir hother hunreadable ?_ ?_ ?_ t
  · simp
  · intro entry entries hentry hentries e he
    rcases List.mem_cons.1 he with rfl | he
    · exact hentry
    · exact hentries e he
  · exact fun _ _ h => h

variable {entries : List (Bytes × Tree)} {names : DiskNames} {s : Tree}

lemma at_dir_cons {name : Bytes} :
    (Tree.dir entries).At (name :: names) s ↔ ∃ t, (name, t) ∈ entries ∧ t.At names s := by
  constructor
  · intro h
    cases h with
    | inside hmem h => exact ⟨_, hmem, h⟩
  · rintro ⟨t, hmem, h⟩
    exact .inside hmem h

lemma portable_dir : (Tree.dir entries).Portable ↔ ∀ entry ∈ entries,
    (∃ text, ofUtf8 entry.1 = some text ∧ nameProblem text = none) ∧ entry.2.Portable := by
  constructor
  · intro h entry hentry
    have hbelow : ∀ {names s}, entry.2.At names s → (Tree.dir entries).At (entry.1 :: names) s :=
      fun hat => .inside hentry hat
    refine ⟨h.named _ _ (hbelow (.here _)) entry.1 List.mem_cons_self, ⟨fun names hat => ?_, ?_⟩⟩
    · exact h.readable _ (hbelow hat)
    · exact fun names s hat name hname =>
        h.named _ _ (hbelow hat) name (List.mem_cons_of_mem _ hname)
  · intro h
    refine ⟨fun names hat => ?_, fun names s hat name hname => ?_⟩
    · cases hat with
      | inside hmem hat => exact (h _ hmem).2.readable _ hat
    · cases hat with
      | here => cases hname
      | inside hmem hat =>
        rcases List.mem_cons.1 hname with rfl | hname
        · exact (h _ hmem).1
        · exact (h _ hmem).2.named _ _ hat name hname

lemma Distinct.entry (h : (Tree.dir entries).Distinct) {entry : Bytes × Tree}
    (hmem : entry ∈ entries) :
    entry.2.Distinct := fun _ _ hat => h _ _ (.inside hmem hat)

end Tree

/-! ## The order of names -/

/-- The text of a name. -/
def diskText (name : Bytes) : String := (ofUtf8 name).getD ""

/-- A name, as it is sorted. -/
def nameKey (name : Bytes) : List ℕ := name.map UInt8.toNat

/-- Names from a place down, as they are sorted. -/
def namesKey (names : DiskNames) : List (List ℕ) := names.map nameKey

lemma nameKey_injective : Function.Injective nameKey :=
  List.map_injective_iff.2 fun _ _ => UInt8.toNat_inj.1

lemma pairwise_nameKey_lt {α : Type} {listings : List (Bytes × α)}
    (h : (listings.map Prod.fst).Nodup) :
    (listings.mergeSort fun a b => nameLe a.1 b.1).Pairwise fun a b =>
      nameKey a.1 < nameKey b.1 := by
  have hsorted : (listings.mergeSort fun a b => nameLe a.1 b.1).Pairwise fun a b =>
      nameLe a.1 b.1 = true := List.pairwise_mergeSort
    (fun a b c hab hbc => by
      simp only [nameLe, decide_eq_true_eq] at *
      exact hab.trans hbc)
    (fun a b => by
      simp only [nameLe, Bool.or_eq_true, decide_eq_true_eq]
      exact le_total _ _) listings
  have hnodup : ((listings.mergeSort fun a b => nameLe a.1 b.1).map Prod.fst).Nodup :=
    ((List.mergeSort_perm listings _).map _).nodup_iff.2 h
  refine (hsorted.and (List.pairwise_map.1 hnodup)).imp fun {a b} hab => ?_
  have hle : nameKey a.1 ≤ nameKey b.1 := by simpa [nameLe, nameKey] using hab.1
  exact lt_of_le_of_ne hle fun heq => hab.2 (nameKey_injective heq)

/-! ## Listing -/

/-- What `collect` finds. -/
structure Collected (path : DiskNames) (components : List String) (t : Tree)
    (found : List (List String × DiskNames)) : Prop where
  portable : t.Portable
  mem_iff : ∀ file, file ∈ found ↔ ∃ names, t.At names .file ∧
    file = (components ++ names.map diskText, path ++ names)
  sorted : t.Distinct → found.Pairwise fun a b => namesKey a.2 < namesKey b.2

/-- What an entry of a folder lists. -/
def entryListing (path : DiskNames) (components : List String) (entry : Bytes × Tree) :
    Result (List (List String × DiskNames)) := do
  let portable ← portableName (.below (path ++ [entry.1])) (some entry.1)
  collect (path ++ [entry.1]) (components ++ [portable]) entry.2

lemma collectEntries_eq (path : DiskNames) (components : List String)
    (entries : List (Bytes × Tree)) : collectEntries path components entries =
      entries.map fun entry => (entry.1, entryListing path components entry) := by
  induction entries with
  | nil => rw [collectEntries, List.map_nil]
  | cons entry entries ih =>
    obtain ⟨name, tree⟩ := entry
    rw [collectEntries, ih]
    rfl

lemma portableName_iff {path : SeedPath} {name : Bytes} {text : String} :
    portableName path (some name) = .ok text ↔
      ofUtf8 name = some text ∧ nameProblem text = none := by
  rw [portableName]
  cases hname : ofUtf8 name with
  | none => simp
  | some text' =>
    cases hproblem : nameProblem text' with
    | some reason =>
      simp only [hproblem, reduceCtorEq, false_iff, Option.some.injEq]
      rintro ⟨rfl, hnone⟩
      rw [hproblem] at hnone
      cases hnone
    | none =>
      simp only [hproblem, Except.ok.injEq, Option.some.injEq]
      exact ⟨fun h => ⟨h, h ▸ hproblem⟩, fun h => h.1⟩

lemma entryListing_iff {path : DiskNames} {components : List String} {entry : Bytes × Tree}
    {listing : List (List String × DiskNames)} :
    entryListing path components entry = .ok listing ↔
      (∃ text, ofUtf8 entry.1 = some text ∧ nameProblem text = none) ∧
        collect (path ++ [entry.1]) (components ++ [diskText entry.1]) entry.2 = .ok listing := by
  rw [entryListing, except_bind_eq_ok]
  constructor
  · rintro ⟨text, hportable, hcollect⟩
    obtain ⟨htext, hproblem⟩ := portableName_iff.1 hportable
    refine ⟨⟨text, htext, hproblem⟩, ?_⟩
    rwa [diskText, htext]
  · rintro ⟨⟨text, htext, hproblem⟩, hcollect⟩
    rw [diskText, htext] at hcollect
    exact ⟨text, portableName_iff.2 ⟨htext, hproblem⟩, hcollect⟩

lemma pairwise_of_forall₂ {α β : Type} {R : α → β → Prop} {S : α → α → Prop} {T : β → β → Prop}
    (h : ∀ a b a' b', R a b → R a' b' → S a a' → T b b') {as : List α} {bs : List β}
    (hR : List.Forall₂ R as bs) (hS : as.Pairwise S) : bs.Pairwise T := by
  induction hR with
  | nil => exact .nil
  | cons hab hrest ih =>
    rw [List.pairwise_cons] at hS ⊢
    refine ⟨fun b' hb' => ?_, ih hS.2⟩
    obtain ⟨i, hi, rfl⟩ := List.getElem_of_mem hb'
    have hi' := hrest.length_eq ▸ hi
    exact h _ _ _ _ hab (hrest.get hi' hi) (hS.1 _ (List.getElem_mem hi'))

/-- What is listed of a folder is put together from what its entries list. -/
lemma collect_dir_iff {path : DiskNames} {components : List String} {entries : List (Bytes × Tree)}
    {found : List (List String × DiskNames)} :
    collect path components (.dir entries) = .ok found ↔ ∃ lists,
      List.Forall₂ (fun (entry : Bytes × Tree) listing =>
          entryListing path components entry = .ok listing)
        (entries.mergeSort fun a b => nameLe a.1 b.1) lists ∧ found = lists.flatten := by
  have hsorted : (collectEntries path components entries).mergeSort (fun a b => nameLe a.1 b.1) =
      (entries.mergeSort fun a b => nameLe a.1 b.1).map
        fun entry => (entry.1, entryListing path components entry) := by
    rw [collectEntries_eq]
    exact (List.map_mergeSort (r := fun a b : Bytes × Tree => nameLe a.1 b.1)
      (f := fun entry => (entry.1, entryListing path components entry)) fun _ _ _ _ => rfl).symm
  rw [collect, except_bind_eq_ok, hsorted]
  constructor
  · rintro ⟨lists, hlists, h⟩
    cases h
    exact ⟨lists, List.forall₂_map_left_iff.1 (mapM_eq_ok_iff.1 hlists), rfl⟩
  · rintro ⟨lists, hlists, rfl⟩
    exact ⟨lists, mapM_eq_ok_iff.2 (List.forall₂_map_left_iff.2 hlists), rfl⟩

lemma namesKey_append_lt (path : DiskNames) {a b : Bytes} (h : nameKey a < nameKey b)
    (as bs : DiskNames) : namesKey (path ++ a :: as) < namesKey (path ++ b :: bs) := by
  simp only [namesKey, List.map_append, List.map_cons]
  exact List.append_left_lt (List.cons_lt_cons_iff.2 (.inl h))

/-- What a folder lists is what its entries list. -/
lemma Collected.dir {path : DiskNames} {components : List String} {entries : List (Bytes × Tree)}
    (hentries : ∀ entry ∈ entries, ∀ listing, entryListing path components entry = .ok listing →
      (∃ text, ofUtf8 entry.1 = some text ∧ nameProblem text = none) ∧
        Collected (path ++ [entry.1]) (components ++ [diskText entry.1]) entry.2 listing)
    {lists : List (List (List String × DiskNames))}
    (hlists : List.Forall₂ (fun (entry : Bytes × Tree) listing =>
        entryListing path components entry = .ok listing)
      (entries.mergeSort fun a b => nameLe a.1 b.1) lists) :
    Collected path components (.dir entries) lists.flatten := by
  have hmem : ∀ entry, entry ∈ entries.mergeSort (fun a b => nameLe a.1 b.1) ↔ entry ∈ entries :=
    fun entry => List.mem_mergeSort
  -- each entry has its listing, and each listing its entry
  have hof : ∀ entry ∈ entries, ∃ listing ∈ lists,
      entryListing path components entry = .ok listing := by
    intro entry hentry
    obtain ⟨i, hi, rfl⟩ := List.getElem_of_mem ((hmem entry).2 hentry)
    have hi' := hlists.length_eq ▸ hi
    exact ⟨_, List.getElem_mem hi', hlists.get hi hi'⟩
  have hfrom : ∀ listing ∈ lists, ∃ entry ∈ entries,
      entryListing path components entry = .ok listing := by
    intro listing hlisting
    obtain ⟨i, hi, rfl⟩ := List.getElem_of_mem hlisting
    have hi' := hlists.length_eq ▸ hi
    exact ⟨_, (hmem _).1 (List.getElem_mem hi'), hlists.get hi' hi⟩
  refine ⟨Tree.portable_dir.2 fun entry hentry => ?_, fun file => ?_, fun hdistinct => ?_⟩
  · obtain ⟨listing, -, hlisting⟩ := hof entry hentry
    obtain ⟨hname, hcollected⟩ := hentries entry hentry listing hlisting
    exact ⟨hname, hcollected.portable⟩
  · rw [List.mem_flatten]
    constructor
    · rintro ⟨listing, hlisting, hfile⟩
      obtain ⟨entry, hentry, heq⟩ := hfrom listing hlisting
      obtain ⟨names, hat, rfl⟩ := ((hentries entry hentry listing heq).2.mem_iff file).1 hfile
      exact ⟨entry.1 :: names, .inside hentry hat, by simp⟩
    · rintro ⟨names, hat, rfl⟩
      cases hat with
      | @inside _ name t _ names hin hat =>
        obtain ⟨listing, hlisting, heq⟩ := hof (name, t) hin
        refine ⟨listing, hlisting, ((hentries _ hin listing heq).2.mem_iff _).2 ⟨names, hat, ?_⟩⟩
        simp
  · rw [List.pairwise_flatten]
    constructor
    · intro listing hlisting
      obtain ⟨entry, hentry, heq⟩ := hfrom listing hlisting
      exact (hentries entry hentry listing heq).2.sorted (hdistinct.entry hentry)
    · have hkeys := pairwise_nameKey_lt (hdistinct [] entries (.here _))
      have hboth :
          List.Forall₂ (fun (entry : Bytes × Tree) (listing : List (List String × DiskNames)) =>
          ∀ file ∈ listing, ∃ names, file.2 = path ++ entry.1 :: names)
          (entries.mergeSort fun a b => nameLe a.1 b.1) lists := by
        refine List.forall₂_iff_get.2 ⟨hlists.length_eq, fun i hi hi' file hfile => ?_⟩
        have hin := (hmem _).1 (List.getElem_mem hi)
        obtain ⟨names, -, rfl⟩ := ((hentries _ hin _ (hlists.get hi hi')).2.mem_iff file).1 hfile
        exact ⟨names, by simp⟩
      refine pairwise_of_forall₂ (fun a l b l' hl hl' hlt file hfile file' hfile' => ?_) hboth hkeys
      obtain ⟨names, hnames⟩ := hl file hfile
      obtain ⟨names', hnames'⟩ := hl' file' hfile'
      rw [hnames, hnames']
      exact namesKey_append_lt path hlt names names'

/-- Something is listed exactly if everything there can be read and shared, and then it is the
files that are there, in their order. -/
theorem collect_spec : ∀ (t : Tree) (path : DiskNames) (components : List String),
    (∀ found, collect path components t = .ok found → Collected path components t found) ∧
      (t.Portable → ∃ found, collect path components t = .ok found) := by
  refine Tree.induct ?_ ?_ ?_ ?_
  · intro path components
    refine ⟨fun found h => ?_, fun _ => ⟨_, by rw [collect]⟩⟩
    rw [collect] at h
    cases h
    refine ⟨⟨fun names hat => (by cases hat), ?_⟩, fun file => ?_, fun _ => by simp⟩
    · intro names s hat name hname
      cases hat
      cases hname
    · rw [List.mem_singleton]
      constructor
      · rintro rfl
        exact ⟨[], .here _, by simp⟩
      · rintro ⟨names, hat, rfl⟩
        cases hat
        simp
  · intro entries ih path components
    constructor
    · intro found h
      obtain ⟨lists, hlists, rfl⟩ := collect_dir_iff.1 h
      refine Collected.dir (fun entry hentry listing hlisting => ?_) hlists
      obtain ⟨hname, hcollect⟩ := entryListing_iff.1 hlisting
      exact ⟨hname, (ih entry hentry _ _).1 listing hcollect⟩
    · intro hportable
      have hall : ∀ entry ∈ entries,
          ∃ listing, entryListing path components entry = .ok listing := by
        intro entry hentry
        obtain ⟨hname, hbelow⟩ := Tree.portable_dir.1 hportable entry hentry
        obtain ⟨listing, hlisting⟩ := (ih entry hentry (path ++ [entry.1])
          (components ++ [diskText entry.1])).2 hbelow
        exact ⟨listing, entryListing_iff.2 ⟨hname, hlisting⟩⟩
      choose! listing hlisting using hall
      refine ⟨_, collect_dir_iff.2
        ⟨(entries.mergeSort fun a b => nameLe a.1 b.1).map listing, ?_, rfl⟩⟩
      rw [List.forall₂_map_right_iff, List.forall₂_same]
      exact fun entry hentry => hlisting entry (List.mem_mergeSort.1 hentry)
  · intro path components
    refine ⟨fun found h => ?_, fun _ => ⟨_, by rw [collect]⟩⟩
    rw [collect] at h
    cases h
    refine ⟨⟨fun names hat => (by cases hat), ?_⟩, fun file => ?_, fun _ => .nil⟩
    · intro names s hat name hname
      cases hat
      cases hname
    · constructor
      · intro hfile
        cases hfile
      · rintro ⟨names, hat, -⟩
        cases hat
  · intro path components
    constructor
    · intro found h
      rw [collect] at h
      cases h
    · exact fun hportable => absurd (.here _) (hportable.readable [])

/-- A path, as it is sorted. -/
def pathKey (path : List String) : List (List ℕ) := namesKey (path.map utf8)

/-- The files below a place are these, sorted, and everything there can be shared. -/
structure Tree.Lists (t : Tree) (name : String) (paths : List (List String)) : Prop where
  portable : t.Portable
  mem_iff : ∀ path, path ∈ paths ↔ ∃ names, t.At names .file ∧ path = name :: names.map diskText
  sorted : paths.Pairwise fun a b => pathKey a < pathKey b

lemma Tree.Portable.map_utf8 {t s : Tree} (h : t.Portable) {names : DiskNames}
    (hat : t.At names s) :
    (names.map diskText).map utf8 = names := by
  rw [List.map_map]
  refine (List.map_congr_left fun name hname => ?_).trans (List.map_id names)
  obtain ⟨text, htext, -⟩ := h.named names s hat name hname
  rw [Function.comp_apply, diskText, htext]
  exact utf8_of_ofUtf8 htext

/-- What is listed is what there is. -/
theorem collect_paths_iff {t : Tree} {name : String} {paths : List (List String)}
    (hdistinct : t.Distinct) :
    (∃ found, collect [] [name] t = .ok found ∧ found.map Prod.fst = paths) ↔
      t.Lists name paths := by
  have hcollected : ∀ found, collect [] [name] t = .ok found →
      t.Lists name (found.map Prod.fst) := by
    intro found hfound
    have h := (collect_spec t [] [name]).1 found hfound
    refine ⟨h.portable, fun path => ?_, ?_⟩
    · simp only [List.mem_map, h.mem_iff]
      constructor
      · rintro ⟨_, ⟨names, hat, rfl⟩, rfl⟩
        exact ⟨names, hat, rfl⟩
      · rintro ⟨names, hat, rfl⟩
        exact ⟨_, ⟨names, hat, rfl⟩, rfl⟩
    · rw [List.pairwise_map]
      refine (h.sorted hdistinct).imp_of_mem fun {a b} ha hb hlt => ?_
      obtain ⟨names, hat, rfl⟩ := (h.mem_iff a).1 ha
      obtain ⟨names', hat', rfl⟩ := (h.mem_iff b).1 hb
      simp only [pathKey, List.singleton_append, List.map_cons, namesKey]
      refine List.cons_lt_cons_iff.2 (.inr ⟨rfl, ?_⟩)
      rw [h.portable.map_utf8 hat, h.portable.map_utf8 hat']
      exact hlt
  constructor
  · rintro ⟨found, hfound, rfl⟩
    exact hcollected found hfound
  · intro h
    obtain ⟨found, hfound⟩ := (collect_spec t [] [name]).2 h.portable
    refine ⟨found, hfound, ?_⟩
    have hlists := hcollected found hfound
    have hnodup : ∀ {l : List (List String)}, l.Pairwise (fun a b => pathKey a < pathKey b) →
        l.Nodup := fun hsorted => List.Pairwise.imp (fun hlt => by
      rintro rfl
      exact lt_irrefl _ hlt) hsorted
    -- sorted lists of the same paths are the same
    refine List.Perm.eq_of_pairwise (fun a b _ _ hab hba => absurd hba hab.asymm) hlists.sorted
      h.sorted ((List.perm_ext_iff_of_nodup (hnodup hlists.sorted) (hnodup h.sorted)).2
        fun path => ?_)
    rw [hlists.mem_iff, h.mem_iff]

end Chorrent
