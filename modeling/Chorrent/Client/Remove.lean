/-
# Removing a share

`remove` stops serving a share, forgets it, and deletes the folder of the store that its root is
in.  The root is that of the share being served, or else of its saved record: what the store holds
of the share in another folder stays, and when a root is spelled as if it were below `blobs`, the
folder it seems to be in is deleted whatever it holds.  A history is a list of calls; what the
operating system finds at a path is a parameter.
-/
import Chorrent.Seed.Stream

namespace Chorrent

open Lib

namespace Path

/-! ## Components -/

/-- The names among the `components`, after the prefix and the root. -/
def parts (p : Path) : List String :=
  if p.isVerbatim then p.segments.filter fun s => s ≠ ""
  else
    -- a dot counts only at the start of a relative path
    (if p.segments.head? = some "." ∧ p.root = false then ["."] else []) ++
      p.segments.filter fun s => s ≠ "" ∧ s ≠ "."

/-- `strip_prefix`: the names that follow those of the folder. -/
def stripFolder (p folder : Path) : Option (List String) :=
  if p.pathPrefix = folder.pathPrefix ∧ p.root = folder.root ∧ folder.parts <+: p.parts then
    some (p.parts.drop folder.parts.length)
  else none

/-- The folder in the store that a root is in, as `remove` works it out. -/
def inStore (os : Os) (root blobs : Path) : Option Path := do
  let rest ← root.stripFolder blobs
  let first ← rest.head?
  return blobs.join os first

lemma parts_join_ordinary (os : Os) (folder : Path) {name : String} (h : Ordinary name) :
    (folder.join os name).parts = folder.parts ++ [name] := by
  obtain ⟨hne, hdot, -, -⟩ := id h
  rw [join_ordinary os folder h, parts, parts]
  have hsame : ({ folder with segments := folder.base ++ [name] } : Path).isVerbatim =
      folder.isVerbatim := rfl
  rw [hsame]
  cases hverbatim : folder.isVerbatim with
  | true => simp [base, hverbatim, hne]
  | false =>
    have hbase : folder.base =
        if folder.segments.getLast? = some "" then folder.segments.dropLast
        else folder.segments := by
      rw [base, if_neg (by rw [hverbatim]; exact Bool.false_ne_true)]
    have hhead : ∀ (init : List String) (last : String), last ≠ "." →
        ((init ++ [last]).head? = some "." ↔ init.head? = some ".") := by
      intro init last hlast
      cases init <;> simp [hlast]
    by_cases hlast : folder.segments.getLast? = some ""
    · obtain ⟨init, hinit⟩ := List.getLast?_eq_some_iff.1 hlast
      rw [hbase, if_pos hlast, hinit, List.dropLast_concat]
      simp only [hhead init name hdot, hhead init "" (by decide), List.filter_append]
      simp [hne, hdot]
    · rw [hbase, if_neg hlast]
      simp only [hhead _ name hdot, List.filter_append]
      simp [hne, hdot]

lemma stripFolder_of_parts {p folder : Path} {names : List String}
    (hdrive : p.pathPrefix = folder.pathPrefix) (hroot : p.root = folder.root)
    (hparts : p.parts = folder.parts ++ names) : p.stripFolder folder = some names := by
  rw [stripFolder, if_pos ⟨hdrive, hroot, hparts ▸ List.prefix_append _ _⟩, hparts,
    List.drop_left]

/-- A folder in the store is found from its own path. -/
lemma inStore_join (os : Os) (blobs : Path) {name : String} (h : Ordinary name) :
    (blobs.join os name).inStore os blobs = some (blobs.join os name) := by
  have hjoin := join_ordinary os blobs h
  rw [inStore, stripFolder_of_parts (by rw [hjoin]) (by rw [hjoin])
    (parts_join_ordinary os blobs h)]
  rfl

/-- And from the path of a file in it. -/
lemma inStore_join_join (os : Os) (blobs : Path) {name file : String} (h : Ordinary name)
    (hfile : Ordinary file) :
    ((blobs.join os name).join os file).inStore os blobs = some (blobs.join os name) := by
  have hjoin := join_ordinary os blobs h
  have hjoin' := join_ordinary os (blobs.join os name) hfile
  rw [inStore, stripFolder_of_parts (by rw [hjoin', hjoin]) (by rw [hjoin', hjoin])
    ((parts_join_ordinary os _ hfile).trans (by rw [parts_join_ordinary os blobs h,
      List.append_assoc]))]
  rfl

end Path

/-! ## The calls of a client -/

/-- The names that lead to a place on disk. -/
abbrev Place := List String

/-- A file with its bytes, or a folder; and the share that the client stored it for, if any. -/
structure StoredNode where
  content : Option Bytes
  storedFor : Option ShareId

/-- A download that is running, and the file or folder it goes to. -/
structure RunningDownload where
  id : ShareId
  root : Path

/-- What a client with a data dir keeps: the roots of the shares it serves, those in the saved
records, and what is on disk. -/
structure Shelf where
  nodes : Place → Option StoredNode
  registry : AList fun _ : ShareId => Path
  seeds : AList fun _ : ShareId => Path
  downloads : List RunningDownload

/-- How a share is seeded. -/
inductive SeedWay where
  /-- `seed_with` in place or without an encrypted store, with what `absolute` makes of the path. -/
  | inPlace (root : Path)
  /-- `seed_with` otherwise, with what was drawn for the new folder. -/
  | copied (random : List.Vector UInt8 8)
  /-- `seed_reader` -/
  | streamed (random : List.Vector UInt8 8) (name : String)

/-- How far the transactions of `forget` get; the record of the seed goes with the first. -/
inductive ForgetEnd where
  | fails
  | stops
  | returns

/-- What `remove` meets. -/
structure RemoveEnv where
  /-- Whether the record of the seed can be read. -/
  readable : Bool
  forget : ForgetEnd
  delete : IoResult Unit
  /-- What is deleted all the same when deleting fails. -/
  deleted : Place → Bool

/-- What a call has stored where: files with their bytes, and folders. -/
abbrev StoredList := List (Place × Option Bytes)

inductive ShelfCall where
  /-- `seed_with` or `seed_reader`, which may be refused once it has stored something, and whose
  record may not be saved. -/
  | seed (id : ShareId) (way : SeedWay) (stored : StoredList) (refused fails : Bool)
  /-- `resume` of a saved seed, or of the only copy of a finished download. -/
  | resume (id : ShareId) (fails : Bool)
  /-- A `Registration` is dropped. -/
  | drop (id : ShareId)
  /-- `download_with`, with what `absolute` makes of the destination, which counts only if the store
  is not encrypted, and the share's name. -/
  | download (id : ShareId) (dest : Path) (name : String)
  /-- Download number `k` stores something. -/
  | store (k : ℕ) (stored : StoredList)
  /-- It registers its share, if the client reseeds. -/
  | register (k : ℕ)
  /-- It has ended, and `finished` was called. -/
  | complete (k : ℕ) (fails : Bool)
  /-- It ends early, or nobody takes its outcome. -/
  | stop (k : ℕ)
  | remove (id : ShareId) (env : RemoveEnv)
  /-- The process ends, and is started again. -/
  | restart

section

variable {Master : Type} (os : Os) (cfg : StoreConfig Master) (reseed : Bool)
  (keyedHash : Master → ShareId → List.Vector UInt8 32) (resolve : Path → Place)

/-- The file or folder that a seeded share is in afterwards. -/
def SeedWay.root : SeedWay → Path
  | .inPlace root => root
  | .copied random => cfg.newShareDir os random
  | .streamed random name =>
      match cfg.key with
      | some _ => cfg.newShareDir os random
      | none => (cfg.newShareDir os random).join os name

/-- The file or folder that a download goes to. -/
def StoreConfig.downloadRoot (id : ShareId) (dest : Path) (name : String) : Path :=
  match cfg.key with
  | some key => cfg.blobs.join os (hex (keyedHash key id).toList)
  | none => dest.join os name

namespace Shelf

variable (s : Shelf)

/-- What is stored for a share. -/
def storing (id : ShareId) (stored : StoredList) : Shelf :=
  let store := fun (nodes : Place → Option StoredNode) (file : Place × Option Bytes) =>
    Function.update nodes file.1 (some ⟨file.2, some id⟩)
  { s with nodes := stored.foldl store s.nodes }

/-- `start_seed`: registers a share and saves its record. -/
def startSeed (id : ShareId) (root : Path) (fails : Bool) : Shelf :=
  if id ∈ s.registry ∨ fails then s
  else { s with registry := s.registry.insert id root, seeds := s.seeds.insert id root }

/-- The transactions of `forget`. -/
def forget (id : ShareId) : ForgetEnd → Shelf × Result Unit
  | .fails => (s, .error (.fail (.storage .database)))
  | .stops => ({ s with seeds := s.seeds.erase id }, .error (.fail (.storage .database)))
  | .returns => ({ s with seeds := s.seeds.erase id }, .ok ())

/-- `remove_dir_all`; when there is no such folder, nothing is below it either. -/
def removeDirAll (dir : Path) (env : RemoveEnv) : Shelf × IoResult Unit :=
  match env.delete with
  | .ok () | .error (.fail .notFound) =>
      ({ s with nodes := fun p => if resolve dir <+: p then none else s.nodes p }, env.delete)
  | .error e =>
      ({ s with nodes := fun p => if resolve dir <+: p ∧ env.deleted p then none else s.nodes p },
        .error e)

/-- The root that `remove` looks up. -/
def rootOf (id : ShareId) (env : RemoveEnv) : Option Path :=
  (s.registry.lookup id).or (if env.readable then s.seeds.lookup id else none)

/-- `Client::remove` -/
def remove (id : ShareId) (env : RemoveEnv) : Shelf × Result Unit :=
  let root := s.rootOf id env
  let s := { s with registry := s.registry.erase id }
  match s.forget id env.forget with
  | (s, .error e) => (s, .error e)
  | (s, .ok ()) =>
      match root.bind fun root => root.inStore os cfg.blobs with
      | none => (s, .ok ())
      | some dir =>
          match s.removeDirAll resolve dir env with
          | (s, .ok ()) | (s, .error (.fail .notFound)) => (s, .ok ())
          | (s, .error e) => (s, IoResult.orError (.io dir) (.error e))

/-- Everything is at or below the root, or on the way to it. -/
def Confined (root : Path) (stored : StoredList) : Prop :=
  ∀ file ∈ stored, file.1 <+: resolve root ∨ resolve root <+: file.1

instance decidableConfined (root : Path) (stored : StoredList) :
    Decidable (Confined resolve root stored) :=
  inferInstanceAs (Decidable (∀ file ∈ stored, _))

/-- What a way of seeding may store: nothing in place. -/
def MayStore (stored : StoredList) : SeedWay → Prop
  | .inPlace _ => stored = []
  | way => Confined resolve (way.root os cfg) stored

instance decidableMayStore (stored : StoredList) :
    (way : SeedWay) → Decidable (MayStore os cfg resolve stored way)
  | .inPlace _ => inferInstanceAs (Decidable (stored = []))
  | .copied _ | .streamed _ _ => inferInstanceAs (Decidable (Confined resolve _ stored))

/-- What a call does. -/
def step : ShelfCall → Option Shelf
  | .seed id way stored refused fails =>
      if MayStore os cfg resolve stored way then
        let s := s.storing id stored
        some (if refused then s else s.startSeed id (way.root os cfg) fails)
      else none
  | .resume id fails => (s.seeds.lookup id).map fun root => s.startSeed id root fails
  | .drop id => some { s with registry := s.registry.erase id }
  | .download id dest name => some { s with
      downloads := s.downloads ++ [⟨id, cfg.downloadRoot os keyedHash id dest name⟩] }
  | .store k stored => do
      let download ← s.downloads[k]?
      if Confined resolve download.root stored then some (s.storing download.id stored) else none
  | .register k => do
      let download ← s.downloads[k]?
      if reseed = false then none
      -- a share that is being served already ends the download
      else if download.id ∈ s.registry then some { s with downloads := s.downloads.eraseIdx k }
      else some { s with registry := s.registry.insert download.id download.root }
  | .complete k fails => do
      let download ← s.downloads[k]?
      let s := { s with downloads := s.downloads.eraseIdx k }
      some (if fails ∨ ¬(reseed ∨ cfg.key.isSome) then s
        else { s with seeds := s.seeds.insert download.id download.root })
  | .stop k => some { s with downloads := s.downloads.eraseIdx k }
  | .remove id env => some (s.remove os cfg resolve id env).1
  | .restart => some { s with registry := ∅, downloads := [] }

/-! ## What belongs to a share -/

/-- The root is in this folder of the store, and is spelled so. -/
def InFolder (root : Path) (name : String) : Prop :=
  root.inStore os cfg.blobs = some (cfg.blobs.join os name) ∧
    resolve (cfg.blobs.join os name) = resolve cfg.blobs ++ [name] ∧
    resolve cfg.blobs ++ [name] <+: resolve root

/-- The folder holds data that was stored for the share. -/
def Holds (nodes : Place → Option StoredNode) (id : ShareId) (name : String) : Prop :=
  ∃ p node, resolve cfg.blobs ++ [name] <+: p ∧ nodes p = some node ∧ node.storedFor = some id

/-- The roots of a share: where it is served from, where it was saved, where it is downloaded to. -/
def Roots (id : ShareId) (root : Path) : Prop :=
  s.registry.lookup id = some root ∨ s.seeds.lookup id = some root ∨ ⟨id, root⟩ ∈ s.downloads

/-- The folder of the store belongs to the share. -/
def Owns (nodes : Place → Option StoredNode) (roots : ShareId → Path → Prop) (id : ShareId)
    (name : String) : Prop :=
  Holds cfg resolve nodes id name ∨ ∃ root, roots id root ∧ InFolder os cfg resolve root name

/-- What removing a share does: nothing in the store was stored for it any more, and what is not
in the store, or in another share's folder there, is as it was. -/
structure Deletes (id : ShareId) (s s' : Shelf) : Prop where
  gone : ∀ name, ¬ Holds cfg resolve s'.nodes id name
  outside : ∀ p, (∀ name, ¬ resolve cfg.blobs ++ [name] <+: p) → s'.nodes p = s.nodes p
  others : ∀ id', id' ≠ id → ∀ name, Owns os cfg resolve s.nodes s.Roots id' name →
    ∀ p, resolve cfg.blobs ++ [name] <+: p → s'.nodes p = s.nodes p

/-! ## Keeping shares apart -/

/-- The place of the root is not in the store, nor on the way to it. -/
def Apart (root : Path) : Prop :=
  ¬ resolve cfg.blobs <+: resolve root ∧ ¬ resolve root <+: resolve cfg.blobs

/-- The call of `seed_with` or `seed_reader` returns. -/
def Seeds (id : ShareId) (refused fails : Bool) : Prop :=
  refused = false ∧ fails = false ∧ id ∉ s.registry

/-- Seeding into the folder of this name: it returns, or has stored nothing. When it returns, the
file it makes there is named as it should be, the folder is new, and nothing of the share was in the
store or is being downloaded. -/
def SeedsInto (id : ShareId) (name : String) (portable : Prop) (stored : StoredList)
    (refused fails : Bool) : Prop :=
  stored = [] ∧ ¬ s.Seeds id refused fails ∨
    portable ∧ s.Seeds id refused fails ∧ (∀ id', ¬ Owns os cfg resolve s.nodes s.Roots id' name) ∧
      (∀ name', ¬ Owns os cfg resolve s.nodes s.Roots id name') ∧ ∀ d ∈ s.downloads, d.id ≠ id

/-- When each share is kept in one folder of the store, which `remove` finds: a path that is shared
in place or downloaded to is not in the store, a stream has a portable name, nothing is stored of a
share that is kept, served or downloaded elsewhere, and a share that is removed is being served or
was saved, unless nothing of it is stored. -/
def Meets : ShelfCall → Prop
  | .seed id (.inPlace root) _ refused fails => s.Seeds id refused fails →
      root.inStore os cfg.blobs = none ∧ ∀ name, ¬ Owns os cfg resolve s.nodes s.Roots id name
  | .seed id (.copied random) stored refused fails =>
      s.SeedsInto os cfg resolve id ("import-" ++ hex random.toList) True stored refused fails
  | .seed id (.streamed random name) stored refused fails =>
      s.SeedsInto os cfg resolve id ("import-" ++ hex random.toList)
        (cfg.key.isSome ∨ nameProblem name = none) stored refused fails
  | .download id dest name =>
      match cfg.key with
      | some key =>
          let folder := hex (keyedHash key id).toList
          (∀ id', Owns os cfg resolve s.nodes s.Roots id' folder → id' = id) ∧
            (∀ name', Owns os cfg resolve s.nodes s.Roots id name' → name' = folder) ∧
            ∀ root, s.Roots id root → InFolder os cfg resolve root folder
      | none =>
          (dest.join os name).inStore os cfg.blobs = none ∧
            Apart cfg resolve (dest.join os name) ∧
            ∀ name', ¬ Owns os cfg resolve s.nodes s.Roots id name'
  | .remove id env => (∃ name, Holds cfg resolve s.nodes id name) →
      id ∈ s.registry ∨ id ∈ s.seeds ∧ env.readable
  | _ => True

/-- Nothing is stored yet. -/
def Starts : Prop :=
  s.registry = ∅ ∧ s.seeds = ∅ ∧ s.downloads = [] ∧
    ∀ p node, s.nodes p = some node → node.storedFor = none

end Shelf

end

/-! ## The invariant -/

section

variable {Master : Type} {os : Os} {cfg : StoreConfig Master} {reseed : Bool}
  {keyedHash : Master → ShareId → List.Vector UInt8 32} {resolve : Path → Place}

namespace Shelf

/-- No folder belongs to two shares, and what belongs to a share is in one folder, with all its
roots. -/
structure Exclusive (os : Os) (cfg : StoreConfig Master) (resolve : Path → Place)
    (nodes : Place → Option StoredNode) (roots : ShareId → Path → Prop) : Prop where
  one_share : ∀ {id id' name}, Owns os cfg resolve nodes roots id name →
    Owns os cfg resolve nodes roots id' name → id = id'
  one_folder : ∀ {id name name'}, Owns os cfg resolve nodes roots id name →
    Owns os cfg resolve nodes roots id name' → name = name'
  roots_in : ∀ {id name root}, Owns os cfg resolve nodes roots id name → roots id root →
    InFolder os cfg resolve root name
  placed : ∀ {id root}, roots id root →
    root.inStore os cfg.blobs = none ∨ ∃ name, InFolder os cfg resolve root name

/-- Besides, every download goes to a folder of the store or keeps out of it. -/
structure Sound (os : Os) (cfg : StoreConfig Master) (resolve : Path → Place) (s : Shelf) :
    Prop where
  exclusive : Exclusive os cfg resolve s.nodes s.Roots
  downloads : ∀ d ∈ s.downloads, (∃ name, InFolder os cfg resolve d.root name) ∨
    Apart cfg resolve d.root

/-- Two folders below `blobs` on the way to one place are one. -/
lemma folder_unique {blobs p : Place} {name name' : String} (h : blobs ++ [name] <+: p)
    (h' : blobs ++ [name'] <+: p) : name = name' := by
  obtain ⟨rest, rfl⟩ := h
  obtain ⟨rest', hrest⟩ := h'
  rw [List.append_assoc, List.append_assoc] at hrest
  exact (List.cons.inj (List.append_cancel_left hrest)).1.symm

lemma InFolder.unique {root : Path} {name name' : String} (h : InFolder os cfg resolve root name)
    (h' : InFolder os cfg resolve root name') : name = name' := folder_unique h.2.2 h'.2.2

variable {nodes nodes' : Place → Option StoredNode} {roots roots' : ShareId → Path → Prop}
  {id : ShareId} {root : Path} {name : String}

/-- Fewer roots, and no more folders that belong to a share. -/
lemma Exclusive.mono (h : Exclusive os cfg resolve nodes roots)
    (howns : ∀ id name, Owns os cfg resolve nodes' roots' id name →
      Owns os cfg resolve nodes roots id name)
    (hroots : ∀ id root, roots' id root → roots id root) :
    Exclusive os cfg resolve nodes' roots' where
  one_share ho ho' := h.one_share (howns _ _ ho) (howns _ _ ho')
  one_folder ho ho' := h.one_folder (howns _ _ ho) (howns _ _ ho')
  roots_in ho hr := h.roots_in (howns _ _ ho) (hroots _ _ hr)
  placed hr := h.placed (hroots _ _ hr)

lemma Owns.mono (hroots : ∀ id root, roots' id root → roots id root)
    (h : Owns os cfg resolve nodes roots' id name) : Owns os cfg resolve nodes roots id name :=
  h.imp_right fun ⟨root, hr, hin⟩ => ⟨root, hroots _ _ hr, hin⟩

/-- The roots with one more. -/
def withRoot (roots : ShareId → Path → Prop) (id : ShareId) (root : Path) (id' : ShareId)
    (root' : Path) : Prop :=
  roots id' root' ∨ id' = id ∧ root' = root

/-- A root that is not in the store, for a share that is not there. -/
lemma Exclusive.withRoot_away (h : Exclusive os cfg resolve nodes roots)
    (haway : root.inStore os cfg.blobs = none)
    (hnone : ∀ name, ¬ Owns os cfg resolve nodes roots id name) :
    Exclusive os cfg resolve nodes (withRoot roots id root) := by
  have howns : ∀ id' name, Owns os cfg resolve nodes (withRoot roots id root) id' name →
      Owns os cfg resolve nodes roots id' name := by
    rintro id' name (hholds | ⟨root', hr | ⟨-, rfl⟩, hin⟩)
    · exact Or.inl hholds
    · exact Or.inr ⟨root', hr, hin⟩
    · cases haway.symm.trans hin.1
  refine ⟨fun ho ho' => h.one_share (howns _ _ ho) (howns _ _ ho'),
    fun ho ho' => h.one_folder (howns _ _ ho) (howns _ _ ho'), fun ho hr => ?_, fun hr => ?_⟩
  · rcases hr with hr | ⟨rfl, rfl⟩
    · exact h.roots_in (howns _ _ ho) hr
    · exact absurd (howns _ _ ho) (hnone _)
  · rcases hr with hr | ⟨rfl, rfl⟩
    · exact h.placed hr
    · exact Or.inl haway

/-- A root in a folder that is the share's, or is new. -/
lemma Exclusive.withRoot_in (h : Exclusive os cfg resolve nodes roots)
    (hin : InFolder os cfg resolve root name)
    (hshare : ∀ id', Owns os cfg resolve nodes roots id' name → id' = id)
    (hfolder : ∀ name', Owns os cfg resolve nodes roots id name' → name' = name)
    (hroots : ∀ root', roots id root' → InFolder os cfg resolve root' name) :
    Exclusive os cfg resolve nodes (withRoot roots id root) := by
  have howns : ∀ id' name', Owns os cfg resolve nodes (withRoot roots id root) id' name' →
      Owns os cfg resolve nodes roots id' name' ∨ id' = id ∧ name' = name := by
    rintro id' name' (hholds | ⟨root', hr | ⟨rfl, rfl⟩, hin'⟩)
    · exact Or.inl (Or.inl hholds)
    · exact Or.inl (Or.inr ⟨root', hr, hin'⟩)
    · exact Or.inr ⟨rfl, hin'.unique hin⟩
  refine ⟨fun ho ho' => ?_, fun ho ho' => ?_, fun ho hr => ?_, fun hr => ?_⟩
  · rcases howns _ _ ho with hold | ⟨hid, hname⟩
    · rcases howns _ _ ho' with hold' | ⟨hid', hname'⟩
      · exact h.one_share hold hold'
      · exact (hshare _ (hname' ▸ hold)).trans hid'.symm
    · rcases howns _ _ ho' with hold' | ⟨hid', -⟩
      · exact hid.trans (hshare _ (hname ▸ hold')).symm
      · exact hid.trans hid'.symm
  · rcases howns _ _ ho with hold | ⟨hid, hname⟩
    · rcases howns _ _ ho' with hold' | ⟨hid', hname'⟩
      · exact h.one_folder hold hold'
      · exact (hfolder _ (hid' ▸ hold)).trans hname'.symm
    · rcases howns _ _ ho' with hold' | ⟨-, hname'⟩
      · exact hname.trans (hfolder _ (hid ▸ hold')).symm
      · exact hname.trans hname'.symm
  · rcases howns _ _ ho with hold | ⟨hid, hname⟩
    · rcases hr with hr | ⟨hid', hroot⟩
      · exact h.roots_in hold hr
      · subst hid'
        rw [hroot, hfolder _ hold]
        exact hin
    · rcases hr with hr | ⟨-, hroot⟩
      · rw [hname]
        exact hroots _ (hid ▸ hr)
      · rw [hname, hroot]
        exact hin
  · rcases hr with hr | ⟨-, hroot⟩
    · exact h.placed hr
    · rw [hroot]
      exact Or.inr ⟨name, hin⟩

/-! ## What is stored -/

lemma storing_cons {s : Shelf} (file : Place × Option Bytes) (stored : StoredList) :
    s.storing id (file :: stored) = storing
      { s with nodes := Function.update s.nodes file.1 (some ⟨file.2, some id⟩) } id stored := rfl

/-- What is found after storing was there before, or was stored for the share. -/
lemma nodes_storing (stored : StoredList) : ∀ (s : Shelf) (p : Place) (node : StoredNode),
    (s.storing id stored).nodes p = some node →
      s.nodes p = some node ∨ node.storedFor = some id ∧ ∃ file ∈ stored, file.1 = p := by
  induction stored with
  | nil => exact fun s p node h => Or.inl h
  | cons file stored ih =>
    intro s p node h
    rw [storing_cons] at h
    rcases ih _ p node h with hnode | ⟨hfor, file', hmem, hp⟩
    · dsimp only at hnode
      by_cases hp : p = file.1
      · rw [hp, Function.update_self] at hnode
        obtain rfl := Option.some.inj hnode
        exact Or.inr ⟨rfl, file, List.mem_cons_self, hp.symm⟩
      · rw [Function.update_of_ne hp] at hnode
        exact Or.inl hnode
    · exact Or.inr ⟨hfor, file', List.mem_cons_of_mem _ hmem, hp⟩

lemma folder_of_confined {stored : StoredList} {file : Place × Option Bytes} {name' : String}
    (h : Confined resolve root stored) (hmem : file ∈ stored)
    (hname : resolve cfg.blobs ++ [name'] <+: file.1) :
    resolve cfg.blobs ++ [name'] <+: resolve root ∨ resolve root <+: file.1 :=
  (h file hmem).imp_left fun hle => hname.trans hle

/-- What is stored at a root that keeps out of the store is not in the store. -/
lemma not_apart_of_confined {stored : StoredList} {file : Place × Option Bytes} {name' : String}
    (h : Confined resolve root stored) (hmem : file ∈ stored)
    (hname : resolve cfg.blobs ++ [name'] <+: file.1) : ¬ Apart cfg resolve root := by
  rintro ⟨hbelow, habove⟩
  have hblobs : resolve cfg.blobs <+: file.1 := (List.prefix_append _ _).trans hname
  rcases folder_of_confined h hmem hname with hle | hle
  · exact hbelow ((List.prefix_append _ _).trans hle)
  · exact (List.prefix_or_prefix_of_prefix hblobs hle).elim hbelow habove

/-- What is stored at a root in a folder of the store is in that folder, if it is in one at all. -/
lemma folder_eq_of_confined {stored : StoredList} {file : Place × Option Bytes} {name' : String}
    (h : Confined resolve root stored) (hmem : file ∈ stored)
    (hname : resolve cfg.blobs ++ [name'] <+: file.1) (hin : InFolder os cfg resolve root name) :
    name' = name := by
  rcases folder_of_confined h hmem hname with hle | hle
  · exact folder_unique hle hin.2.2
  · exact folder_unique hname (hin.2.2.trans hle)

/-- Storing at one of the roots of a share gives it no folder it did not have. -/
lemma owns_storing {s : Shelf} {stored : StoredList} (h : Confined resolve root stored)
    (hroot : roots id root)
    (hplaced : (∃ name, InFolder os cfg resolve root name) ∨ Apart cfg resolve root)
    {id' : ShareId} {name' : String}
    (ho : Owns os cfg resolve (s.storing id stored).nodes roots id' name') :
    Owns os cfg resolve s.nodes roots id' name' := by
  rcases ho with ⟨p, node, hp, hnode, hfor⟩ | hroots
  · rcases nodes_storing stored s p node hnode with hold | ⟨hnew, file, hmem, rfl⟩
    · exact Or.inl ⟨p, node, hp, hold, hfor⟩
    · obtain rfl := Option.some.inj (hfor.symm.trans hnew)
      rcases hplaced with ⟨name, hin⟩ | hapart
      · obtain rfl := folder_eq_of_confined h hmem hp hin
        exact Or.inr ⟨root, hroot, hin⟩
      · exact absurd hapart (not_apart_of_confined h hmem hp)
  · exact Or.inr hroots

/-! ## What a call preserves -/

variable {s s' : Shelf}

/-- A call that adds no root and no folder that belongs to a share. -/
lemma Sound.mono (h : Sound os cfg resolve s)
    (howns : ∀ id name, Owns os cfg resolve s'.nodes s'.Roots id name →
      Owns os cfg resolve s.nodes s.Roots id name)
    (hroots : ∀ id root, s'.Roots id root → s.Roots id root)
    (hdownloads : ∀ d ∈ s'.downloads, d ∈ s.downloads) : Sound os cfg resolve s' :=
  ⟨h.exclusive.mono howns hroots, fun d hd => h.downloads d (hdownloads d hd)⟩

/-- A call that stores nothing and adds no root. -/
lemma Sound.of_roots (h : Sound os cfg resolve s) (hnodes : s'.nodes = s.nodes)
    (hroots : ∀ id root, s'.Roots id root → s.Roots id root)
    (hdownloads : ∀ d ∈ s'.downloads, d ∈ s.downloads) : Sound os cfg resolve s' :=
  h.mono (fun _ _ ho => by rw [hnodes] at ho; exact ho.mono hroots) hroots hdownloads

lemma lookup_insert_cases {registry : AList fun _ : ShareId => Path} {id' : ShareId} {root' : Path}
    (h : (registry.insert id root).lookup id' = some root') :
    registry.lookup id' = some root' ∧ id' ≠ id ∨ id' = id ∧ root' = root := by
  by_cases hid : id' = id
  · subst hid
    rw [AList.lookup_insert] at h
    exact Or.inr ⟨rfl, (Option.some.inj h).symm⟩
  · rw [AList.lookup_insert_ne hid] at h
    exact Or.inl ⟨h, hid⟩

lemma lookup_of_lookup_erase {registry : AList fun _ : ShareId => Path} {id' : ShareId}
    {root' : Path} (h : (registry.erase id).lookup id' = some root') :
    registry.lookup id' = some root' := by
  by_cases hid : id' = id
  · subst hid
    rw [AList.lookup_erase] at h
    cases h
  · rwa [AList.lookup_erase_ne hid] at h

lemma startSeed_of_not_seeds {fails : Bool} (h : ¬ s.Seeds id false fails) :
    s.startSeed id root fails = s := by
  rw [startSeed, if_pos]
  by_contra hno
  rw [not_or, Bool.not_eq_true] at hno
  exact h ⟨rfl, hno.2, hno.1⟩

lemma startSeed_of_seeds {refused fails : Bool} (h : s.Seeds id refused fails) :
    s.startSeed id root fails =
      { s with registry := s.registry.insert id root, seeds := s.seeds.insert id root } := by
  rw [startSeed, if_neg]
  rintro (hmem | hfails)
  · exact h.2.2 hmem
  · rw [h.2.1] at hfails
    cases hfails

/-- Seeding adds the root of the share. -/
lemma roots_startSeed {fails : Bool} {id' : ShareId} {root' : Path}
    (h : (s.startSeed id root fails).Roots id' root') : withRoot s.Roots id root id' root' := by
  by_cases hseeds : s.Seeds id false fails
  · rw [startSeed_of_seeds hseeds] at h
    rcases h with h | h | h
    · exact (lookup_insert_cases h).imp (fun h => Or.inl h.1) fun h => h
    · exact (lookup_insert_cases h).imp (fun h => Or.inr (Or.inl h.1)) fun h => h
    · exact Or.inl (Or.inr (Or.inr h))
  · rw [startSeed_of_not_seeds hseeds] at h
    exact Or.inl h

/-- It leaves the share no other root, unless it is being downloaded. -/
lemma roots_startSeed_of_seeds {refused fails : Bool} {id' : ShareId} {root' : Path}
    (hseeds : s.Seeds id refused fails) (hdownloads : ∀ d ∈ s.downloads, d.id ≠ id)
    (h : (s.startSeed id root fails).Roots id' root') :
    withRoot (fun id' root' => s.Roots id' root' ∧ id' ≠ id) id root id' root' := by
  rw [startSeed_of_seeds hseeds] at h
  rcases h with h | h | h
  · exact (lookup_insert_cases h).imp (fun h => ⟨Or.inl h.1, h.2⟩) fun h => h
  · exact (lookup_insert_cases h).imp (fun h => ⟨Or.inr (Or.inl h.1), h.2⟩) fun h => h
  · exact Or.inl ⟨Or.inr (Or.inr h), hdownloads _ h⟩

lemma downloads_startSeed {fails : Bool} :
    (s.startSeed id root fails).downloads = s.downloads := by
  rw [startSeed]
  split_ifs <;> rfl

lemma nodes_startSeed {fails : Bool} : (s.startSeed id root fails).nodes = s.nodes := by
  rw [startSeed]
  split_ifs <;> rfl

/-- Seeding a share of which nothing is in the store, from elsewhere. -/
lemma Sound.startSeed_away {fails : Bool} (h : Sound os cfg resolve s)
    (hmeets : s.Seeds id false fails → root.inStore os cfg.blobs = none ∧
      ∀ name, ¬ Owns os cfg resolve s.nodes s.Roots id name) :
    Sound os cfg resolve (s.startSeed id root fails) := by
  by_cases hseeds : s.Seeds id false fails
  · obtain ⟨haway, hnone⟩ := hmeets hseeds
    refine ⟨?_, fun d hd => h.downloads d (by rwa [downloads_startSeed] at hd)⟩
    rw [nodes_startSeed]
    exact (h.exclusive.withRoot_away haway hnone).mono
      (fun _ _ ho => ho.mono fun _ _ hr => roots_startSeed hr) fun _ _ hr => roots_startSeed hr
  · rw [startSeed_of_not_seeds hseeds]
    exact h

/-- Seeding a share into a new folder of the store. -/
lemma Sound.seedsInto {stored : StoredList} {portable : Prop} {refused fails : Bool}
    (h : Sound os cfg resolve s) (hconfined : Confined resolve root stored)
    (hin : portable → InFolder os cfg resolve root name)
    (hmeets : s.SeedsInto os cfg resolve id name portable stored refused fails) :
    Sound os cfg resolve (if refused then s.storing id stored
      else (s.storing id stored).startSeed id root fails) := by
  rcases hmeets with ⟨rfl, hseeds⟩ | ⟨hportable, hseeds, hnew, hnone, hdownloads⟩
  · -- nothing happens
    cases refused with
    | true => exact h
    | false =>
      rw [if_neg Bool.false_ne_true]
      exact (startSeed_of_not_seeds hseeds).symm ▸ h
  · obtain rfl := hseeds.1
    have hothers : Exclusive os cfg resolve s.nodes fun id' root' => s.Roots id' root' ∧ id' ≠ id :=
      h.exclusive.mono (fun _ _ ho => ho.mono fun _ _ hr => hr.1) fun _ _ hr => hr.1
    have hwith := hothers.withRoot_in (hin hportable)
      (fun _ ho => absurd (ho.mono fun _ _ hr => hr.1) (hnew _))
      (fun _ ho => absurd (ho.mono fun _ _ hr => hr.1) (hnone _)) fun _ hr => absurd rfl hr.2
    have hroots : ∀ id' root', ((s.storing id stored).startSeed id root fails).Roots id' root' →
        withRoot (fun id' root' => s.Roots id' root' ∧ id' ≠ id) id root id' root' :=
      fun _ _ hr => roots_startSeed_of_seeds (s := s.storing id stored) hseeds hdownloads hr
    rw [if_neg Bool.false_ne_true]
    refine ⟨?_, fun d hd => h.downloads d (by rwa [downloads_startSeed] at hd)⟩
    rw [nodes_startSeed]
    refine hwith.mono (fun id' name' ho => ?_) hroots
    exact owns_storing hconfined (Or.inr ⟨rfl, rfl⟩) (Or.inl ⟨name, hin hportable⟩)
      (ho.mono hroots)

/-- No links stand in `blobs`: an ordinary name leads to what the folder has in it by that name. -/
def NoLinks (os : Os) (cfg : StoreConfig Master) (resolve : Path → Place) : Prop :=
  ∀ name, Path.Ordinary name →
    resolve (cfg.blobs.join os name) = resolve cfg.blobs ++ [name] ∧
      ∀ file, Path.Ordinary file →
        resolve ((cfg.blobs.join os name).join os file) = resolve cfg.blobs ++ [name] ++ [file]

lemma inFolder_join (hresolve : NoLinks os cfg resolve) (h : Path.Ordinary name) :
    InFolder os cfg resolve (cfg.blobs.join os name) name := by
  refine ⟨Path.inStore_join os cfg.blobs h, (hresolve name h).1, ?_⟩
  rw [(hresolve name h).1]

lemma inFolder_join_join (hresolve : NoLinks os cfg resolve) {file : String}
    (h : Path.Ordinary name) (hfile : Path.Ordinary file) :
    InFolder os cfg resolve ((cfg.blobs.join os name).join os file) name := by
  refine ⟨Path.inStore_join_join os cfg.blobs h hfile, (hresolve name h).1, ?_⟩
  rw [(hresolve name h).2 file hfile]
  exact List.prefix_append _ _

lemma inFolder_streamed (hresolve : NoLinks os cfg resolve) {random : List.Vector UInt8 8}
    {name : String} (h : cfg.key.isSome ∨ nameProblem name = none) :
    InFolder os cfg resolve ((SeedWay.streamed random name).root os cfg)
      ("import-" ++ hex random.toList) := by
  rw [SeedWay.root]
  cases hkey : cfg.key with
  | some key => exact inFolder_join hresolve (ordinary_import _)
  | none =>
    rw [hkey] at h
    exact inFolder_join_join hresolve (ordinary_import _)
      (ordinary_of_nameProblem (h.resolve_left (by simp)))

/-- What `remove` leaves of what there was. -/
structure Shrinks (id : ShareId) (s s' : Shelf) : Prop where
  registry : s'.registry = s.registry.erase id
  seeds : s'.seeds = s.seeds ∨ s'.seeds = s.seeds.erase id
  downloads : s'.downloads = s.downloads
  nodes : ∀ p node, s'.nodes p = some node → s.nodes p = some node

lemma removeDirAll_spec (resolve : Path → Place) (s : Shelf) (dir : Path) (env : RemoveEnv) :
    ∃ nodes, (s.removeDirAll resolve dir env).1 = { s with nodes } ∧
      (∀ p node, nodes p = some node → s.nodes p = some node) ∧
      ((s.removeDirAll resolve dir env).2 = .ok () ∨
        (s.removeDirAll resolve dir env).2 = .error (.fail .notFound) →
          nodes = fun p => if resolve dir <+: p then none else s.nodes p) := by
  have hkept : ∀ (gone : Place → Prop) [DecidablePred gone] (p : Place) (node : StoredNode),
      (if gone p then none else s.nodes p) = some node → s.nodes p = some node := by
    intro gone _ p node h
    split_ifs at h
    exact h
  rw [removeDirAll]
  split
  · exact ⟨_, rfl, hkept _, fun _ => rfl⟩
  · exact ⟨_, rfl, hkept _, fun _ => rfl⟩
  · rename_i e hnotFound hdelete
    refine ⟨_, rfl, hkept _, ?_⟩
    rintro (hok | hok)
    · cases hok
    · exact absurd (Except.error.inj hok) hnotFound

/-- A call of `remove` leaves less; and when it returns, the folder that the root is in is gone. -/
lemma remove_spec (os : Os) (cfg : StoreConfig Master) (resolve : Path → Place) (s : Shelf)
    (id : ShareId) (env : RemoveEnv) :
    Shrinks id s (s.remove os cfg resolve id env).1 ∧
      ((s.remove os cfg resolve id env).2 = .ok () →
        (s.remove os cfg resolve id env).1.nodes =
          ((s.rootOf id env).bind fun root => root.inStore os cfg.blobs).elim s.nodes
            fun dir p => if resolve dir <+: p then none else s.nodes p) := by
  rw [remove]
  cases env.forget with
  | fails => exact ⟨⟨rfl, Or.inl rfl, rfl, fun _ _ h => h⟩, fun hok => by cases hok⟩
  | stops => exact ⟨⟨rfl, Or.inr rfl, rfl, fun _ _ h => h⟩, fun hok => by cases hok⟩
  | returns =>
    dsimp only [forget]
    cases (s.rootOf id env).bind fun root => root.inStore os cfg.blobs with
    | none => exact ⟨⟨rfl, Or.inr rfl, rfl, fun _ _ h => h⟩, fun _ => rfl⟩
    | some dir =>
      obtain ⟨nodes, hfst, hkept, hgone⟩ := removeDirAll_spec resolve
        { s with registry := s.registry.erase id, seeds := s.seeds.erase id } dir env
      dsimp only [Option.elim]
      split
      · rename_i left hdeleted
        rw [hdeleted] at hfst hgone
        obtain rfl := hfst
        exact ⟨⟨rfl, Or.inr rfl, rfl, hkept⟩, fun _ => hgone (Or.inl rfl)⟩
      · rename_i left hdeleted
        rw [hdeleted] at hfst hgone
        obtain rfl := hfst
        exact ⟨⟨rfl, Or.inr rfl, rfl, hkept⟩, fun _ => hgone (Or.inr rfl)⟩
      · rename_i left e hnotFound hdeleted
        rw [hdeleted] at hfst
        obtain rfl := hfst
        refine ⟨⟨rfl, Or.inr rfl, rfl, hkept⟩, fun hok => ?_⟩
        cases e <;> cases hok

lemma Sound.shrinks (h : Sound os cfg resolve s) (hs : Shrinks id s s') :
    Sound os cfg resolve s' := by
  have hroots : ∀ id' root', s'.Roots id' root' → s.Roots id' root' := by
    rintro id' root' (hr | hr | hr)
    · rw [hs.registry] at hr
      exact Or.inl (lookup_of_lookup_erase hr)
    · rcases hs.seeds with hseeds | hseeds
      · exact Or.inr (Or.inl (hseeds ▸ hr))
      · rw [hseeds] at hr
        exact Or.inr (Or.inl (lookup_of_lookup_erase hr))
    · exact Or.inr (Or.inr (hs.downloads ▸ hr))
  refine h.mono (fun id' name ho => ?_) hroots fun d hd => hs.downloads ▸ hd
  refine (ho.mono hroots).imp_left ?_
  rintro ⟨p, node, hp, hnode, hfor⟩
  exact ⟨p, node, hp, hs.nodes p node hnode, hfor⟩

/-- A download that has ended is forgotten. -/
lemma Sound.of_ended (h : Sound os cfg resolve s) (k : ℕ) :
    Sound os cfg resolve { s with downloads := s.downloads.eraseIdx k } :=
  h.of_roots rfl (fun _ _ hr => hr.imp_right fun hr => hr.imp_right List.mem_of_mem_eraseIdx)
    fun _ hd => List.mem_of_mem_eraseIdx hd

lemma Sound.download {dest : Path} (hresolve : NoLinks os cfg resolve) (h : Sound os cfg resolve s)
    (hmeets : s.Meets os cfg keyedHash resolve (.download id dest name)) :
    Sound os cfg resolve { s with
      downloads := s.downloads ++ [⟨id, cfg.downloadRoot os keyedHash id dest name⟩] } := by
  have hroots : ∀ id' root', Roots { s with
      downloads := s.downloads ++ [⟨id, cfg.downloadRoot os keyedHash id dest name⟩] } id' root' →
      withRoot s.Roots id (cfg.downloadRoot os keyedHash id dest name) id' root' := by
    rintro id' root' (hr | hr | hr)
    · exact Or.inl (Or.inl hr)
    · exact Or.inl (Or.inr (Or.inl hr))
    · rcases List.mem_append.1 hr with hr | hr
      · exact Or.inl (Or.inr (Or.inr hr))
      · cases List.mem_singleton.1 hr
        exact Or.inr ⟨rfl, rfl⟩
  have hstarts : Exclusive os cfg resolve s.nodes
        (withRoot s.Roots id (cfg.downloadRoot os keyedHash id dest name)) ∧
      ((∃ name', InFolder os cfg resolve (cfg.downloadRoot os keyedHash id dest name) name') ∨
        Apart cfg resolve (cfg.downloadRoot os keyedHash id dest name)) := by
    rw [Meets] at hmeets
    rw [StoreConfig.downloadRoot]
    cases hkey : cfg.key with
    | some key =>
      rw [hkey] at hmeets
      obtain ⟨hshare, hfolder, hin⟩ := hmeets
      have hordinary : Path.Ordinary (hex (keyedHash key id).toList) := by
        refine Process.ordinary_hex fun hnil => ?_
        have := (keyedHash key id).toList_length
        rw [hnil] at this
        cases this
      exact ⟨h.exclusive.withRoot_in (inFolder_join hresolve hordinary) hshare hfolder hin,
        Or.inl ⟨_, inFolder_join hresolve hordinary⟩⟩
    | none =>
      rw [hkey] at hmeets
      obtain ⟨haway, hapart, hnone⟩ := hmeets
      exact ⟨h.exclusive.withRoot_away haway hnone, Or.inr hapart⟩
  refine ⟨hstarts.1.mono (fun _ _ ho => ho.mono hroots) hroots, fun d hd => ?_⟩
  rcases List.mem_append.1 hd with hd | hd
  · exact h.downloads d hd
  · rw [List.mem_singleton.1 hd]
    exact hstarts.2

/-- Each call that meets the conditions keeps the shares apart. -/
lemma sound_step (hresolve : NoLinks os cfg resolve) {call : ShelfCall} (h : Sound os cfg resolve s)
    (hmeets : s.Meets os cfg keyedHash resolve call)
    (hstep : s.step os cfg reseed keyedHash resolve call = some s') : Sound os cfg resolve s' := by
  cases call with
  | seed id way stored refused fails =>
    by_cases hmay : MayStore os cfg resolve stored way
    · rw [step, if_pos hmay] at hstep
      obtain rfl := Option.some.inj hstep
      cases way with
      | inPlace root =>
        obtain rfl : stored = [] := hmay
        cases refused with
        | true => exact h
        | false => exact Sound.startSeed_away h hmeets
      | copied random =>
        exact h.seedsInto hmay (fun _ => inFolder_join hresolve (ordinary_import _)) hmeets
      | streamed random name =>
        exact h.seedsInto hmay (inFolder_streamed hresolve) hmeets
    · rw [step, if_neg hmay] at hstep
      cases hstep
  | resume id fails =>
    obtain ⟨root, hroot, rfl⟩ := Option.map_eq_some_iff.1 hstep
    refine h.of_roots nodes_startSeed (fun id' root' hr => ?_) fun d hd => ?_
    · rcases roots_startSeed hr with hr | ⟨rfl, rfl⟩
      · exact hr
      · exact Or.inr (Or.inl hroot)
    · rwa [downloads_startSeed] at hd
  | drop id =>
    obtain rfl := Option.some.inj hstep
    exact h.of_roots rfl (fun _ _ hr => hr.imp_left lookup_of_lookup_erase) fun _ hd => hd
  | download id dest name =>
    obtain rfl := Option.some.inj hstep
    exact h.download hresolve hmeets
  | store k stored =>
    obtain ⟨download, hdownload, hstep⟩ := Option.bind_eq_some_iff.1 hstep
    split_ifs at hstep with hconfined
    obtain rfl := Option.some.inj hstep
    have hmem := List.mem_of_getElem? hdownload
    refine h.mono (fun _ _ ho => ?_) (fun _ _ hr => hr) fun _ hd => hd
    exact owns_storing hconfined (Or.inr (Or.inr hmem)) (h.downloads download hmem) ho
  | register k =>
    obtain ⟨download, hdownload, hstep⟩ := Option.bind_eq_some_iff.1 hstep
    split_ifs at hstep with hreseed hmem
    · obtain rfl := Option.some.inj hstep
      exact h.of_ended k
    · obtain rfl := Option.some.inj hstep
      refine h.of_roots rfl (fun id' root' hr => ?_) fun _ hd => hd
      rcases hr with hr | hr
      · rcases lookup_insert_cases hr with ⟨hr, -⟩ | ⟨rfl, rfl⟩
        · exact Or.inl hr
        · exact Or.inr (Or.inr (List.mem_of_getElem? hdownload))
      · exact Or.inr hr
  | complete k fails =>
    obtain ⟨download, hdownload, hstep⟩ := Option.bind_eq_some_iff.1 hstep
    obtain rfl := Option.some.inj hstep
    split_ifs with hsaves
    · exact h.of_ended k
    · refine h.of_roots rfl (fun id' root' hr => ?_) fun _ hd => List.mem_of_mem_eraseIdx hd
      rcases hr with hr | hr | hr
      · exact Or.inl hr
      · rcases lookup_insert_cases hr with ⟨hr, -⟩ | ⟨rfl, rfl⟩
        · exact Or.inr (Or.inl hr)
        · exact Or.inr (Or.inr (List.mem_of_getElem? hdownload))
      · exact Or.inr (Or.inr (List.mem_of_mem_eraseIdx hr))
  | stop k =>
    obtain rfl := Option.some.inj hstep
    exact h.of_ended k
  | remove id env =>
    obtain rfl := Option.some.inj hstep
    exact h.shrinks (remove_spec os cfg resolve s id env).1
  | restart =>
    obtain rfl := Option.some.inj hstep
    refine h.of_roots rfl (fun id' root' hr => ?_) fun _ hd => by cases hd
    rcases hr with hr | hr | hr
    · cases hr
    · exact Or.inr (Or.inl hr)
    · cases hr

lemma not_roots_of_starts (h : s.Starts) : ¬ s.Roots id root := by
  obtain ⟨hregistry, hseeds, hdownloads, -⟩ := h
  rintro (hr | hr | hr)
  · rw [hregistry] at hr
    cases hr
  · rw [hseeds] at hr
    cases hr
  · rw [hdownloads] at hr
    cases hr

lemma not_owns_of_starts (h : s.Starts) : ¬ Owns os cfg resolve s.nodes s.Roots id name := by
  rintro (⟨p, node, -, hnode, hfor⟩ | ⟨root, hr, -⟩)
  · rw [h.2.2.2 p node hnode] at hfor
    cases hfor
  · exact not_roots_of_starts h hr

lemma sound_start (h : s.Starts) : Sound os cfg resolve s := by
  refine ⟨⟨fun ho => absurd ho (not_owns_of_starts h), fun ho => absurd ho (not_owns_of_starts h),
    fun ho => absurd ho (not_owns_of_starts h), fun hr => absurd hr (not_roots_of_starts h)⟩,
    fun d hd => ?_⟩
  rw [h.2.2.1] at hd
  cases hd

/-- The root that `remove` finds is one of the share. -/
lemma roots_of_rootOf {env : RemoveEnv} (h : s.rootOf id env = some root) : s.Roots id root := by
  rcases Option.or_eq_some_iff.1 h with h | ⟨-, h⟩
  · exact Or.inl h
  · split_ifs at h
    exact Or.inr (Or.inl h)

lemma exists_rootOf {env : RemoveEnv} (h : id ∈ s.registry ∨ id ∈ s.seeds ∧ env.readable) :
    ∃ root, s.rootOf id env = some root := by
  rw [← Option.isSome_iff_exists, rootOf, Option.isSome_or]
  rcases h with h | ⟨h, hreadable⟩
  · rw [AList.lookup_isSome.2 h, Bool.true_or]
  · rw [if_pos hreadable, AList.lookup_isSome.2 h, Bool.or_true]

/-- Where shares are kept apart, `remove` deletes what it should. -/
lemma Sound.deletes {env : RemoveEnv} (h : Sound os cfg resolve s)
    (hmeets : s.Meets os cfg keyedHash resolve (.remove id env))
    (hok : (s.remove os cfg resolve id env).2 = .ok ()) :
    Deletes os cfg resolve id s (s.remove os cfg resolve id env).1 := by
  have hnodes := (remove_spec os cfg resolve s id env).2 hok
  cases hdir : (s.rootOf id env).bind fun root => root.inStore os cfg.blobs with
  | none =>
    rw [hdir] at hnodes
    refine ⟨fun name hholds => ?_, fun p _ => congrFun hnodes p, fun _ _ _ _ p _ =>
      congrFun hnodes p⟩
    rw [hnodes] at hholds
    -- the share would have a root, in the folder with its data
    obtain ⟨root, hroot⟩ := exists_rootOf (hmeets ⟨name, hholds⟩)
    have hin := h.exclusive.roots_in (Or.inl hholds) (roots_of_rootOf hroot)
    rw [hroot, Option.bind_some, hin.1] at hdir
    cases hdir
  | some dir =>
    rw [hdir] at hnodes
    obtain ⟨root, hroot, hin⟩ := Option.bind_eq_some_iff.1 hdir
    have hroots := roots_of_rootOf hroot
    obtain ⟨folder, hfolder⟩ : ∃ folder, InFolder os cfg resolve root folder :=
      (h.exclusive.placed hroots).resolve_left (by rw [hin]; exact Option.some_ne_none _)
    obtain rfl := Option.some.inj (hin.symm.trans hfolder.1)
    have hplace : resolve (cfg.blobs.join os folder) = resolve cfg.blobs ++ [folder] := hfolder.2.1
    have howns : Owns os cfg resolve s.nodes s.Roots id folder := Or.inr ⟨root, hroots, hfolder⟩
    have hnode : ∀ p, (s.remove os cfg resolve id env).1.nodes p =
        if resolve cfg.blobs ++ [folder] <+: p then none else s.nodes p := by
      intro p
      rw [hnodes, Option.elim_some, hplace]
    refine ⟨?_, fun p hp => ?_, fun id' hid name hother p hp => ?_⟩
    · rintro name ⟨p, node, hp, hleft, hfor⟩
      rw [hnode] at hleft
      split_ifs at hleft with hgone
      have hname := h.exclusive.one_folder (Or.inl ⟨p, node, hp, hleft, hfor⟩) howns
      exact hgone (hname ▸ hp)
    · rw [hnode, if_neg (hp folder)]
    · rw [hnode, if_neg fun hgone => ?_]
      rw [folder_unique hp hgone] at hother
      exact hid (h.exclusive.one_share hother howns)

/-- In a history whose calls all meet the conditions, every `remove` that returns deletes what is
stored of the share, and nothing else. -/
theorem remove_deletes_own_data (hresolve : NoLinks os cfg resolve) {s s' : Shelf}
    {calls : List ShelfCall} {id : ShareId} {env : RemoveEnv} (hstart : s.Starts)
    (hrun : Run (fun s call s' => s.step os cfg reseed keyedHash resolve call = some s' ∧
      s.Meets os cfg keyedHash resolve call) s calls s')
    (hmeets : s'.Meets os cfg keyedHash resolve (.remove id env))
    (hok : (s'.remove os cfg resolve id env).2 = .ok ()) :
    Deletes os cfg resolve id s' (s'.remove os cfg resolve id env).1 := by
  have hsound : Sound os cfg resolve s' :=
    hrun.invariant (P := Sound os cfg resolve)
      (fun _ _ _ h hstep => sound_step hresolve h hstep.2 hstep.1) (sound_start hstart)
  exact hsound.deletes hmeets hok

end Shelf

end

/-! ## Shares that are imported once and twice -/

namespace Path

/-- One name further: up for two dots. -/
def enter (place : Place) (name : String) : Place :=
  if name = "" ∨ name = "." then place
  else if name = ".." then place.dropLast
  else place ++ [name]

/-- The place a path leads to where there are no links. -/
def lexical (p : Path) : Place := p.segments.foldl enter []

lemma foldl_enter_base (p : Path) : p.base.foldl enter [] = p.lexical := by
  rw [base, lexical]
  split_ifs with hverbatim hlast
  · have hskip : ∀ (names : List String) (place : Place),
        (names.filter fun s => s ≠ "").foldl enter place = names.foldl enter place := by
      intro names
      induction names with
      | nil => exact fun place => rfl
      | cons name names ih =>
        intro place
        by_cases hname : name = ""
        · rw [List.filter_cons_of_neg (by simp [hname]), ih, List.foldl_cons, hname]
          rfl
        · rw [List.filter_cons_of_pos (by simp [hname]), List.foldl_cons, List.foldl_cons, ih]
    exact hskip _ _
  · obtain ⟨init, hinit⟩ := List.getLast?_eq_some_iff.1 hlast
    rw [hinit, List.dropLast_concat, List.foldl_append]
    rfl
  · rfl

lemma lexical_join (os : Os) (folder : Path) {name : String} (h : Ordinary name) :
    (folder.join os name).lexical = folder.lexical ++ [name] := by
  obtain ⟨hne, hdot, hdots, -⟩ := id h
  rw [join_ordinary os folder h, lexical]
  dsimp only
  rw [List.foldl_append, foldl_enter_base]
  simp [enter, hne, hdot, hdots]

lemma noLinks_lexical {Master : Type} (os : Os) (cfg : StoreConfig Master) :
    Shelf.NoLinks os cfg lexical :=
  fun _ h => ⟨lexical_join os _ h, fun _ hfile => by
    rw [lexical_join os _ hfile, lexical_join os _ h]⟩

end Path

namespace ImportedTwice

def shareId : ShareId := .replicate 32 5

/-- An encrypted store. -/
def cfg : StoreConfig Unit := ⟨⟨none, true, ["d", "blobs"]⟩, some ()⟩

def start : Shelf := ⟨fun _ => none, ∅, ∅, []⟩

/-- A file is copied into the folder for a new share. -/
def copy (b : UInt8) : ShelfCall :=
  .seed shareId (.copied (.replicate 8 b))
    [(["d", "blobs", "import-" ++ hex (List.replicate 8 b), "0.enc"], some [1])] false false

def step (s : Shelf) (call : ShelfCall) : Option Shelf :=
  s.step .unix cfg true (fun _ id => id) Path.lexical call

/-- Everything goes well. -/
def env : RemoveEnv := ⟨true, .returns, .ok (), fun _ => false⟩

/-- Where the first copy is. -/
def firstCopy : Place := ["d", "blobs", "import-0707070707070707", "0.enc"]

lemma exec_twice : (Run.exec step start [copy 7, .drop shareId, copy 8]).map (fun s =>
    ((s.remove .unix cfg Path.lexical shareId env).2.isOk,
      ((s.remove .unix cfg Path.lexical shareId env).1.nodes firstCopy).bind
        StoredNode.storedFor)) = some (true, some shareId) := by
  decide +kernel

/-- Another share is copied into the store. -/
def otherId : ShareId := .replicate 32 6

def copyOther : ShelfCall :=
  .seed otherId (.copied (.replicate 8 8))
    [(["d", "blobs", "import-" ++ hex (List.replicate 8 8), "0.enc"], some [2])] false false

/-- Where its copy is. -/
def otherCopy : Place := ["d", "blobs", "import-0808080808080808", "0.enc"]

/-- The first share was copied. -/
def once : Shelf :=
  (start.storing shareId
    [(["d", "blobs", "import-" ++ hex (List.replicate 8 7), "0.enc"], some [1])]).startSeed shareId
      (cfg.newShareDir .unix (.replicate 8 7)) false

lemma step_copy : step start (copy 7) = some once := by
  rw [step, copy, Shelf.step, if_pos (by decide +kernel)]
  rfl

lemma starts_start : start.Starts := ⟨rfl, rfl, rfl, fun p node h => by cases h⟩

/-- Only the folder of the first share belongs to anybody. -/
lemma owns_once {id : ShareId} {name : String}
    (h : Shelf.Owns .unix cfg Path.lexical once.nodes once.Roots id name) :
    id = shareId ∧ name = "import-" ++ hex (List.replicate 8 7) := by
  rcases h with ⟨p, node, hp, hnode, hfor⟩ | ⟨root, hr, hin⟩
  · rw [once, Shelf.nodes_startSeed] at hnode
    rcases Shelf.nodes_storing _ start p node hnode with hold | ⟨hnew, file, hmem, rfl⟩
    · cases hold
    · obtain rfl := List.mem_singleton.1 hmem
      exact ⟨Option.some.inj (hfor.symm.trans hnew),
        Shelf.folder_unique hp ⟨["0.enc"], rfl⟩⟩
  · rcases Shelf.roots_startSeed hr with hold | ⟨rfl, rfl⟩
    · exact absurd (show start.Roots id root from hold) (Shelf.not_roots_of_starts starts_start)
    · exact ⟨rfl, hin.unique
        (Shelf.inFolder_join (Path.noLinks_lexical .unix cfg) (ordinary_import _))⟩

lemma exec_both : (Run.exec step start [copy 7, copyOther]).map (fun s =>
    (decide (shareId ∈ s.registry), (s.remove .unix cfg Path.lexical shareId env).2.isOk,
      (s.nodes otherCopy).bind StoredNode.storedFor)) = some (true, true, some otherId) := by
  decide +kernel

lemma eq_ok_of_isOk {r : Result Unit} (h : r.isOk = true) : r = .ok () := by
  cases r with
  | ok _ => rfl
  | error e => cases h

end ImportedTwice

open ImportedTwice in
/-- A share is copied into the store, its handle is dropped, and it is copied once more: then
`remove` leaves the first copy. -/
theorem remove_leaves_first_copy :
    ∃ s, Run (fun s call s' => step s call = some s') start [copy 7, .drop shareId, copy 8] s ∧
      (s.remove .unix cfg Path.lexical shareId env).2 = .ok () ∧
      ¬ Shelf.Deletes .unix cfg Path.lexical shareId s
        (s.remove .unix cfg Path.lexical shareId env).1 := by
  obtain ⟨s, hexec, hs⟩ := Option.map_eq_some_iff.1 exec_twice
  rw [Prod.mk.injEq] at hs
  obtain ⟨hok, hleft⟩ := hs
  obtain ⟨node, hnode, hfor⟩ := Option.bind_eq_some_iff.1 hleft
  refine ⟨s, Run.of_exec hexec, eq_ok_of_isOk hok, fun h => ?_⟩
  exact h.gone "import-0707070707070707" ⟨firstCopy, node, ⟨["0.enc"], by decide⟩, hnode, hfor⟩

open ImportedTwice in
/-- Of two shares that are copied once, one is deleted, and the other stays. -/
theorem remove_deletes_own_data_once :
    ∃ s, Run (fun s call s' => step s call = some s') start [copy 7, copyOther] s ∧
      Shelf.Deletes .unix cfg Path.lexical shareId s
        (s.remove .unix cfg Path.lexical shareId env).1 ∧
      ((s.remove .unix cfg Path.lexical shareId env).1.nodes otherCopy).bind
        StoredNode.storedFor = some otherId := by
  have hfirst : start.Meets .unix cfg (fun _ id => id) Path.lexical (copy 7) :=
    Or.inr ⟨trivial, ⟨rfl, rfl, fun hmem => by cases hmem⟩,
      fun _ => Shelf.not_owns_of_starts starts_start,
      fun _ => Shelf.not_owns_of_starts starts_start, fun d hd => by cases hd⟩
  have hsecond : once.Meets .unix cfg (fun _ id => id) Path.lexical copyOther :=
    Or.inr ⟨trivial, ⟨rfl, rfl, by decide +kernel⟩,
      fun _ ho => absurd (owns_once ho).2 (by decide +kernel),
      fun _ ho => absurd (owns_once ho).1 (by decide), fun d hd => by cases hd⟩
  obtain ⟨s, hexec, hs⟩ := Option.map_eq_some_iff.1 exec_both
  simp only [Prod.mk.injEq, decide_eq_true_eq] at hs
  obtain ⟨hserved, hok, hstored⟩ := hs
  have hstep : step once copyOther = some s := by
    rw [Run.exec, step_copy, Option.bind_some, Run.exec] at hexec
    obtain ⟨s', hstep, heq⟩ := Option.bind_eq_some_iff.1 hexec
    cases heq
    exact hstep
  have hdeletes := Shelf.remove_deletes_own_data (Path.noLinks_lexical .unix cfg) starts_start
    (.cons ⟨step_copy, hfirst⟩ (.single ⟨hstep, hsecond⟩)) (fun _ => Or.inl hserved)
    (eq_ok_of_isOk hok)
  obtain ⟨node, hnode, hfor⟩ := Option.bind_eq_some_iff.1 hstored
  have hkept := hdeletes.others otherId (by decide) "import-0808080808080808"
    (Or.inl ⟨otherCopy, node, ⟨["0.enc"], by decide⟩, hnode, hfor⟩) otherCopy
    ⟨["0.enc"], by decide⟩
  exact ⟨s, .cons step_copy (.single hstep), hdeletes, by rw [hkept, hstored]⟩

end Chorrent
