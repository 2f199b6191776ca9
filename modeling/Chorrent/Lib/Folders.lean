/-
# Files and folders

What is below a folder, as a map from paths to files and folders, with the two operations that
lay out files: create a folder and those above it, and open a file, creating it if there is none.
Files whose places are such that none is the start of another can be laid out in any order, and
others cannot.
-/
import Mathlib.Data.List.Infix
import Mathlib.Logic.Function.Basic

namespace Chorrent.Lib

variable {α β : Type*}

inductive Node (β : Type*) where
  | folder
  | file (b : β)
deriving DecidableEq

def Node.isFolder : Node β → Bool
  | .folder => true
  | .file _ => false

/-- What is below a folder, by path; the folder itself is there and is not among it. -/
abbrev Folder (α β : Type*) := List α → Option (Node β)

/-- One step in laying out a file: the folders above it, or the file. -/
inductive LayOutStep (β : Type*) where
  | folders (b : β)
  | file (b : β)
deriving DecidableEq

namespace LayOutStep

def label : LayOutStep β → β
  | folders b | file b => b

/-- The folders above a file come before it. -/
def Ordered (steps : List (LayOutStep β)) : Prop :=
  ∀ before b after, steps = before ++ .file b :: after → .folders b ∈ before

end LayOutStep

namespace Folder

variable [DecidableEq α]

def empty : Folder α β := fun _ => none

/-- `create_dir_all`, from a folder that is there. -/
def createFrom (above : List α) : List α → Folder α β → Option (Folder α β)
  | [], t => some t
  | name :: names, t =>
      let here := above ++ [name]
      match t here with
      | none => createFrom here names (Function.update t here (some .folder))
      | some .folder => createFrom here names t
      | some (.file _) => none

def createDirAll (path : List α) (t : Folder α β) : Option (Folder α β) := createFrom [] path t

def isFolder (t : Folder α β) (path : List α) : Bool := path.isEmpty || (t path).any Node.isFolder

/-- Open a file for writing, creating it if there is none. -/
def openFile (path : List α) (b : β) (t : Folder α β) : Option (Folder α β) :=
  if t.isFolder path.dropLast then
    match t path with
    | none => some (Function.update t path (some (.file b)))
    | some (.file _) => some t
    | some .folder => none
  else none

def layOutStep (place : β → List α) (t : Folder α β) : LayOutStep β → Option (Folder α β)
  | .folders b => t.createDirAll (place b).dropLast
  | .file b => t.openFile (place b) b

/-- Steps, one after another. -/
def layOut (place : β → List α) (t : Folder α β) : List (LayOutStep β) → Option (Folder α β)
  | [] => some t
  | s :: steps => (t.layOutStep place s).bind (layOut place · steps)

/-! ## What the operations do -/

/-- The paths on the way from one path to another below it, the latter included. -/
def ways : List α → List α → List (List α)
  | _, [] => []
  | above, name :: names => (above ++ [name]) :: ways (above ++ [name]) names

omit [DecidableEq α] in
lemma mem_ways {p above names : List α} :
    p ∈ ways above names ↔ ∃ q, q ≠ [] ∧ q <+: names ∧ p = above ++ q := by
  induction names generalizing above with
  | nil =>
    rw [ways]
    refine iff_of_false List.not_mem_nil ?_
    rintro ⟨q, hne, hq, -⟩
    exact hne (List.prefix_nil.1 hq)
  | cons name names ih =>
    rw [ways, List.mem_cons, ih]
    constructor
    · rintro (rfl | ⟨q, -, hq, rfl⟩)
      · exact ⟨[name], by simp, ⟨names, rfl⟩, rfl⟩
      · exact ⟨name :: q, by simp, List.prefix_cons_inj name |>.2 hq, by simp⟩
    · rintro ⟨q, hne, hq, rfl⟩
      obtain ⟨n, q, rfl⟩ := List.exists_cons_of_ne_nil hne
      obtain ⟨rfl, hrest⟩ := List.cons_prefix_cons.1 hq
      cases q with
      | nil => exact .inl rfl
      | cons m q => exact .inr ⟨m :: q, by simp, hrest, by simp⟩

omit [DecidableEq α] in
lemma mem_ways_nil {p names : List α} : p ∈ ways [] names ↔ p ≠ [] ∧ p <+: names := by
  rw [mem_ways]
  constructor
  · rintro ⟨q, hne, hq, rfl⟩
    exact ⟨hne, hq⟩
  · rintro ⟨hne, hp⟩
    exact ⟨p, hne, hp, rfl⟩

/-- The folders on these paths are there. -/
def withFolders (paths : List (List α)) (t : Folder α β) : Folder α β := fun p =>
  if p ∈ paths then some .folder else t p

lemma createFrom_eq_some {names above : List α} {t t' : Folder α β} :
    createFrom above names t = some t' ↔
      (∀ p ∈ ways above names, ∀ b, t p ≠ some (.file b)) ∧
        t' = withFolders (ways above names) t := by
  induction names generalizing above t with
  | nil =>
    have hsame : withFolders [] t = t := funext fun p => if_neg List.not_mem_nil
    simp only [createFrom, ways, List.not_mem_nil, false_imp_iff, implies_true, true_and, hsame,
      Option.some.injEq]
    exact eq_comm
  | cons name names ih =>
    -- a folder that is there, or has just been created, is not created again
    have hthere : ∀ t₁ : Folder α β, t₁ (above ++ [name]) = some .folder →
        (∀ p, p ≠ above ++ [name] → t₁ p = t p) →
        (createFrom (above ++ [name]) names t₁ = some t' ↔
          (∀ p ∈ ways (above ++ [name]) names, ∀ b, t p ≠ some (.file b)) ∧
            t' = withFolders (ways above (name :: names)) t) := by
      intro t₁ hfolder hothers
      have hne : ∀ p ∈ ways (above ++ [name]) names, p ≠ above ++ [name] := by
        intro p hp heq
        obtain ⟨q, hq, -, rfl⟩ := mem_ways.1 hp
        exact hq (List.append_right_eq_self.1 heq)
      have hsame : withFolders (ways (above ++ [name]) names) t₁ =
          withFolders (ways above (name :: names)) t := by
        funext p
        by_cases heq : p = above ++ [name]
        · simp [withFolders, ways, heq, hfolder]
        · simp [withFolders, ways, heq, hothers p heq]
      rw [ih, hsame]
      refine and_congr_left fun _ => forall₂_congr fun p hp => ?_
      rw [hothers p (hne p hp)]
    simp only [createFrom]
    cases hhere : t (above ++ [name]) with
    | none =>
      rw [hthere _ (Function.update_self ..) fun p hp => Function.update_of_ne hp ..]
      simp [ways, hhere]
    | some node =>
      cases node with
      | folder =>
        rw [hthere t hhere fun _ _ => rfl]
        simp [ways, hhere]
      | file b =>
        refine iff_of_false (by simp) ?_
        rintro ⟨hnone, -⟩
        exact hnone _ List.mem_cons_self b hhere

lemma createDirAll_eq_some {path : List α} {t t' : Folder α β} :
    t.createDirAll path = some t' ↔
      (∀ p, p ≠ [] → p <+: path → ∀ b, t p ≠ some (.file b)) ∧
        t' = withFolders (ways [] path) t := by
  rw [createDirAll, createFrom_eq_some]
  refine and_congr_left fun _ => forall_congr' fun p => ?_
  rw [mem_ways_nil, and_imp]

lemma openFile_eq_some {path : List α} {b : β} {t t' : Folder α β}
    (h : t.openFile path b = some t') : ∃ c, t' path = some (.file c) := by
  rw [openFile] at h
  split_ifs at h
  cases hnode : t path with
  | none =>
    rw [hnode] at h
    cases h
    exact ⟨b, Function.update_self ..⟩
  | some node =>
    cases node with
    | folder =>
      rw [hnode] at h
      cases h
    | file c =>
      rw [hnode] at h
      cases h
      exact ⟨c, hnode⟩

lemma layOut_append {place : β → List α} {steps steps' : List (LayOutStep β)} {t : Folder α β} :
    layOut place t (steps ++ steps') = (layOut place t steps).bind (layOut place · steps') := by
  induction steps generalizing t with
  | nil => rfl
  | cons s steps ih =>
    rw [List.cons_append, layOut, layOut, Option.bind_assoc]
    exact congrArg _ (funext fun t' => ih)

/-! ## Laying out files -/

/-- After some steps there are the files and folders that belong there, and no others. -/
structure LaidOut (place : β → List α) (labels : List β) (steps : List (LayOutStep β))
    (t : Folder α β) : Prop where
  file_of : ∀ p b, t p = some (.file b) → b ∈ labels ∧ p = place b
  folder_of : ∀ p, t p = some .folder → ∃ b ∈ labels, p <+: place b ∧ p ≠ place b
  files : ∀ b, .file b ∈ steps → t (place b) = some (.file b)
  folders : ∀ b, .folders b ∈ steps → ∀ p, p ≠ [] → p <+: (place b).dropLast → t p = some .folder

section

variable {place : β → List α} {labels : List β} {steps : List (LayOutStep β)} {t : Folder α β}
  {b : β}

omit [DecidableEq α] in
lemma prefix_dropLast {p l : List α} (hpre : p <+: l) (hne : p ≠ l) : p <+: l.dropLast := by
  obtain ⟨rest, rfl⟩ := hpre
  have hrest : rest ≠ [] := by
    rintro rfl
    exact hne (List.append_nil p).symm
  rw [List.dropLast_append_of_ne_nil hrest]
  exact List.prefix_append _ _

omit [DecidableEq α] in
lemma not_prefix_dropLast {l : List α} (h : l ≠ []) : ¬l <+: l.dropLast := by
  intro hpre
  have hle := hpre.length_le
  have hpos : 0 < l.length := List.length_pos_iff.2 h
  rw [List.length_dropLast] at hle
  omega

/-- The folders above a file can be created: no file is in the way. -/
lemma LaidOut.createDirAll (h : LaidOut place labels steps t)
    (hfree : ∀ b ∈ labels, ∀ c ∈ labels, place b <+: place c → b = c) (hb : b ∈ labels)
    (hne : place b ≠ []) :
    ∃ t', t.createDirAll (place b).dropLast = some t' ∧
      LaidOut place labels (steps ++ [.folders b]) t' := by
  have hclear : ∀ p, p ≠ [] → p <+: (place b).dropLast → ∀ c, t p ≠ some (.file c) := by
    intro p _ hp c hfile
    obtain ⟨hc, rfl⟩ := h.file_of p c hfile
    obtain rfl := hfree c hc b hb (hp.trans (List.dropLast_prefix _))
    exact not_prefix_dropLast hne hp
  refine ⟨_, createDirAll_eq_some.2 ⟨hclear, rfl⟩, ?_⟩
  constructor
  · intro p c hfile
    rw [withFolders] at hfile
    by_cases hp : p ∈ ways [] (place b).dropLast
    · rw [if_pos hp] at hfile
      cases hfile
    · rw [if_neg hp] at hfile
      exact h.file_of p c hfile
  · intro p hfolder
    rw [withFolders] at hfolder
    split_ifs at hfolder with hp
    · obtain ⟨-, hp⟩ := mem_ways_nil.1 hp
      refine ⟨b, hb, hp.trans (List.dropLast_prefix _), ?_⟩
      rintro rfl
      exact not_prefix_dropLast hne hp
    · exact h.folder_of p hfolder
  · intro c hc
    have hfile : t (place c) = some (.file c) := by
      rcases List.mem_append.1 hc with hc | hc
      · exact h.files c hc
      · cases List.mem_singleton.1 hc
    rw [withFolders, if_neg, hfile]
    intro hp
    obtain ⟨hne', hp⟩ := mem_ways_nil.1 hp
    exact hclear _ hne' hp c hfile
  · intro c hc p hp hpre
    rw [withFolders]
    split_ifs with hways
    · rfl
    · rcases List.mem_append.1 hc with hc | hc
      · exact h.folders c hc p hp hpre
      · cases List.mem_singleton.1 hc
        exact absurd (mem_ways_nil.2 ⟨hp, hpre⟩) hways

/-- A file can be opened once the folders above it are there: no folder is in its place. -/
lemma LaidOut.openFile (h : LaidOut place labels steps t)
    (hfree : ∀ b ∈ labels, ∀ c ∈ labels, place b <+: place c → b = c) (hb : b ∈ labels)
    (hfolders : .folders b ∈ steps) :
    ∃ t', t.openFile (place b) b = some t' ∧ LaidOut place labels (steps ++ [.file b]) t' := by
  have hparent : t.isFolder (place b).dropLast = true := by
    by_cases hnil : (place b).dropLast = []
    · rw [hnil]
      rfl
    · simp [isFolder, h.folders b hfolders _ hnil List.prefix_rfl, Node.isFolder]
  rw [Folder.openFile, if_pos hparent]
  have hkeep : ∀ t' : Folder α β, t' (place b) = some (.file b) → (∀ p, p ≠ place b → t' p = t p) →
      LaidOut place labels (steps ++ [.file b]) t' := by
    intro t' hfile hothers
    -- the place of the file was free, or the file was there
    have hnode : t (place b) ≠ some .folder := by
      intro hfolder
      obtain ⟨c, hc, hpre, hne⟩ := h.folder_of _ hfolder
      exact hne (congrArg place (hfree b hb c hc hpre))
    constructor
    · intro p c hc
      by_cases hp : p = place b
      · subst hp
        cases hfile.symm.trans hc
        exact ⟨hb, rfl⟩
      · exact h.file_of p c (hothers p hp ▸ hc)
    · intro p hp
      by_cases heq : p = place b
      · subst heq
        cases hfile.symm.trans hp
      · exact h.folder_of p (hothers p heq ▸ hp)
    · intro c hc
      by_cases heq : place c = place b
      · have hcb : c ∈ labels → c = b := fun hcl => hfree c hcl b hb (heq ▸ List.prefix_rfl)
        rcases List.mem_append.1 hc with hc | hc
        · rw [hcb (h.file_of _ c (h.files c hc)).1, hfile]
        · cases List.mem_singleton.1 hc
          exact hfile
      · rcases List.mem_append.1 hc with hc | hc
        · rw [hothers _ heq, h.files c hc]
        · cases List.mem_singleton.1 hc
          exact absurd rfl heq
    · intro c hc p hp hpre
      rcases List.mem_append.1 hc with hc | hc
      · have hfolder := h.folders c hc p hp hpre
        rw [hothers p fun heq => hnode (heq ▸ hfolder), hfolder]
      · cases List.mem_singleton.1 hc
  cases hnode : t (place b) with
  | none =>
    exact ⟨_, rfl, hkeep _ (Function.update_self ..) fun p hp => Function.update_of_ne hp ..⟩
  | some node =>
    cases node with
    | folder =>
      obtain ⟨c, hc, hpre, hne⟩ := h.folder_of _ hnode
      exact absurd (congrArg place (hfree b hb c hc hpre)) hne
    | file c =>
      obtain ⟨hc, heq⟩ := h.file_of _ c hnode
      obtain rfl := hfree b hb c hc (heq ▸ List.prefix_rfl)
      exact ⟨t, rfl, hkeep t hnode fun _ _ => rfl⟩

omit [DecidableEq α] in
lemma empty_laidOut : LaidOut place labels [] (empty : Folder α β) where
  file_of p b h := by cases h
  folder_of p h := by cases h
  files b h := by cases h
  folders b h := by cases h

/-- Where no place is the start of another, any steps in which the folders above a file come
before it lay out all their files. -/
theorem layOut_of_free (hfree : ∀ b ∈ labels, ∀ c ∈ labels, place b <+: place c → b = c)
    (hne : ∀ b ∈ labels, place b ≠ []) (hordered : LayOutStep.Ordered steps)
    (hlabels : ∀ s ∈ steps, s.label ∈ labels) :
    ∃ t, layOut place empty steps = some t ∧ LaidOut place labels steps t := by
  induction steps using List.reverseRecOn with
  | nil => exact ⟨empty, rfl, empty_laidOut⟩
  | append_singleton steps s ih =>
    have hbefore : LayOutStep.Ordered steps := by
      intro before b after heq
      exact hordered before b (after ++ [s]) (by simp [heq])
    obtain ⟨t, ht, hlaid⟩ := ih hbefore fun s' hs' => hlabels s' (List.mem_append_left _ hs')
    have hb : s.label ∈ labels := hlabels s (by simp)
    have hstep : ∃ t', t.layOutStep place s = some t' ∧ LaidOut place labels (steps ++ [s]) t' := by
      cases s with
      | folders b => exact hlaid.createDirAll hfree hb (hne b hb)
      | file b => exact hlaid.openFile hfree hb (hordered steps b [] rfl)
    obtain ⟨t', ht', hlaid'⟩ := hstep
    refine ⟨t', ?_, hlaid'⟩
    rw [layOut_append, ht, Option.bind_some, layOut, ht']
    rfl

/-- A file is in the way of the folders above another. -/
theorem layOut_eq_none {b c : β} (hne : place b ≠ []) (hpre : place b <+: place c)
    (hproper : place b ≠ place c) :
    layOut place empty [.folders b, .file b, .folders c] = none := by
  by_contra hsome
  obtain ⟨t₃, ht₃⟩ := Option.ne_none_iff_exists'.1 hsome
  obtain ⟨t₁, -, ht₃⟩ := Option.bind_eq_some_iff.1 ht₃
  obtain ⟨t₂, ht₂, ht₃⟩ := Option.bind_eq_some_iff.1 ht₃
  obtain ⟨t, ht, -⟩ := Option.bind_eq_some_iff.1 ht₃
  obtain ⟨b', hfile⟩ := openFile_eq_some ht₂
  exact (createDirAll_eq_some.1 ht).1 _ hne (prefix_dropLast hpre hproper) b' hfile

end

end Folder

end Chorrent.Lib
