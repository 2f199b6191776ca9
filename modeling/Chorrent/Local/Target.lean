/-
# What a download consists of

The files of a share being downloaded, where they are, and which pieces are marked.  The
files of a checked manifest have different paths, so that writing one leaves the others alone.
-/
import Chorrent.Local.Download
import Chorrent.Chunker.Pieces

namespace Chorrent

open Lib

/-- Where a download goes. -/
structure Target (Master : Type) where
  os : Os
  dest : Path
  /-- The key of the encrypted store, if it goes there. -/
  key : Option Master

namespace Target

variable {Master Key Hash : Type} (T : Target Master)

def data (f : ℕ) (entry : FileEntry Hash) : FileData Master :=
  LocalShare.fileData T.os T.dest T.key f entry

/-- The bytes stored for piece `i` of file `f`. -/
def stored (S : StoreKeys Master Key) (fs : FileSystem) (f : ℕ) (entry : FileEntry Hash) (i : ℕ) :
    Option Bytes :=
  (T.data f entry).pieceAt S entry.size i (fs (T.data f entry).path)

lemma sized (f : ℕ) (entry : FileEntry Hash) : (T.data f entry).Sized entry.size := by
  obtain ⟨os, dest, key⟩ := T
  cases key <;> trivial

/-! ## Different files have different paths -/

lemma ordinary_index (f : ℕ) : Path.Ordinary (toString f ++ ".enc") := by
  have hdigits : ∀ c ∈ (toString f).toList, c.isDigit = true := by
    intro c hc
    rw [Nat.toString_eq_ofList_toDigits, String.toList_ofList] at hc
    exact Nat.isDigit_of_mem_toDigits (b := 10) (by decide) (by decide) hc
  have hlist : (toString f ++ ".enc").toList = (toString f).toList ++ ['.', 'e', 'n', 'c'] := by
    simp
  refine Path.ordinary_of_length (by rw [hlist]; simp) fun c hc => ?_
  rw [hlist, List.mem_append] at hc
  rcases hc with hc | hc
  · have := hdigits c hc
    refine ⟨?_, ?_, ?_⟩ <;> (rintro rfl; exact absurd this (by decide))
  · fin_cases hc <;> decide

lemma index_injective {f g : ℕ} (h : toString f ++ ".enc" = toString g ++ ".enc") : f = g := by
  have hlist := congrArg String.toList h
  rw [String.toList_append, String.toList_append] at hlist
  have hdigits : Nat.toDigits 10 f = Nat.toDigits 10 g := by
    rw [← Nat.toList_repr, ← Nat.toList_repr]
    exact List.append_cancel_right hlist
  rw [← Nat.ofDigitChars_toDigits (b := 10) (n := f) (by decide) (by decide), hdigits,
    Nat.ofDigitChars_toDigits (by decide) (by decide)]

variable {T} {toLowercase : String → String} {m : Manifest Hash} {f g : ℕ}
  {entry entry' : FileEntry Hash}

/-- The loop of `validate` accepts no path that it has seen or that occurs twice. -/
lemma validateFiles_distinct {name : String} {files : List (FileEntry Hash)}
    {seen : List (List String)} (h : Manifest.validateFiles toLowercase name files seen = .ok ()) :
    (∀ file ∈ files, file.path.map toLowercase ∉ seen) ∧ (files.map FileEntry.path).Nodup := by
  induction files generalizing seen with
  | nil => simp
  | cons file files ih =>
    unfold Manifest.validateFiles at h
    split_ifs at h with hhead
    cases hfind : file.path.findSome? fun c => (nameProblem c).map fun why => (c, why) with
    | some found =>
      rw [hfind] at h
      simp at h
    | none =>
      rw [hfind] at h
      simp only at h
      split_ifs at h with hseen
      obtain ⟨hnot, hnodup⟩ := ih h
      refine ⟨fun file' hfile' => ?_, ?_⟩
      · rcases List.mem_cons.1 hfile' with rfl | hmem
        · exact hseen
        · exact fun hin => hnot file' hmem (List.mem_cons_of_mem _ hin)
      · rw [List.map_cons, List.nodup_cons]
        refine ⟨fun hmem => ?_, hnodup⟩
        obtain ⟨file', hfile', heq⟩ := List.mem_map.1 hmem
        exact hnot file' hfile' (by rw [heq]; exact List.mem_cons_self)

/-- Different files of a checked manifest are kept under different paths. -/
lemma path_injective (h : m.validate toLowercase = .ok ()) (hf : m.files[f]? = some entry)
    (hg : m.files[g]? = some entry') (hpath : (T.data f entry).path = (T.data g entry').path) :
    f = g := by
  obtain ⟨os, dest, key⟩ := T
  cases key with
  | some key =>
    have heq : dest.join os (toString f ++ ".enc") = dest.join os (toString g ++ ".enc") := hpath
    rw [Path.join, Path.join, Path.parse_ordinary os (ordinary_index f),
      Path.parse_ordinary os (ordinary_index g),
      Path.push_ordinary os dest (by simpa using ordinary_index f),
      Path.push_ordinary os dest (by simpa using ordinary_index g)] at heq
    have hsegments := List.append_cancel_left (congrArg Path.segments heq)
    exact index_injective (List.singleton_inj.1 hsegments)
  | none =>
    have heq : entry.downloadPath os dest = entry'.downloadPath os dest := hpath
    have hordinary : ∀ {k : ℕ} {e : FileEntry Hash}, m.files[k]? = some e →
        (∀ n ∈ e.path, Path.Ordinary n) ∧ e.path ≠ [] := by
      intro k e he
      obtain ⟨hhead, hall⟩ := Manifest.nameProblem_of_validateFiles h e (List.mem_of_getElem? he)
      refine ⟨fun n hn => ordinary_of_nameProblem (hall n hn), fun hnil => ?_⟩
      simp [hnil] at hhead
    simp only [FileEntry.downloadPath, FileEntry.relativePath] at heq
    rw [Path.collect_ordinary os (hordinary hf).2 (hordinary hf).1,
      Path.collect_ordinary os (hordinary hg).2 (hordinary hg).1,
      Path.push_ordinary os dest (hordinary hf).1,
      Path.push_ordinary os dest (hordinary hg).1] at heq
    have hsegments := List.append_cancel_left (congrArg Path.segments heq)
    have hnodup := (validateFiles_distinct h).2
    obtain ⟨hfl, hfe⟩ := List.getElem?_eq_some_iff.1 hf
    obtain ⟨hgl, hge⟩ := List.getElem?_eq_some_iff.1 hg
    have hfl' : f < (m.files.map FileEntry.path).length := by simpa using hfl
    have hgl' : g < (m.files.map FileEntry.path).length := by simpa using hgl
    have heq : (m.files.map FileEntry.path)[f] = (m.files.map FileEntry.path)[g] := by
      rw [List.getElem_map, List.getElem_map, hfe, hge, hsegments]
    exact (List.Nodup.getElem_inj_iff hnodup).1 heq

end Target

end Chorrent
