/-
# Absolute paths

The text of a Unix path (`Path::display`) and `std::path::absolute` there, which looks at the
current dir only for a relative path.  What it returns is in a normal form, and it leaves a path
in that form as it is, wherever the process is by then.
-/
import Chorrent.Error
import Chorrent.Lib.Except

namespace Chorrent

open Lib

namespace Path

/-- The text of a Unix path. -/
def display (p : Path) : String := (if p.root then "/" else "") ++ "/".intercalate p.segments

/-- The components that are names, `..` among them; `.` is left out everywhere. -/
def names (p : Path) : List String := p.segments.filter fun s => s ≠ "" ∧ s ≠ "."

/-- The text starts with two separators and not with three. -/
def startsWithTwo (p : Path) : Bool :=
  match p.segments with
  | "" :: s :: rest => p.root && (s ≠ "" || rest = [])
  | _ => false

/-- The text ends with a separator. -/
def endsWithSeparator (p : Path) : Bool := p.segments.getLast? = some ""

/-- One name pushed onto a Unix path. -/
def pushName (p : Path) (name : String) : Path := p.push .unix ⟨none, false, [name]⟩

/-- Where `absolute` starts: the root, or the current dir. -/
def start (currentDir : IoResult Path) (p : Path) : IoResult Path :=
  if p.root then .ok ⟨none, true, if p.startsWithTwo then ["", ""] else [""]⟩ else currentDir

/-- `std::path::absolute`; the empty path is refused. -/
def absolute (currentDir : IoResult Path) (p : Path) : IoResult Path :=
  if p = empty then .error (.fail .invalidInput)
  else (p.start currentDir).map fun start =>
    let normalized := p.names.foldl pushName start
    if p.endsWithSeparator then normalized.push .unix empty else normalized

/-! ## Normal form -/

/-- A name between two separators of a Unix path. -/
def IsName (name : String) : Prop := name ≠ "" ∧ name ≠ "." ∧ '/' ∉ name.toList

/-- The root, after one separator or two, and names, after which a separator may follow. -/
def normal (two : Bool) (names : List String) (trailing : Bool) : Path :=
  ⟨none, true, (if two then [""] else []) ++ names ++ if trailing || names = [] then [""] else []⟩

/-- A path that `absolute` may return. -/
def Normal (p : Path) : Prop :=
  ∃ two names trailing, (∀ n ∈ names, IsName n) ∧ p = normal two names trailing

lemma normal_root (two : Bool) :
    normal two [] true = ⟨none, true, if two then ["", ""] else [""]⟩ := by
  cases two <;> rfl

lemma pushName_eq {segments : List String} (root : Bool) (name : String) :
    pushName ⟨none, root, segments⟩ name = ⟨none, root, base ⟨none, root, segments⟩ ++ [name]⟩ := by
  simp [pushName, push, isAbsolute, isVerbatim]

lemma segments_of_ends {two trailing : Bool} {names : List String} (h : trailing || names = []) :
    (normal two names trailing).segments = (if two then [""] else []) ++ names ++ [""] := by
  rw [normal, if_pos h]

lemma segments_of_not_ends {two trailing : Bool} {names : List String}
    (h : ¬(trailing || names = [])) :
    (normal two names trailing).segments = (if two then [""] else []) ++ names := by
  rw [normal, if_neg h, List.append_nil]

lemma getLast?_of_not_ends {two trailing : Bool} {names : List String}
    (hnames : ∀ n ∈ names, IsName n)
    (h : ¬(trailing || names = [])) : (normal two names trailing).segments.getLast? ≠ some "" := by
  have hne : names ≠ [] := fun hnil => h (by simp [hnil])
  rw [segments_of_not_ends h, List.getLast?_append_of_ne_nil _ hne]
  exact fun hlast => (hnames "" (List.mem_of_getLast? hlast)).1 rfl

lemma base_normal (two : Bool) {names : List String} (h : ∀ n ∈ names, IsName n) (trailing : Bool) :
    (normal two names trailing).base = (if two then [""] else []) ++ names := by
  have hverbatim : (normal two names trailing).isVerbatim = false := rfl
  rw [base, if_neg (by simp [hverbatim])]
  by_cases hends : trailing || names = []
  · rw [segments_of_ends hends, List.getLast?_concat, if_pos rfl, List.dropLast_concat]
  · rw [if_neg (getLast?_of_not_ends h hends), segments_of_not_ends hends]

lemma pushName_normal (two trailing : Bool) {names : List String} (h : ∀ n ∈ names, IsName n)
    (name : String) :
    (normal two names trailing).pushName name = normal two (names ++ [name]) false := by
  rw [normal, pushName_eq, ← normal, base_normal two h]
  simp [normal]

/-- Names are pushed one after another; a separator at the end is used for the first. -/
lemma foldl_pushName (two : Bool) : ∀ {names' : List String} (names : List String)
    (trailing : Bool),
    (∀ n ∈ names, IsName n) → (∀ n ∈ names', IsName n) →
      names'.foldl pushName (normal two names trailing) =
        normal two (names ++ names') (trailing && names' = []) := by
  intro names'
  induction names' with
  | nil => intros; simp
  | cons name rest ih =>
    intro names trailing h h'
    obtain ⟨hname, hrest⟩ := List.forall_mem_cons.1 h'
    have hnames : ∀ n ∈ names ++ [name], IsName n := by
      intro n hn
      rcases List.mem_append.1 hn with hn | hn
      · exact h n hn
      · rwa [List.mem_singleton.1 hn]
    rw [List.foldl_cons, pushName_normal two trailing h, ih _ _ hnames hrest]
    simp

lemma push_empty_normal (two trailing : Bool) {names : List String} (h : ∀ n ∈ names, IsName n) :
    (normal two names trailing).push .unix empty = normal two names true := by
  have hpush : (normal two names trailing).push .unix empty =
      { normal two names trailing with segments := (normal two names trailing).base ++ [""] } := by
    simp [push, isAbsolute, isVerbatim, normal, empty]
  rw [hpush, base_normal two h]
  simp [normal]

lemma isName_of_mem_names {p : Path} (h : ∀ s ∈ p.segments, '/' ∉ s.toList) :
    ∀ n ∈ p.names, IsName n := by
  intro n hn
  obtain ⟨hmem, hname⟩ := List.mem_filter.1 hn
  obtain ⟨hne, hdot⟩ := of_decide_eq_true hname
  exact ⟨hne, hdot, h n hmem⟩

/-- Where the current dir is the root and names, every path is made normal. -/
theorem absolute_normal {currentDir : IoResult Path} {p q : Path}
    (hdir : ∀ c, currentDir = .ok c → Normal c) (h : ∀ s ∈ p.segments, '/' ∉ s.toList)
    (hq : absolute currentDir p = .ok q) : Normal q := by
  rw [absolute] at hq
  by_cases hempty : p = empty
  · rw [if_pos hempty] at hq
    cases hq
  rw [if_neg hempty] at hq
  obtain ⟨front, hfront, rfl⟩ := except_map_eq_ok.1 hq
  have hnormal : Normal front := by
    cases hroot : p.root with
    | true =>
      rw [start, if_pos hroot, ← normal_root] at hfront
      cases hfront
      exact ⟨_, _, _, by simp, rfl⟩
    | false =>
      rw [start, if_neg (by simp [hroot])] at hfront
      exact hdir front hfront
  obtain ⟨two, names, trailing, hnames, rfl⟩ := hnormal
  have hall : ∀ n ∈ names ++ p.names, IsName n := by
    intro n hn
    rcases List.mem_append.1 hn with hn | hn
    · exact hnames n hn
    · exact isName_of_mem_names h n hn
  simp only [foldl_pushName two names trailing hnames (isName_of_mem_names h)]
  by_cases hends : p.endsWithSeparator
  · rw [if_pos hends, push_empty_normal two _ hall]
    exact ⟨two, _, true, hall, rfl⟩
  · rw [if_neg hends]
    exact ⟨two, _, _, hall, rfl⟩

lemma names_normal (two trailing : Bool) {names : List String} (h : ∀ n ∈ names, IsName n) :
    (normal two names trailing).names = names := by
  have hall : names.filter (fun s => s ≠ "" ∧ s ≠ ".") = names := by
    rw [List.filter_eq_self]
    intro n hn
    exact decide_eq_true ⟨(h n hn).1, (h n hn).2.1⟩
  rw [Path.names, normal, List.filter_append, List.filter_append, hall]
  cases two <;> by_cases hends : trailing || names = [] <;> simp [hends]

lemma startsWithTwo_normal (two trailing : Bool) {names : List String} (h : ∀ n ∈ names, IsName n) :
    (normal two names trailing).startsWithTwo = two := by
  cases names with
  | nil => cases two <;> simp [normal, startsWithTwo]
  | cons n names =>
    have hn : n ≠ "" := (h n List.mem_cons_self).1
    cases two with
    | true => simp [normal, startsWithTwo, hn]
    | false =>
      have hsegments : ∃ rest, (normal false (n :: names) trailing).segments = n :: rest := ⟨_, rfl⟩
      obtain ⟨rest, hrest⟩ := hsegments
      rw [startsWithTwo, hrest]
      split
      · rename_i heq
        exact absurd (List.cons.inj heq).1 hn
      · rfl

lemma endsWithSeparator_normal (two trailing : Bool) {names : List String}
    (h : ∀ n ∈ names, IsName n) :
    (normal two names trailing).endsWithSeparator = (trailing || names = []) := by
  rw [endsWithSeparator]
  by_cases hends : trailing || names = []
  · rw [segments_of_ends hends, List.getLast?_concat, hends]
    rfl
  · rw [Bool.eq_false_of_not_eq_true hends]
    exact decide_eq_false (getLast?_of_not_ends h hends)

/-- A path in normal form stays as it is, wherever the process is. -/
theorem absolute_of_normal {p : Path} (h : Normal p) (currentDir : IoResult Path) :
    absolute currentDir p = .ok p := by
  obtain ⟨two, names, trailing, hnames, rfl⟩ := h
  have hempty : normal two names trailing ≠ empty := fun h => by cases congrArg Path.root h
  have hstart : (normal two names trailing).start currentDir = .ok (normal two [] true) := by
    rw [start, startsWithTwo_normal two trailing hnames, normal_root]
    rfl
  rw [absolute, if_neg hempty, hstart, names_normal two trailing hnames,
    endsWithSeparator_normal two trailing hnames]
  have hpushed := foldl_pushName two [] true (by simp) hnames
  rw [List.nil_append, Bool.true_and] at hpushed
  simp only [Except.map, hpushed]
  by_cases hends : trailing || names = []
  · rw [if_pos hends, push_empty_normal two _ hnames]
    simp [normal, hends]
  · rw [if_neg hends]
    have htrailing : trailing = false := by
      cases trailing <;> simp_all
    simp [normal, htrailing]

/-! ## Texts -/

lemma not_mem_of_mem_splitOnP {α : Type} {p : α → Bool} {l : List α} :
    ∀ s ∈ l.splitOnP p, ∀ c ∈ s, p c = false := by
  induction l with
  | nil => simp
  | cons a l ih =>
    intro s hs c hc
    rw [List.splitOnP_cons_eq_if_modifyHead] at hs
    split_ifs at hs with ha
    · rcases List.mem_cons.1 hs with rfl | hs
      · cases hc
      · exact ih s hs c hc
    · cases hsplit : l.splitOnP p with
      | nil => exact absurd hsplit (List.splitOnP_ne_nil p l)
      | cons first rest =>
        rw [hsplit] at hs ih
        rcases List.mem_cons.1 hs with rfl | hs
        · rcases List.mem_cons.1 hc with rfl | hc
          · exact Bool.eq_false_of_not_eq_true ha
          · exact ih first List.mem_cons_self c hc
        · exact ih s (List.mem_cons_of_mem _ hs) c hc

/-- No name has a separator in it. -/
lemma not_mem_of_mem_parse {text : String} :
    ∀ s ∈ (parse .unix text).segments, '/' ∉ s.toList := by
  have hsplit : ∀ (l : List Char) (s : String),
      s ∈ (l.splitOnP (isSeparator .unix)).map .ofList → '/' ∉ s.toList := by
    intro l s hs hmem
    obtain ⟨cs, hcs, rfl⟩ := List.mem_map.1 hs
    rw [String.toList_ofList] at hmem
    exact absurd (not_mem_of_mem_splitOnP cs hcs '/' hmem) (by simp [isSeparator])
  intro s hs
  simp only [parse] at hs
  cases htext : text.toList with
  | nil =>
    rw [htext] at hs
    simp only [parseSegments, List.mem_singleton] at hs
    simp [hs]
  | cons c cs =>
    rw [htext, parseSegments] at hs
    split_ifs at hs
    · exact hsplit _ s hs
    · exact hsplit _ s hs

lemma parse_display {segments : List String} (hne : segments ≠ [])
    (h : ∀ s ∈ segments, '/' ∉ s.toList) :
    parse .unix (display ⟨none, true, segments⟩) = ⟨none, true, segments⟩ := by
  have htext : (display ⟨none, true, segments⟩).toList =
      '/' :: ['/'].intercalate (segments.map String.toList) := by
    simp [display]
  have hsplit : (['/'].intercalate (segments.map String.toList)).splitOnP (isSeparator .unix) =
      segments.map String.toList := by
    refine List.splitOn_intercalate '/' ?_ (by simpa using hne)
    intro l hl
    obtain ⟨s, hs, rfl⟩ := List.mem_map.1 hl
    exact h s hs
  have hsep : isSeparator .unix '/' = true := rfl
  simp only [parse, htext, parseSegments, hsep, if_true, hsplit, List.map_map]
  simp

lemma parse_display_normal {p : Path} (h : Normal p) : parse .unix p.display = p := by
  obtain ⟨two, names, trailing, hnames, rfl⟩ := h
  refine parse_display ?_ ?_
  · by_cases hends : trailing || names = []
    · simp [hends]
    · have hne : names ≠ [] := fun hnil => hends (by simp [hnil])
      simp [hne]
  · intro s hs
    simp only [List.mem_append] at hs
    rcases hs with (hs | hs) | hs
    · split_ifs at hs
      · simp [List.mem_singleton.1 hs]
      · cases hs
    · exact (hnames s hs).2.2
    · split_ifs at hs
      · simp [List.mem_singleton.1 hs]
      · cases hs

end Path

end Chorrent
