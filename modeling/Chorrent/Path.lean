/-
# Paths

A path as the standard library takes it apart: an optional Windows prefix, whether a root
follows, and the text between the separators after that, with nothing left out (a repeated
or trailing separator shows as an empty segment).  `push` is `PathBuf::push`.
-/
import Mathlib.Tactic

namespace Chorrent

inductive Os where
  | unix
  | windows
deriving DecidableEq

/-- What can stand before the root on Windows (`std::path::Prefix`). -/
inductive PathPrefix where
  | disk (drive : Char)
  | verbatimDisk (drive : Char)
  | verbatim (text : String)
  | verbatimUnc (server share : String)
  | device (name : String)
  | unc (server share : String)
deriving DecidableEq

structure Path where
  pathPrefix : Option PathPrefix
  root : Bool
  segments : List String
deriving DecidableEq

/-- Prefixes starting with `\\?\`: what follows is taken literally. -/
def PathPrefix.isVerbatim : PathPrefix → Bool
  | .verbatimDisk _ | .verbatim _ | .verbatimUnc _ _ => true
  | .disk _ | .device _ | .unc _ _ => false

/-- Every prefix but a plain drive is always followed by a root. -/
def PathPrefix.hasImplicitRoot : PathPrefix → Bool
  | .disk _ => false
  | _ => true

def isSeparator : Os → Char → Bool
  | .unix, c => c == '/'
  | .windows, c => c == '/' || c == '\\'

/-- Only the backslash separates the parts of a verbatim path. -/
def isVerbatimSeparator (c : Char) : Bool := c == '\\'

namespace Path

/-! ## Parsing -/

/-- The text before the first separator and the text from it on. -/
def nextComponent (sep : Char → Bool) (text : List Char) : List Char × List Char :=
  text.span fun c => !sep c

/-- The prefix of a text that starts with `\\?\`, given what follows that. -/
def parseVerbatim : List Char → PathPrefix × List Char
  | 'U' :: 'N' :: 'C' :: '\\' :: text =>
      let (server, rest) := nextComponent isVerbatimSeparator text
      let (share, rest) := nextComponent isVerbatimSeparator (rest.drop 1)
      (.verbatimUnc (.ofList server) (.ofList share), rest)
  | drive :: ':' :: rest =>
      if drive.isAlpha && rest.head?.all (isSeparator .windows) then
        (.verbatimDisk drive.toUpper, rest)
      else
        let (name, rest) := nextComponent isVerbatimSeparator (drive :: ':' :: rest)
        (.verbatim (.ofList name), rest)
  | text =>
      let (name, rest) := nextComponent isVerbatimSeparator text
      (.verbatim (.ofList name), rest)

/-- The Windows prefix of a text, if it has one, and the rest of the text. -/
def parsePrefix : List Char → Option (PathPrefix × List Char)
  | '\\' :: '\\' :: '?' :: '\\' :: text => some (parseVerbatim text)
  | a :: b :: text =>
      let sep := isSeparator .windows
      if sep a && sep b then
        let (server, rest) := nextComponent sep text
        let (share, rest') := nextComponent sep (rest.drop 1)
        if server = ['.'] && rest != [] then some (.device (.ofList share), rest')
        else if server ≠ [] ∧ share ≠ [] then some (.unc (.ofList server) (.ofList share), rest')
        else none
      else if a.isAlpha && b == ':' then some (.disk a.toUpper, text)
      else none
  | _ => none

/-- The root and the segments of the text after the prefix. -/
def parseSegments (sep : Char → Bool) (implicitRoot : Bool) : List Char → Bool × List String
  | [] => (implicitRoot, [""])
  | c :: text =>
      if sep c then (true, (text.splitOnP sep).map .ofList)
      else (implicitRoot, ((c :: text).splitOnP sep).map .ofList)

def parse (os : Os) (text : String) : Path :=
  let parsed := match os with
    | .unix => none
    | .windows => parsePrefix text.toList
  match parsed with
  | none =>
      let (root, segments) := parseSegments (isSeparator os) false text.toList
      ⟨none, root, segments⟩
  | some (pathPrefix, rest) =>
      let sep := if pathPrefix.isVerbatim then isVerbatimSeparator else isSeparator os
      let (root, segments) := parseSegments sep pathPrefix.hasImplicitRoot rest
      ⟨some pathPrefix, root, segments⟩

/-- The path of the empty text. -/
def empty : Path := ⟨none, false, [""]⟩

/-! ## Joining -/

def isVerbatim (p : Path) : Bool := p.pathPrefix.any PathPrefix.isVerbatim

def isAbsolute (os : Os) (p : Path) : Bool :=
  match os with
  | .unix => p.root
  | .windows => p.root && p.pathPrefix.isSome

/-- One component pushed onto a verbatim path: `.` and `..` are carried out at once. -/
def pushVerbatim (segments : List String) (c : String) : List String :=
  if c = "" ∨ c = "." then segments
  else if c = ".." then
    match segments.getLast? with
    | some ".." | some "." => segments
    | _ => segments.dropLast
  else segments ++ [c]

/-- The segments a relative path is appended to: those before a trailing separator, and for
a verbatim path only the non-empty ones. -/
def base (p : Path) : List String :=
  if p.isVerbatim then p.segments.filter (· ≠ "")
  else if p.segments.getLast? = some "" then p.segments.dropLast else p.segments

/-- `self` with `p` appended, or replaced by it (`PathBuf::push`). -/
def push (os : Os) (self p : Path) : Path :=
  if p.isAbsolute os || p.pathPrefix.isSome then p
  else if self.isVerbatim && p ≠ empty then
    { self with
      segments := p.segments.foldl pushVerbatim (if p.root then [] else self.base) }
  else if p.root then { p with pathPrefix := self.pathPrefix }
  else { self with segments := self.base ++ p.segments }

/-- `Path::join` with a text. -/
def join (os : Os) (self : Path) (text : String) : Path := self.push os (parse os text)

/-- The path made of the given components in turn (`PathBuf::from_iter`). -/
def collect (os : Os) (components : List String) : Path := components.foldl (join os) empty

/-! ## Staying inside a folder -/

/-- An ordinary name: not empty, not `.` or `..`, without separators and colons. -/
def Ordinary (name : String) : Prop :=
  name ≠ "" ∧ name ≠ "." ∧ name ≠ ".." ∧ ∀ c ∈ name.toList, c ≠ '/' ∧ c ≠ '\\' ∧ c ≠ ':'

instance : DecidablePred Ordinary := fun name =>
  haveI : Decidable (∀ c ∈ name.toList, c ≠ '/' ∧ c ≠ '\\' ∧ c ≠ ':') := List.decidableBAll _ _
  inferInstanceAs (Decidable (name ≠ "" ∧ name ≠ "." ∧ name ≠ ".." ∧
    ∀ c ∈ name.toList, c ≠ '/' ∧ c ≠ '\\' ∧ c ≠ ':'))

/-- A name of three characters or more is neither empty nor `.` nor `..`. -/
lemma ordinary_of_length {name : String} (hlength : 3 ≤ name.toList.length)
    (hchars : ∀ c ∈ name.toList, c ≠ '/' ∧ c ≠ '\\' ∧ c ≠ ':') : Ordinary name := by
  have hne : ∀ short : String, short.toList.length < 3 → name ≠ short := by
    rintro short hshort rfl
    omega
  exact ⟨hne "" (by decide), hne "." (by decide), hne ".." (by decide), hchars⟩

/-- `p` is the folder followed by one or more ordinary names. -/
def StrictlyInside (folder p : Path) : Prop :=
  p.pathPrefix = folder.pathPrefix ∧ p.root = folder.root ∧
    ∃ names, names ≠ [] ∧ (∀ n ∈ names, Ordinary n) ∧ p.segments = folder.base ++ names

/-- A text that, read as a path, is nothing but ordinary names. -/
def OrdinaryText (os : Os) (text : String) : Prop :=
  (parse os text).pathPrefix = none ∧ (parse os text).root = false ∧
    ∀ n ∈ (parse os text).segments, Ordinary n

/-- An ordinary name is a path of itself alone. -/
lemma parse_ordinary (os : Os) {name : String} (h : Ordinary name) :
    parse os name = ⟨none, false, [name]⟩ := by
  obtain ⟨hne, -, -, hchars⟩ := h
  have hsep : ∀ c ∈ name.toList, isSeparator os c = false := by
    intro c hc
    have := hchars c hc
    cases os <;> simp [isSeparator, this]
  have hsegments : parseSegments (isSeparator os) false name.toList = (false, [name]) := by
    have hsplit := List.splitOnP_eq_singleton hsep
    cases htext : name.toList with
    | nil => exact absurd (String.toList_eq_nil_iff.1 htext) hne
    | cons c cs =>
      rw [htext] at hsplit
      rw [parseSegments, hsep c (by simp [htext]), hsplit, ← htext]
      simp
  have hpre : parsePrefix name.toList = none := by
    rcases htext : name.toList with _ | ⟨a, _ | ⟨b, cs⟩⟩
    · simp [parsePrefix]
    · simp [parsePrefix]
    · have ha := hchars a (by simp [htext])
      have hb := hchars b (by simp [htext])
      simp [parsePrefix, isSeparator, ha, hb]
  cases os <;> simp [parse, hpre, hsegments]

lemma base_ordinary {names : List String} (h : ∀ n ∈ names, Ordinary n) :
    (⟨none, false, names⟩ : Path).base = names := by
  have hlast : names.getLast? ≠ some "" := fun hlast =>
    (h "" (List.mem_of_getLast? hlast)).1 rfl
  simp [base, isVerbatim, hlast]

/-- Pushing a relative path of ordinary names appends them, also to a verbatim folder. -/
lemma push_ordinary (os : Os) (folder : Path) {names : List String}
    (h : ∀ n ∈ names, Ordinary n) :
    folder.push os ⟨none, false, names⟩ = { folder with segments := folder.base ++ names } := by
  have hempty : (⟨none, false, names⟩ : Path) ≠ empty := by
    intro heq
    have : names = [""] := congrArg segments heq
    exact (h "" (by simp [this])).1 rfl
  have hfold : ∀ (names init : List String), (∀ n ∈ names, Ordinary n) →
      names.foldl pushVerbatim init = init ++ names := by
    intro names
    induction names with
    | nil => simp
    | cons n ns ih =>
      intro init hns
      have hn := hns n (by simp)
      rw [List.foldl_cons, ih _ fun m hm => hns m (by simp [hm])]
      simp [pushVerbatim, hn.1, hn.2.1, hn.2.2.1]
  rw [push]
  cases hv : folder.isVerbatim
  · cases os <;> simp [isAbsolute]
  · cases os <;> simp [isAbsolute, hempty, hfold _ _ h]

lemma collect_ordinary (os : Os) {names : List String} (hne : names ≠ [])
    (h : ∀ n ∈ names, Ordinary n) : collect os names = ⟨none, false, names⟩ := by
  have hfold : ∀ (names init : List String), (∀ n ∈ init, Ordinary n) → (∀ n ∈ names, Ordinary n) →
      names.foldl (join os) ⟨none, false, init⟩ = ⟨none, false, init ++ names⟩ := by
    intro names
    induction names with
    | nil => simp
    | cons n ns ih =>
      intro init hinit hns
      have hn := hns n (by simp)
      rw [List.foldl_cons, join, parse_ordinary os hn, push_ordinary os _ (by simp [hn]),
        base_ordinary hinit, ih _ _ fun m hm => hns m (by simp [hm])]
      · simp
      · intro m hm
        rcases List.mem_append.1 hm with hm | hm
        · exact hinit m hm
        · rw [List.mem_singleton.1 hm]
          exact hn
  cases names with
  | nil => exact absurd rfl hne
  | cons n ns =>
    have hn := h n (by simp)
    rw [collect, List.foldl_cons, join, parse_ordinary os hn,
      push_ordinary os _ (by simp [hn])]
    exact hfold ns [n] (by simp [hn]) fun m hm => h m (by simp [hm])

lemma strictlyInside_of_ordinary (os : Os) (folder : Path) {names : List String}
    (hne : names ≠ []) (h : ∀ n ∈ names, Ordinary n) :
    StrictlyInside folder (folder.push os ⟨none, false, names⟩) := by
  rw [push_ordinary os folder h]
  exact ⟨rfl, rfl, names, hne, h, rfl⟩

lemma segments_ne_nil (os : Os) (text : String) : (parse os text).segments ≠ [] := by
  have hparse : ∀ (sep : Char → Bool) (b : Bool) (cs : List Char),
      (parseSegments sep b cs).2 ≠ [] := by
    intro sep b cs
    cases cs with
    | nil => simp [parseSegments]
    | cons c cs =>
      rw [parseSegments]
      split <;> simp
  unfold parse
  dsimp only
  split <;> exact hparse _ _ _

/-- Whatever folder a text is joined to, the result stays strictly inside exactly when the
text is nothing but ordinary names. -/
lemma forall_strictlyInside_iff (os : Os) (text : String) :
    (∀ folder : Path, StrictlyInside folder (folder.join os text)) ↔ OrdinaryText os text := by
  constructor
  · intro h
    set p := parse os text with hp
    -- a folder with more segments than the text cannot be the start of the text itself
    let folder : Path := ⟨none, true, List.replicate (p.segments.length + 1) "d"⟩
    have hlong : folder.base = List.replicate (p.segments.length + 1) "d" := by
      simp [base, isVerbatim, folder, List.getLast?_replicate]
    obtain ⟨-, -, names, -, hnames, hsegments⟩ := h folder
    rw [join, ← hp, hlong] at hsegments
    have hreplaced : (folder.push os p).segments ≠ p.segments := by
      intro heq
      have hlen := congrArg List.length (heq.symm.trans hsegments)
      simp only [List.length_append, List.length_replicate] at hlen
      omega
    have hverbatim : folder.isVerbatim = false := rfl
    simp only [push, hlong, hverbatim, Bool.false_and, Bool.false_eq_true, if_false]
      at hsegments hreplaced
    split_ifs at hsegments hreplaced with habs hroot
    · exact absurd rfl hreplaced
    · exact absurd rfl hreplaced
    · simp only [Bool.or_eq_true, Option.isSome_iff_ne_none, not_or, not_not] at habs
      have : p.segments = names := List.append_cancel_left hsegments
      exact ⟨habs.2, by simpa using hroot, this ▸ hnames⟩
  · rintro ⟨hpre, hroot, hnames⟩ folder
    have hp : parse os text = ⟨none, false, (parse os text).segments⟩ := by
      rw [← hpre, ← hroot]
    rw [join, hp]
    exact strictlyInside_of_ordinary os folder (segments_ne_nil os text) hnames

end Path

end Chorrent
