/-
# The arguments of `get`

How the arguments of the `get` command are sorted into share codes and a folder (`main.rs`),
and how the codes are merged into one (`share.rs`).
-/
import Chorrent.Share.Code
import Chorrent.Lib.Except

namespace Chorrent

open Lib

/-- The errors of `split_get_args`. -/
inductive GetArgsError where
  /-- "expected share codes and at most one destination folder, got {} other arguments" -/
  | otherArguments (got : ℕ)
  /-- "no share code given" -/
  | noShareCode
  /-- "a share code you provided isn't valid" -/
  | notValid (e : InvalidShareCode)
  /-- What `merge` answers. -/
  | merge (e : InvalidShareCode)
deriving DecidableEq

namespace FullShareCode

variable {Addr : Type} (peerId : Addr → EndpointId)

/-- `peer_ids` -/
def peerIds (c : FullShareCode Addr) : List EndpointId := c.peers.map peerId

/-- A peer is added unless there is one of its id. -/
def pushPeer (peers : List Addr) (peer : Addr) : List Addr :=
  if peers.any fun p => peerId p = peerId peer then peers else peers ++ [peer]

def merge (c other : FullShareCode Addr) : Except InvalidShareCode (FullShareCode Addr) :=
  if other.id ≠ c.id ∨ other.secret ≠ c.secret then .error .differentShares
  else .ok { c with peers := other.peers.foldl (pushPeer peerId) c.peers }

end FullShareCode

/-! ## The ids that are new -/

section Firsts

variable {α : Type} [DecidableEq α]

/-- The items that have not been seen, each where it comes first. -/
def firsts (seen xs : List α) : List α := (xs.filter (· ∉ seen)).eraseDups

lemma firsts_cons_of_mem {seen : List α} {x : α} (h : x ∈ seen) (xs : List α) :
    firsts seen (x :: xs) = firsts seen xs := by
  rw [firsts, firsts, List.filter_cons_of_neg (by simpa using h)]

lemma firsts_cons_of_notMem {seen : List α} {x : α} (h : x ∉ seen) (xs : List α) :
    firsts seen (x :: xs) = x :: firsts (seen ++ [x]) xs := by
  rw [firsts, firsts, List.filter_cons_of_pos (by simpa using h), List.eraseDups_cons,
    List.filter_filter]
  congr 3
  funext y
  by_cases hy : y = x <;> simp [hy]

lemma mem_firsts {seen xs : List α} {x : α} : x ∈ firsts seen xs ↔ x ∈ xs ∧ x ∉ seen := by
  rw [firsts, List.mem_eraseDups, List.mem_filter, decide_eq_true_iff]

lemma nodup_firsts (seen xs : List α) : (firsts seen xs).Nodup := by
  induction xs generalizing seen with
  | nil => exact List.nodup_nil
  | cons x xs ih =>
    by_cases h : x ∈ seen
    · rw [firsts_cons_of_mem h]
      exact ih seen
    · rw [firsts_cons_of_notMem h]
      exact (ih _).cons fun hx => (mem_firsts.1 hx).2 (by simp)

end Firsts

namespace FullShareCode

variable {Addr : Type} {peerId : Addr → EndpointId}

/-- The ids of the peers that are listed after more peers were added. -/
lemma map_foldl_pushPeer (peers others : List Addr) :
    (others.foldl (pushPeer peerId) peers).map peerId =
      peers.map peerId ++ firsts (peers.map peerId) (others.map peerId) := by
  induction others generalizing peers with
  | nil => exact (List.append_nil _).symm
  | cons p others ih =>
    rw [List.foldl_cons, ih, List.map_cons, pushPeer]
    by_cases hp : peerId p ∈ peers.map peerId
    · rw [if_pos (by simpa using hp), firsts_cons_of_mem hp]
    · rw [if_neg (by simpa using hp), firsts_cons_of_notMem hp, List.map_append,
        List.append_assoc]
      rfl

lemma merge_eq_ok {c other merged : FullShareCode Addr} : merge peerId c other = .ok merged ↔
    (other.id = c.id ∧ other.secret = c.secret) ∧
      { c with peers := other.peers.foldl (pushPeer peerId) c.peers } = merged := by
  rw [merge]
  split_ifs with h
  · simp only [false_iff]
    tauto
  · simp only [Except.ok.injEq]
    tauto

/-- Merging codes one after another works exactly if they all are for the same share, and then
it adds the peers of all of them. -/
lemma foldlM_merge_eq_ok {c merged : FullShareCode Addr} {others : List (FullShareCode Addr)} :
    others.foldlM (merge peerId) c = .ok merged ↔
      (∀ other ∈ others, other.id = c.id ∧ other.secret = c.secret) ∧
        { c with peers := (others.flatMap (·.peers)).foldl (pushPeer peerId) c.peers } =
          merged := by
  induction others generalizing c with
  | nil => simp [pure, Except.pure]
  | cons other others ih =>
    simp only [List.foldlM_cons, except_bind_eq_ok, merge_eq_ok, List.forall_mem_cons,
      List.flatMap_cons, List.foldl_append]
    constructor
    · rintro ⟨_, ⟨hsame, rfl⟩, h⟩
      obtain ⟨hothers, h⟩ := ih.1 h
      exact ⟨⟨hsame, hothers⟩, h⟩
    · rintro ⟨⟨hsame, hothers⟩, h⟩
      exact ⟨_, ⟨hsame, rfl⟩, ih.2 ⟨hothers, h⟩⟩

end FullShareCode

/-! ## Sorting the arguments -/

section Args

open FullShareCode

variable {Addr : Type} (addr : Codec Addr) (peerId : Addr → EndpointId)

/-- An argument is taken for a share code by its first letters. -/
def looksLikeCode (arg : List Char) : Bool := "chr".toList.isPrefixOf (trim arg)

def parseArg (arg : List Char) : Except GetArgsError (FullShareCode Addr) :=
  (parse addr arg).mapError .notValid

/-- `split_get_args` -/
def splitGetArgs (args : List (List Char)) :
    Except GetArgsError (FullShareCode Addr × Option (List Char)) :=
  let codes := args.filter looksLikeCode
  let rest := args.filter (!looksLikeCode ·)
  if rest.length > 1 then .error (.otherArguments rest.length)
  else
    match codes with
    | [] => .error .noShareCode
    | first :: others => do
        let code ← parseArg addr first
        let code ← others.foldlM
          (fun code other => do (code.merge peerId (← parseArg addr other)).mapError .merge) code
        return (code, rest.head?)

/-- What a user hands to `get`: the printed codes of shares, and folders. -/
inductive GetArg (Addr : Type) where
  | code (c : FullShareCode Addr)
  | folder (name : List Char)

namespace GetArg

def text : GetArg Addr → List Char
  | code c => c.print addr
  | folder name => name

def code? : GetArg Addr → Option (FullShareCode Addr)
  | code c => some c
  | folder _ => none

def folder? : GetArg Addr → Option (List Char)
  | code _ => none
  | folder name => some name

end GetArg

def codesOf (args : List (GetArg Addr)) : List (FullShareCode Addr) := args.filterMap (·.code?)

def foldersOf (args : List (GetArg Addr)) : List (List Char) := args.filterMap (·.folder?)

/-- No two codes are for different shares or differ in secret. -/
def SameShare (codes : List (FullShareCode Addr)) : Prop :=
  ∀ c ∈ codes, ∀ d ∈ codes, c.id = d.id ∧ c.secret = d.secret

/-- What the arguments should come to: the folder, and a code with the peers of all codes, those
of the first one first, and then each other one where it is listed first, added once; an error if
the codes are not for the same share. -/
structure Combines (args : List (GetArg Addr))
    (result : Except GetArgsError (FullShareCode Addr × Option (List Char))) : Prop where
  ok : SameShare (codesOf args) → ∃ code first others,
    result = .ok (code, (foldersOf args).head?) ∧ codesOf args = first :: others ∧
      code.id = first.id ∧ code.secret = first.secret ∧
      code.peerIds peerId =
        first.peerIds peerId ++ firsts (first.peerIds peerId) (others.flatMap (·.peerIds peerId)) ∧
      (firsts (first.peerIds peerId) (others.flatMap (·.peerIds peerId))).Nodup ∧
      (first.peerIds peerId).Disjoint
        (firsts (first.peerIds peerId) (others.flatMap (·.peerIds peerId))) ∧
      ∀ id, id ∈ code.peerIds peerId ↔ ∃ c ∈ codesOf args, id ∈ c.peerIds peerId
  error : ¬SameShare (codesOf args) → ∃ e, result = .error e

/-- Two answers that name the same folder and peers with the same ids. -/
def SameAnswer (result result' : Except GetArgsError (FullShareCode Addr × Option (List Char))) :
    Prop :=
  ∀ answer answer', result = .ok answer → result' = .ok answer' →
    answer'.2 = answer.2 ∧ ∀ id, id ∈ answer'.1.peerIds peerId ↔ id ∈ answer.1.peerIds peerId

end Args

section Args

open FullShareCode

variable {Addr : Type} {addr : Codec Addr} {peerId : Addr → EndpointId}

lemma parseArg_eq_ok {arg : List Char} {c : FullShareCode Addr} :
    parseArg addr arg = .ok c ↔ parse addr arg = .ok c := by
  rw [parseArg]
  cases parse addr arg <;> simp [Except.mapError]

lemma mapError_merge_eq_ok {c other merged : FullShareCode Addr} :
    (merge peerId c other).mapError GetArgsError.merge = .ok merged ↔
      merge peerId c other = .ok merged := by
  cases merge peerId c other <;> simp [Except.mapError]

/-- The loop over the codes after the first parses each and merges it. -/
lemma foldlM_parse_merge_eq_ok {args : List (List Char)} {c merged : FullShareCode Addr} :
    args.foldlM (fun code other => do
        (code.merge peerId (← parseArg addr other)).mapError GetArgsError.merge) c = .ok merged ↔
      ∃ others, args.Forall₂ (parse addr · = .ok ·) others ∧
        others.foldlM (merge peerId) c = .ok merged := by
  induction args generalizing c with
  | nil =>
    simp only [List.foldlM_nil, List.forall₂_nil_left_iff, exists_eq_left, pure, Except.pure,
      Except.ok.injEq]
  | cons arg args ih =>
    simp only [List.foldlM_cons, except_bind_eq_ok, parseArg_eq_ok, mapError_merge_eq_ok, ih]
    constructor
    · rintro ⟨next, ⟨other, hother, hnext⟩, others, hothers, h⟩
      exact ⟨other :: others, .cons hother hothers, except_bind_eq_ok.2 ⟨next, hnext, h⟩⟩
    · rintro ⟨_, _ | ⟨hother, hothers⟩, h⟩
      rw [List.foldlM_cons, except_bind_eq_ok] at h
      obtain ⟨next, hnext, h⟩ := h
      exact ⟨next, ⟨_, hother, hnext⟩, _, hothers, h⟩

/-- What `split_get_args` answers if it does. -/
lemma splitGetArgs_eq_ok {args : List (List Char)} {code : FullShareCode Addr}
    {folder : Option (List Char)} : splitGetArgs addr peerId args = .ok (code, folder) ↔
      (args.filter (!looksLikeCode ·)).length ≤ 1 ∧
        folder = (args.filter (!looksLikeCode ·)).head? ∧
        ∃ first others,
          (args.filter looksLikeCode).Forall₂ (parse addr · = .ok ·) (first :: others) ∧
            others.foldlM (merge peerId) first = .ok code := by
  rw [splitGetArgs]
  simp only [gt_iff_lt, ← not_le, ite_not]
  split_ifs with hrest
  · cases hcodes : args.filter looksLikeCode with
    | nil =>
      exact ⟨nofun, fun ⟨_, _, _, _, h, _⟩ => nomatch h⟩
    | cons arg codes =>
      simp only [except_bind_eq_ok, parseArg_eq_ok, foldlM_parse_merge_eq_ok, pure, Except.pure,
        Except.ok.injEq, Prod.mk.injEq]
      constructor
      · rintro ⟨first, hfirst, _, ⟨others, hothers, hmerged⟩, rfl, rfl⟩
        exact ⟨hrest, rfl, first, others, .cons hfirst hothers, hmerged⟩
      · rintro ⟨-, rfl, first, others, hparsed, hmerged⟩
        obtain ⟨hfirst, hothers⟩ := List.forall₂_cons.1 hparsed
        exact ⟨first, hfirst, code, ⟨others, hothers, hmerged⟩, rfl, rfl⟩
  · exact ⟨nofun, fun h => absurd h.1 hrest⟩

/-! ## The arguments a user gives -/

lemma looksLikeCode_print (c : FullShareCode Addr) : looksLikeCode (c.print addr) = true := by
  rw [looksLikeCode, trim_eq_self c.not_isWhitespace_print, List.isPrefixOf_iff_prefix]
  exact ⟨'2' :: _, rfl⟩

/-- The arguments that look like codes and those that do not, if no folder looks like one. -/
lemma filter_looksLikeCode (addr : Codec Addr) {args : List (GetArg Addr)}
    (h : ∀ name ∈ foldersOf args, looksLikeCode name = false) :
    (args.map (·.text addr)).filter looksLikeCode = (codesOf args).map (·.print addr) ∧
      (args.map (·.text addr)).filter (!looksLikeCode ·) = foldersOf args := by
  induction args with
  | nil => exact ⟨rfl, rfl⟩
  | cons arg args ih =>
    cases arg with
    | code c =>
      obtain ⟨hcodes, hfolders⟩ := ih h
      have hc : looksLikeCode ((GetArg.code c).text addr) = true := looksLikeCode_print c
      rw [List.map_cons, List.filter_cons_of_pos hc, List.filter_cons_of_neg (by simp [hc]),
        hcodes, hfolders]
      exact ⟨rfl, rfl⟩
    | folder name =>
      obtain ⟨hname, hrest⟩ := List.forall_mem_cons.1 h
      obtain ⟨hcodes, hfolders⟩ := ih hrest
      have hc : looksLikeCode ((GetArg.folder name : GetArg Addr).text addr) = false := hname
      rw [List.map_cons, List.filter_cons_of_neg (by simp [hc]),
        List.filter_cons_of_pos (by simp [hc]), hcodes, hfolders]
      exact ⟨rfl, rfl⟩

/-- The codes among the arguments are among those that look like codes. -/
lemma print_mem_filter (addr : Codec Addr) {args : List (GetArg Addr)} {c : FullShareCode Addr}
    (h : c ∈ codesOf args) :
    c.print addr ∈ (args.map (·.text addr)).filter looksLikeCode := by
  obtain ⟨arg, harg, hc⟩ := List.mem_filterMap.1 h
  cases arg with
  | code c' =>
    cases hc
    exact List.mem_filter.2 ⟨List.mem_map_of_mem harg, looksLikeCode_print c⟩
  | folder name => cases hc

lemma parse_print_plain {c : FullShareCode Addr} (hfits : (codec addr).Fits c) :
    parse addr (c.print addr) = .ok c := by
  simpa using @parse_print _ _ _ hfits [] [] nofun nofun

/-- Codes of several shares are refused. -/
lemma not_ok_of_not_sameShare {args : List (GetArg Addr)}
    (hfits : ∀ c ∈ codesOf args, (codec addr).Fits c) (h : ¬SameShare (codesOf args))
    (answer : FullShareCode Addr × Option (List Char)) :
    splitGetArgs addr peerId (args.map (·.text addr)) ≠ .ok answer := by
  intro hok
  obtain ⟨-, -, first, others, hparsed, hmerged⟩ := splitGetArgs_eq_ok.1 hok
  have hsame := (foldlM_merge_eq_ok.1 hmerged).1
  -- every code is the first or one that was merged into it
  have hall : ∀ c ∈ codesOf args, c.id = first.id ∧ c.secret = first.secret := by
    intro c hc
    obtain ⟨k, hk, hget⟩ := List.mem_iff_getElem.1 (print_mem_filter addr hc)
    obtain ⟨hlength, hparse⟩ := List.forall₂_iff_get.1 hparsed
    have hck := hparse k hk (hlength ▸ hk)
    simp only [List.get_eq_getElem, hget, parse_print_plain (hfits c hc), Except.ok.injEq] at hck
    rcases List.mem_cons.1 (hck ▸ List.getElem_mem (hlength ▸ hk) : c ∈ first :: others) with
      rfl | hc
    · exact ⟨rfl, rfl⟩
    · exact hsame c hc
  refine h fun c hc d hd => ?_
  rw [(hall c hc).1, (hall c hc).2, (hall d hd).1, (hall d hd).2]
  exact ⟨rfl, rfl⟩

lemma head?_of_length_le_one {names : List (List Char)} (h : names.length ≤ 1) {name : List Char}
    (hname : name ∈ names) : names.head? = some name := by
  match names, h with
  | [only], _ => rw [List.mem_singleton.1 hname]; rfl

/-- Codes of one share are merged, if no folder looks like a code. -/
lemma splitGetArgs_of_sameShare {args : List (GetArg Addr)}
    (hfolders : (foldersOf args).length ≤ 1)
    (hfits : ∀ c ∈ codesOf args, (codec addr).Fits c)
    (hplain : ∀ name ∈ foldersOf args, looksLikeCode name = false)
    (hsame : SameShare (codesOf args)) {first : FullShareCode Addr}
    {others : List (FullShareCode Addr)} (hcodes : codesOf args = first :: others) :
    splitGetArgs addr peerId (args.map (·.text addr)) =
      .ok ({ first with
          peers := (others.flatMap (·.peers)).foldl (pushPeer peerId) first.peers },
        (foldersOf args).head?) := by
  obtain ⟨hlike, hrest⟩ := filter_looksLikeCode addr hplain
  refine splitGetArgs_eq_ok.2 ⟨hrest ▸ hfolders, hrest ▸ rfl, first, others, ?_, ?_⟩
  · rw [hlike, hcodes, List.forall₂_map_left_iff, List.forall₂_same]
    exact fun c hc => parse_print_plain (hfits c (hcodes ▸ hc))
  · refine foldlM_merge_eq_ok.2 ⟨fun other hother => ?_, rfl⟩
    exact hsame other (hcodes ▸ List.mem_cons_of_mem _ hother) first (hcodes ▸ List.mem_cons_self)

lemma peerIds_merged (first : FullShareCode Addr) (others : List (FullShareCode Addr)) :
    ({ first with peers := (others.flatMap (·.peers)).foldl (pushPeer peerId) first.peers } :
      FullShareCode Addr).peerIds peerId =
      first.peerIds peerId ++
        firsts (first.peerIds peerId) (others.flatMap (·.peerIds peerId)) := by
  rw [peerIds, map_foldl_pushPeer, List.map_flatMap]
  rfl

/-- The ids of a merged code are those of all codes. -/
lemma mem_append_firsts {first : FullShareCode Addr} {others : List (FullShareCode Addr)}
    {id : EndpointId} :
    id ∈ first.peerIds peerId ++
        firsts (first.peerIds peerId) (others.flatMap (·.peerIds peerId)) ↔
      ∃ c ∈ first :: others, id ∈ c.peerIds peerId := by
  rw [List.mem_append, mem_firsts, List.mem_flatMap, List.exists_mem_cons_iff]
  tauto

lemma combines (peerId : Addr → EndpointId) {args : List (GetArg Addr)}
    (hcodes : codesOf args ≠ []) (hfolders : (foldersOf args).length ≤ 1)
    (hfits : ∀ c ∈ codesOf args, (codec addr).Fits c)
    (h : ¬SameShare (codesOf args) ∨ ∀ name ∈ foldersOf args, looksLikeCode name = false) :
    Combines peerId args (splitGetArgs addr peerId (args.map (·.text addr))) where
  ok hsame := by
    have hplain := h.resolve_left (not_not_intro hsame)
    obtain ⟨first, others, hlist⟩ := List.exists_cons_of_ne_nil hcodes
    refine ⟨_, first, others, splitGetArgs_of_sameShare hfolders hfits hplain hsame hlist, hlist,
      rfl, rfl, peerIds_merged first others, nodup_firsts _ _,
      fun _ hfirst hadded => (mem_firsts.1 hadded).2 hfirst, fun id => ?_⟩
    rw [peerIds_merged, mem_append_firsts, hlist]
  error hdiffer := by
    cases hresult : splitGetArgs addr peerId (args.map (·.text addr)) with
    | error e => exact ⟨e, rfl⟩
    | ok answer => exact absurd hresult (not_ok_of_not_sameShare hfits hdiffer answer)

lemma sameAnswer {args args' : List (GetArg Addr)} (hperm : args'.Perm args)
    (hfolders : (foldersOf args).length ≤ 1)
    {result result' : Except GetArgsError (FullShareCode Addr × Option (List Char))}
    (h : Combines peerId args result) (h' : Combines peerId args' result') :
    SameAnswer peerId result result' := by
  rintro ⟨code, folder⟩ ⟨code', folder'⟩ rfl rfl
  have hcodes : (codesOf args').Perm (codesOf args) := hperm.filterMap _
  have hsame : SameShare (codesOf args) :=
    Classical.byContradiction fun hdiffer => nomatch h.error hdiffer
  have hsame' : SameShare (codesOf args') :=
    fun c hc d hd => hsame c (hcodes.mem_iff.1 hc) d (hcodes.mem_iff.1 hd)
  obtain ⟨_, _, _, heq, -, -, -, -, -, -, hids⟩ := h.ok hsame
  obtain ⟨_, _, _, heq', -, -, -, -, -, -, hids'⟩ := h'.ok hsame'
  cases heq
  cases heq'
  refine ⟨?_, fun id => ?_⟩
  · -- there is at most one folder, so that its place does not matter
    have hnames : (foldersOf args').Perm (foldersOf args) := hperm.filterMap _
    cases hhead : (foldersOf args').head? with
    | none => rw [List.head?_eq_none_iff.1 hhead, List.nil_perm] at hnames; rw [hnames]; rfl
    | some name =>
      exact (head?_of_length_le_one hfolders
        (hnames.mem_iff.1 (List.mem_of_mem_head? hhead))).symm
  · rw [hids, hids']
    exact exists_congr fun c => and_congr_left fun _ => hcodes.mem_iff

/-- `get` combines all codes that it is given, in whatever order, exactly if they are for
different shares, which it says, or no folder looks like a code. -/
theorem get_combines_iff {args : List (GetArg Addr)} (hcodes : codesOf args ≠ [])
    (hfolders : (foldersOf args).length ≤ 1) (hfits : ∀ c ∈ codesOf args, (codec addr).Fits c) :
    (∀ args', args'.Perm args →
        Combines peerId args' (splitGetArgs addr peerId (args'.map (·.text addr))) ∧
          SameAnswer peerId (splitGetArgs addr peerId (args.map (·.text addr)))
            (splitGetArgs addr peerId (args'.map (·.text addr)))) ↔
      ¬SameShare (codesOf args) ∨ ∀ name ∈ foldersOf args, looksLikeCode name = false := by
  constructor
  · intro h
    refine or_iff_not_imp_left.2 fun hsame name hname => ?_
    obtain ⟨code, _, _, hok, -⟩ := (h args (.refl _)).1.ok (not_not.1 hsame)
    -- the folder is answered, so it was not taken for a code
    have hfolder := (splitGetArgs_eq_ok.1 hok).2.1
    rw [head?_of_length_le_one hfolders hname] at hfolder
    simpa using (List.mem_filter.1 (List.mem_of_mem_head? hfolder.symm)).2
  · intro h args' hperm
    have hcodes' : (codesOf args').Perm (codesOf args) := hperm.filterMap _
    have hnames : (foldersOf args').Perm (foldersOf args) := hperm.filterMap _
    have hcombines := combines peerId hcodes hfolders hfits h
    have hcombines' :
        Combines peerId args' (splitGetArgs addr peerId (args'.map (·.text addr))) := by
      refine combines peerId ?_ (hnames.length_eq ▸ hfolders)
        (fun c hc => hfits c (hcodes'.mem_iff.1 hc)) ?_
      · exact fun hnil => hcodes (List.nil_perm.1 (hnil ▸ hcodes'))
      · refine h.imp (fun hdiffer hsame => hdiffer fun c hc d hd => ?_)
          fun hplain name hname => hplain name (hnames.mem_iff.1 hname)
        exact hsame c (hcodes'.mem_iff.2 hc) d (hcodes'.mem_iff.2 hd)
    exact ⟨hcombines', sameAnswer hperm hfolders hcombines hcombines'⟩

/-- A folder `christmas` is taken for a share code, and refused. -/
theorem christmas_taken_for_code :
    ¬shareCodePrefix <+: "christmas".toList ∧
      ¬Combines id [.code codeOfX, .folder "christmas".toList]
        (splitGetArgs peer id
          ([GetArg.code codeOfX, .folder "christmas".toList].map (·.text peer))) := by
  refine ⟨by decide, fun h => ?_⟩
  have hsame : SameShare [codeOfX] := by
    intro c hc d hd
    rw [List.mem_singleton.1 hc, List.mem_singleton.1 hd]
    exact ⟨rfl, rfl⟩
  have hrefused : splitGetArgs peer id
      ([GetArg.code codeOfX, .folder "christmas".toList].map (·.text peer)) =
        .error (.notValid .notAShareCode) := by
    decide +kernel
  obtain ⟨_, _, _, hok, -⟩ := h.ok hsame
  rw [hrefused] at hok
  cases hok

/-- A code of the same share, with one peer more. -/
def laterCodeOfX : FullShareCode EndpointId :=
  { codeOfX with peers := [.replicate 32 2, .replicate 32 1] }

lemma laterCodeOfX_fits : (codec peer).Fits laterCodeOfX :=
  ⟨trivial, (by decide : (1 : ℕ) < 2 ^ 64), (by decide : 5 < 2 ^ 64),
    ⟨(by decide : (2 : ℕ) < 2 ^ 64), fun _ _ => ⟨trivial, (by decide : 0 < 2 ^ 64)⟩⟩, nofun⟩

/-- Two codes of the share with a peer in common, and a folder between them. -/
def downloadArgs : List (GetArg EndpointId) :=
  [.code codeOfX, .folder "downloads".toList, .code laterCodeOfX]

/-- The peers come together, each once. -/
theorem get_combines_iff_downloads : ∃ code,
    splitGetArgs peer id (downloadArgs.map (·.text peer)) =
        .ok (code, some "downloads".toList) ∧
      code.peerIds id = [.replicate 32 1, .replicate 32 2] := by
  have hfits : ∀ c ∈ codesOf downloadArgs, (codec peer).Fits c := fun c hc => by
    rcases List.mem_pair.1 hc with rfl | rfl
    · exact codeOfX_fits
    · exact laterCodeOfX_fits
  have hsame : SameShare (codesOf downloadArgs) := fun c hc d hd => by
    rcases List.mem_pair.1 hc with rfl | rfl <;> rcases List.mem_pair.1 hd with rfl | rfl
    all_goals exact ⟨rfl, rfl⟩
  have hplain : ∀ name ∈ foldersOf downloadArgs, looksLikeCode name = false := by decide
  obtain ⟨hgiven, -⟩ := (@get_combines_iff _ peer id downloadArgs (by decide) (by decide)
    hfits).2 (.inr hplain) _ (.refl _)
  obtain ⟨code, first, others, hok, hcodes, -, -, hids, -⟩ := hgiven.ok hsame
  obtain ⟨rfl, rfl⟩ := List.cons.inj hcodes
  exact ⟨code, hok, hids.trans (by decide)⟩

end Args

end Chorrent
