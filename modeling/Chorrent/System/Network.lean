/-
# A swarm of nodes

Nodes that download one share from each other: each prepares its files, restores what it had
saved, asks others for pieces, answers for the pieces it has and stores what arrives; it may
stop at any point and be started again.  Nothing is assumed of the network or of further peers:
messages may be lost, repeated and made up.
-/
import Chorrent.Lib.Potential
import Chorrent.Local.Resume

namespace Chorrent

open Lib

/-- Where a node keeps its files, and its keys. -/
structure Site (Master Key : Type) where
  keys : StoreKeys Master Key
  target : Target Master

/-- The files of a node, and its share while it runs. -/
structure Node (Master Hash : Type) where
  fs : FileSystem
  share : Option (LocalShare Master Hash)

structure Network (N Master Hash Wire : Type) where
  nodes : N → Node Master Hash
  /-- Who asked whom for which piece. -/
  requests : List (N × N × ℕ)
  /-- Who sent whom what for which piece; what no node sent was made up. -/
  responses : List (Option N × N × ℕ × Wire)

inductive NetworkAction (N Hash Wire : Type) where
  /-- The files of a node that does not run are changed by others. -/
  | edit (node : N) (fs : FileSystem)
  /-- `for_download`, and `restore_progress` if any progress was saved. -/
  | start (node : N) (env : ℕ → PrepareEnv)
      (saved : Option ((ℕ → RestoreEnv) × List (List (Hash × Hash))))
  | crash (node : N)
  | ask (node other : N) (piece : ℕ)
  | answer (node other : N) (piece : ℕ)
  | forge (node : N) (piece : ℕ) (encoded : Wire)
  /-- `store_piece` as one step: a node stores one piece at a time. -/
  | deliver (sender : Option N) (node : N) (piece : ℕ) (encoded : Wire) (env : StoreEnv)

/-- Nodes ask each other for pieces, answer, and store what another node sent. -/
def NetworkAction.IsExchange {N Hash Wire : Type} : NetworkAction N Hash Wire → Prop
  | .ask _ _ _ | .answer _ _ _ | .deliver (some _) _ _ _ _ => True
  | .edit _ _ | .start _ _ _ | .crash _ | .forge _ _ _ | .deliver none _ _ _ _ => False

namespace Network

variable {N Master Key Hash Wire : Type} [DecidableEq N] [DecidableEq Hash]

def setNode (s : Network N Master Hash Wire) (n : N) (node : Node Master Hash) :
    Network N Master Hash Wire :=
  { s with nodes := Function.update s.nodes n node }

omit [DecidableEq Hash] in
@[simp] lemma setNode_self (s : Network N Master Hash Wire) (n : N) (node : Node Master Hash) :
    (s.setNode n node).nodes n = node := Function.update_self ..

omit [DecidableEq Hash] in
lemma setNode_of_ne (s : Network N Master Hash Wire) {n k : N} (node : Node Master Hash)
    (h : k ≠ n) : (s.setNode n node).nodes k = s.nodes k := Function.update_of_ne h ..

/-- The share that a node starts with. -/
def restored (C : Site Master Key) (B : Bao Hash Wire) (fs : FileSystem)
    (share : LocalShare Master Hash) :
    Option ((ℕ → RestoreEnv) × List (List (Hash × Hash))) → Option (LocalShare Master Hash)
  | none => some share
  | some (env, outboards) =>
      match LocalShare.restoreProgress C.keys B env fs share outboards with
      | (share, .ok ()) => some share
      | (_, .error _) => none

/-- What an action leads to: an action that cannot happen leads nowhere. -/
inductive Step (C : N → Site Master Key) (B : Bao Hash Wire) (m : Manifest Hash) :
    Network N Master Hash Wire → NetworkAction N Hash Wire → Network N Master Hash Wire → Prop
  | edit {s n} (hdown : (s.nodes n).share = none) (fs) :
      Step C B m s (.edit n fs) (s.setNode n ⟨fs, none⟩)
  | start {s n env saved fs share} (hdown : (s.nodes n).share = none)
      (h : LocalShare.forDownload B (C n).target.os env m (C n).target.dest (C n).target.key
        (s.nodes n).fs = (fs, .ok share)) :
      Step C B m s (.start n env saved) (s.setNode n ⟨fs, restored (C n) B fs share saved⟩)
  | startFails {s n env saved fs e} (hdown : (s.nodes n).share = none)
      (h : LocalShare.forDownload B (C n).target.os env m (C n).target.dest (C n).target.key
        (s.nodes n).fs = (fs, .error e)) :
      Step C B m s (.start n env saved) (s.setNode n ⟨fs, none⟩)
  | crash {s n} : Step C B m s (.crash n) (s.setNode n ⟨(s.nodes n).fs, none⟩)
  | ask {s n other piece share} (hup : (s.nodes n).share = some share)
      (hpiece : piece < share.totalPieces) :
      Step C B m s (.ask n other piece) { s with requests := (n, other, piece) :: s.requests }
  | answer {s n other piece share encoded} (hasked : (n, other, piece) ∈ s.requests)
      (hup : (s.nodes other).share = some share) (hhas : share.has piece = true)
      (hencode : LocalShare.encodePiece (C other).keys B false (s.nodes other).fs share piece =
        .ok encoded) :
      Step C B m s (.answer n other piece)
        { s with responses := (some other, n, piece, encoded) :: s.responses }
  | forge {s n piece encoded} :
      Step C B m s (.forge n piece encoded)
        { s with responses := (none, n, piece, encoded) :: s.responses }
  | deliver {s sender n piece encoded env share disk}
      (hsent : (sender, n, piece, encoded) ∈ s.responses)
      (hup : (s.nodes n).share = some share) (hpiece : piece < share.totalPieces)
      (h : (LocalShare.storePiece (C n).keys B env ⟨(s.nodes n).fs, share⟩ piece encoded).1 =
        disk) :
      Step C B m s (.deliver sender n piece encoded env) (s.setNode n ⟨disk.fs, some disk.share⟩)

/-- No node runs and nothing was sent. -/
def Idle (s : Network N Master Hash Wire) : Prop :=
  (∀ n, (s.nodes n).share = none) ∧ s.requests = [] ∧ s.responses = []

/-! ## Safety -/

/-- What a node sends for a piece is a proof of it. -/
def Honest (B : Bao Hash Wire) (m : Manifest Hash) (piece : ℕ) (encoded : Wire) : Prop :=
  ∃ (f : ℕ) (entry : FileEntry Hash) (i : ℕ), m.files[f]? = some entry ∧ i < entry.pieces ∧
    piece = Layout.firstOf m f + i ∧ ∃ load d,
      ProvesBlock B.hasher load entry.rootHash entry.size i d ∧
      B.decode entry.rootHash entry.size (i * blockSize) (pieceEnd entry.size i) encoded =
        (proofItems load entry.size i d, true)

structure Safe (C : N → Site Master Key) (B : Bao Hash Wire) (m : Manifest Hash)
    (s : Network N Master Hash Wire) : Prop where
  node : ∀ n share, (s.nodes n).share = some share → IsDownload (C n).target m share ∧
    CanServe (C n).keys B (C n).target m ⟨(s.nodes n).fs, share⟩
  honest : ∀ sender n piece encoded, (some sender, n, piece, encoded) ∈ s.responses →
    Honest B m piece encoded

variable {C : N → Site Master Key} {B : Bao Hash Wire} {m : Manifest Hash}
  {s s' : Network N Master Hash Wire} {a : NetworkAction N Hash Wire}
  {toLowercase : String → String}

omit [DecidableEq Hash] in
/-- One node changes. -/
lemma Safe.setNode (h : s.Safe C B m) {n : N} {node : Node Master Hash}
    (hnode : ∀ share, node.share = some share → IsDownload (C n).target m share ∧
      CanServe (C n).keys B (C n).target m ⟨node.fs, share⟩) : (s.setNode n node).Safe C B m := by
  refine ⟨fun n' share hshare => ?_, h.honest⟩
  by_cases hn : n' = n
  · subst hn
    rw [setNode_self] at hshare ⊢
    exact hnode share hshare
  · rw [setNode_of_ne s node hn] at hshare ⊢
    exact h.node n' share hshare

lemma Safe.step (hvalid : m.validate toLowercase = .ok ()) (h : s.Safe C B m)
    (hstep : Step C B m s a s') : s'.Safe C B m := by
  cases hstep with
  | edit hdown fs => exact h.setNode fun share hshare => by cases hshare
  | @start n env saved fs share hdown hprepare =>
    refine h.setNode fun share' hshare' => ?_
    have hprep := forDownload_ok (S := (C n).keys) hvalid hprepare
    cases saved with
    | none =>
      obtain rfl := Option.some.inj hshare'
      exact ⟨hprep.isDownload, hprep.canServe⟩
    | some saved =>
      obtain ⟨env', outboards⟩ := saved
      have hspec := restoreProgress_spec (C n).keys B fs env' hprep.isDownload outboards
      obtain ⟨⟨share₁, r⟩, hres⟩ : ∃ result, LocalShare.restoreProgress (C n).keys B env' fs share
          outboards = result := ⟨_, rfl⟩
      rw [hres] at hspec
      simp only [restored, hres] at hshare'
      cases r with
      | error e => cases hshare'
      | ok u =>
        obtain rfl := Option.some.inj hshare'
        exact ⟨hspec.isDownload,
          hspec.canServe (fun f entry _ hf => hprep.whole f entry hf) hprep.canServe⟩
  | startFails hdown hprepare => exact h.setNode fun share hshare => by cases hshare
  | crash => exact h.setNode fun share hshare => by cases hshare
  | ask => exact ⟨h.node, h.honest⟩
  | @answer n other piece share encoded hasked hup hhas hencode =>
    refine ⟨h.node, fun sender n' piece' encoded' hmem => ?_⟩
    rcases List.mem_cons.1 hmem with heq | hmem
    · cases heq
      obtain ⟨hd, -⟩ := h.node other share hup
      obtain ⟨f, i, entry, hf, hi, rfl⟩ := Layout.exists_piece (lt_totalPieces_of_has hd hhas)
      exact ⟨f, entry, i, hf, hi, rfl, encodePiece_valid hd hf hi hencode⟩
    · exact h.honest sender n' piece' encoded' hmem
  | forge =>
    refine ⟨h.node, fun sender n' piece' encoded' hmem => ?_⟩
    rcases List.mem_cons.1 hmem with heq | hmem
    · cases heq
    · exact h.honest sender n' piece' encoded' hmem
  | @deliver sender n piece encoded env share disk hsent hup hpiece hstore =>
    refine h.setNode fun share' hshare' => ?_
    cases hshare'
    obtain ⟨hd, hserve⟩ := h.node n share hup
    rw [LocalShare.totalPieces, hd.layout_eq] at hpiece
    obtain ⟨f, i, entry, hf, hi, rfl⟩ := Layout.exists_piece hpiece
    replace hd : IsDownload (C n).target m (Disk.mk (s.nodes n).fs share).share := hd
    have hspec := storePiece_spec (C n).keys B encoded env hd hf hi
    subst hstore
    exact ⟨hspec.isDownload hd hf, hspec.canServe hvalid hd hf hi hserve⟩

omit [DecidableEq N] [DecidableEq Hash] in
lemma Idle.safe (h : s.Idle) : s.Safe C B m := by
  obtain ⟨hdown, -, hnone⟩ := h
  refine ⟨fun n share hshare => ?_, fun sender n piece encoded hmem => ?_⟩
  · rw [hdown n] at hshare
    cases hshare
  · rw [hnone] at hmem
    cases hmem

/-- Whatever is sent and whenever nodes stop and start, what a node counts as had is the piece
that the manifest names, two nodes that have a piece have the same bytes of it, and what a node
sends for a piece, to whomever, is accepted by every node that lacks it and can write. -/
theorem network_safe (hvalid : m.validate toLowercase = .ok ()) {s₀ : Network N Master Hash Wire}
    (hidle : s₀.Idle) {actions : List (NetworkAction N Hash Wire)}
    (hrun : Run (Step C B m) s₀ actions s) :
    (∀ n share, (s.nodes n).share = some share →
      Intact (C n).keys B (C n).target m ⟨(s.nodes n).fs, share⟩) ∧
    (∀ n n' share share', (s.nodes n).share = some share → (s.nodes n').share = some share' →
      ∀ (f : ℕ) (entry : FileEntry Hash) (i : ℕ), m.files[f]? = some entry → i < entry.pieces →
        share.has (Layout.firstOf m f + i) = true → share'.has (Layout.firstOf m f + i) = true →
          ∃ d, (C n).target.stored (C n).keys (s.nodes n).fs f entry i = some d ∧
            (C n').target.stored (C n').keys (s.nodes n').fs f entry i = some d) ∧
    ∀ sender addressee n encoded env share (f : ℕ) (entry : FileEntry Hash) (i : ℕ),
      (s.nodes n).share = some share → m.files[f]? = some entry → i < entry.pieces →
      (some sender, addressee, Layout.firstOf m f + i, encoded) ∈ s.responses →
      share.has (Layout.firstOf m f + i) = false →
      CanWrite (C n).keys (C n).target ⟨(s.nodes n).fs, share⟩ env f entry i →
        (LocalShare.storePiece (C n).keys B env ⟨(s.nodes n).fs, share⟩
          (Layout.firstOf m f + i) encoded).2 = .ok true := by
  have hsafe : s.Safe C B m :=
    hrun.invariant (fun _ _ _ h hstep => h.step hvalid hstep) hidle.safe
  have hgenuine : ∀ n share, (s.nodes n).share = some share →
      Genuine (C n).keys B (C n).target m ⟨(s.nodes n).fs, share⟩ := fun n share hshare =>
    (hsafe.node n share hshare).2.genuine (hsafe.node n share hshare).1
  refine ⟨fun n share hshare => (hgenuine n share hshare).intact (hsafe.node n share hshare).1,
    fun n n' share share' hshare hshare' f entry i hf hi hhas hhas' => ?_,
    fun sender addressee n encoded env share f entry i hshare hf hi hsent hlacks hwrite => ?_⟩
  · obtain ⟨load, d, hstored, hproves⟩ := hgenuine n share hshare f entry i hf hi hhas
    obtain ⟨load', d', hstored', hproves'⟩ := hgenuine n' share' hshare' f entry i hf hi hhas'
    obtain rfl := hproves.unique hproves'
    exact ⟨d, hstored, hstored'⟩
  · obtain ⟨f', entry', i', hf', hi', heq, load, d, hproves, hdecode⟩ :=
      hsafe.honest _ _ _ _ hsent
    obtain ⟨rfl, rfl⟩ := Layout.firstOf_add_inj hf hi hf' hi' heq
    obtain rfl := Option.some.inj (hf.symm.trans hf')
    obtain ⟨hopens, handle, hopen⟩ := hwrite.opens
    have hd : IsDownload (C n).target m (Disk.mk (s.nodes n).fs share).share :=
      (hsafe.node n share hshare).1
    exact (storePiece_spec (C n).keys B encoded env hd hf hi).accepts load d handle hlacks hproves
      hdecode hopen hopens hwrite.calm hwrite.offset

/-! ## Files that can be written -/

/-- Every file of the node can be opened for writing, and its slots can be addressed. -/
structure Writable (C : Site Master Key) (m : Manifest Hash) (fs : FileSystem) : Prop where
  opens : ∀ (f : ℕ) (entry : FileEntry Hash), m.files[f]? = some entry → ∃ handle,
    (C.target.data f entry).openWith C.keys true false (fs (C.target.data f entry).path) =
      .ok handle
  offset : ∀ entry ∈ m.files, ∀ i < entry.pieces, slotPos i < 2 ^ 64

omit [DecidableEq Hash] in
lemma Writable.storePiece {C : Site Master Key} {disk : Disk Master Hash} {f i : ℕ}
    {entry : FileEntry Hash} (hvalid : m.validate toLowercase = .ok ())
    (h : Writable C m disk.fs) (env : StoreEnv) (encoded : Wire)
    (hd : IsDownload C.target m disk.share) (hf : m.files[f]? = some entry)
    (hi : i < entry.pieces) : Writable C m
      (LocalShare.storePiece C.keys B env disk (Layout.firstOf m f + i) encoded).1.fs := by
  rcases (storePiece_spec C.keys B encoded env hd hf hi).file with
    hsame | ⟨handle, bytes, -, hopen, hfs⟩
  · rw [hsame]
    exact h
  · -- what was decoded into the file still opens
    have hopens := (decodeRange_spec (B := B) hopen (C.target.sized f entry) entry.size_lt hi
      entry.rootHash env.write encoded).opens
    refine ⟨fun g entry' hg => ?_, h.offset⟩
    rw [hfs]
    by_cases hgf : g = f
    · subst hgf
      obtain rfl := Option.some.inj (hf.symm.trans hg)
      rw [Function.update_self]
      exact ⟨handle, hopens⟩
    · rw [Function.update_of_ne fun hpath => hgf (Target.path_injective hvalid hg hf hpath)]
      exact h.opens g entry' hg

/-! ## Spreading -/

/-- Every node runs and can write its files. -/
structure Ready (C : N → Site Master Key) (B : Bao Hash Wire) (m : Manifest Hash)
    (s : Network N Master Hash Wire) : Prop where
  safe : s.Safe C B m
  up : ∀ n, (s.nodes n).share.isSome = true
  writable : ∀ n, Writable (C n) m (s.nodes n).fs

/-- Whether the node runs and has the piece. -/
def has (s : Network N Master Hash Wire) (n : N) (piece : ℕ) : Bool :=
  (s.nodes n).share.any (·.has piece)

/-- How many pieces the nodes lack together. -/
def lacking [Fintype N] (m : Manifest Hash) (s : Network N Master Hash Wire) : ℕ :=
  ∑ n, (List.range (Layout.new m).totalPieces).countP fun piece => !s.has n piece

omit [DecidableEq N] [DecidableEq Hash] in
lemma has_eq_true {n : N} {piece : ℕ} :
    s.has n piece = true ↔ ∃ share, (s.nodes n).share = some share ∧ share.has piece = true :=
  Option.any_eq_true _ _

/-- As long as a node runs, nothing that is sent takes a piece from it. -/
lemma has_of_step (hvalid : m.validate toLowercase = .ok ()) (h : s.Safe C B m)
    (hstep : Step C B m s a s') {n : N} {piece : ℕ} (hup : a ≠ .crash n)
    (hhas : s.has n piece = true) : s'.has n piece = true := by
  obtain ⟨share, hshare, hpiece⟩ := has_eq_true.1 hhas
  have hother : ∀ {k : N} {node : Node Master Hash}, n ≠ k →
      (s.setNode k node).has n piece = true := fun hne => by
    rw [has, setNode_of_ne s _ hne]
    exact hhas
  have hdown : ∀ {k : N} {node : Node Master Hash}, (s.nodes k).share = none →
      (s.setNode k node).has n piece = true := fun {k _} hnone => hother fun hnk => by
    rw [hnk, hnone] at hshare
    cases hshare
  cases hstep with
  | edit hnone => exact hdown hnone
  | start hnone => exact hdown hnone
  | startFails hnone => exact hdown hnone
  | @crash k => exact hother fun hnk => hup (hnk ▸ rfl)
  | ask | answer | forge => exact hhas
  | @deliver sender k piece' encoded env share' disk hsent hshare' hlt hstore =>
    by_cases hnk : n = k
    · subst hnk
      obtain rfl := Option.some.inj (hshare.symm.trans hshare')
      obtain ⟨hd, -⟩ := h.node n share hshare
      rw [LocalShare.totalPieces, hd.layout_eq] at hlt
      obtain ⟨f, i, entry, hf, hi, rfl⟩ := Layout.exists_piece hlt
      replace hd : IsDownload (C n).target m (Disk.mk (s.nodes n).fs share).share := hd
      have hadv := (storePiece_spec (C n).keys B encoded env hd hf hi).advances hvalid hf
      rw [hstore] at hadv
      rw [has, setNode_self]
      exact hadv.has_mono piece hpiece
    · exact hother hnk

/-- A node that lacks a piece gets it from one that has it. -/
lemma exchange [Fintype N] (hvalid : m.validate toLowercase = .ok ()) (h : s.Ready C B m)
    {env : StoreEnv} (hopens : env.openFails = false) (hcalm : (env.write 0 0).fault = none)
    {n other : N} {piece : ℕ} (hhas : s.has other piece = true) (hlacks : s.has n piece = false) :
    ∃ actions s', Run (fun s a s' => Step C B m s a s' ∧ a.IsExchange) s actions s' ∧
      actions.length ≤ 3 ∧ s'.Ready C B m ∧ s'.lacking m < s.lacking m ∧
      ∀ n piece, s.has n piece = true → s'.has n piece = true := by
  obtain ⟨share', hup', hpiece'⟩ := has_eq_true.1 hhas
  obtain ⟨share, hup⟩ := Option.isSome_iff_exists.1 (h.up n)
  have hpiece : share.has piece = false := by simpa [has, hup] using hlacks
  obtain ⟨hd', hserve'⟩ := h.safe.node other share' hup'
  obtain ⟨hd, hserve⟩ := h.safe.node n share hup
  have hlt := lt_totalPieces_of_has hd' hpiece'
  obtain ⟨f, i, entry, hf, hi, hpiece_eq⟩ := Layout.exists_piece hlt
  subst hpiece_eq
  obtain ⟨encoded, hencode⟩ := encodePiece_succeeds hd' hserve' hf hi hpiece'
  obtain ⟨handle, hopen⟩ := (h.writable n).opens f entry hf
  have hwrite : CanWrite (C n).keys (C n).target ⟨(s.nodes n).fs, share⟩ env f entry i :=
    ⟨⟨hopens, handle, hopen⟩,
      (h.writable n).offset entry (List.mem_of_getElem? hf) i hi, hcalm⟩
  have hd₀ : IsDownload (C n).target m (Disk.mk (s.nodes n).fs share).share := hd
  obtain ⟨disk, d, hstore, hnew, -, -⟩ := accepts_encoded hd' (hserve'.genuine hd') hd₀ hf hi
    hpiece' hpiece hencode hwrite
  have hlt' : Layout.firstOf m f + i < share.totalPieces := by
    rw [LocalShare.totalPieces, hd.layout_eq]
    exact hlt
  set piece := Layout.firstOf m f + i with hpiecedef
  set s₁ : Network N Master Hash Wire := { s with requests := (n, other, piece) :: s.requests }
  set s₂ : Network N Master Hash Wire :=
    { s₁ with responses := (some other, n, piece, encoded) :: s.responses }
  have hask : Step C B m s (.ask n other piece) s₁ := .ask hup hlt'
  have hanswer : Step C B m s₁ (.answer n other piece) s₂ :=
    .answer List.mem_cons_self hup' hpiece' hencode
  have hdeliver : Step C B m s₂ (.deliver (some other) n piece encoded env)
      (s₂.setNode n ⟨disk.fs, some disk.share⟩) :=
    .deliver List.mem_cons_self hup hlt' (by rw [hstore])
  have hfs : ∀ k, (s₂.setNode n ⟨disk.fs, some disk.share⟩).nodes k =
      if k = n then ⟨disk.fs, some disk.share⟩ else s.nodes k := fun k => by
    split_ifs with hk
    · rw [hk, setNode_self]
    · exact setNode_of_ne s₂ _ hk
  have hsafe := ((h.safe.step hvalid hask).step hvalid hanswer).step hvalid hdeliver
  have hmono : ∀ k q, s.has k q = true → (s₂.setNode n ⟨disk.fs, some disk.share⟩).has k q = true :=
    fun k q hq => has_of_step hvalid ((h.safe.step hvalid hask).step hvalid hanswer) hdeliver
      (by simp) hq
  refine ⟨_, _, .cons ⟨hask, trivial⟩ (.cons ⟨hanswer, trivial⟩ (.single ⟨hdeliver, trivial⟩)),
    le_rfl, ⟨hsafe, fun k => ?_, fun k => ?_⟩, ?_, hmono⟩
  · rw [hfs]
    split_ifs
    · rfl
    · exact h.up k
  · rw [hfs]
    split_ifs with hk
    · subst hk
      have := (h.writable k).storePiece (B := B) hvalid env encoded hd₀ hf hi
      rwa [← hpiecedef, hstore] at this
    · exact h.writable k
  · refine Finset.sum_lt_sum (fun k _ => List.countP_mono_left fun q _ hq => ?_)
      ⟨n, Finset.mem_univ n, ?_⟩
    · by_contra hhas'
      rw [hmono k q (by simpa using hhas')] at hq
      cases hq
    · -- the node has the piece now, and had not
      have hcount := countP_range_update (fun b => !b) (s.has n) hlt true
      rw [hlacks] at hcount
      have hle : ((List.range (Layout.new m).totalPieces).countP fun q =>
          !(s₂.setNode n ⟨disk.fs, some disk.share⟩).has n q) ≤
            (List.range (Layout.new m).totalPieces).countP fun q =>
              !Function.update (s.has n) piece true q := by
        refine List.countP_mono_left fun q _ hq => ?_
        by_cases hqp : q = piece
        · subst hqp
          rw [has, setNode_self, Option.any_some, hnew] at hq
          cases hq
        · rw [Function.update_of_ne hqp]
          by_contra hhas'
          rw [hmono n q (by simpa using hhas')] at hq
          cases hq
      simp only [Bool.not_false, Bool.not_true, Bool.toNat_true, Bool.toNat_false] at hcount
      omega

/-- A share spreads.  Where every node runs and can write its files, and each piece is with some
node, each node gets each piece within three messages a missing piece; and in every run, whatever
the others do, a node that does not stop loses no piece. -/
theorem network_spreads [Fintype N] (hvalid : m.validate toLowercase = .ok ())
    {s₀ : Network N Master Hash Wire} (hidle : s₀.Idle)
    {actions : List (NetworkAction N Hash Wire)} (hrun : Run (Step C B m) s₀ actions s) :
    (∀ env : StoreEnv, env.openFails = false → (env.write 0 0).fault = none →
      (∀ n, (s.nodes n).share.isSome = true) → (∀ n, Writable (C n) m (s.nodes n).fs) →
      (∀ piece < (Layout.new m).totalPieces, ∃ n, s.has n piece = true) →
      ∃ actions s', Run (fun s a s' => Step C B m s a s' ∧ a.IsExchange) s actions s' ∧
        actions.length ≤ 3 * s.lacking m ∧
        ∀ n, ∀ piece < (Layout.new m).totalPieces, s'.has n piece = true) ∧
    ∀ actions s', Run (Step C B m) s actions s' → ∀ n, .crash n ∉ actions →
      ∀ piece, s.has n piece = true → s'.has n piece = true := by
  have hsafe : s.Safe C B m :=
    hrun.invariant (fun _ _ _ h hstep => h.step hvalid hstep) hidle.safe
  refine ⟨fun env hopens hcalm hup hwrite hseeded => ?_,
    fun actions s' hrun' n hcrash piece hhas => ?_⟩
  · obtain ⟨actions, s', hrun', hlen, -, hdone⟩ := Run.exists_of_decreases
      (fun s => s.Ready C B m ∧
        ∀ piece < (Layout.new m).totalPieces, ∃ n, s.has n piece = true)
      (fun s => ∀ n, ∀ piece < (Layout.new m).totalPieces, s.has n piece = true)
      (lacking m) 3 (fun t ⟨hready, hseeds⟩ hnot => by
        push Not at hnot
        obtain ⟨n, piece, hlt, hlacks⟩ := hnot
        obtain ⟨other, hhas⟩ := hseeds piece hlt
        obtain ⟨actions, t', hrun, hlen, hready', hless, hmono⟩ :=
          exchange hvalid hready hopens hcalm hhas (by simpa using hlacks)
        exact ⟨actions, t', hrun, hlen, ⟨hready', fun q hq =>
          (hseeds q hq).imp fun k hk => hmono k q hk⟩, hless⟩)
      s ⟨⟨hsafe, hup, hwrite⟩, hseeded⟩
    exact ⟨actions, s', hrun', hlen, hdone⟩
  · clear hrun
    induction hrun' with
    | nil => exact hhas
    | cons hstep _ ih =>
      refine ih (hsafe.step hvalid hstep) (fun hmem => hcrash (List.mem_cons_of_mem _ hmem)) ?_
      exact has_of_step hvalid hsafe hstep (fun heq => hcrash (heq ▸ List.mem_cons_self)) hhas

end Network

/-! ## Two nodes -/

namespace OneFile

def site : Site Bytes Bytes := ⟨keys, target⟩

/-- Of two nodes only the first has the file. -/
def apart : Network Bool Bytes Digest Digest.Encoding where
  nodes first := ⟨if first then arrived.fs else fun _ => none, none⟩
  requests := []
  responses := []

/-- Both nodes were started. -/
def together : Network Bool Bytes Digest Digest.Encoding :=
  (apart.setNode true ⟨arrived.fs, some restarted⟩).setNode false
    ⟨prepared.fs, some prepared.share⟩

lemma apart_idle : apart.Idle := ⟨fun _ => rfl, rfl, rfl⟩

lemma run_together : Run (Network.Step (fun _ => site) referenceBao manifest) apart
    [.start true prepareEnv none, .start false prepareEnv none] together :=
  .cons (.start rfl forDownload_restarted) (.single (.start rfl forDownload_prepared))

/-- The second node refused what was made up for it. -/
def refused : Disk Bytes Digest :=
  (LocalShare.storePiece keys referenceBao storeEnv prepared 0 ([], [9])).1

/-- Then it stored what the first node sent. -/
def delivered : Disk Bytes Digest :=
  (LocalShare.storePiece keys referenceBao storeEnv refused 0 ([], content)).1

/-- The answer of the first node is under way, and what was made up has arrived. -/
def answered : Network Bool Bytes Digest Digest.Encoding :=
  { together with
    requests := [(false, true, 0)],
    responses := [(none, false, 0, [], [9]), (some true, false, 0, [], content)] }.setNode false
      ⟨refused.fs, some refused.share⟩

lemma encodePiece_restarted :
    LocalShare.encodePiece keys referenceBao false arrived.fs restarted 0 = .ok ([], content) := rfl

lemma run_answered : Run (Network.Step (fun _ => site) referenceBao manifest) apart
    ([.start true prepareEnv none, .start false prepareEnv none] ++
      [.ask false true 0, .answer false true 0, .forge false 0 ([], [9]),
        .deliver none false 0 ([], [9]) storeEnv]) answered :=
  run_together.append <|
    .cons (.ask (show _ = some prepared.share from rfl) (by decide)) <|
    .cons (.answer List.mem_cons_self (show _ = some restarted from rfl) (by decide)
      encodePiece_restarted) <|
    .cons .forge <| .single <|
      .deliver List.mem_cons_self (show _ = some prepared.share from rfl) (by decide) rfl

end OneFile

open OneFile in
/-- A node gets the piece from the one that has it, after something made up was sent to it. -/
theorem network_safe_two_nodes :
    (LocalShare.storePiece keys referenceBao storeEnv refused 0 ([], content)).2 = .ok true ∧
      Intact keys referenceBao target manifest delivered ∧
      ∃ d, target.stored keys arrived.fs 0 entry 0 = some d ∧
        target.stored keys delivered.fs 0 entry 0 = some d := by
  have hdeliver : Network.Step (fun _ => site) referenceBao manifest answered
      (.deliver (some true) false 0 ([], content) storeEnv)
      (answered.setNode false ⟨delivered.fs, some delivered.share⟩) :=
    .deliver (List.mem_cons_of_mem _ List.mem_cons_self)
      (show _ = some refused.share from rfl) (by decide) rfl
  have hwrite : CanWrite keys target refused storeEnv 0 entry 0 :=
    ⟨⟨rfl, Handle.plain, rfl⟩, by decide, rfl⟩
  obtain ⟨-, -, haccepts⟩ := Network.network_safe validate_manifest apart_idle run_answered
  obtain ⟨hintact, hagree, -⟩ :=
    Network.network_safe validate_manifest apart_idle (run_answered.append (.single hdeliver))
  exact ⟨haccepts true false false ([], content) storeEnv refused.share 0 entry 0 rfl rfl
      (by decide) (List.mem_cons_of_mem _ List.mem_cons_self) (by decide) hwrite,
    hintact false delivered.share rfl,
    hagree true false restarted delivered.share rfl rfl 0 entry 0 rfl (by decide) (by decide)
      (by decide)⟩

open OneFile in
/-- The file comes to the node that has it not, and stays with the other when that one stops. -/
theorem network_spreads_two_nodes :
    (∃ actions s',
      Run (fun s a s' => Network.Step (fun _ => site) referenceBao manifest s a s' ∧ a.IsExchange)
        together actions s' ∧ actions.length ≤ 3 ∧ s'.has false 0 = true) ∧
      (together.setNode false ⟨prepared.fs, none⟩).has true 0 = true := by
  have hwrite : ∀ first, Network.Writable site manifest (together.nodes first).fs := fun first => by
    refine ⟨fun f entry hf => ?_, fun entry hentry i hi => ?_⟩
    · obtain ⟨rfl, rfl⟩ : f = 0 ∧ entry = OneFile.entry := by
        cases f with
        | zero => exact ⟨rfl, (Option.some.inj hf).symm⟩
        | succ f => cases hf
      cases first
      · exact ⟨Handle.plain, rfl⟩
      · exact ⟨Handle.plain, rfl⟩
    · rw [List.mem_singleton.1 hentry] at hi
      have : i = 0 := Nat.lt_one_iff.1 hi
      subst this
      decide
  have hcrash : Network.Step (fun _ => site) referenceBao manifest together (.crash false)
      (together.setNode false ⟨prepared.fs, none⟩) := .crash
  have hseeded : ∀ piece < (Layout.new manifest).totalPieces, ∃ n, together.has n piece = true :=
    fun piece hlt => ⟨true, by
      obtain rfl : piece = 0 := Nat.lt_one_iff.1 hlt
      decide⟩
  obtain ⟨hspreads, hkeeps⟩ :=
    Network.network_spreads validate_manifest apart_idle run_together
  obtain ⟨actions, s', hrun, hlen, hall⟩ :=
    hspreads storeEnv rfl rfl (fun first => by cases first <;> rfl) hwrite hseeded
  exact ⟨⟨actions, s', hrun, hlen, hall false 0 (by decide)⟩,
    hkeeps _ _ (.single hcrash) true (by simp) 0 (by decide)⟩

end Chorrent
