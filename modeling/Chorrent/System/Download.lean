/-
# A download from its share code to its files

The manifest comes from whoever answers, the pieces from whoever has them, and several workers may
store one piece at once.  What the engine leaves when its scheduler is done are the files that were
shared, and the final check of whole files passes.
-/
import Chorrent.Engine.Progress
import Chorrent.System.Finished

namespace Chorrent

open Lib Bytes

variable {K Master Key Master' Key' Hash Wire : Type} [DecidableEq K] {S : StoreKeys Master Key}
  {S' : StoreKeys Master' Key'} {B : Bao Hash Wire} {T : Target Master} {m : Manifest Hash}
  {toLowercase : String → String} {disk : Disk Master Hash} {s s' : Transfer K Master Hash}
  {a : TransferAction K Wire}

/-! ## Lengths -/

omit [DecidableEq K] in
lemma storeRacing_exact (env : StoreEnv) (late : Bool) {piece : ℕ} (encoded : Wire)
    (hvalid : m.validate toLowercase = .ok ()) (hd : IsDownload T m disk.share)
    (hexact : Exact T m disk.fs) (hpiece : piece < disk.share.totalPieces) :
    Exact T m (LocalShare.storeRacing S B env late disk piece encoded).1.fs := by
  rw [LocalShare.storeRacing]
  split_ifs with hlate
  · exact storePiece_exact env encoded hvalid (Disk.isDownload_setHeld hd) hexact hpiece
  · exact storePiece_exact env encoded hvalid hd hexact hpiece

omit [DecidableEq K] in
lemma Reached.exact [DecidableEq Hash] (hvalid : m.validate toLowercase = .ok ())
    (h : Reached S B T m disk) : Exact T m disk.fs := by
  obtain ⟨env, fs, fs₀, share₀, ops, hstart, hrun⟩ := h
  have hprep := forDownload_ok (S := S) hvalid hstart
  have hall := hrun.invariant
    (P := fun disk => (IsDownload T m disk.share ∧ Genuine S B T m disk) ∧ Exact T m disk.fs)
    (fun disk op disk' ⟨⟨hd, hg⟩, hexact⟩ hstep => by
      obtain ⟨hd', hg', -⟩ := hstep.keeps hvalid hd hg
      refine ⟨⟨hd', hg'⟩, ?_⟩
      cases hstep with
      | storePiece hlt => exact storePiece_exact _ _ hvalid hd hexact hlt
      | restoreProgress => exact hexact)
    ⟨⟨hprep.isDownload, hprep.canServe.genuine hprep.isDownload⟩, forDownload_exact S hvalid hstart⟩
  exact hall.2

namespace Transfer

lemma exact_step (hvalid : m.validate toLowercase = .ok ()) (hs : s.Sane T m)
    (hexact : Exact T m s.disk.fs) (hstep : s.step S B a = some s') : Exact T m s'.disk.fs := by
  have hpiece : ∀ {i : ℕ}, i < (Layout.new m).totalPieces → i < s.disk.share.totalPieces :=
    fun hi => by rwa [LocalShare.totalPieces, hs.download.layout_eq]
  cases step_does hstep with
  | engine => exact hexact
  | complete => exact hexact
  | announce => exact hexact
  | store hw hphase _ =>
    exact storeRacing_exact _ _ _ hvalid hs.download hexact
      (hpiece (hs.lt_total hw (by rw [hphase]; rfl)))
  | orphan hmem =>
    exact storeRacing_exact _ _ _ hvalid hs.download hexact (hpiece (hs.orphans_lt _ hmem))

/-- What the engine leaves.  Let a share be made of files, let its code be given to a download, and
let the download run from whatever it had: with any peers, any answers and any interleaving of its
tasks, as long as no second write of a piece fails.  The manifest lists each file that was shared
and nothing else; and once the scheduler is done, each file reads and exports byte by byte as it
was, unless it is empty, and the final check passes if and only if the empty files can be opened. -/
theorem download_delivers [DecidableEq Hash] (K : Type) [DecidableEq K] {idOf : Bytes → Hash}
    {hash : Codec Hash} {t : Tree} {content : DiskNames → FileBytes} {name : String}
    {seed : Seed Master' Hash} {code : ShareCode Hash} {response : Response} {bytes : Bytes}
    (hshared : Shared S' B toLowercase idOf hash t content name seed) (hdistinct : t.Distinct)
    (hhash : ∀ h, hash.Fits h) (hid : Unforged idOf seed.id) (hcode : code.id = seed.id)
    (hfetch : fetchManifest toLowercase idOf hash code response = .ok (m, bytes))
    (hreach : Reached S B T m disk) :
    (∀ names, t.At names .file →
      ∃ file ∈ m.files, file.path = name :: names.map diskText) ∧
    ∃ s₀ : Transfer K Master Hash, start K disk = some s₀ ∧
      ∀ actions s, Run (fun (s : Transfer K Master Hash) (a : TransferAction K Wire) s' =>
          s.step S B a = some s' ∧ s.Undamaging S B a) s₀ actions s →
        s.engine.sched.isDone = true →
        (∀ (f : ℕ) (entry : FileEntry Hash), m.files[f]? = some entry → ∃ names,
          t.At names .file ∧ entry.path = name :: names.map diskText ∧
          entry.size = (content names).1.length ∧ (0 < entry.size →
            (∀ offset len, s.disk.share.readRange S s.disk.fs f offset len =
              .ok ((content names).1.slice offset (min len (entry.size - offset)))) ∧
            ∀ env dest fs', s.disk.share.exportFile S env s.disk.fs f dest = (fs', .ok ()) →
              fs' = Function.update s.disk.fs dest (some (content names).1))) ∧
        ∀ files : SeedDisk, (∀ (f : ℕ) (entry : FileEntry Hash), m.files[f]? = some entry →
            files.fs (T.data f entry).path = s.disk.fs (T.data f entry).path) →
          (s.disk.share.verify S B files = .ok () ↔
            ∀ (f : ℕ) (entry : FileEntry Hash), m.files[f]? = some entry → entry.size = 0 →
              ∃ handle, (T.data f entry).openWith S false true
                (s.disk.fs (T.data f entry).path) = .ok handle) := by
  obtain ⟨hmanifest, hvalid⟩ := hshared.manifest_eq hdistinct hhash hid hcode hfetch
  obtain ⟨hdescribes, -⟩ := hshared.describes hdistinct
  rw [← hmanifest] at hdescribes
  refine ⟨fun names hat => List.mem_map.1 ((hdescribes.lists.mem_iff _).2 ⟨names, hat, rfl⟩), ?_⟩
  obtain ⟨s₀, hstart, hsane₀, -, hdisk, -⟩ := start_eq (K := K) (hreach.isDownload hvalid)
  refine ⟨s₀, hstart, fun actions s hrun hdone => ?_⟩
  obtain ⟨hsane, hg⟩ := run_genuine hvalid hsane₀ (hdisk ▸ hreach.genuine hvalid) hrun
  have hexact : Exact T m s.disk.fs :=
    (hrun.invariant (P := fun s => s.Sane T m ∧ Exact T m s.disk.fs)
      (fun _ _ _ h hstep => ⟨h.1.step hvalid hstep.1, exact_step hvalid h.1 h.2 hstep.1⟩)
      ⟨hsane₀, hdisk ▸ hreach.exact hvalid⟩).2
  have hall : ∀ i < (Layout.new m).totalPieces, s.disk.share.has i = true := fun i hi => by
    rw [← hsane.length_eq] at hi
    refine hsane.done i ?_
    rw [List.getElem?_eq_getElem hi,
      (Scheduler.isDone_iff hsane.engine.consistent).1 hdone _ (List.getElem_mem hi)]
  -- each file stores one that was shared
  have hfiles : ∀ (f : ℕ) (entry : FileEntry Hash), m.files[f]? = some entry → ∃ names,
      t.At names .file ∧ entry.path = name :: names.map diskText ∧
        entry.size = (content names).1.length ∧ B.rootHash (content names).1 = entry.rootHash ∧
        (T.data f entry).StoresAll S (s.disk.fs (T.data f entry).path) (content names).1 ∧
        s.disk.share.HoldsFile f (T.data f entry) (content names).1.length := by
    intro f entry hf
    have hmem := List.mem_of_getElem? hf
    obtain ⟨names, hat, hpath⟩ := (hdescribes.lists.mem_iff _).1 (List.mem_map_of_mem hmem)
    obtain ⟨hsize, hroot⟩ := hdescribes.entries entry hmem names hat hpath
    have hhashed : B.rootHash (content names).1 = entry.rootHash := by
      rw [hroot, B.create_root, Bao.rootHash]
    obtain ⟨hstores, hheld⟩ := hg.storesAll hsane.download hf hsize hhashed fun i hi =>
      hall _ (Layout.firstOf_add_lt hf hi)
    exact ⟨names, hat, hpath, hsize, hhashed, hstores, hheld⟩
  refine ⟨fun f entry hf => ?_, fun files hsame => ?_⟩
  · obtain ⟨names, hat, hpath, hsize, -, hstores, hheld⟩ := hfiles f entry hf
    refine ⟨names, hat, hpath, hsize, fun hpos => ?_⟩
    rw [hsize] at hpos ⊢
    obtain ⟨stored, handle, hgives⟩ := hstores.gives hpos (hsize ▸ T.sized f entry)
    exact ⟨LocalShare.readRange_of_gives hheld hgives,
      fun env dest fs' => LocalShare.exportFile_of_gives hheld hgives⟩
  · refine (hsane.download.verify_iff hexact (fun f entry hf => ?_) hsame).trans
      (forall_congr' fun f => forall_congr' fun entry => forall_congr' fun hf =>
        forall_congr' fun hzero => and_iff_right ?_)
    · obtain ⟨names, -, -, hsize, hhashed, hstores, -⟩ := hfiles f entry hf
      exact ⟨_, hsize.symm, hstores, fun _ => hhashed⟩
    · -- the hash of an empty file is that of the content that was shared
      obtain ⟨names, -, -, hsize, hhashed, -⟩ := hfiles f entry hf
      rw [← hhashed, List.length_eq_zero_iff.1 (hsize.symm.trans hzero)]

/-- A run that stores pieces only where they are not marked damages none. -/
lemma run_undamaging {actions : List (TransferAction K Wire)}
    (hrun : Run (fun s a s' => s.step S B a = some s') s actions s')
    (hsafe : ∀ a ∈ actions, ∀ s : Transfer K Master Hash, s.Undamaging S B a) :
    Run (fun (s : Transfer K Master Hash) a s' => s.step S B a = some s' ∧ s.Undamaging S B a)
      s actions s' := by
  induction hrun with
  | nil s => exact .nil s
  | cons hstep _ ih =>
    exact .cons ⟨hstep, hsafe _ List.mem_cons_self _⟩
      (ih fun a ha => hsafe a (List.mem_cons_of_mem _ ha))

end Transfer

/-! ## Three bytes -/

namespace ThreeBytes

/-- The download of the file into an empty folder. -/
def empty : Disk Bytes Digest where
  fs := Function.update (fun _ => none) (OneFile.target.data 0
    ⟨["x"], 3, three_lt, outboard.1.root⟩).path (some (Bytes.zeros 3))
  share := { found with
    files := [⟨OneFile.target.data 0 ⟨["x"], 3, three_lt, outboard.1.root⟩,
      emptyOutboard referenceBao outboard.1.root 3⟩]
    held := [false] }

/-- A peer that has the file sends it. -/
def fetching : List (TransferAction ℕ Digest.Encoding) :=
  [.engine (.connect 0), .engine (.subscribed 0 [1]), .engine (.spawn 0), .engine (.check 0),
    .engine (.pick 0), .engine (.answer 0 .piece), .store 0 OneFile.storeEnv false ([], bytes.1),
    .complete 0, .announce 0]

lemma forDownload_empty : LocalShare.forDownload referenceBao OneFile.target.os OneFile.prepareEnv
    manifest OneFile.target.dest OneFile.target.key (fun _ => none) =
      (empty.fs, .ok empty.share) := rfl

lemma undamaging_fetching : ∀ a ∈ fetching, ∀ s : Transfer ℕ Bytes Digest,
    s.Undamaging keys referenceBao a := by
  intro a ha s
  simp only [fetching, List.mem_cons, List.not_mem_nil, or_false] at ha
  rcases ha with rfl | rfl | rfl | rfl | rfl | rfl | rfl | rfl | rfl
  case inr.inr.inr.inr.inr.inr.inl => exact fun _ _ _ _ hlate => absurd hlate Bool.false_ne_true
  all_goals trivial

end ThreeBytes

open ThreeBytes in
/-- The file of three bytes is listed, is downloaded from peer 0, and passes the final check. -/
theorem download_delivers_three_bytes :
    (∃ file ∈ manifest.files, file.path = ["x"]) ∧ ∃ s₀ s : Transfer ℕ Bytes Digest,
    Transfer.start ℕ empty = some s₀ ∧
    Run (fun s a s' => s.step keys referenceBao a = some s') s₀ fetching s ∧
    s.disk.share.readRange keys s.disk.fs 0 1 5 = .ok [2, 3] ∧
    s.disk.share.verify keys referenceBao ThreeBytes.disk = .ok () := by
  have hdistinct : Tree.file.Distinct := by
    rintro names entries ⟨⟩
  have hunforged : Unforged OneFile.idOf served.id := fun bytes bytes' h h' => by
    injection h.trans h'.symm
  have hreach : Reached keys referenceBao OneFile.target manifest empty :=
    ⟨_, _, _, _, _, forDownload_empty, .nil _⟩
  obtain ⟨hlists, s₀, hstart, hruns⟩ := Transfer.download_delivers ℕ shared_served hdistinct
    (fun _ => trivial) hunforged rfl fetchManifest_served hreach
  have hexec : ((Transfer.start ℕ empty).bind fun s =>
      (Run.exec (fun s a => s.step keys referenceBao a) s fetching).map fun s =>
        (s.engine.sched.isDone, s.disk.fs (OneFile.target.data 0
          ⟨["x"], 3, three_lt, outboard.1.root⟩).path)) = some (true, some bytes.1) := rfl
  rw [hstart, Option.bind_some] at hexec
  obtain ⟨s, hs, heq⟩ := Option.map_eq_some_iff.1 hexec
  obtain ⟨hdone, hfs⟩ := Prod.mk.inj heq
  have hrun := Run.of_exec hs
  obtain ⟨hfiles, hverify⟩ :=
    hruns fetching s (Transfer.run_undamaging hrun undamaging_fetching) hdone
  obtain ⟨names, -, -, -, hreads⟩ := hfiles 0 _ rfl
  have honly : ∀ {f : ℕ} {entry : FileEntry Digest}, manifest.files[f]? = some entry →
      f = 0 ∧ entry = ⟨["x"], 3, three_lt, outboard.1.root⟩ := fun {f entry} hf => by
    rcases f with _ | f
    · exact ⟨rfl, (Option.some.inj hf).symm⟩
    · cases hf
  refine ⟨hlists [] (.here .file), s₀, s, hstart, hrun, (hreads (by decide)).1 1 5,
    (hverify ThreeBytes.disk fun f entry hf => ?_).2 fun f entry hf hzero => ?_⟩
  · obtain ⟨rfl, rfl⟩ := honly hf
    rw [hfs]
    rfl
  · obtain ⟨rfl, rfl⟩ := honly hf
    exact absurd hzero (by decide)

end Chorrent
