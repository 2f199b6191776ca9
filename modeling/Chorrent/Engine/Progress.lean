/-
# Progress adds up

What the scheduler counts as done is on the disk, each piece is announced once, when it is
completed for the first time, and the bytes that are announced are those that were missing at
the start.
-/
import Chorrent.Engine.Transfer

namespace Chorrent

open Lib

variable {K Master Key Hash Wire : Type} [DecidableEq K]

/-! ## The lengths of pieces -/

/-- The bytes of a piece; none outside the share. -/
def Manifest.pieceBytes (m : Manifest Hash) (i : ℕ) : ℕ := ((Layout.new m).pieceLen i).getD 0

variable {m : Manifest Hash} {i : ℕ}

lemma pieceLen_eq (hi : i < (Layout.new m).totalPieces) :
    (Layout.new m).pieceLen i = some (m.pieceBytes i) := by
  obtain ⟨loc, hlocate, -⟩ := Layout.locates hi
  rw [Manifest.pieceBytes, Layout.pieceLen, hlocate]
  rfl

lemma sum_pieceBytes (m : Manifest Hash) :
    ((List.range (Layout.new m).totalPieces).map m.pieceBytes).sum = m.totalSize := by
  obtain ⟨lengths, hlengths, hsum⟩ := (layout_partition m).size
  have hsome : (List.range (Layout.new m).totalPieces).map (Layout.new m).pieceLen =
      ((List.range (Layout.new m).totalPieces).map m.pieceBytes).map some := by
    rw [List.map_map]
    exact List.map_congr_left fun i hi => pieceLen_eq (List.mem_range.1 hi)
  rw [← hsum, ← List.map_injective_iff.2 (Option.some_injective ℕ) (hsome.symm.trans hlengths)]

lemma mapM_pieceLen (l : List ℕ) (h : ∀ i ∈ l, i < (Layout.new m).totalPieces) :
    l.mapM (Layout.new m).pieceLen = some (l.map m.pieceBytes) := by
  induction l with
  | nil => rfl
  | cons i l ih =>
    rw [List.mapM_cons, pieceLen_eq (h i List.mem_cons_self),
      ih fun j hj => h j (List.mem_cons_of_mem _ hj)]
    rfl

lemma heldBytes_eq {Master : Type} {T : Target Master} {share : LocalShare Master Hash}
    (hd : IsDownload T m share) : share.heldBytes =
      some (((List.range (Layout.new m).totalPieces).filter share.has).map m.pieceBytes).sum := by
  rw [LocalShare.heldBytes, LocalShare.totalPieces, hd.layout_eq, mapM_pieceLen]
  · rfl
  · exact fun i hi => List.mem_range.1 (List.mem_of_mem_filter hi)

/-- The bytes of `Resumed` are those of the pieces that are marked. -/
lemma resumedEvent_eq {Master : Type} {T : Target Master} {share : LocalShare Master Hash}
    (hd : IsDownload T m share) : ∃ resumed, share.resumedEvent = some resumed ∧
      (resumed.map Prod.snd).getD 0 =
        (((List.range (Layout.new m).totalPieces).filter share.has).map m.pieceBytes).sum := by
  rw [LocalShare.resumedEvent, heldBytes_eq hd]
  split_ifs with hcount
  · exact ⟨_, rfl, rfl⟩
  · refine ⟨none, rfl, ?_⟩
    have hnil : (List.range (Layout.new m).totalPieces).filter share.has = [] := by
      rw [List.filter_eq_nil_iff]
      intro i _ hi
      rw [LocalShare.has] at hi
      obtain ⟨b, hget⟩ : ∃ b, share.held[i]? = some b := by
        cases hget : share.held[i]? with
        | none => simp [hget] at hi
        | some b => exact ⟨b, rfl⟩
      obtain rfl : b = true := by simpa [hget] using hi
      exact hcount (List.count_pos_iff.2 (List.mem_of_getElem? hget))
    rw [hnil]
    rfl

namespace Transfer

variable {S : StoreKeys Master Key} {B : Bao Hash Wire} {T : Target Master}
  {toLowercase : String → String} {disk : Disk Master Hash} {s s' : Transfer K Master Hash}
  {a : TransferAction K Wire}

/-- The pieces announced so far. -/
def announced (s : Transfer K Master Hash) : List ℕ := s.verified.map Prod.fst

/-- The bytes that the events tell. -/
def toldBytes (s : Transfer K Master Hash) : ℕ :=
  (s.resumed.map Prod.snd).getD 0 + (s.verified.map Prod.snd).sum

/-! ## What is announced -/

/-- What was missing at the start and is done is announced, or about to be. -/
structure Counted (m : Manifest Hash) (start : LocalShare Master Hash)
    (s : Transfer K Master Hash) : Prop where
  done_iff : ∀ i < (Layout.new m).totalPieces, s.engine.sched.pieces[i]? = some .done ↔
    start.has i = true ∨ i ∈ s.announced ∨ ∃ k, s.announcing k = some i
  once : s.announced.Nodup
  announcing : ∀ k i, s.announcing k = some i → i < (Layout.new m).totalPieces ∧
    start.has i = false ∧ i ∉ s.announced ∧ ∀ k', s.announcing k' = some i → k' = k
  verified : ∀ e ∈ s.verified, e.1 < (Layout.new m).totalPieces ∧ start.has e.1 = false ∧
    e.2 = m.pieceBytes e.1

lemma Counted.congr {start : LocalShare Master Hash} (h : Counted m start s)
    (hdone : ∀ i : ℕ, s'.engine.sched.pieces[i]? = some .done ↔
      s.engine.sched.pieces[i]? = some .done)
    (hverified : s'.verified = s.verified) (hannouncing : s'.announcing = s.announcing) :
    Counted m start s' := by
  have hannounced : s'.announced = s.announced := congrArg (List.map Prod.fst) hverified
  exact ⟨fun i hi => by rw [hdone i, h.done_iff i hi, hannounced, hannouncing],
    hannounced ▸ h.once, hannounced ▸ hannouncing ▸ h.announcing, hverified ▸ h.verified⟩

lemma Counted.step {start : LocalShare Master Hash} (h : Counted m start s) (hs : s.Sane T m)
    (hstep : s.step S B a = some s') : Counted m start s' := by
  cases step_does hstep with
  | @engine a engine hblocked hengine =>
    refine h.congr (fun i => ?_) rfl rfl
    rw [hs.engine.done_iff (Engine.step_effect hengine) i,
      or_iff_left ((not_blocked hblocked).1 i)]
  | store _ _ hengine =>
    refine h.congr (fun i => ?_) rfl rfl
    rw [hs.engine.done_iff (Engine.step_effect hengine) i]
    simp [Engine.call]
  | @complete k w i sched newly engine hquiet hw hphase hcomplete hengine =>
    have hi := hs.lt_total hw (by rw [hphase]; rfl)
    obtain ⟨s₁, heq, -⟩ := Scheduler.complete_cases hs.engine.consistent (hs.length_eq ▸ hi)
    obtain ⟨-, rfl⟩ := Prod.mk.inj (Option.some.inj (heq.symm.trans hcomplete))
    have hdone : ∀ j : ℕ, engine.sched.pieces[j]? = some .done ↔
        s.engine.sched.pieces[j]? = some .done ∨ j = i := fun j => by
      rw [hs.engine.done_iff (Engine.step_effect hengine) j]
      simp [Engine.call, hw, hphase, eq_comm]
    by_cases hold : s.engine.sched.pieces[i]? = some .done
    · -- another worker completed the piece before
      refine h.congr (fun j => ?_) rfl (by simp [hold])
      rw [hdone]
      exact or_iff_left_of_imp fun hj => hj ▸ hold
    · obtain ⟨hstart, hnew⟩ := not_or.1 (mt (h.done_iff i hi).2 hold)
      obtain ⟨hnew, hnone⟩ := not_or.1 hnew
      simp only [decide_not, hold, decide_false, Bool.not_false, if_true]
      -- what is announced next to what was announced before
      have hk : ∀ k' j, Function.update s.announcing k (some i) k' = some j ↔
          (k' = k ∧ j = i) ∨ s.announcing k' = some j := by
        intro k' j
        by_cases hkk : k' = k
        · subst hkk
          simp [hquiet, eq_comm]
        · simp [hkk]
      refine ⟨fun j hj => ?_, h.once, fun k' j hj => ?_, h.verified⟩
      · rw [hdone, h.done_iff j hj]
        simp only [hk, exists_or, exists_eq_left, announced]
        tauto
      · rcases (hk k' j).1 hj with ⟨rfl, rfl⟩ | hold'
        · refine ⟨hi, by simpa using hstart, hnew, fun k'' hk'' => ?_⟩
          exact ((hk k'' j).1 hk'').elim And.left fun h' => absurd ⟨k'', h'⟩ hnone
        · obtain ⟨hlt, hheld, hmem, huniq⟩ := h.announcing k' j hold'
          refine ⟨hlt, hheld, hmem, fun k'' hk'' => ?_⟩
          rcases (hk k'' j).1 hk'' with ⟨-, rfl⟩ | h'
          · exact absurd ⟨k', hold'⟩ hnone
          · exact huniq k'' h'
  | @announce k i bytes hi hbytes =>
    obtain ⟨hlt, hheld, hnew, huniq⟩ := h.announcing k i hi
    rw [hs.download.layout_eq, pieceLen_eq hlt, Option.some.injEq] at hbytes
    have hk : ∀ k' j, Function.update s.announcing k none k' = some j ↔
        s.announcing k' = some j ∧ j ≠ i := by
      intro k' j
      by_cases hkk : k' = k
      · subst hkk
        simp [hi, eq_comm]
      · rw [Function.update_of_ne hkk]
        refine ⟨fun hj => ⟨hj, ?_⟩, And.left⟩
        rintro rfl
        exact hkk (huniq k' hj)
    refine ⟨fun j hj => ?_, ?_, fun k' j hj => ?_, fun e he => ?_⟩
    · rw [h.done_iff j hj]
      simp only [announced, List.map_append, List.map_cons, List.map_nil, List.mem_append,
        List.mem_singleton, hk]
      by_cases hji : j = i
      · subst hji
        simp only [or_true, true_or, iff_true]
        exact .inr (.inr ⟨k, hi⟩)
      · simp [hji]
    · rw [announced, List.map_append]
      exact h.once.append (List.nodup_singleton _) (by simpa using hnew)
    · obtain ⟨hj, hne⟩ := (hk k' j).1 hj
      obtain ⟨hlt', hheld', hmem, huniq'⟩ := h.announcing k' j hj
      refine ⟨hlt', hheld', ?_, fun k'' hk'' => huniq' k'' ((hk k'' j).1 hk'').1⟩
      simpa [announced, hne] using hmem
    · rcases List.mem_append.1 he with hmem | hmem
      · exact h.verified e hmem
      · obtain rfl := List.mem_singleton.1 hmem
        exact ⟨hlt, hheld, hbytes.symm⟩
  | orphan => exact h.congr (fun _ => Iff.rfl) rfl rfl

/-! ## Runs -/

/-- The task that stores a piece a second time does not fail. -/
def WritesAgain (S : StoreKeys Master Key) (B : Bao Hash Wire) (s : Transfer K Master Hash)
    (piece : ℕ) (env : StoreEnv) (late : Bool) (encoded : Wire) : Prop :=
  late = true → s.disk.share.has piece = true →
    ∃ b, (LocalShare.storeRacing S B env late s.disk piece encoded).2 = .ok b

/-- No piece that is stored already is damaged by storing it again. -/
def Undamaging (S : StoreKeys Master Key) (B : Bao Hash Wire) (s : Transfer K Master Hash) :
    TransferAction K Wire → Prop
  | .store k env late encoded => ∀ w i, s.engine.workers k = some w → w.phase = .storing i →
      s.WritesAgain S B i env late encoded
  | .orphan i env late encoded => s.WritesAgain S B i env late encoded
  | .engine _ | .complete _ | .announce _ => True

/-- What a step does to the marks and the bytes of pieces. -/
structure Keeps (S : StoreKeys Master Key) (B : Bao Hash Wire) (T : Target Master)
    (m : Manifest Hash) (s : Transfer K Master Hash) (a : TransferAction K Wire)
    (s' : Transfer K Master Hash) : Prop where
  kept : ∀ i, s.disk.share.has i = true → s'.disk.share.has i = true
  marked : ∀ i, s'.disk.share.has i = true → s.disk.share.has i = true ∨
    ∃ (f : ℕ) (entry : FileEntry Hash) (j : ℕ), m.files[f]? = some entry ∧ j < entry.pieces ∧
      i = Layout.firstOf m f + j ∧ HoldsPiece S B T s'.disk.fs f entry j
  genuine : Genuine S B T m s.disk → s.Undamaging S B a → Genuine S B T m s'.disk

lemma Keeps.of_eq (h : s'.disk = s.disk) : Keeps S B T m s a s' :=
  ⟨fun _ => h ▸ id, fun _ hi => .inl (h ▸ hi), fun hg _ => h ▸ hg⟩

lemma Keeps.of_races {f j : ℕ} {entry : FileEntry Hash} {env : StoreEnv} {late : Bool}
    {encoded : Wire} {r : Disk Master Hash × Result Bool} (hf : m.files[f]? = some entry)
    (hj : j < entry.pieces) (h : Races S B T m s.disk f entry j env late encoded r)
    (hdisk : r.1 = s'.disk)
    (hagain : s.Undamaging S B a → late = true →
      s.disk.share.has (Layout.firstOf m f + j) = true → ∃ b, r.2 = .ok b) :
    Keeps S B T m s a s' := by
  refine ⟨fun i hi => hdisk ▸ (h.has_iff i).2 (.inl hi), fun i hi => ?_, fun hg hu =>
    hdisk ▸ h.genuine hg (hagain hu)⟩
  rw [← hdisk] at hi ⊢
  rcases (h.has_iff i).1 hi with hold | ⟨rfl, hok⟩
  · exact .inl hold
  · exact .inr ⟨f, entry, j, hf, hj, rfl, h.holds hok⟩

lemma Sane.keeps (h : s.Sane T m) (hvalid : m.validate toLowercase = .ok ())
    (hstep : s.step S B a = some s') : Keeps S B T m s a s' := by
  cases step_does hstep with
  | engine => exact .of_eq rfl
  | complete => exact .of_eq rfl
  | announce => exact .of_eq rfl
  | @store k w i env late encoded engine hw hphase hengine =>
    obtain ⟨f, j, entry, rfl, hf, hj, hraces⟩ :=
      h.races S B hvalid (h.lt_total hw (by rw [hphase]; rfl)) env late encoded
    exact .of_races hf hj hraces rfl fun hu => hu w _ hw hphase
  | @orphan i env late encoded hmem =>
    obtain ⟨f, j, entry, rfl, hf, hj, hraces⟩ :=
      h.races S B hvalid (h.orphans_lt i hmem) env late encoded
    exact .of_races hf hj hraces rfl id

lemma resumed_eq (hstep : s.step S B a = some s') : s'.resumed = s.resumed := by
  cases step_does hstep <;> rfl

/-- The swarm phase starts from the pieces that are on the disk. -/
lemma start_eq (hd : IsDownload T m disk.share) : ∃ s₀ : Transfer K Master Hash,
    start K disk = some s₀ ∧ s₀.Sane T m ∧ Counted m disk.share s₀ ∧ s₀.disk = disk ∧
      (s₀.resumed.map Prod.snd).getD 0 =
        (((List.range (Layout.new m).totalPieces).filter disk.share.has).map m.pieceBytes).sum := by
  obtain ⟨engine, hnew, hsane, hworkers, -, hpieces⟩ := Engine.new_sane (K := K) disk.share.held
  have hdone : ∀ i : ℕ, engine.sched.pieces[i]? = some .done ↔ disk.share.has i = true := by
    intro i
    rw [hpieces, List.getElem?_map, LocalShare.has]
    cases disk.share.held[i]? with
    | none => simp
    | some b => cases b <;> simp
  obtain ⟨resumed, hresumed, hbytes⟩ := resumedEvent_eq hd
  have hstart : start K disk =
      some ⟨engine, disk, resumed, [], fun _ => none, [], fun _ => none, []⟩ := by
    rw [start, hresumed, hnew]
    rfl
  refine ⟨_, hstart, ⟨hsane, hd, ?_, by simp, ?_, ?_⟩,
    ⟨fun i hi => ?_, List.nodup_nil, by simp, by simp⟩, rfl, hbytes⟩
  · rw [hpieces, List.length_map, hd.held_length]
  · intro k w i hw
    rw [hworkers] at hw
    cases hw
  · exact fun i => (hdone i).1
  · rw [hdone i]
    simp [announced]

/-- When everything is done and announced, the events tell the size of the share. -/
lemma toldBytes_eq (h : Counted m disk.share s)
    (hresumed : (s.resumed.map Prod.snd).getD 0 =
      (((List.range (Layout.new m).totalPieces).filter disk.share.has).map m.pieceBytes).sum)
    (hdone : ∀ i < (Layout.new m).totalPieces, s.engine.sched.pieces[i]? = some .done)
    (hquiet : ∀ k, s.announcing k = none) : s.toldBytes = m.totalSize := by
  have hverified : s.verified.map Prod.snd = s.announced.map m.pieceBytes := by
    rw [announced, List.map_map]
    exact List.map_congr_left fun e he => (h.verified e he).2.2
  -- the pieces announced are the ones that were missing
  have hperm : s.announced.Perm
      ((List.range (Layout.new m).totalPieces).filter fun i => !disk.share.has i) := by
    refine (List.perm_ext_iff_of_nodup h.once (List.nodup_range.filter _)).2 fun i => ?_
    rw [List.mem_filter, List.mem_range]
    constructor
    · intro hi
      obtain ⟨e, he, rfl⟩ := List.mem_map.1 hi
      obtain ⟨hlt, hheld, -⟩ := h.verified e he
      exact ⟨hlt, by simp [hheld]⟩
    · rintro ⟨hi, hheld⟩
      rcases (h.done_iff i hi).1 (hdone i hi) with hhas | hmem | ⟨k, hk⟩
      · simp [hhas] at hheld
      · exact hmem
      · rw [hquiet k] at hk
        cases hk
  have hsplit := (List.filter_append_perm disk.share.has
    (List.range (Layout.new m).totalPieces)).map m.pieceBytes
  rw [toldBytes, hresumed, hverified, (hperm.map _).sum_eq, ← sum_pieceBytes m, ← hsplit.sum_eq,
    List.map_append, List.sum_append]

/-- What holds in every state of the swarm phase that started from `disk`. -/
structure AddsUp (S : StoreKeys Master Key) (B : Bao Hash Wire) (T : Target Master)
    (m : Manifest Hash) (disk : Disk Master Hash) (s : Transfer K Master Hash) : Prop where
  had : ∀ i : ℕ, s.engine.sched.pieces[i]? = some .done → s.disk.share.has i = true
  ends : s.engine.sched.isDone = true → ∀ i < (Layout.new m).totalPieces,
    s.disk.share.has i = true
  kept : ∀ i, disk.share.has i = true → s.disk.share.has i = true
  /-- A piece that becomes ours is verified and on the disk. -/
  marked : ∀ (a : TransferAction K Wire) s', s.step S B a = some s' → ∀ i,
    s'.disk.share.has i = true → s.disk.share.has i = true ∨
      ∃ (f : ℕ) (entry : FileEntry Hash) (j : ℕ), m.files[f]? = some entry ∧ j < entry.pieces ∧
        i = Layout.firstOf m f + j ∧ HoldsPiece S B T s'.disk.fs f entry j
  once : (s.verified.map Prod.fst).Nodup
  fresh : ∀ e ∈ s.verified, disk.share.has e.1 = false
  total : s.engine.sched.isDone = true → (∀ k, s.announcing k = none) →
    s.toldBytes = m.totalSize

lemma run_counted {s₀ : Transfer K Master Hash} {actions : List (TransferAction K Wire)}
    (hvalid : m.validate toLowercase = .ok ()) (hsane : s₀.Sane T m)
    (hcounted : Counted m disk.share s₀)
    (hrun : Run (fun (s : Transfer K Master Hash) a s' => s.step S B a = some s') s₀ actions s) :
    s.Sane T m ∧ Counted m disk.share s ∧ s.resumed = s₀.resumed ∧
      ∀ i, s₀.disk.share.has i = true → s.disk.share.has i = true := by
  induction hrun with
  | nil s => exact ⟨hsane, hcounted, rfl, fun _ => id⟩
  | cons hstep _ ih =>
    obtain ⟨hsane', hcounted', hresumed, hkept⟩ :=
      ih (hsane.step hvalid hstep) (hcounted.step hsane hstep)
    exact ⟨hsane', hcounted', hresumed.trans (resumed_eq hstep),
      fun i hi => hkept i ((hsane.keeps hvalid hstep).kept i hi)⟩

lemma run_genuine {s₀ : Transfer K Master Hash} {actions : List (TransferAction K Wire)}
    (hvalid : m.validate toLowercase = .ok ()) (hsane : s₀.Sane T m)
    (hg : Genuine S B T m s₀.disk)
    (hrun : Run (fun (s : Transfer K Master Hash) a s' => s.step S B a = some s' ∧
      s.Undamaging S B a) s₀ actions s) : s.Sane T m ∧ Genuine S B T m s.disk := by
  induction hrun with
  | nil s => exact ⟨hsane, hg⟩
  | cons hstep _ ih =>
    exact ih (hsane.step hvalid hstep.1) ((hsane.keeps hvalid hstep.1).genuine hg hstep.2)

/-- Progress adds up.  In every run of the swarm phase, what the scheduler counts as done is
had; a piece is had only once it is verified and on the disk; `PieceVerified` is sent at most
once for a piece, and for none that was there at the start; and once everything is done and
sent, `Resumed` and all `PieceVerified` tell the size of the share.  The bytes of pieces that
are had stay intact as well, in a run in which no second write of a piece fails. -/
theorem progress_adds_up [DecidableEq Hash] (K : Type) [DecidableEq K]
    (S : StoreKeys Master Key) (B : Bao Hash Wire) (hvalid : m.validate toLowercase = .ok ())
    (hreach : Reached S B T m disk) :
    ∃ s₀ : Transfer K Master Hash, start K disk = some s₀ ∧
      (∀ actions s, Run (fun s a s' => s.step S B a = some s') s₀ actions s →
        AddsUp S B T m disk s) ∧
      ∀ actions s, Run (fun (s : Transfer K Master Hash) (a : TransferAction K Wire) s' =>
          s.step S B a = some s' ∧ s.Undamaging S B a) s₀ actions s →
        Intact S B T m s.disk := by
  have hd := hreach.isDownload hvalid
  obtain ⟨s₀, hstart, hsane₀, hcounted₀, hdisk, hresumed⟩ := start_eq (K := K) hd
  refine ⟨s₀, hstart, fun actions s hrun => ?_, fun actions s hrun => ?_⟩
  · obtain ⟨hsane, hcounted, hsame, hkept⟩ := run_counted hvalid hsane₀ hcounted₀ hrun
    have hall : s.engine.sched.isDone = true → ∀ i < (Layout.new m).totalPieces,
        s.engine.sched.pieces[i]? = some .done := by
      intro hdone i hi
      rw [← hsane.length_eq] at hi
      rw [List.getElem?_eq_getElem hi, (Scheduler.isDone_iff hsane.engine.consistent).1 hdone _
        (List.getElem_mem hi)]
    exact ⟨hsane.done, fun hdone i hi => hsane.done i (hall hdone i hi), hdisk ▸ hkept,
      fun a s' hstep => (hsane.keeps hvalid hstep).marked, hcounted.once,
      fun e he => (hcounted.verified e he).2.1,
      fun hdone hquiet => toldBytes_eq hcounted (hsame ▸ hresumed) (hall hdone) hquiet⟩
  · have hg₀ : Genuine S B T m s₀.disk := hdisk ▸ hreach.genuine hvalid
    obtain ⟨hsane, hg⟩ := run_genuine hvalid hsane₀ hg₀ hrun
    exact hg.intact hsane.download

open OneFile in
/-- A peer that has a file of five bytes sends it. -/
def fetching : List (TransferAction ℕ Digest.Encoding) :=
  [.engine (.connect 0), .engine (.subscribed 0 [1]), .engine (.spawn 0), .engine (.check 0),
    .engine (.pick 0), .engine (.answer 0 .piece), .store 0 storeEnv false ([], content),
    .complete 0, .announce 0]

open OneFile in
theorem progress_adds_up_one_file : ∃ s₀ s : Transfer ℕ Bytes Digest,
    start ℕ prepared = some s₀ ∧
      Run (fun s a s' => s.step keys referenceBao a = some s') s₀ fetching s ∧
      s.verified = [(0, 5)] ∧ s.toldBytes = manifest.totalSize := by
  obtain ⟨s₀, hstart, hruns, -⟩ := progress_adds_up ℕ keys referenceBao
    validate_manifest (T := target) ⟨_, _, _, _, _, forDownload_prepared, .nil _⟩
  have hexec : ((start ℕ prepared).bind fun s =>
      (Run.exec (fun s a => s.step keys referenceBao a) s fetching).map fun s =>
        (s.verified, s.engine.sched.isDone, s.announcing)) =
      some ([(0, 5)], true, Function.update (Function.update (fun _ => none) 0 (some 0)) 0 none) :=
    rfl
  rw [hstart, Option.bind_some] at hexec
  obtain ⟨s, hs, heq⟩ := Option.map_eq_some_iff.1 hexec
  obtain ⟨hverified, hdone, hannouncing⟩ : _ ∧ _ ∧ _ := by simpa only [Prod.mk.injEq] using heq
  have hrun := Run.of_exec hs
  refine ⟨s₀, s, hstart, hrun, hverified, (hruns fetching s hrun).total hdone fun k => ?_⟩
  rw [hannouncing, Function.update_idem, Function.update_apply]
  split_ifs <;> rfl

end Transfer

end Chorrent
