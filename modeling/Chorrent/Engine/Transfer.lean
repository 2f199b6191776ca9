/-
# A download: engine, disk and events

The engine together with the share it fills (the swarm phase of `download::run`): what
`store_piece` does to the disk decides how a worker goes on, and the events tell how far the
download is.  A worker sends `PieceVerified` after it has released the scheduler, so that other
tasks may act in between; a blocking task goes on when its worker is aborted.
-/
import Chorrent.Engine.Calls
import Chorrent.Local.Race
import Chorrent.Manifest.Partition

namespace Chorrent

open Lib

structure Transfer (K Master Hash : Type) [DecidableEq K] where
  engine : Engine K
  disk : Disk Master Hash
  /-- The pieces and bytes of `Resumed`, if it was sent. -/
  resumed : Option (ℕ × ℕ)
  /-- The index and bytes of each `PieceVerified` so far. -/
  verified : List (ℕ × ℕ)
  /-- The piece of the `PieceVerified` that a worker sends next. -/
  announcing : ℕ → Option ℕ
  /-- The pieces that blocking tasks of aborted workers may still store. -/
  orphans : List ℕ
  /-- What each peer said it holds, last (history). -/
  told : K → Option (List Bool)
  /-- The requests that a peer answered with `DontHave`, or with bytes that do not verify
  (history). -/
  faults : List (K × ℕ)

inductive TransferAction (K Wire : Type) where
  /-- What does not touch the disk or the events. -/
  | engine (action : Action K)
  | store (worker : ℕ) (env : StoreEnv) (late : Bool) (encoded : Wire)
  | complete (worker : ℕ)
  | announce (worker : ℕ)
  | orphan (piece : ℕ) (env : StoreEnv) (late : Bool) (encoded : Wire)

/-- What a worker makes of the result of `store_piece`. -/
def Stored.of : Result Bool → Stored
  | .ok _ => .ok
  | .error (.fail _) => .bad
  | .error .panic => .aborted

namespace LocalShare

variable {Master Hash : Type}

def haveCount (share : LocalShare Master Hash) : ℕ := share.held.count true

/-- The bytes of the pieces we have. -/
def heldBytes (share : LocalShare Master Hash) : Option ℕ :=
  (((List.range share.totalPieces).filter share.has).mapM share.layout.pieceLen).map List.sum

/-- `Resumed`: how many pieces and bytes are there already; not sent when there are none. -/
def resumedEvent (share : LocalShare Master Hash) : Option (Option (ℕ × ℕ)) :=
  if 0 < share.haveCount then share.heldBytes.map fun bytes => some (share.haveCount, bytes)
  else some none

end LocalShare

namespace Transfer

variable {K Master Key Hash Wire : Type} [DecidableEq K]

/-- The start of the swarm phase. -/
def start (K : Type) [DecidableEq K] (disk : Disk Master Hash) :
    Option (Transfer K Master Hash) := do
  let resumed ← disk.share.resumedEvent
  let engine ← Engine.new disk.share.held
  return { engine, disk, resumed, verified := [], announcing := fun _ => none, orphans := [],
           told := fun _ => none, faults := [] }

/-- Actions that are more than a step of the engine, or whose worker has an event to send
first. -/
def blocked (s : Transfer K Master Hash) : Action K → Bool
  | .store _ _ | .complete _ => true
  | .check k | .cancel k => (s.announcing k).isSome
  | _ => false

/-- The blocking task that an aborted worker leaves behind. -/
def orphaned (s : Transfer K Master Hash) : Action K → List ℕ
  | .cancel k =>
      match (s.engine.workers k).map Worker.phase with
      | some (.storing piece) => [piece]
      | _ => []
  | _ => []

/-- What peers say they hold, after a message. -/
def hears (s : Transfer K Master Hash) : Action K → K → Option (List Bool)
  | .subscribed peer bytes | .bitfield peer bytes =>
      Function.update s.told peer (some (unpackBits bytes s.engine.sched.pieces.length))
  | .haveFrame peer piece => Function.update s.told peer ((s.told peer).map (·.set piece true))
  | _ => s.told

/-- `DontHave` -/
def refusals (s : Transfer K Master Hash) : Action K → List (K × ℕ)
  | .answer k .dontHave =>
      match s.engine.workers k with
      | some ⟨peer, _, .requesting piece⟩ => [(peer, piece)]
      | _ => []
  | _ => []

def step (S : StoreKeys Master Key) (B : Bao Hash Wire) (s : Transfer K Master Hash) :
    TransferAction K Wire → Option (Transfer K Master Hash)
  | .engine a =>
      if s.blocked a then none
      else do
        let engine ← s.engine.step a
        return { s with
          engine, orphans := s.orphaned a ++ s.orphans, told := s.hears a
          faults := s.refusals a ++ s.faults }
  | .store k env late encoded => do
      let w ← s.engine.workers k
      match w.phase with
      | .storing piece =>
          let (disk, r) := LocalShare.storeRacing S B env late s.disk piece encoded
          let engine ← s.engine.step (.store k (.of r))
          return { s with
            engine, disk
            faults := if s.disk.share.verifies B piece encoded then s.faults
              else (w.peer, piece) :: s.faults }
      | _ => none
  | .complete k =>
      if (s.announcing k).isSome then none
      else do
        let w ← s.engine.workers k
        match w.phase with
        | .stored piece =>
            let (_, newly) ← s.engine.sched.complete piece
            let engine ← s.engine.step (.complete k)
            return { s with
              engine
              announcing := if newly then Function.update s.announcing k (some piece)
                else s.announcing }
        | _ => none
  | .announce k => do
      let piece ← s.announcing k
      let bytes ← s.disk.share.layout.pieceLen piece
      return { s with
        verified := s.verified ++ [(piece, bytes)]
        announcing := Function.update s.announcing k none }
  | .orphan piece env late encoded =>
      if piece ∈ s.orphans then
        some { s with
          disk := (LocalShare.storeRacing S B env late s.disk piece encoded).1
          orphans := s.orphans.erase piece }
      else none

/-- What a step does. -/
inductive Does (S : StoreKeys Master Key) (B : Bao Hash Wire) (s : Transfer K Master Hash) :
    TransferAction K Wire → Transfer K Master Hash → Prop
  | engine {a engine} (hblocked : s.blocked a = false) (hengine : s.engine.step a = some engine) :
      Does S B s (.engine a) { s with
        engine, orphans := s.orphaned a ++ s.orphans, told := s.hears a
        faults := s.refusals a ++ s.faults }
  | store {k w i env late encoded engine} (hw : s.engine.workers k = some w)
      (hphase : w.phase = .storing i)
      (hengine : s.engine.step
        (.store k (.of (LocalShare.storeRacing S B env late s.disk i encoded).2)) = some engine) :
      Does S B s (.store k env late encoded) { s with
        engine, disk := (LocalShare.storeRacing S B env late s.disk i encoded).1
        faults := if s.disk.share.verifies B i encoded then s.faults
          else (w.peer, i) :: s.faults }
  | complete {k w i sched newly engine} (hquiet : s.announcing k = none)
      (hw : s.engine.workers k = some w) (hphase : w.phase = .stored i)
      (hcomplete : s.engine.sched.complete i = some (sched, newly))
      (hengine : s.engine.step (.complete k) = some engine) :
      Does S B s (.complete k) { s with
        engine
        announcing := if newly then Function.update s.announcing k (some i) else s.announcing }
  | announce {k i bytes} (hi : s.announcing k = some i)
      (hbytes : s.disk.share.layout.pieceLen i = some bytes) :
      Does S B s (.announce k) { s with
        verified := s.verified ++ [(i, bytes)]
        announcing := Function.update s.announcing k none }
  | orphan {i env late encoded} (hmem : i ∈ s.orphans) :
      Does S B s (.orphan i env late encoded) { s with
        disk := (LocalShare.storeRacing S B env late s.disk i encoded).1
        orphans := s.orphans.erase i }

lemma step_does {S : StoreKeys Master Key} {B : Bao Hash Wire} {s s' : Transfer K Master Hash}
    {a : TransferAction K Wire} (h : s.step S B a = some s') : Does S B s a s' := by
  cases a with
  | engine a =>
    rw [Transfer.step] at h
    split_ifs at h with hblocked
    obtain ⟨engine, hengine, h⟩ := Option.bind_eq_some_iff.1 h
    cases h
    exact .engine (by simpa using hblocked) hengine
  | store k env late encoded =>
    obtain ⟨w, hw, h⟩ := Option.bind_eq_some_iff.1 h
    cases hphase : w.phase <;> simp only [hphase, reduceCtorEq] at h
    case storing i =>
      obtain ⟨engine, hengine, h⟩ := Option.bind_eq_some_iff.1 h
      cases h
      exact .store hw hphase hengine
  | complete k =>
    rw [Transfer.step] at h
    split_ifs at h with hquiet
    obtain ⟨w, hw, h⟩ := Option.bind_eq_some_iff.1 h
    cases hphase : w.phase <;> simp only [hphase, reduceCtorEq] at h
    case stored i =>
      obtain ⟨⟨sched, newly⟩, hcomplete, h⟩ := Option.bind_eq_some_iff.1 h
      obtain ⟨engine, hengine, h⟩ := Option.bind_eq_some_iff.1 h
      cases h
      exact .complete (Option.not_isSome_iff_eq_none.1 hquiet) hw hphase hcomplete hengine
  | announce k =>
    obtain ⟨i, hi, h⟩ := Option.bind_eq_some_iff.1 h
    obtain ⟨bytes, hbytes, h⟩ := Option.bind_eq_some_iff.1 h
    cases h
    exact .announce hi hbytes
  | orphan i env late encoded =>
    rw [Transfer.step] at h
    split_ifs at h with hmem
    cases h
    exact .orphan hmem

/-! ## The engine and the disk -/

/-- The workers' pieces are those of the share, and what a worker reports is stored. -/
structure Sane (T : Target Master) (m : Manifest Hash) (s : Transfer K Master Hash) : Prop where
  engine : s.engine.Sane
  download : IsDownload T m s.disk.share
  length_eq : s.engine.sched.pieces.length = (Layout.new m).totalPieces
  orphans_lt : ∀ i ∈ s.orphans, i < (Layout.new m).totalPieces
  stored : ∀ k w i, s.engine.workers k = some w → w.phase = .stored i → s.disk.share.has i = true
  done : ∀ i : ℕ, s.engine.sched.pieces[i]? = some .done → s.disk.share.has i = true

variable {S : StoreKeys Master Key} {B : Bao Hash Wire} {T : Target Master} {m : Manifest Hash}
  {toLowercase : String → String} {s s' : Transfer K Master Hash} {a : TransferAction K Wire}

lemma Sane.lt_total (h : s.Sane T m) {k : ℕ} {w : Worker K} {i : ℕ}
    (hw : s.engine.workers k = some w) (hi : w.phase.piece = some i) :
    i < (Layout.new m).totalPieces :=
  h.length_eq ▸ h.engine.in_range k w i hw hi

variable (S B) in
lemma Sane.races (h : s.Sane T m) (hvalid : m.validate toLowercase = .ok ()) {i : ℕ}
    (hi : i < (Layout.new m).totalPieces) (env : StoreEnv) (late : Bool) (encoded : Wire) :
    ∃ f j entry, i = Layout.firstOf m f + j ∧ m.files[f]? = some entry ∧ j < entry.pieces ∧
      Races S B T m s.disk f entry j env late encoded
        (LocalShare.storeRacing S B env late s.disk i encoded) := by
  obtain ⟨f, j, entry, hf, hj, rfl⟩ := Layout.exists_piece hi
  exact ⟨f, j, entry, rfl, hf, hj, storeRacing_spec S B encoded env late hvalid h.download hf hj⟩

lemma orphaned_lt (h : s.Sane T m) {a : Action K} {i : ℕ} (hi : i ∈ s.orphaned a) :
    i < (Layout.new m).totalPieces := by
  cases a with
  | cancel k =>
    rw [orphaned] at hi
    split at hi
    · case h_1 piece hphase =>
      obtain ⟨w, hw, hphase⟩ := Option.map_eq_some_iff.1 hphase
      rw [List.mem_singleton.1 hi]
      exact h.lt_total hw (by rw [hphase]; rfl)
    · cases hi
  | _ => cases hi

/-- No action that may happen here completes a piece or stores one. -/
lemma not_blocked {a : Action K} (h : s.blocked a = false) :
    (∀ i, s.engine.call a ≠ some (.complete i)) ∧ ∀ k r, a ≠ .store k r := by
  cases a with
  | store k r => cases h
  | complete k => cases h
  | pick k =>
    refine ⟨fun i hcall => ?_, by simp⟩
    obtain ⟨w, -, hcall⟩ := Option.map_eq_some_iff.1 hcall
    cases hcall
  | giveBack k =>
    refine ⟨fun i hcall => ?_, by simp⟩
    obtain ⟨w, -, hcall⟩ := Option.bind_eq_some_iff.1 hcall
    cases hphase : w.phase <;> simp [hphase] at hcall
  | _ => exact ⟨fun i => by simp [Engine.call], by simp⟩

lemma Stored.of_eq_ok {r : Result Bool} (h : Stored.of r = .ok) : ∃ b, r = .ok b := by
  rcases r with (e | _) | b
  · cases h
  · cases h
  · exact ⟨b, rfl⟩

lemma Sane.step (h : s.Sane T m) (hvalid : m.validate toLowercase = .ok ())
    (hstep : s.step S B a = some s') : s'.Sane T m := by
  -- only a piece that is stored changes what the share has
  cases step_does hstep with
  | @engine a engine hblocked hengine =>
    obtain ⟨hcomplete, hstore⟩ := not_blocked hblocked
    have he := Engine.step_effect hengine
    refine ⟨h.engine.step he, h.download, (h.engine.length_eq he).trans h.length_eq,
      fun i hi => ?_, fun k w i hw hphase => ?_, fun i hi => ?_⟩
    · exact (List.mem_append.1 hi).elim (orphaned_lt h) (h.orphans_lt i)
    · rcases he.worker k w hw with hold | hidle | ⟨phase, -, hmoves⟩
      · exact h.stored k w i hold hphase
      · rw [hphase] at hidle
        cases hidle
      · rw [hphase] at hmoves
        exact absurd hmoves.of_stored.1 (hstore _ _)
    · exact h.done i (((h.engine.done_iff he i).1 hi).resolve_right (hcomplete i))
  | @store k w i env late encoded engine hw hphase hengine =>
    have he := Engine.step_effect hengine
    obtain ⟨f, j, entry, rfl, hf, hj, hraces⟩ :=
      h.races S B hvalid (h.lt_total hw (by rw [hphase]; rfl)) env late encoded
    have hmono : ∀ {p}, s.disk.share.has p = true → _ := fun {p} hp =>
      (hraces.has_iff p).2 (.inl hp)
    refine ⟨h.engine.step he, hraces.isDownload, (h.engine.length_eq he).trans h.length_eq,
      h.orphans_lt, fun k' w' i hw' hphase' => ?_, fun i hi => ?_⟩
    · rcases he.worker k' w' hw' with hold | hidle | ⟨phase, hold, hmoves⟩
      · exact hmono (h.stored k' w' i hold hphase')
      · rw [hphase'] at hidle
        cases hidle
      · rw [hphase'] at hmoves
        obtain ⟨haction, rfl⟩ := hmoves.of_stored
        obtain ⟨rfl, hok⟩ := Action.store.inj haction
        obtain ⟨b, hb⟩ := Stored.of_eq_ok hok
        obtain rfl : w = { w' with phase := .storing i } := Option.some.inj (hw.symm.trans hold)
        cases hphase
        exact hraces.has_of_ok b hb
    · refine hmono (h.done i (((h.engine.done_iff he i).1 hi).resolve_right ?_))
      simp [Engine.call]
  | @complete k w i sched newly engine hquiet hw hphase hcomplete hengine =>
    have he := Engine.step_effect hengine
    refine ⟨h.engine.step he, h.download, (h.engine.length_eq he).trans h.length_eq,
      h.orphans_lt, fun k' w' j hw' hphase' => ?_, fun j hj => ?_⟩
    · rcases he.worker k' w' hw' with hold | hidle | ⟨phase, -, hmoves⟩
      · exact h.stored k' w' j hold hphase'
      · rw [hphase'] at hidle
        cases hidle
      · rw [hphase'] at hmoves
        cases hmoves.of_stored.1
    · rcases (h.engine.done_iff he j).1 hj with hold | hcall
      · exact h.done j hold
      · simp only [Engine.call, hw, Option.bind_eq_bind, Option.bind_some, hphase,
          Option.some.injEq, Scheduler.Op.complete.injEq] at hcall
        exact hcall ▸ h.stored k w i hw hphase
  | announce =>
    exact ⟨h.engine, h.download, h.length_eq, h.orphans_lt, h.stored, h.done⟩
  | @orphan i env late encoded hmem =>
    obtain ⟨f, j, entry, rfl, hf, hj, hraces⟩ :=
      h.races S B hvalid (h.orphans_lt i hmem) env late encoded
    exact ⟨h.engine, hraces.isDownload, h.length_eq,
      fun i hi => h.orphans_lt i (List.mem_of_mem_erase hi),
      fun k w i hw hphase => (hraces.has_iff i).2 (.inl (h.stored k w i hw hphase)),
      fun i hi => (hraces.has_iff i).2 (.inl (h.done i hi))⟩

end Transfer

end Chorrent
