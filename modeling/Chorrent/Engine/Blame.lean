/-
# What is held against a peer

The scheduler's bit for a piece of a peer is cleared when the peer answers `DontHave`, when it
sends bytes that do not verify, and also when good bytes cannot be written: `store_piece` has
one error for both, and the worker takes it for bad data.  While writing succeeds, the
scheduler knows of everything a peer said it holds, except what the peer is at fault for.
-/
import Chorrent.Engine.Progress
import Chorrent.Scheduler.Policy

namespace Chorrent

open Lib

variable {K Master Key Hash Wire : Type} [DecidableEq K]

/-- The peer is asked for the piece when the turn comes to it: the piece is missing and the
scheduler knows that the peer holds it. -/
def Scheduler.Pickable (s : Scheduler K) (peer : K) (i : ℕ) : Prop :=
  ∃ bits, s.peers.lookup peer = some bits ∧ s.IsWanted bits i

namespace Transfer

variable {S : StoreKeys Master Key} {B : Bao Hash Wire} {T : Target Master} {m : Manifest Hash}
  {toLowercase : String → String} {disk : Disk Master Hash} {s s' : Transfer K Master Hash}

/-- Good bytes that are to be written can be written. -/
def Writable (S : StoreKeys Master Key) (B : Bao Hash Wire) (T : Target Master)
    (m : Manifest Hash) (s : Transfer K Master Hash) : TransferAction K Wire → Prop
  | .store k env late encoded => ∀ w f entry j, s.engine.workers k = some w →
      w.phase = .storing (Layout.firstOf m f + j) → m.files[f]? = some entry → j < entry.pieces →
      s.disk.share.verifies B (Layout.firstOf m f + j) encoded = true →
      (s.disk.share.has (Layout.firstOf m f + j) = false ∨ late = true) →
      CanWrite S T s.disk env f entry j
  | .engine _ | .complete _ | .announce _ | .orphan _ _ _ _ => True

/-- Where the scheduler does not know what a peer said it holds, the peer is at fault. -/
def Blameless (s : Transfer K Master Hash) : Prop :=
  ∀ p bits told i, s.engine.sched.peers.lookup p = some bits → s.told p = some told →
    told[i]? = some true → bits[i]? ≠ some true → (p, i) ∈ s.faults

/-- What carries `Blameless` along: what a worker is about to hold against its peer is the
peer's fault. -/
structure Blames (s : Transfer K Master Hash) : Prop where
  told : ∀ p bits, s.engine.sched.peers.lookup p = some bits →
    ∃ told, s.told p = some told ∧ told.length = bits.length
  cleared : s.Blameless
  returning : ∀ k w i, s.engine.workers k = some w → w.phase = .returning i true →
    (w.peer, i) ∈ s.faults

/-! ## What peers say -/

lemma hears_added {a : Action K} {p : K} {held : List Bool}
    (h : s.engine.call a = some (.addPeer p held)) : s.hears a p = some held := by
  cases a <;> simp only [Engine.call, Option.map_eq_some_iff, reduceCtorEq, Option.some.injEq,
    and_false, exists_false, Scheduler.Op.addPeer.injEq] at h
  case subscribed peer bytes =>
    obtain ⟨rfl, rfl⟩ := h
    rw [hears, Function.update_self]
  case bitfield peer bytes =>
    obtain ⟨rfl, rfl⟩ := h
    rw [hears, Function.update_self]
  case complete k =>
    obtain ⟨w, hw, h⟩ := Option.bind_eq_some_iff.1 h
    cases hphase : w.phase <;> simp [hphase] at h
  case giveBack k =>
    obtain ⟨w, hw, h⟩ := Option.bind_eq_some_iff.1 h
    cases hphase : w.phase <;> simp [hphase] at h

/-- What a peer says it holds, when it is neither added nor says that it has one more piece. -/
lemma hears_other {a : Action K} {p : K} (hadd : ∀ held, s.engine.call a ≠ some (.addPeer p held))
    (hhas : ∀ i, s.engine.call a ≠ some (.setPeerHas p i)) : s.hears a p = s.told p := by
  cases a with
  | subscribed peer bytes =>
    refine Function.update_of_ne ?_ _ _
    rintro rfl
    exact hadd _ rfl
  | bitfield peer bytes =>
    refine Function.update_of_ne ?_ _ _
    rintro rfl
    exact hadd _ rfl
  | haveFrame peer piece =>
    refine Function.update_of_ne ?_ _ _
    rintro rfl
    exact hhas _ rfl
  | _ => rfl

lemma hears_has {a : Action K} {p : K} {i : ℕ}
    (h : s.engine.call a = some (.setPeerHas p i)) :
    s.hears a p = (s.told p).map (·.set i true) := by
  cases a <;> simp only [Engine.call, Option.map_eq_some_iff, reduceCtorEq, Option.some.injEq,
    and_false, exists_false, Scheduler.Op.setPeerHas.injEq] at h
  case haveFrame peer piece =>
    obtain ⟨rfl, rfl⟩ := h
    rw [hears, Function.update_self]
  case complete k =>
    obtain ⟨w, hw, h⟩ := Option.bind_eq_some_iff.1 h
    cases hphase : w.phase <;> simp [hphase] at h
  case giveBack k =>
    obtain ⟨w, hw, h⟩ := Option.bind_eq_some_iff.1 h
    cases hphase : w.phase <;> simp [hphase] at h

/-- Who the scheduler is told lacks a piece. -/
lemma returning_of_failed {a : Action K} {p : K} {i : ℕ}
    (h : s.engine.call a = some (.failed i p true)) :
    ∃ k w, s.engine.workers k = some w ∧ w.peer = p ∧ w.phase = .returning i true := by
  cases a <;> simp only [Engine.call, Option.map_eq_some_iff, reduceCtorEq, Option.some.injEq,
    and_false, exists_false] at h
  case complete k =>
    obtain ⟨w, hw, h⟩ := Option.bind_eq_some_iff.1 h
    cases hphase : w.phase <;> simp [hphase] at h
  case giveBack k =>
    obtain ⟨w, hw, h⟩ := Option.bind_eq_some_iff.1 h
    cases hphase : w.phase <;> simp only [hphase, reduceCtorEq] at h
    case returning =>
      cases h
      exact ⟨k, w, hw, rfl, hphase⟩

/-! ## Steps -/

/-- A step of the engine, in which the faults of peers are noted. -/
lemma Blames.effect {a : Action K} (h : s.Blames) (hs : s.engine.Sane)
    (he : Engine.Effect s.engine a s'.engine) (hfaults : s.faults ⊆ s'.faults)
    (htold : s'.told = s.hears a)
    (hlacks : ∀ k w i, s.engine.workers k = some w →
      (a = .answer k .dontHave ∧ w.phase = .requesting i) ∨
        (a = .store k .bad ∧ w.phase = .storing i) → (w.peer, i) ∈ s'.faults) : s'.Blames := by
  -- a peer's bits, and what it said, before and after
  have hbits : ∀ p bits', s'.engine.sched.peers.lookup p = some bits' →
      (s'.told p = some bits') ∨ ∃ bits told, s.engine.sched.peers.lookup p = some bits ∧
        s.told p = some told ∧ told.length = bits.length ∧
          ((s'.told p = some told ∧ bits' = bits) ∨
            (∃ i, s'.told p = some (told.set i true) ∧ bits' = bits.set i true) ∨
            ∃ i, (p, i) ∈ s.faults ∧ s'.told p = some told ∧ bits' = bits.set i false) := by
    intro p bits' hbits'
    rcases he.call with ⟨hnone, hsame⟩ | ⟨op, out, hcall, happly⟩
    · rw [hsame] at hbits'
      obtain ⟨told, htold', hlen⟩ := h.told p bits' hbits'
      refine .inr ⟨bits', told, hbits', htold', hlen, .inl ⟨?_, rfl⟩⟩
      rw [htold, hears_other (by simp [hnone]) (by simp [hnone]), htold']
    · rcases Scheduler.apply_bits hs.consistent (hs.issued he hcall) happly hbits' with
        rfl | ⟨bits, hlookup, -, hadd, rfl⟩
      · exact .inl (by rw [htold, hears_added hcall])
      · obtain ⟨told, htold', hlen⟩ := h.told p bits hlookup
        refine .inr ⟨bits, told, hlookup, htold', hlen, ?_⟩
        have hadd' : ∀ held, s.engine.call a ≠ some (.addPeer p held) := fun held heq =>
          hadd held (Option.some.inj (hcall.symm.trans heq))
        by_cases hhas : ∃ i, op = .setPeerHas p i
        · obtain ⟨i, rfl⟩ := hhas
          refine .inr (.inl ⟨i, ?_, by simp [Scheduler.Op.onBits]⟩)
          rw [htold, hears_has hcall, htold', Option.map_some]
        · have hsame : s'.told p = some told := by
            rw [htold, hears_other hadd' (fun i heq => hhas ⟨i, Option.some.inj
              (hcall.symm.trans heq)⟩), htold']
          by_cases hfailed : ∃ i, op = .failed i p true
          · obtain ⟨i, rfl⟩ := hfailed
            obtain ⟨k, w, hw, rfl, hphase⟩ := returning_of_failed hcall
            exact .inr (.inr ⟨i, h.returning k w i hw hphase, hsame,
              by simp [Scheduler.Op.onBits]⟩)
          · refine .inl ⟨hsame, ?_⟩
            cases op with
            | setPeerHas q i =>
              refine if_neg ?_
              rintro rfl
              exact hhas ⟨i, rfl⟩
            | failed i q lacks =>
              refine if_neg ?_
              rintro ⟨rfl, rfl⟩
              exact hfailed ⟨i, rfl⟩
            | _ => rfl
  refine ⟨fun p bits' hbits' => ?_, fun p bits' told' i hbits' htold' hi hnot => ?_,
    fun k w' i hw' hphase => ?_⟩
  · rcases hbits p bits' hbits' with hsame | ⟨bits, told, -, -, hlen, hcases⟩
    · exact ⟨bits', hsame, rfl⟩
    · rcases hcases with ⟨hsame, rfl⟩ | ⟨i, hsame, rfl⟩ | ⟨i, -, hsame, rfl⟩
      · exact ⟨told, hsame, hlen⟩
      · exact ⟨told.set i true, hsame, by simpa using hlen⟩
      · exact ⟨told, hsame, by simpa using hlen⟩
  · rcases hbits p bits' hbits' with hsame | ⟨bits, told, hlookup, hold, hlen, hcases⟩
    · rw [hsame, Option.some.injEq] at htold'
      exact absurd (htold' ▸ hi) hnot
    · rcases hcases with ⟨hsame, rfl⟩ | ⟨j, hsame, rfl⟩ | ⟨j, hfault, hsame, rfl⟩
      · obtain rfl : told = told' := Option.some.inj (hsame.symm.trans htold')
        exact hfaults (h.cleared p bits' told i hlookup hold hi hnot)
      · obtain rfl : told.set j true = told' := Option.some.inj (hsame.symm.trans htold')
        by_cases hij : j = i
        · subst hij
          have hlt : j < told.length := by
            rw [← List.length_set (i := j) (a := true)]
            exact (List.getElem?_eq_some_iff.1 hi).1
          rw [List.getElem?_set_self (hlen ▸ hlt)] at hnot
          exact absurd rfl hnot
        · rw [List.getElem?_set_ne hij] at hi hnot
          exact hfaults (h.cleared p bits told i hlookup hold hi hnot)
      · obtain rfl : told = told' := Option.some.inj (hsame.symm.trans htold')
        by_cases hij : j = i
        · exact hfaults (hij ▸ hfault)
        · rw [List.getElem?_set_ne hij] at hnot
          exact hfaults (h.cleared p bits told i hlookup hold hi hnot)
  · rcases he.worker k w' hw' with hw | hidle | ⟨phase, hw, hmoves⟩
    · exact hfaults (h.returning k w' i hw hphase)
    · rw [hphase] at hidle
      cases hidle
    · rw [hphase] at hmoves
      exact hlacks k { w' with phase } i hw hmoves.of_lacking

lemma Blames.step {a : TransferAction K Wire} (h : s.Blames) (hs : s.Sane T m)
    (hvalid : m.validate toLowercase = .ok ()) (hwrite : s.Writable S B T m a)
    (hstep : s.step S B a = some s') : s'.Blames := by
  cases step_does hstep with
  | @engine a engine hblocked hengine =>
    refine h.effect hs.engine (Engine.step_effect hengine) (List.subset_append_right _ _) rfl ?_
    rintro k ⟨p, n, phase⟩ i hw (⟨rfl, rfl⟩ | ⟨rfl, -⟩)
    · refine List.mem_append_left _ ?_
      simp [refusals, hw]
    · cases hblocked
  | @store k w i env late encoded engine hw hphase hengine =>
    obtain ⟨f, j, entry, rfl, hf, hj, hraces⟩ :=
      hs.races S B hvalid (hs.lt_total hw (by rw [hphase]; rfl)) env late encoded
    refine h.effect hs.engine (Engine.step_effect hengine) ?_ rfl ?_
    · dsimp only
      split_ifs
      · exact List.Subset.refl _
      · exact List.subset_cons_self _ _
    · rintro k' w' i hw' (⟨haction, -⟩ | ⟨haction, hphase'⟩)
      · cases haction
      · obtain ⟨rfl, hbad⟩ := Action.store.inj haction
        obtain rfl : w = w' := Option.some.inj (hw.symm.trans hw')
        obtain rfl := Phase.storing.inj (hphase.symm.trans hphase')
        dsimp only
        split_ifs with hver
        · obtain ⟨b, hb⟩ := hraces.accepts hver fun hlacks =>
            hwrite w f entry j hw hphase hf hj hver hlacks
          rw [hb] at hbad
          cases hbad
        · exact List.mem_cons_self
  | complete _ _ _ _ hengine =>
    refine h.effect hs.engine (Engine.step_effect hengine) (List.Subset.refl _) rfl ?_
    rintro k w i - (⟨haction, -⟩ | ⟨haction, -⟩) <;> cases haction
  | announce => exact ⟨h.told, h.cleared, h.returning⟩
  | orphan => exact ⟨h.told, h.cleared, h.returning⟩

lemma run_blames {s₀ : Transfer K Master Hash} {actions : List (TransferAction K Wire)}
    (hvalid : m.validate toLowercase = .ok ()) (hsane : s₀.Sane T m) (h : s₀.Blames)
    (hrun : Run (fun (s : Transfer K Master Hash) a s' => s.step S B a = some s' ∧
      s.Writable S B T m a) s₀ actions s) : s.Sane T m ∧ s.Blames := by
  induction hrun with
  | nil s => exact ⟨hsane, h⟩
  | cons hstep _ ih =>
    exact ih (hsane.step hvalid hstep.1) (h.step hsane hvalid hstep.2 hstep.1)

/-- At the start no peer is known. -/
lemma start_blames {s₀ : Transfer K Master Hash} (h : start K disk = some s₀) : s₀.Blames := by
  obtain ⟨engine, hnew, -, hworkers, hpeers, -⟩ := Engine.new_sane (K := K) disk.share.held
  obtain ⟨resumed, -, h⟩ := Option.bind_eq_some_iff.1 h
  rw [hnew] at h
  cases h
  refine ⟨fun p bits hp => ?_, fun p bits told i hp => ?_, fun k w i hw => ?_⟩
  · rw [hpeers] at hp
    cases hp
  · rw [hpeers] at hp
    cases hp
  · rw [hworkers] at hw
    cases hw

/-- What a peer holds and is not at fault for is done, in flight or can be asked for. -/
lemma Blames.pickable (h : s.Blames) (hs : s.engine.Sane) {p : K} {told : List Bool} {i : ℕ}
    (hp : p ∈ s.engine.sched.peers) (htold : s.told p = some told) (hi : told[i]? = some true)
    (hfault : (p, i) ∉ s.faults) :
    s.engine.sched.pieces[i]? = some .done ∨
      (∃ requesters, s.engine.sched.pieces[i]? = some (.inFlight requesters)) ∨
      s.engine.sched.Pickable p i := by
  obtain ⟨bits, hbits⟩ := Option.isSome_iff_exists.1 (AList.lookup_isSome.2 hp)
  have hbit : bits[i]? = some true := by
    by_contra hnot
    exact hfault (h.cleared p bits told i hbits htold hi hnot)
  have hlt : i < s.engine.sched.pieces.length := by
    rw [← hs.consistent.bits_length p bits hbits]
    exact (List.getElem?_eq_some_iff.1 hbit).1
  cases hpiece : s.engine.sched.pieces[i] with
  | missing =>
    exact .inr (.inr ⟨bits, hbits, hbit, by rw [List.getElem?_eq_getElem hlt, hpiece]⟩)
  | inFlight requesters =>
    exact .inr (.inl ⟨requesters, by rw [List.getElem?_eq_getElem hlt, hpiece]⟩)
  | done => exact .inl (by rw [List.getElem?_eq_getElem hlt, hpiece])

/-- Only a peer's own fault is held against it, in every run of the swarm phase in which good
bytes that are to be written can be written.  A peer that said it holds every piece, and is at
fault for none, is asked for whatever is neither done nor in flight. -/
theorem blamed_only_for_faults [DecidableEq Hash] (S : StoreKeys Master Key) (B : Bao Hash Wire)
    (hvalid : m.validate toLowercase = .ok ()) (hreach : Reached S B T m disk)
    {s₀ : Transfer K Master Hash} (hstart : start K disk = some s₀)
    {actions : List (TransferAction K Wire)}
    (hrun : Run (fun (s : Transfer K Master Hash) a s' => s.step S B a = some s' ∧
      s.Writable S B T m a) s₀ actions s) :
    s.Blameless ∧ ∀ p ∈ s.engine.sched.peers,
      (∀ told, s.told p = some told → ∀ i < (Layout.new m).totalPieces, told[i]? = some true) →
      (∀ i, (p, i) ∉ s.faults) → ∀ i < (Layout.new m).totalPieces,
        s.engine.sched.pieces[i]? = some .done ∨
          (∃ requesters, s.engine.sched.pieces[i]? = some (.inFlight requesters)) ∨
          (s.engine.sched.Pickable p i ∧
            ∃ sched j, s.engine.sched.pick p = some (sched, some j)) := by
  obtain ⟨s₁, hstart₁, hsane₀, -⟩ := start_eq (K := K) (hreach.isDownload hvalid)
  obtain rfl : s₁ = s₀ := Option.some.inj (hstart₁.symm.trans hstart)
  obtain ⟨hsane, h⟩ := run_blames hvalid hsane₀ (start_blames hstart) hrun
  refine ⟨h.cleared, fun p hp hall hnone i hi => ?_⟩
  obtain ⟨bits, hbits⟩ := Option.isSome_iff_exists.1 (AList.lookup_isSome.2 hp)
  obtain ⟨told, htold, -⟩ := h.told p bits hbits
  refine (h.pickable hsane.engine hp htold (hall told htold i hi) (hnone i)).imp_right fun h' =>
    h'.imp_right fun hpick => ⟨hpick, ?_⟩
  obtain ⟨bits', hlookup, hwanted⟩ := hpick
  obtain ⟨j, hj⟩ := Option.ne_none_iff_exists'.1 (Scheduler.policy_ne_none hlookup hwanted)
  exact ⟨_, j, by rw [Scheduler.pick_eq hsane.engine.consistent, hj]⟩

open OneFile in
/-- The file cannot be opened when the piece arrives. -/
def unopened : StoreEnv := { storeEnv with openFails := true }

open OneFile in
/-- A peer sends the piece of a file of five bytes, and `env` is what storing it meets. -/
def receiving (env : StoreEnv) : List (TransferAction ℕ Digest.Encoding) :=
  [.engine (.connect 0), .engine (.subscribed 0 [1]), .engine (.spawn 0), .engine (.check 0),
    .engine (.pick 0), .engine (.answer 0 .piece), .store 0 env false ([], content)]

open OneFile in
/-- The only file of the share can be written. -/
lemma canWrite_one_file {f j : ℕ} {entry : FileEntry Digest} (hf : manifest.files[f]? = some entry)
    (hj : j < entry.pieces) : CanWrite keys target prepared storeEnv f entry j := by
  obtain ⟨hlt, rfl⟩ := List.getElem?_eq_some_iff.1 hf
  obtain rfl : f = 0 := Nat.lt_one_iff.1 (show f < 1 from hlt)
  have hone : OneFile.entry.pieces = 1 := by decide
  obtain rfl : j = 0 := Nat.lt_one_iff.1 (hone ▸ (show j < OneFile.entry.pieces from hj))
  exact ⟨⟨rfl, .plain, rfl⟩, by decide, rfl⟩

open OneFile in
/-- The piece arrives and can be written. -/
theorem blamed_only_for_faults_one_file : ∃ s₀ s : Transfer ℕ Bytes Digest,
    start ℕ prepared = some s₀ ∧
      Run (fun s a s' => s.step keys referenceBao a = some s' ∧
        s.Writable keys referenceBao target manifest a) s₀ (receiving storeEnv) s ∧
      s.Blameless := by
  have hrun : ∃ s₀ s : Transfer ℕ Bytes Digest, start ℕ prepared = some s₀ ∧
      Run (fun s a s' => s.step keys referenceBao a = some s' ∧
        s.Writable keys referenceBao target manifest a) s₀ (receiving storeEnv) s :=
    ⟨_, _, rfl, .cons ⟨rfl, trivial⟩ <| .cons ⟨rfl, trivial⟩ <| .cons ⟨rfl, trivial⟩ <|
      .cons ⟨rfl, trivial⟩ <| .cons ⟨rfl, trivial⟩ <| .cons ⟨rfl, trivial⟩ <|
      .single ⟨rfl, fun _ _ _ _ _ _ hf hj _ _ => canWrite_one_file hf hj⟩⟩
  obtain ⟨s₀, s, hstart, hrun⟩ := hrun
  exact ⟨s₀, s, hstart, hrun, (blamed_only_for_faults keys referenceBao validate_manifest
    ⟨_, _, _, _, _, forDownload_prepared, .nil _⟩ hstart hrun).1⟩

open OneFile in
/-- A peer that holds the only piece sends it, and the file cannot be opened: the scheduler
takes the piece for one that the peer lacks, and nobody is asked for it again. -/
theorem unwritable_piece_blamed : ∃ s₀ s : Transfer ℕ Bytes Digest,
    start ℕ prepared = some s₀ ∧
      Run (fun s a s' => s.step keys referenceBao a = some s') s₀
        (receiving unopened ++ [.engine (.giveBack 0)]) s ∧
      ¬ s.Blameless ∧ s.faults = [] ∧ s.told 0 = some [true] ∧
      s.engine.sched.pieces = [.missing] ∧ ¬ s.engine.sched.Pickable 0 0 ∧
      (s.engine.sched.pick 0).map Prod.snd = some none := by
  have hexec : ((start ℕ prepared).bind fun s₀ =>
      (Run.exec (fun s a => s.step keys referenceBao a) s₀
        (receiving unopened ++ [.engine (.giveBack 0)])).map fun s =>
        (s.engine.sched.peers.lookup 0, s.faults, s.told 0, s.engine.sched.pieces,
          (s.engine.sched.pick 0).map Prod.snd)) =
      some (some [false], [], some [true], [.missing], some none) := rfl
  obtain ⟨s₀, hstart, hexec⟩ := Option.bind_eq_some_iff.1 hexec
  obtain ⟨s, hs, heq⟩ := Option.map_eq_some_iff.1 hexec
  obtain ⟨hbits, hfaults, htold, hpieces, hpick⟩ : _ ∧ _ ∧ _ ∧ _ ∧ _ := by
    simpa only [Prod.mk.injEq] using heq
  refine ⟨s₀, s, hstart, Run.of_exec hs, fun h => ?_, hfaults, htold, hpieces, ?_, hpick⟩
  · have hmem := h 0 [false] [true] 0 hbits htold rfl (by decide)
    rw [hfaults] at hmem
    cases hmem
  · rintro ⟨bits, hlookup, hbit, -⟩
    obtain rfl : [false] = bits := Option.some.inj (hbits.symm.trans hlookup)
    cases hbit

end Transfer

end Chorrent
