/-
# The piece scheduler

`Scheduler` decides which piece to ask which peer for next (`scheduler.rs`).  A panic of the
source (an index out of range, a counter that underflows or does not fit its `u32`, the
`unreachable!` of `pick`) is the result `none`.
-/
import Mathlib.Data.List.AList
import Mathlib.Data.List.MinMax
import Chorrent.Lib.Checked

namespace Chorrent

open Lib

/-- Maximum peers asked for the same piece at once during endgame. -/
def endgameDuplicates : ℕ := 3

/-- How many candidate pieces rarest-first looks at before choosing. -/
def rarestSample : ℕ := 64

/-- Pieces kept strictly in order after the first missing one (`URGENT_WINDOW`). -/
def urgentWindowSize : ℕ := 3

inductive Piece (K : Type) where
  | missing
  | inFlight (requesters : List K)
  | done
deriving DecidableEq

structure Scheduler (K : Type) [DecidableEq K] where
  pieces : List (Piece K)
  /-- How many connected peers hold each piece. -/
  availability : List ℕ
  peers : AList fun _ : K => List Bool
  urgentWindow : ℕ
  /-- Every piece before this one is done. -/
  firstNotDone : ℕ
  missing : ℕ
  done : ℕ

/-- The loop of `advance_playhead` over the pieces from the playhead `k` on. -/
def playheadFrom {K : Type} : List (Piece K) → ℕ → ℕ
  | .done :: ps, k => playheadFrom ps (k + 1)
  | _, k => k

/-- `availability[i] += 1` for every bit that is set; the counters are `u32`. -/
def countUp : List Bool → List ℕ → Option (List ℕ)
  | [], as => some as
  | false :: bs, a :: as => (countUp bs as).map (a :: ·)
  | true :: bs, a :: as => do
      let a' ← checkedAdd 32 a 1
      (countUp bs as).map (a' :: ·)
  | false :: bs, [] => countUp bs []
  | true :: _, [] => none

/-- `availability[i] -= 1` for every bit that is set. -/
def countDown : List Bool → List ℕ → Option (List ℕ)
  | [], as => some as
  | false :: bs, a :: as => (countDown bs as).map (a :: ·)
  | true :: bs, a :: as => do
      let a' ← checkedSub a 1
      (countDown bs as).map (a' :: ·)
  | false :: bs, [] => countDown bs []
  | true :: _, [] => none

namespace Scheduler

variable {K : Type} [DecidableEq K]

def advancePlayhead (s : Scheduler K) : Scheduler K :=
  { s with firstNotDone := playheadFrom (s.pieces.drop s.firstNotDone) s.firstNotDone }

/-- `held` is what is already on disk (all false for a fresh download). -/
def new (held : List Bool) (urgentWindow : ℕ) : Option (Scheduler K) := do
  let pieces := held.map fun h => if h then Piece.done else Piece.missing
  let done := (held.filter fun h => h).length
  let missing ← checkedSub pieces.length done
  let s : Scheduler K :=
    { pieces := pieces, availability := List.replicate pieces.length 0, peers := ∅,
      urgentWindow := urgentWindow, firstNotDone := 0, missing := missing, done := done }
  return s.advancePlayhead

def isDone (s : Scheduler K) : Bool := s.done == s.pieces.length

/-- Give up the request of `peer` for `piece`, if it has one. -/
def dropRequest (s : Scheduler K) (piece : ℕ) (peer : K) : Option (Scheduler K) :=
  match s.pieces[piece]? with
  | none => none
  | some (.inFlight requesters) =>
      let rest := requesters.filter (· ≠ peer)
      if rest = [] then
        some { s with pieces := s.pieces.set piece .missing, missing := s.missing + 1 }
      else some { s with pieces := s.pieces.set piece (.inFlight rest) }
  | some _ => some s

/-- Forget a peer; anything only it was fetching goes back to missing. -/
def removePeer (s : Scheduler K) (peer : K) : Option (Scheduler K) :=
  match s.peers.lookup peer with
  | none => some s
  | some bits => do
      let availability ← countDown bits s.availability
      let s := { s with peers := s.peers.erase peer, availability := availability }
      (List.range s.pieces.length).foldlM (fun s i => s.dropRequest i peer) s

def addPeer (s : Scheduler K) (peer : K) (held : List Bool) : Option (Scheduler K) := do
  let s ← s.removePeer peer
  let availability ← countUp (held.take s.pieces.length) s.availability
  return { s with availability := availability, peers := s.peers.insert peer held }

def setPeerHas (s : Scheduler K) (peer : K) (piece : ℕ) : Option (Scheduler K) :=
  match s.peers.lookup peer with
  | none => some s
  | some bits =>
      if bits[piece]? = some false then do
        let a ← s.availability[piece]?
        let a' ← checkedAdd 32 a 1
        return { s with
          peers := s.peers.insert peer (bits.set piece true)
          availability := s.availability.set piece a' }
      else some s

/-- The peer with these bits holds piece `i` and `i` is missing. -/
def wanted (s : Scheduler K) (bits : List Bool) (i : ℕ) : Option Bool := do
  if ← bits[i]? then
    let p ← s.pieces[i]?
    return p = .missing
  else return false

/-- The scan of rarest-first: the rarest wanted piece so far, and how many were seen. -/
def rarestScan (s : Scheduler K) (bits : List Bool) :
    List ℕ → Option (ℕ × ℕ) → ℕ → Option (Option (ℕ × ℕ))
  | [], best, _ => some best
  | i :: is, best, seen => do
      if ← s.wanted bits i then
        let rarity ← s.availability[i]?
        let best := if best.all fun b => rarity < b.2 then some (i, rarity) else best
        if seen + 1 ≥ rarestSample ∨ rarity ≤ 1 then return best
        else rarestScan s bits is best (seen + 1)
      else rarestScan s bits is best seen

/-- The pieces `peer` could help with in the endgame, with their number of requesters. -/
def endgameCandidates (s : Scheduler K) (peer : K) (bits : List Bool) :
    List ℕ → Option (List (ℕ × ℕ))
  | [] => some []
  | i :: is => do
      if ← bits[i]? then
        match ← s.pieces[i]? with
        | .inFlight requesters =>
            let rest ← endgameCandidates s peer bits is
            if requesters.length < endgameDuplicates ∧ peer ∉ requesters then
              return (i, requesters.length) :: rest
            else return rest
        | _ => endgameCandidates s peer bits is
      else endgameCandidates s peer bits is

/-- The piece `pick` chooses for a peer with these bits. -/
def choose (s : Scheduler K) (peer : K) (bits : List Bool) : Option (Option ℕ) := do
  let total := s.pieces.length
  let start := s.firstNotDone
  -- 1. Urgent window, strictly in order.
  let windowEnd := min (start + s.urgentWindow) total
  let choice ← (List.range' start (windowEnd - start)).findM? (s.wanted bits)
  -- 2. Rarest-first over the next few candidates.
  let choice ←
    if choice = none ∧ 0 < s.missing ∧ 0 < total then
      (s.rarestScan bits (List.range' start (total - start) ++ List.range start) none 0).map
        (Option.map Prod.fst)
    else some choice
  -- 3. Endgame: help with pieces others are already fetching.
  if choice = none ∧ s.missing = 0 then
    (s.endgameCandidates peer bits (List.range' start (total - start))).map fun cs =>
      (cs.argmin Prod.snd).map Prod.fst
  else some choice

/-- Choose a piece for `peer` and record the peer as its requester. -/
def pick (s : Scheduler K) (peer : K) : Option (Scheduler K × Option ℕ) :=
  match s.peers.lookup peer with
  | none => some (s, none)
  | some bits => do
      match ← s.choose peer bits with
      | none => return (s, none)
      | some i =>
          match ← s.pieces[i]? with
          | .missing =>
              let missing ← checkedSub s.missing 1
              return ({ s with
                pieces := s.pieces.set i (.inFlight [peer]), missing := missing }, some i)
          | .inFlight requesters =>
              return ({ s with
                pieces := s.pieces.set i (.inFlight (requesters ++ [peer])) }, some i)
          | .done => none

/-- The piece is verified and on disk.  Returns true the first time. -/
def complete (s : Scheduler K) (piece : ℕ) : Option (Scheduler K × Bool) :=
  let s' := { s with pieces := s.pieces.set piece .done }
  match s.pieces[piece]? with
  | none => none
  | some .done => some (s', false)
  | some .missing => do
      let missing ← checkedSub s.missing 1
      return ({ s' with missing := missing, done := s.done + 1 }.advancePlayhead, true)
  | some (.inFlight _) => some ({ s' with done := s.done + 1 }.advancePlayhead, true)

/-- A request failed.  If the peer lacks the piece (or sent bad data), stop asking it for
that piece. -/
def failed (s : Scheduler K) (piece : ℕ) (peer : K) (peerLacksIt : Bool) :
    Option (Scheduler K) := do
  let s ← s.dropRequest piece peer
  if peerLacksIt then
    match s.peers.lookup peer with
    | none => return s
    | some bits =>
        if ← bits[piece]? then
          let a ← s.availability[piece]?
          let a' ← checkedSub a 1
          return { s with
            peers := s.peers.insert peer (bits.set piece false)
            availability := s.availability.set piece a' }
        else return s
  else return s

/-! ## Operations -/

/-- One call of a scheduler operation. -/
inductive Op (K : Type) where
  | addPeer (peer : K) (held : List Bool)
  | setPeerHas (peer : K) (piece : ℕ)
  | removePeer (peer : K)
  | pick (peer : K)
  | complete (piece : ℕ)
  | failed (piece : ℕ) (peer : K) (peerLacksIt : Bool)
deriving DecidableEq

/-- What a call returns to its caller. -/
inductive Out where
  | unit
  | picked (piece : Option ℕ)
  | completed (first : Bool)
deriving DecidableEq

/-- Perform one call. -/
def apply (s : Scheduler K) : Op K → Option (Scheduler K × Out)
  | .addPeer peer held => (s.addPeer peer held).map (·, .unit)
  | .setPeerHas peer piece => (s.setPeerHas peer piece).map (·, .unit)
  | .removePeer peer => (s.removePeer peer).map (·, .unit)
  | .pick peer => (s.pick peer).map fun r => (r.1, .picked r.2)
  | .complete piece => (s.complete piece).map fun r => (r.1, .completed r.2)
  | .failed piece peer lacks => (s.failed piece peer lacks).map (·, .unit)

/-- The calls the engine makes: a peer is added with exactly one bit per piece, pieces of
`complete` and `failed` exist, and the peers present can be counted by a `u32` (the engine
keeps at most 32 connections). -/
def Issued (s : Scheduler K) : Op K → Prop
  | .addPeer _ held => held.length = s.pieces.length ∧ s.peers.keys.length + 1 < 2 ^ 32
  | .complete piece => piece < s.pieces.length
  | .failed piece _ _ => piece < s.pieces.length
  | .setPeerHas _ _ | .removePeer _ | .pick _ => True

instance (s : Scheduler K) : (op : Op K) → Decidable (s.Issued op)
  | .addPeer _ _ => inferInstanceAs (Decidable (_ ∧ _))
  | .complete _ | .failed _ _ _ => inferInstanceAs (Decidable (_ < _))
  | .setPeerHas _ _ | .removePeer _ | .pick _ => inferInstanceAs (Decidable True)

end Scheduler

end Chorrent
