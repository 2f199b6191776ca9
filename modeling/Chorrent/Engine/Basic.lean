/-
# The download engine

The connections of a running download and the workers that fetch pieces over them (`Engine`
of `download.rs`).  An action is what one task does between two points where another task can
run: a call of the scheduler, a message that arrived, a task that was spawned or aborted.

An aborted task stops at its next `await`, not at once: until it is cancelled, a worker of a
connection that has ended may still act.
-/
import Chorrent.Protocol.Basic
import Chorrent.Scheduler.Basic

namespace Chorrent

open Lib

/-- At most this many peers are downloaded from (`MAX_PEERS`). -/
def maxPeers : ℕ := 32

def maxRequestsPerPeer : ℕ := 48

/-- After this many failures in a row a connection is given up (`MAX_STRIKES`). -/
def maxStrikes : ℕ := 3

/-- Where a worker is in its loop. -/
inductive Phase where
  /-- At the start of the loop, or waiting to get there. -/
  | idle
  /-- There is work left and the peer is not given up; `pick` is next. -/
  | ready
  | requesting (piece : ℕ)
  /-- The piece arrived and is being verified and stored. -/
  | storing (piece : ℕ)
  /-- The piece is stored; `complete` is next. -/
  | stored (piece : ℕ)
  /-- The piece did not arrive; `give_back` is next. -/
  | returning (piece : ℕ) (lacks : Bool)
deriving DecidableEq

/-- The piece a worker got from `pick` and has neither completed nor given back. -/
def Phase.piece : Phase → Option ℕ
  | .idle | .ready => none
  | .requesting i | .storing i | .stored i | .returning i _ => some i

structure Worker (K : Type) where
  peer : K
  /-- The number of the connection it was spawned for. -/
  session : ℕ
  phase : Phase
deriving DecidableEq

/-- What came of the request for a piece. -/
inductive Answer where
  | piece
  | dontHave
  | busy
  | notFound
  /-- Any other response, an error or a timeout. -/
  | failed
deriving DecidableEq

/-- What came of storing a piece that arrived. -/
inductive Stored where
  | ok
  /-- The data was bad, or could not be written. -/
  | bad
  /-- The blocking task did not finish. -/
  | aborted
deriving DecidableEq

/-- How far `run_peer` is with a connection. -/
inductive Stage where
  /-- Waiting for the peer's first bitfield. -/
  | subscribing
  /-- The peer is added to the scheduler and its workers run. -/
  | running
  /-- `drive_peer` returned; its workers are aborted. -/
  | left
  /-- The peer is removed from the scheduler. -/
  | forgotten
deriving DecidableEq

structure Session where
  number : ℕ
  stage : Stage
deriving DecidableEq

structure Engine (K : Type) [DecidableEq K] where
  sched : Scheduler K
  connected : AList fun _ : K => Session
  workers : ℕ → Option (Worker K)
  /-- The failures in a row of each connection, by its number. -/
  strikes : ℕ → ℕ
  /-- How many connections there were so far. -/
  sessions : ℕ
  /-- How many workers were spawned so far. -/
  spawned : ℕ
  /-- Whether a piece was ever handed out while none was missing. -/
  endgame : Bool

inductive Action (K : Type) where
  | connect (peer : K)
  /-- The peer's first bitfield. -/
  | subscribed (peer : K) (bytes : List UInt8)
  | spawn (peer : K)
  | check (worker : ℕ)
  | pick (worker : ℕ)
  | answer (worker : ℕ) (answer : Answer)
  | store (worker : ℕ) (result : Stored)
  | complete (worker : ℕ)
  | giveBack (worker : ℕ)
  /-- A further bitfield on the subscription. -/
  | bitfield (peer : K) (bytes : List UInt8)
  /-- `Have` on the subscription. -/
  | haveFrame (peer : K) (piece : ℕ)
  /-- `drive_peer` returns. -/
  | leave (peer : K)
  | removePeer (peer : K)
  | disconnect (peer : K)
  /-- An aborted worker reaches an `await`. -/
  | cancel (worker : ℕ)
deriving DecidableEq

namespace Engine

variable {K : Type} [DecidableEq K]

/-- `held` is what is already on disk. -/
def new (held : List Bool) : Option (Engine K) := do
  let sched ← Scheduler.new held urgentWindowSize
  return { sched, connected := ∅, workers := fun _ => none, strikes := fun _ => 0, sessions := 0,
           spawned := 0, endgame := false }

/-- The worker belongs to the connection that its peer is being driven over. -/
def Live (s : Engine K) (w : Worker K) : Prop :=
  s.connected.lookup w.peer = some ⟨w.session, .running⟩

instance (s : Engine K) (w : Worker K) : Decidable (s.Live w) :=
  inferInstanceAs (Decidable (_ = _))

/-- The connection to `peer`, if it is in this stage. -/
def sessionIn (s : Engine K) (peer : K) (stage : Stage) : Option Session :=
  (s.connected.lookup peer).filter (·.stage = stage)

def setStage (s : Engine K) (peer : K) (session : Session) (stage : Stage) : Engine K :=
  { s with connected := s.connected.insert peer { session with stage } }

def setWorker (s : Engine K) (k : ℕ) (w : Option (Worker K)) : Engine K :=
  { s with workers := Function.update s.workers k w }

def setStrikes (s : Engine K) (session n : ℕ) : Engine K :=
  { s with strikes := Function.update s.strikes session n }

/-- How many workers a connection has. -/
def workersOf (s : Engine K) (session : ℕ) : ℕ :=
  (List.range s.spawned).countP fun k => (s.workers k).any (·.session = session)

/-- A worker whose request was answered. -/
def answered (s : Engine K) (k : ℕ) (w : Worker K) (piece : ℕ) : Answer → Engine K
  | .piece => s.setWorker k (some { w with phase := .storing piece })
  | .dontHave => s.setWorker k (some { w with phase := .returning piece true })
  | .busy => s.setWorker k (some { w with phase := .returning piece false })
  | .notFound =>
      (s.setStrikes w.session maxStrikes).setWorker k
        (some { w with phase := .returning piece false })
  | .failed =>
      (s.setStrikes w.session (s.strikes w.session + 1)).setWorker k
        (some { w with phase := .returning piece false })

/-- A worker that stored a piece, or tried to. -/
def storeDone (s : Engine K) (k : ℕ) (w : Worker K) (piece : ℕ) : Stored → Engine K
  | .ok => (s.setStrikes w.session 0).setWorker k (some { w with phase := .stored piece })
  | .bad =>
      (s.setStrikes w.session (s.strikes w.session + 1)).setWorker k
        (some { w with phase := .returning piece true })
  | .aborted => s.setWorker k (some { w with phase := .returning piece false })

/-- Perform one action.  An action that cannot happen now, or in which the scheduler panics,
gives `none`. -/
def step (s : Engine K) : Action K → Option (Engine K)
  | .connect peer =>
      if peer ∈ s.connected ∨ maxPeers ≤ s.connected.keys.length then none
      else some { s with
        connected := s.connected.insert peer ⟨s.sessions, .subscribing⟩
        sessions := s.sessions + 1 }
  | .subscribed peer bytes => do
      let session ← s.sessionIn peer .subscribing
      let sched ← s.sched.addPeer peer (unpackBits bytes s.sched.pieces.length)
      return { s.setStage peer session .running with sched }
  | .spawn peer => do
      let session ← s.sessionIn peer .running
      if s.workersOf session.number < maxRequestsPerPeer then
        return { s.setWorker s.spawned (some ⟨peer, session.number, .idle⟩) with
          spawned := s.spawned + 1 }
      else none
  | .check k => do
      let w ← s.workers k
      if w.phase ≠ .idle then none
      else if s.sched.isDone ∨ maxStrikes ≤ s.strikes w.session then return s.setWorker k none
      else return s.setWorker k (some { w with phase := .ready })
  | .pick k => do
      let w ← s.workers k
      if w.phase ≠ .ready then none
      else
        let (sched, picked) ← s.sched.pick w.peer
        match picked with
        | none => return { s.setWorker k (some { w with phase := .idle }) with sched }
        | some piece =>
            return { s.setWorker k (some { w with phase := .requesting piece }) with
              sched, endgame := s.endgame || s.sched.missing == 0 }
  | .answer k answer => do
      let w ← s.workers k
      match w.phase with
      | .requesting piece => return s.answered k w piece answer
      | _ => none
  | .store k result => do
      let w ← s.workers k
      match w.phase with
      | .storing piece => return s.storeDone k w piece result
      | _ => none
  | .complete k => do
      let w ← s.workers k
      match w.phase with
      | .stored piece =>
          let (sched, _) ← s.sched.complete piece
          return { s.setWorker k (some { w with phase := .idle }) with sched }
      | _ => none
  | .giveBack k => do
      let w ← s.workers k
      match w.phase with
      | .returning piece lacks =>
          let sched ← s.sched.failed piece w.peer lacks
          return { s.setWorker k (some { w with phase := .idle }) with sched }
      | _ => none
  | .bitfield peer bytes => do
      let _ ← s.sessionIn peer .running
      let sched ← s.sched.addPeer peer (unpackBits bytes s.sched.pieces.length)
      return { s with sched }
  | .haveFrame peer piece => do
      let _ ← s.sessionIn peer .running
      let sched ← s.sched.setPeerHas peer piece
      return { s with sched }
  | .leave peer => do
      let session ← s.connected.lookup peer
      if session.stage = .subscribing ∨ session.stage = .running then
        return s.setStage peer session .left
      else none
  | .removePeer peer => do
      let session ← s.sessionIn peer .left
      let sched ← s.sched.removePeer peer
      return { s.setStage peer session .forgotten with sched }
  | .disconnect peer => do
      let _ ← s.sessionIn peer .forgotten
      return { s with connected := s.connected.erase peer }
  | .cancel k => do
      let w ← s.workers k
      if s.Live w then none else return s.setWorker k none

/-- Perform actions one after another. -/
def exec (s : Engine K) (actions : List (Action K)) : Option (Engine K) :=
  actions.foldlM step s

end Engine

end Chorrent
