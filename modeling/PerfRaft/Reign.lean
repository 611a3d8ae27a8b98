import PerfRaft.LogCache
import PerfRaft.Process

namespace PerfRaft

/-- The term of a request that only leaders send. -/
def Input.leaderTerm? : Input → Option Nat
  | .rpc (.appendEntries req) | .heartbeat req => some req.term
  | .rpc (.installSnapshot req) => some req.term
  | _ => none

namespace Raft

/-- The futures on the list of the leadership that was set up last. -/
def inflight (r : Raft) : List LogFuture :=
  (r.leaderships.head?.map LeaderState.inflight).getD []

/-- The futures that `restoreUserSnapshot` answers with ErrAbortedByRestore. -/
def abortedBy (r : Raft) (user : UserSnapshot) : List LogFuture :=
  if 1 < user.version ∨ r.configurations.committedIndex ≠ r.configurations.latestIndex then []
  else r.inflight

/-- The GetLog of the server's log store: that of the store itself, or that of a
`LogCache` before a store with the same contents, whatever calls it has seen. -/
inductive ReadsLog (r : Raft) : (Nat → Option Log) → Prop where
  | store : ReadsLog r r.logs.getLog
  | cached {S : Type} {b : LogBackend S} (hb : b.IsMap) {capacity : Int} {s : S} {c : LogCache S}
      (hnew : newLogCache capacity s = .ok c) (requests : List LogStoreCall)
      (hsame : ∀ index, b.getLog (b.calls s requests) index = r.logs.getLog index) :
      ReadsLog r ((c.calls b requests).getLog b)

end Raft

namespace Process

variable {σ ρ : Type} (fsm : FSM σ ρ) (initial : σ)

/-- The server is running and the leader. -/
def reigns (s : Process σ ρ) : Bool := !s.raft.down && decide (s.raft.state = .leader)

/-- A step after which the server is the leader. -/
def reign (s : Process σ ρ) (a : ProcessAction) : Option (Process σ ρ) :=
  (s.step fsm initial a).filter reigns

/-- No request comes from another leader of the server's term. -/
def Unrivalled (s : Process σ ρ) : ProcessAction → Prop
  | .main (.input input) _ => input.leaderTerm? ≠ some s.raft.currentTerm
  | _ => True

instance (s : Process σ ρ) : DecidablePred s.Unrivalled
  | .main (.input input) _ =>
    inferInstanceAs (Decidable (input.leaderTerm? ≠ some s.raft.currentTerm))
  | .main (.restore _) _ | .dies _ _ | .apply | .snapshot | .configurations | .persist _
  | .setLastSnapshot | .compact _ => isTrue trivial

/-- A server that stays the leader, from the time it has set up its leadership. -/
def reigning : Lib.System (Process σ ρ) ProcessAction where
  init := fun s => ∃ r : Raft, r.down = false ∧ r.state = .leader ∧ s.raft = r.enterLeader
  step := reign fsm initial

end Process

/-- The futures that the main thread answers with ErrAbortedByRestore. -/
def Work.abortedBy (r : Raft) : Work → List LogFuture
  | .restore user => r.abortedBy user
  | .input _ => []

/-- A leader with its user's restores. The history has the futures that were answered
with ErrAbortedByRestore, and the entries the FSM has applied since its last restore. -/
structure Reign (σ ρ : Type) where
  process : Process σ ρ
  aborted : List LogFuture := []
  applied : List Log := []

namespace Reign

variable {σ ρ : Type} (fsm : FSM σ ρ) (initial : σ)

/-- What is noted of a step. A restore replaces whatever the FSM has applied before. -/
def record (w : Reign σ ρ) (a : ProcessAction) (s' : Process σ ρ) : Reign σ ρ :=
  match a with
  | .main work _ =>
    { process := s'
      aborted := work.abortedBy w.process.raft ++ w.aborted
      applied := if w.process.raft.snapshots.length < s'.raft.snapshots.length then [] else w.applied }
  | .apply => { w with process := s', applied := w.applied ++ w.process.fsmMutateCh.headD [] }
  | _ => { w with process := s' }

def system : Lib.System (Reign σ ρ) ProcessAction where
  init := fun w => (Process.reigning fsm initial).init w.process ∧ w.aborted = [] ∧ w.applied = []
  step := fun w a => (w.process.reign fsm initial a).map (w.record a)

end Reign

end PerfRaft
