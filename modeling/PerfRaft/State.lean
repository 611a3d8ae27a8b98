import PerfRaft.Commands
import PerfRaft.Commitment

namespace PerfRaft

inductive RaftState where
  | follower | candidate | leader | shutdown
  deriving DecidableEq

/-- The settings of one server that the modelled code reads. -/
structure Config where
  localID : ServerID
  localAddr : ServerAddress
  protocolVersion : Nat := 3
  maxAppendEntries : Nat := 64
  trailingLogs : Nat := 10240
  preVoteDisabled : Bool := false
  shutdownOnRemove : Bool := true
  monotonicLogs : Bool := false
  deriving DecidableEq

/-- The three keys Raft keeps in the stable store. A key that was never set reads
as 0, respectively as not found. -/
structure StableStore where
  currentTerm : Nat := 0
  lastVoteTerm : Nat := 0
  lastVoteCand : Option Bytes := none
  deriving DecidableEq

/-- Every snapshot is created with version 1. -/
structure SnapshotMeta where
  index : Nat
  term : Nat
  configuration : Configuration
  configurationIndex : Nat
  size : Nat := 0
  deriving DecidableEq

structure Snapshot where
  metadata : SnapshotMeta
  contents : Bytes := []
  deriving DecidableEq

/-- What happens to one write to the stable store: it succeeds, it returns an
error, or the process dies at it. In the last two cases the value may have reached
the disk all the same. -/
inductive Write where
  | ok
  | fail (applied : Bool)
  | crash (applied : Bool)
  deriving DecidableEq

def Write.applied : Write → Bool
  | .ok => true
  | .fail applied => applied
  | .crash applied => applied

/-- What the surroundings answer while one step runs: the clock, the outcomes of
the stable-store writes in the order they are made (those not listed succeed), and
whether the log store, the snapshot store and the FSM do what they are asked. -/
structure Env where
  now : Nat := 0
  writes : List Write := []
  storeLogs : Bool := true
  deleteRange : Bool := true
  createSink : Bool := true
  copySink : Bool := true
  closeSink : Bool := true
  restoreFSM : Bool := true
  deriving DecidableEq

/-- No store fails and the process does not die inside the step. -/
def Env.Faultless (env : Env) : Prop :=
  env.writes = [] ∧ env.storeLogs = true ∧ env.deleteRange = true

instance (env : Env) : Decidable env.Faultless :=
  inferInstanceAs (Decidable (_ ∧ _ ∧ _))

/-- A log future waiting in `inflight`. -/
structure LogFuture where
  id : Nat := 0
  log : Log
  deriving DecidableEq

/-- Where a replication goroutine stands: in one of its two selects, at a
`setupAppendEntries` call with the last index it read before, in a call, or gone.
`final` marks the best-effort round of a removed peer. -/
inductive ReplicationPC where
  | select
  | start (lastIndex : Nat) (final : Bool)
  | call (peer : Server) (lastIndex : Nat) (final : Bool) (req : AppendEntriesRequest)
  | snapshot (peer : Server) (lastIndex : Nat) (final : Bool) (req : InstallSnapshotRequest)
  | pipeline (peer : Server) (nextIndex : Nat)
  | pipelineSend (peer : Server) (nextIndex lastIndex : Nat)
  | done
  deriving DecidableEq

/-- `stopCh` is `some n` once the channel is closed, with `n` still to be read
from it (0 when nothing was sent). `inflight` are the pipelined requests whose
response has not been decoded, with the peer the pipeline was opened to. -/
structure FollowerReplication where
  peer : Server
  currentTerm : Nat
  nextIndex : Nat
  stopCh : Option Nat := none
  allowPipeline : Bool := false
  pc : ReplicationPC := .select
  inflight : List (Server × AppendEntriesRequest) := []
  deriving DecidableEq

/-- The state of one leadership. The goroutines keep their pointers to it after
the main thread has dropped it, so a server owns a list of these. `term` is the
term the leadership was set up in, which the source only keeps in the replication
states. -/
structure LeaderState where
  term : Nat
  commitment : Commitment
  inflight : List LogFuture := []
  replState : List FollowerReplication := []
  deriving DecidableEq

/-- A response channel of `electSelf`: the request sent, and the voters whose
answer has not been taken from the channel. -/
structure VoteChannel where
  req : RequestVoteRequest
  pending : List Server
  deriving DecidableEq

/-- The local variables of `runCandidate`. `votes` is the history of the voters
counted in `grantedVotes`. -/
structure Candidacy where
  term : Nat
  prevoteCh : Option (RequestPreVoteRequest × List Server) := none
  voteCh : Option VoteChannel := none
  preVoteGrantedVotes : Nat := 0
  preVoteRefusedVotes : Nat := 0
  grantedVotes : Nat := 0
  votesNeeded : Nat
  votes : List ServerID := []
  deriving DecidableEq

/-- Where the main goroutine stands: at the switch of `run`, at the start of one
of the three functions the switch calls, in `runLeader` before the no-op is
dispatched, or in the loop of one of the three. In a loop, `tested` says that the
loop condition has been tested and the select entered. -/
inductive MainThread where
  | run
  | call (state : RaftState)
  | noop
  | follower (tested : Bool)
  | candidate (locals : Candidacy) (tested : Bool)
  | leader (stepDown : Bool) (tested : Bool)
  deriving DecidableEq

/-- One server: its settings, its stores, and the memory of the running process.
`down` means that there is no process, after a crash or a panic. -/
structure Raft where
  conf : Config
  stable : StableStore := {}
  logs : LogStore := []
  snapshots : List Snapshot := []
  currentTerm : Nat := 0
  commitIndex : Nat := 0
  lastApplied : Nat := 0
  lastSnapshotIndex : Nat := 0
  lastSnapshotTerm : Nat := 0
  lastLogIndex : Nat := 0
  lastLogTerm : Nat := 0
  state : RaftState := .follower
  leaderAddr : ServerAddress := []
  leaderID : ServerID := []
  lastContact : Nat := 0
  configurations : Configurations := {}
  candidateFromLeadershipTransfer : Bool := false
  leaderships : List LeaderState := []
  main : MainThread := .run
  down : Bool := false
  deriving DecidableEq

/-- What the history of a run records: votes, elections, entries made, sent to the FSM
and committed. -/
inductive Event where
  /-- `requestVote` found the candidate's last entry at least as up to date. -/
  | voteChecked (term : Nat) (candidate : Bytes)
  /-- The server gave its vote, in an answer or to itself. -/
  | voteGranted (term : Nat) (candidate : Bytes)
  /-- `runCandidate` set the state to Leader. -/
  | becameLeader (term : Nat) (req : RequestVoteRequest) (votes : List ServerID)
      (latest : Configuration) (logs : LogStore)
  /-- `dispatchLogs` stored these entries. -/
  | dispatched (logs : List Log)
  /-- `processLogs` sent this entry to the FSM. -/
  | applied (log : Log)
  /-- `leaderLoop` set the commit index. -/
  | committed (term : Nat) (index : Nat)
  deriving DecidableEq

namespace Raft

def localID (r : Raft) : ServerID := r.conf.localID

def localAddr (r : Raft) : ServerAddress := r.conf.localAddr

def getRPCHeader (r : Raft) : RPCHeader :=
  { protocolVersion := r.conf.protocolVersion, id := r.conf.localID, addr := r.conf.localAddr }

/-- The last index in stable storage, from the last log or the last snapshot. -/
def getLastIndex (r : Raft) : Nat := max r.lastLogIndex r.lastSnapshotIndex

def getLastEntry (r : Raft) : Nat × Nat :=
  if r.lastSnapshotIndex ≤ r.lastLogIndex then (r.lastLogIndex, r.lastLogTerm)
  else (r.lastSnapshotIndex, r.lastSnapshotTerm)

def setLeader (r : Raft) (leaderAddr : ServerAddress) (leaderID : ServerID) : Raft :=
  { r with leaderAddr := leaderAddr, leaderID := leaderID }

/-- Any state transition clears the known leader. -/
def setState (r : Raft) (state : RaftState) : Raft :=
  { r.setLeader [] [] with state := state }

def setLastLog (r : Raft) (index term : Nat) : Raft :=
  { r with lastLogIndex := index, lastLogTerm := term }

def setLastSnapshot (r : Raft) (index term : Nat) : Raft :=
  { r with lastSnapshotIndex := index, lastSnapshotTerm := term }

def setLatestConfiguration (r : Raft) (c : Configuration) (i : Nat) : Raft :=
  { r with configurations := { r.configurations with latest := c, latestIndex := i } }

def setCommittedConfiguration (r : Raft) (c : Configuration) (i : Nat) : Raft :=
  { r with configurations := { r.configurations with committed := c, committedIndex := i } }

/-- The leadership the main thread is in, while it is in `runLeader`. -/
def leaderState? (r : Raft) : Option LeaderState :=
  match r.main with
  | .leader _ _ => r.leaderships.head?
  | _ => none

def modifyLeaderState (r : Raft) (f : LeaderState → LeaderState) : Raft :=
  { r with leaderships := r.leaderships.modifyHead f }

end Raft

end PerfRaft
