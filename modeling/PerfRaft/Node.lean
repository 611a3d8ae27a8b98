import PerfRaft.Lib.Transition
import PerfRaft.Replication

namespace PerfRaft

/-- What `preElectSelf` hears from a peer. A peer that does not know the command
counts as granting. -/
inductive PreVoteResult where
  | response (resp : RequestPreVoteResponse)
  | unsupported
  | failed

/-- What can happen next at one server. The main thread takes one select case, or
moves between its loops; the other goroutines and the transport act beside it. -/
inductive Input where
  | rpc (cmd : Command)
  | heartbeat (req : AppendEntriesRequest)
  | run
  | enter
  | loopTest
  | heartbeatTimer
  | preVote (voter : Server) (result : PreVoteResult)
  | vote (voter : Server) (result : CallResult RequestVoteResponse)
  | electionTimer
  | stepDown
  | apply (futures : List LogFuture)
  | configurationChange (req : ConfigurationChangeRequest) (future : Nat)
  | commit
  | replication (leadership goroutine : Nat) (input : ReplicationInput)
  | crash
  | restart

/-- The server after a step, the requests it has sent, its answer to the request
it was given, and what is recorded in the history. -/
structure Outcome where
  raft : Raft
  sends : List (Server × Command) := []
  response : Option Response := none
  events : List Event := []

/-- Whether the main thread waits in a select. -/
def MainThread.selecting : MainThread → Bool
  | .follower tested => tested
  | .candidate _ tested => tested
  | .leader _ tested => tested
  | _ => false

/-- A select case is over, the loop condition comes next. -/
def MainThread.again : MainThread → MainThread
  | .follower _ => .follower false
  | .candidate locals _ => .candidate locals false
  | .leader stepDown _ => .leader stepDown false
  | main => main

/-- A pre-vote taken from the channel is granted or refused. -/
def Candidacy.countPreVote (c : Candidacy) (req : RequestPreVoteRequest) (pending : List Server)
    (granted : Bool) : Candidacy :=
  { c with
    prevoteCh := some (req, pending)
    preVoteGrantedVotes := if granted then c.preVoteGrantedVotes + 1 else c.preVoteGrantedVotes
    preVoteRefusedVotes := if granted then c.preVoteRefusedVotes else c.preVoteRefusedVotes + 1 }

/-- A vote taken from the channel counts when it is granted. -/
def Candidacy.countVote (c : Candidacy) (ch : VoteChannel) (voter : Server) (granted : Bool) :
    Candidacy :=
  { c with
    voteCh := some { ch with pending := ch.pending.erase voter }
    grantedVotes := if granted then c.grantedVotes + 1 else c.grantedVotes
    votes := if granted then voter.id :: c.votes else c.votes }

namespace Raft

/-- The scan of `NewRaft` over the log for configuration entries. -/
def scanConfigurations (r : Raft) : List Nat → Option Raft
  | [] => some r
  | index :: rest =>
    match r.logs.getLog index with
    | none => none
    | some entry =>
      match r.processConfigurationLogEntry entry with
      | (_, false) => none
      | (r, true) => scanConfigurations r rest

/-- Of the newest snapshot: a start on an older one, after the newest could not be opened
or restored, counts as a failed start here and is that of `Storage.newRaft`. -/
def restoreSnapshot (r : Raft) (env : Env) : Option Raft :=
  match r.snapshots with
  | [] => some r
  | snapshot :: _ =>
    if env.restoreFSM = false then none
    else
      let m := snapshot.metadata
      let r := { r with lastApplied := m.index }
      let r := r.setLastSnapshot m.index m.term
      let r := r.setCommittedConfiguration m.configuration m.configurationIndex
      some (r.setLatestConfiguration m.configuration m.configurationIndex)

/-- The term of the last entry, as `NewRaft` reads it. -/
def lastTermOf (logs : LogStore) : Option Nat :=
  if 0 < logs.lastIndex then (logs.getLog logs.lastIndex).map Log.term else some 0

/-- `ValidateConfig`, of the settings that are modelled. -/
def validateConfig (config : Config) : Bool :=
  decide (1 ≤ config.protocolVersion) && decide (config.protocolVersion ≤ 3) &&
    decide (config.localID ≠ []) && decide (0 < config.maxAppendEntries) &&
    decide (config.maxAppendEntries ≤ 1024)

/-- `NewRaft` on existing stores; `none` when it fails. -/
def newRaft (conf : Config) (stable : StableStore) (logs : LogStore) (snapshots : List Snapshot)
    (env : Env) : Option Raft :=
  if validateConfig conf = false then none
  else if conf.protocolVersion < 3 ∧ conf.localID ≠ conf.localAddr then none
  else if env.writes.headD .ok ≠ .ok then none
  else
    match lastTermOf logs with
    | none => none
    | some lastLogTerm =>
      let r : Raft :=
        { conf := conf, stable := stable, logs := logs, snapshots := snapshots
          currentTerm := stable.currentTerm, lastLogIndex := logs.lastIndex
          lastLogTerm := lastLogTerm }
      match r.restoreSnapshot env with
      | none => none
      | some r =>
        r.scanConfigurations
          (List.range' (r.lastSnapshotIndex + 1) (logs.lastIndex - r.lastSnapshotIndex))

/-- Leaving `runCandidate` resets the leadership transfer flag. -/
def leaveCandidate (r : Raft) : Raft :=
  { r with main := .run, candidateFromLeadershipTransfer := false }

/-- `runCandidate` up to its loop. -/
def enterCandidate (r : Raft) (env : Env) : Outcome :=
  if r.conf.preVoteDisabled = false ∧ r.candidateFromLeadershipTransfer = false then
    let req := r.preVoteRequest
    let voters := r.configurations.latest.voters
    let locals : Candidacy :=
      { term := r.currentTerm + 1
        prevoteCh := some (req, voters)
        votesNeeded := r.configurations.latest.quorumSize }
    { raft := { r with main := .candidate locals false }
      sends := (voters.filter (fun s => s.id != r.localID)).map (fun s => (s, .requestPreVote req)) }
  else
    let (r', voteCh, sends, events) := r.electSelf env
    let locals : Candidacy :=
      { term := r.currentTerm + 1
        voteCh := voteCh
        votesNeeded := r'.configurations.latest.quorumSize }
    { raft := { r' with main := .candidate locals false }, sends := sends, events := events }

/-- `runLeader` up to the no-op. The replication goroutines are running then. -/
def enterLeader (r : Raft) : Raft :=
  { r.setupLeaderState.startStopReplication with main := .noop }

/-- `runLeader` dispatches its no-op and goes on to `leaderLoop`. -/
def dispatchNoop (r : Raft) (env : Env) : Outcome :=
  let (r, events) := r.dispatchLogs [{ log := { index := 0, term := 0, type := .logNoop } }] env
  { raft := { r with main := .leader false false }, events := events }

def enter (r : Raft) (env : Env) : Option Outcome :=
  match r.main with
  | .call .follower => some { raft := { r with main := .follower false } }
  | .call .candidate => some (r.enterCandidate env)
  | .call .leader => some { raft := r.enterLeader }
  | .noop => some (r.dispatchNoop env)
  | _ => none

/-- The loop condition of the three loops. -/
def loopTest (r : Raft) (env : Env) : Option Raft :=
  match r.main with
  | .follower false =>
    some { r with main := if r.state = .follower then .follower true else .run }
  | .candidate locals false =>
    some (if r.state = .candidate then { r with main := .candidate locals true }
      else r.leaveCandidate)
  | .leader stepDown false =>
    some (if r.state = .leader then { r with main := .leader stepDown true }
      else r.leaveLeader env)
  | _ => none

/-- The heartbeat timer of `runFollower` has expired without contact. -/
def heartbeatTimer (r : Raft) : Raft :=
  let r := r.setLeader [] []
  let latest := r.configurations.latest
  if r.configurations.latestIndex = 0 then { r with main := .follower false }
  else if r.configurations.latestIndex = r.configurations.committedIndex ∧
      hasVote latest r.localID = false then
    { r with main := .follower false }
  else if hasVote latest r.localID then { r.setState .candidate with main := .run }
  else { r with main := .follower false }

/-- Term and outcome of a pre-vote taken from the channel. -/
def preVoteAnswer (r : Raft) (req : RequestPreVoteRequest) (voter : Server) :
    PreVoteResult → Nat × Bool
  | .response resp => if voter.id = r.localID then (req.term, true) else (resp.term, resp.granted)
  | .unsupported => (req.term, true)
  | .failed => (req.term, voter.id = r.localID)

/-- The `prevoteCh` case of `runCandidate`. -/
def preVote (r : Raft) (c : Candidacy) (voter : Server) (result : PreVoteResult) (env : Env) :
    Option Outcome :=
  match c.prevoteCh with
  | none => none
  | some (req, pending) =>
    if voter ∈ pending then
      let (term, granted) := r.preVoteAnswer req voter result
      if c.term < term then
        some { raft := ((r.setState .follower).setCurrentTerm term env.writes).leaveCandidate }
      else
        let c := c.countPreVote req (pending.erase voter) granted
        if c.votesNeeded ≤ c.preVoteGrantedVotes then
          let (r, voteCh, sends, events) := r.electSelf env
          let c :=
            { c with
              prevoteCh := none, voteCh := voteCh
              preVoteGrantedVotes := 0, preVoteRefusedVotes := 0 }
          some { raft := { r with main := .candidate c false }, sends := sends, events := events }
        else some { raft := { r with main := .candidate c false } }
    else none

/-- Term and outcome of a vote taken from the channel; our own is granted. -/
def voteAnswer (r : Raft) (req : RequestVoteRequest) (voter : Server) :
    CallResult RequestVoteResponse → Nat × Bool
  | .response resp => if voter.id = r.localID then (req.term, true) else (resp.term, resp.granted)
  | .failed => (req.term, voter.id = r.localID)

/-- The `voteCh` case of `runCandidate`. -/
def vote (r : Raft) (c : Candidacy) (voter : Server) (result : CallResult RequestVoteResponse)
    (env : Env) : Option Outcome :=
  match c.voteCh with
  | none => none
  | some ch =>
    if voter ∈ ch.pending then
      let (term, granted) := r.voteAnswer ch.req voter result
      if r.currentTerm < term then
        some { raft := ((r.setState .follower).setCurrentTerm term env.writes).leaveCandidate }
      else
        let c := c.countVote ch voter granted
        if c.votesNeeded ≤ c.grantedVotes then
          some
            { raft := ((r.setState .leader).setLeader r.localAddr r.localID).leaveCandidate
              events := [.becameLeader r.currentTerm ch.req c.votes r.configurations.latest r.logs] }
        else some { raft := { r with main := .candidate c false } }
    else none

/-- The `applyCh` case of `leaderLoop`, with the futures gathered for one group
commit. -/
def apply (r : Raft) (stepDown : Bool) (futures : List LogFuture) (env : Env) : Outcome :=
  if stepDown then { raft := { r with main := .leader stepDown false } }
  else
    let (r, events) := r.dispatchLogs futures env
    { raft := { r with main := .leader stepDown false }, events := events }

/-- What `Apply` and `Barrier` put on `applyCh`, as many as one group takes. -/
def acceptsFutures (r : Raft) (futures : List LogFuture) : Bool :=
  !futures.isEmpty && decide (futures.length ≤ r.conf.maxAppendEntries + 1) &&
    futures.all (fun f => f.log.type == .logCommand || f.log.type == .logBarrier)

/-- One step of a running server. -/
def stepUp (r : Raft) (env : Env) : Input → Option Outcome
  | .rpc cmd =>
    if r.main.selecting then
      let (r, resp, events) := r.processRPC cmd env
      some
        { raft := { r with main := r.main.again }
          response := if r.down then none else some resp
          events := events }
    else none
  | .heartbeat req =>
    if r.state = .shutdown then none
    else
      let (r, resp, events) := r.appendEntries req env
      some { raft := r, response := if r.down then none else some resp, events := events }
  | .run =>
    if r.main = .run ∧ r.state ≠ .shutdown then some { raft := { r with main := .call r.state } }
    else none
  | .enter => r.enter env
  | .loopTest => (r.loopTest env).map (fun r => { raft := r })
  | .heartbeatTimer =>
    if r.main = .follower true then some { raft := r.heartbeatTimer } else none
  | .preVote voter result =>
    match r.main with
    | .candidate c true => r.preVote c voter result env
    | _ => none
  | .vote voter result =>
    match r.main with
    | .candidate c true => r.vote c voter result env
    | _ => none
  | .electionTimer =>
    match r.main with
    | .candidate _ true => some { raft := r.leaveCandidate }
    | _ => none
  | .stepDown =>
    match r.main with
    | .leader stepDown true =>
      some { raft := { r.setState .follower with main := .leader stepDown false } }
    | _ => none
  | .apply futures =>
    match r.main with
    | .leader stepDown true =>
      if r.acceptsFutures futures then some (r.apply stepDown futures env) else none
    | _ => none
  | .configurationChange req future =>
    match r.main with
    | .leader stepDown true =>
      if r.configurationChangeChIfStable then
        let (r, events) := r.appendConfigurationEntry req future env
        some { raft := { r with main := .leader stepDown false }, events := events }
      else none
    | _ => none
  | .commit =>
    match r.main, r.leaderships with
    | .leader stepDown true, ls :: _ =>
      if ls.commitment.commitCh then
        let (r, events) := r.leaderCommit ls stepDown
        some { raft := r, events := events }
      else none
    | _, _ => none
  | .replication k j input =>
    (r.replicate k j input).map (fun (r, sends) => { raft := r, sends := sends })
  | .crash => some { raft := { r with down := true } }
  | .restart => none

/-- One step of a server; without a process only a restart is possible. -/
def step (r : Raft) (input : Input) (env : Env) : Option Outcome :=
  if r.down then
    match input with
    | .restart =>
      (newRaft r.conf r.stable r.logs r.snapshots env).map (fun r => { raft := r })
    | _ => none
  else r.stepUp env input

end Raft

/-- One server with all that has happened at it. -/
structure ServerRun where
  raft : Raft
  history : List Event := []

def ServerRun.step (s : ServerRun) (a : Input × Env) : Option ServerRun :=
  (s.raft.step a.1 a.2).map (fun o => ⟨o.raft, o.events ++ s.history⟩)

/-- The runs of one server, whatever it receives, started on any stores in which
no vote is recorded. -/
def serverSystem : Lib.System ServerRun (Input × Env) where
  init := fun s => ∃ conf currentTerm logs snapshots,
    s = ⟨{ conf := conf, stable := { currentTerm := currentTerm }, logs := logs
           snapshots := snapshots, down := true }, []⟩
  step := ServerRun.step

end PerfRaft
