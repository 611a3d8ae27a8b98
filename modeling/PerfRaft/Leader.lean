import PerfRaft.Snapshot

namespace PerfRaft.Raft

/-- `setupLeaderState`; the new leadership becomes the first of the list. -/
def setupLeaderState (r : Raft) : Raft :=
  { r with
    leaderships :=
      { term := r.currentTerm
        commitment := newCommitment r.configurations.latest (r.getLastIndex + 1) } :: r.leaderships }

/-- The first loop of `startStopReplication`, for one server: start a goroutine
for a new peer, or note the new address of a known one. -/
def startReplication (r : Raft) (repl : List FollowerReplication) (server : Server) :
    List FollowerReplication :=
  if server.id = r.localID then repl
  else if repl.any (fun s => s.stopCh.isNone && s.peer.id == server.id) then
    repl.map (fun s =>
      if s.stopCh.isNone ∧ s.peer.id = server.id ∧ s.peer.address ≠ server.address then
        { s with peer := server }
      else s)
  else
    repl ++ [{ peer := server, currentTerm := r.currentTerm, nextIndex := r.getLastIndex + 1 }]

/-- The second loop: a peer that has left the configuration is to be replicated
to up to the last index and then stopped. -/
def stopReplication (r : Raft) (s : FollowerReplication) : FollowerReplication :=
  if s.stopCh.isNone ∧
      (r.configurations.latest.servers.any
        (fun server => server.id != r.localID && server.id == s.peer.id)) = false then
    { s with stopCh := some r.getLastIndex }
  else s

def startStopReplication (r : Raft) : Raft :=
  r.modifyLeaderState (fun ls =>
    { ls with
      replState := (r.configurations.latest.servers.foldl r.startReplication ls.replState).map
        r.stopReplication })

/-- The loop of `dispatchLogs` that numbers and stamps the new entries. -/
def stampLogs (term now : Nat) : Nat → List LogFuture → List LogFuture
  | _, [] => []
  | lastIndex, f :: rest =>
    { f with log := { f.log with index := lastIndex + 1, term := term, appendedAt := now } } ::
      stampLogs term now (lastIndex + 1) rest

/-- `dispatchLogs`: store the entries, count them as stored here, and only then
move the last-entry cache. When the store fails the leader steps down. -/
def dispatchLogs (r : Raft) (applyLogs : List LogFuture) (env : Env) : Raft × List Event :=
  let stamped := stampLogs r.currentTerm env.now r.getLastIndex applyLogs
  let lastIndex := r.getLastIndex + applyLogs.length
  let logs := stamped.map LogFuture.log
  let r := r.modifyLeaderState (fun ls => { ls with inflight := ls.inflight ++ stamped })
  if env.storeLogs = false then (r.setState .follower, [])
  else
    let r := { r with logs := r.logs.storeLogs logs }
    let r := r.modifyLeaderState (fun ls =>
      { ls with commitment := ls.commitment.matchServer r.localID lastIndex })
    (r.setLastLog lastIndex r.currentTerm, [.dispatched logs])

/-- The entry `appendConfigurationEntry` builds, in the old format below protocol
version 2. -/
def configurationEntry (r : Raft) (configuration : Configuration) : Log :=
  if r.conf.protocolVersion < 2 then
    { index := 0, term := 0, type := .logRemovePeerDeprecated, data := encodePeers configuration }
  else
    { index := 0, term := 0, type := .logConfiguration, data := encodeConfiguration configuration }

/-- `appendConfigurationEntry`. The configuration is taken over whether or not the
entry could be stored. -/
def appendConfigurationEntry (r : Raft) (req : ConfigurationChangeRequest) (future : Nat)
    (env : Env) : Raft × List Event :=
  match nextConfiguration r.configurations.latest r.configurations.latestIndex req with
  | .error _ => (r, [])
  | .ok configuration =>
    let index := r.getLastIndex + 1
    let (r, events) := r.dispatchLogs [⟨future, r.configurationEntry configuration⟩] env
    let r := r.setLatestConfiguration configuration index
    let r := r.modifyLeaderState (fun ls =>
      { ls with commitment := ls.commitment.setConfiguration configuration })
    (r.startStopReplication, events)

/-- `configurationChangeChIfStable`: whether the channel is selected on. -/
def configurationChangeChIfStable (r : Raft) : Bool :=
  match r.leaderState? with
  | none => false
  | some ls =>
    decide (r.configurations.latestIndex = r.configurations.committedIndex) &&
      decide (ls.commitment.startIndex ≤ r.commitIndex)

/-- The futures at the front of `inflight` that are committed. -/
def groupReady (ls : LeaderState) (commitIndex : Nat) : List LogFuture :=
  ls.inflight.takeWhile (fun f => decide (f.log.index ≤ commitIndex))

/-- Take over the commit index of the commitment, and the latest configuration as
committed when it is covered; the second component says that it lacks our vote. -/
def setLeaderCommit (r : Raft) (commitIndex : Nat) : Raft × Bool :=
  let oldCommitIndex := r.commitIndex
  let r := { r with commitIndex := commitIndex }
  if oldCommitIndex < r.configurations.latestIndex ∧ r.configurations.latestIndex ≤ commitIndex then
    let r := r.setCommittedConfiguration r.configurations.latest r.configurations.latestIndex
    (r, !hasVote r.configurations.committed r.localID)
  else (r, false)

def processGroup (r : Raft) (group : List LogFuture) : Raft × Processed :=
  match group.getLast? with
  | none => (r, {})
  | some last => r.processLogs last.log.index group

/-- The end of the `commitCh` case: a removed leader steps down. -/
def finishCommit (r : Raft) (stepDown : Bool) : Raft :=
  let r := { r with main := .leader stepDown false }
  if stepDown then r.setState (if r.conf.shutdownOnRemove then .shutdown else .follower) else r

/-- The `commitCh` case of `leaderLoop`. -/
def leaderCommit (r : Raft) (ls : LeaderState) (stepDown : Bool) : Raft × List Event :=
  let commitIndex := ls.commitment.commitIndex
  let group := groupReady ls commitIndex
  let (r, removed) := r.setLeaderCommit commitIndex
  let r := r.modifyLeaderState (fun ls =>
    { ls with
      commitment := { ls.commitment with commitCh := false }
      inflight := ls.inflight.drop group.length })
  let (r, p) := r.processGroup group
  (r.finishCommit (stepDown || removed), .committed ls.term commitIndex :: p.events)

/-- The clean-up of `runLeader` on step-down: the replication goroutines are told
to stop, and the leadership is dropped by the main thread. -/
def leaveLeader (r : Raft) (env : Env) : Raft :=
  let r : Raft := { r with lastContact := env.now, main := .run }
  let r : Raft := r.modifyLeaderState (fun ls =>
    { ls with
      inflight := []
      replState := ls.replState.map (fun s =>
        if s.stopCh.isNone then { s with stopCh := some 0 } else s) })
  if r.leaderAddr = r.localAddr ∧ r.leaderID = r.localID then r.setLeader [] [] else r

end PerfRaft.Raft
