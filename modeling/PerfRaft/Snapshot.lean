import PerfRaft.AppendEntries

namespace PerfRaft

/-- The snapshot store lists the newest snapshot first. -/
def addSnapshot (s : Snapshot) : List Snapshot → List Snapshot
  | [] => [s]
  | t :: rest =>
    if s.metadata.term < t.metadata.term ∨
        (s.metadata.term = t.metadata.term ∧ s.metadata.index < t.metadata.index) then
      t :: addSnapshot s rest
    else s :: t :: rest

namespace Raft

def compactLogsWithTrailing (r : Raft) (snapIdx lastLogIdx trailingLogs : Nat) (env : Env) : Raft :=
  let minLog := r.logs.firstIndex
  if lastLogIdx ≤ trailingLogs then r
  else
    let maxLog := min snapIdx (lastLogIdx - trailingLogs)
    if maxLog < minLog then r
    else if env.deleteRange = false then r
    else { r with logs := r.logs.deleteRange minLog maxLog }

def compactLogs (r : Raft) (snapIdx : Nat) (env : Env) : Raft :=
  r.compactLogsWithTrailing snapIdx r.lastLogIndex r.conf.trailingLogs env

def removeOldLogs (r : Raft) (env : Env) : Raft :=
  r.compactLogsWithTrailing r.logs.lastIndex r.logs.lastIndex 0 env

/-- `shouldSnapshot`, with the difference of the indexes as the code computes it. -/
def shouldSnapshot (r : Raft) (snapshotThreshold : UInt64) : Bool :=
  let lastSnap := UInt64.ofNat r.lastSnapshotIndex
  let lastIdx := UInt64.ofNat r.logs.lastIndex
  let delta := lastIdx - lastSnap
  decide (snapshotThreshold ≤ delta)

/-- The configuration an InstallSnapshot request carries, with its index. -/
def requestConfiguration (req : InstallSnapshotRequest) : Option (Configuration × Nat) :=
  if 0 < req.snapshotVersion then
    (decodeConfiguration req.configuration).map (fun c => (c, req.configurationIndex))
  else (decodePeers req.peers).map (fun c => (c, req.lastLogIndex))

/-- What `installSnapshot` does once the snapshot has been written and restored. -/
def restored (r : Raft) (req : InstallSnapshotRequest) (configuration : Configuration)
    (index : Nat) (env : Env) : Raft :=
  let r := { r with lastApplied := req.lastLogIndex }
  let r := r.setLastSnapshot req.lastLogIndex req.lastLogTerm
  let r := r.setLatestConfiguration configuration index
  let r := r.setCommittedConfiguration configuration index
  if r.conf.monotonicLogs then r.removeOldLogs env else r.compactLogs req.lastLogIndex env

/-- The head of `installSnapshot`: take over a newer term and note the leader. The
state changes to follower only for a newer term. -/
def followSnapshot (r : Raft) (req : InstallSnapshotRequest) (env : Env) : Raft :=
  let r :=
    if r.currentTerm < req.term then (r.setState .follower).setCurrentTerm req.term env.writes
    else r
  if r.down then r
  else r.setLeader (if req.header.id ≠ [] then req.header.addr else req.leader) req.header.id

/-- The rest of `installSnapshot`: write the snapshot, restore it, and take over
what it stands for. -/
def receiveSnapshot (r : Raft) (req : InstallSnapshotRequest) (env : Env) : Raft × Bool :=
  match requestConfiguration req with
  | none =>
    -- `DecodeConfiguration` panics, `decodePeers` returns an error
    if 0 < req.snapshotVersion then ({ r with down := true }, false) else (r, false)
  | some (configuration, index) =>
    if env.createSink = false ∨ env.copySink = false ∨ req.reader.length ≠ req.size ∨
        env.closeSink = false then (r, false)
    else
      let snapshot : Snapshot :=
        { metadata :=
            { index := req.lastLogIndex, term := req.lastLogTerm, configuration := configuration
              configurationIndex := index, size := req.size }
          contents := req.reader }
      let r := { r with snapshots := addSnapshot snapshot r.snapshots }
      if env.restoreFSM = false then (r, false)
      else ({ r.restored req configuration index env with lastContact := env.now }, true)

def installSnapshot (r : Raft) (req : InstallSnapshotRequest) (env : Env) : Raft × Response :=
  if 1 < req.snapshotVersion then (r, .failed)
  else if req.term < r.currentTerm then (r, .installSnapshot { term := r.currentTerm })
  else
    let r := r.followSnapshot req env
    if r.down then (r, .failed)
    else
      match r.receiveSnapshot req env with
      | (r, false) => (r, .failed)
      | (r, true) => (r, .installSnapshot { term := req.term, success := true })

/-- `timeoutNow` makes a candidate of the server whatever it was before. -/
def timeoutNow (r : Raft) : Raft :=
  { (r.setLeader [] []).setState .candidate with candidateFromLeadershipTransfer := true }

/-- `checkRPCHeader`, with the supported versions 0 to 3. -/
def checkRPCHeader (r : Raft) (header : RPCHeader) : Bool :=
  decide (header.protocolVersion ≤ 3) && decide (r.conf.protocolVersion - 1 ≤ header.protocolVersion)

/-- `processRPC`, called from the main thread. -/
def processRPC (r : Raft) (cmd : Command) (env : Env) : Raft × Response × List Event :=
  if r.checkRPCHeader cmd.header = false then (r, .failed, [])
  else
    match cmd with
    | .appendEntries req => r.appendEntries req env
    | .requestVote req =>
      let (r, resp, events) := r.requestVote req env
      (r, .requestVote resp, events)
    | .requestPreVote req => (r, .requestPreVote (r.requestPreVote req), [])
    | .installSnapshot req =>
      let (r, resp) := r.installSnapshot req env
      (r, resp, [])
    | .timeoutNow _ => (r.timeoutNow, .timeoutNow, [])

end Raft

end PerfRaft
