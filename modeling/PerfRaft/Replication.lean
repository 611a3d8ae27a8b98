import PerfRaft.Leader

namespace PerfRaft

/-- What a goroutine hears of its call. -/
inductive CallResult (α : Type) where
  | response (resp : α)
  | failed

/-- What a replication goroutine, or its pipeline decoder, does next. -/
inductive ReplicationInput where
  | trigger
  | stop
  | send
  | reply (result : CallResult AppendEntriesResponse)
  | snapshotReply (result : CallResult InstallSnapshotResponse)
  | decode (resp : AppendEntriesResponse)
  | pipelineEnd
  | heartbeat

namespace Raft

/-- The previous entry for the given next index: none before the first index, the
last snapshot, or an entry of the log. The log store is given by its GetLog. -/
def setPreviousLogFrom (r : Raft) (getLog : Nat → Option Log) (nextIndex : Nat) : Option (Nat × Nat) :=
  if nextIndex = 1 then some (0, 0)
  else if nextIndex - 1 = r.lastSnapshotIndex then some (r.lastSnapshotIndex, r.lastSnapshotTerm)
  else (getLog (nextIndex - 1)).map (fun l => (l.index, l.term))

def setPreviousLog (r : Raft) (nextIndex : Nat) : Option (Nat × Nat) :=
  r.setPreviousLogFrom r.logs.getLog nextIndex

/-- The indexes `setNewLogs` reads. -/
def newLogsRange (r : Raft) (nextIndex lastIndex : Nat) : List Nat :=
  let maxIndex := min (nextIndex + r.conf.maxAppendEntries - 1) lastIndex
  List.range' nextIndex (maxIndex + 1 - nextIndex)

def setNewLogsFrom (r : Raft) (getLog : Nat → Option Log) (nextIndex lastIndex : Nat) :
    Option (List Log) :=
  (r.newLogsRange nextIndex lastIndex).mapM getLog

def setNewLogs (r : Raft) (nextIndex lastIndex : Nat) : Option (List Log) :=
  r.setNewLogsFrom r.logs.getLog nextIndex lastIndex

/-- The term is that of the goroutine; the commit index and the log are those the
server has now. -/
def setupAppendEntriesFrom (r : Raft) (getLog : Nat → Option Log)
    (currentTerm nextIndex lastIndex : Nat) : Option AppendEntriesRequest :=
  match r.setPreviousLogFrom getLog nextIndex, r.setNewLogsFrom getLog nextIndex lastIndex with
  | some (prevLogEntry, prevLogTerm), some entries =>
    some
      { header := r.getRPCHeader
        term := currentTerm
        leader := r.localAddr
        prevLogEntry := prevLogEntry
        prevLogTerm := prevLogTerm
        entries := entries
        leaderCommitIndex := r.commitIndex }
  | _, _ => none

def setupAppendEntries (r : Raft) (currentTerm nextIndex lastIndex : Nat) :
    Option AppendEntriesRequest :=
  r.setupAppendEntriesFrom r.logs.getLog currentTerm nextIndex lastIndex

/-- The request of the heartbeat goroutine carries nothing but the term. -/
def heartbeatRequest (r : Raft) (s : FollowerReplication) : AppendEntriesRequest :=
  { header := r.getRPCHeader, term := s.currentTerm, leader := r.localAddr }

/-- The request `sendLatestSnapshot` sends for the most recent snapshot. -/
def snapshotRequest (r : Raft) (s : FollowerReplication) (snapshot : Snapshot) :
    InstallSnapshotRequest :=
  { header := r.getRPCHeader
    term := s.currentTerm
    leader := r.localAddr
    lastLogIndex := snapshot.metadata.index
    lastLogTerm := snapshot.metadata.term
    configuration := encodeConfiguration snapshot.metadata.configuration
    configurationIndex := snapshot.metadata.configurationIndex
    size := snapshot.metadata.size
    reader := snapshot.contents }

end Raft

namespace FollowerReplication

/-- `updateLastAppended`: the next index, and the match to be recorded. -/
def updateLastAppended (s : FollowerReplication) (req : AppendEntriesRequest) :
    FollowerReplication × Option Nat :=
  match req.entries.getLast? with
  | none => (s, none)
  | some last => ({ s with nextIndex := last.index + 1 }, some last.index)

/-- `replicateTo` has returned without asking to stop. -/
def replicated (s : FollowerReplication) (final : Bool) : FollowerReplication :=
  if final then { s with pc := .done }
  else if s.allowPipeline then { s with allowPipeline := false, pc := .pipeline s.peer s.nextIndex }
  else { s with pc := .select }

/-- From CHECK_MORE on. -/
def checkMore (s : FollowerReplication) (lastIndex : Nat) (final : Bool) : FollowerReplication :=
  if s.stopCh.isSome then { s with pc := .done }
  else if s.nextIndex ≤ lastIndex then { s with pc := .start lastIndex final }
  else s.replicated final

/-- `replicateTo` after its AppendEntries call has returned; with a newer term the
goroutine stops. -/
def appendReply (s : FollowerReplication) (lastIndex : Nat) (final : Bool)
    (req : AppendEntriesRequest) : CallResult AppendEntriesResponse → FollowerReplication × Option Nat
  | .failed => (s.replicated final, none)
  | .response resp =>
    if req.term < resp.term then ({ s with pc := .done }, none)
    else if resp.success then
      let (s, matched) := s.updateLastAppended req
      ({ s with allowPipeline := true }.checkMore lastIndex final, matched)
    else
      ({ s with nextIndex := max (min (s.nextIndex - 1) (resp.lastLog + 1)) 1 }.checkMore
        lastIndex final, none)

/-- `sendLatestSnapshot` after its call has returned, and what follows it. -/
def snapshotReply (s : FollowerReplication) (lastIndex : Nat) (final : Bool)
    (req : InstallSnapshotRequest) :
    CallResult InstallSnapshotResponse → FollowerReplication × Option Nat
  | .failed => (s.replicated final, none)
  | .response resp =>
    if req.term < resp.term then ({ s with pc := .done }, none)
    else if resp.success then
      ({ s with nextIndex := req.lastLogIndex + 1 }.checkMore lastIndex final, some req.lastLogIndex)
    else (s.checkMore lastIndex final, none)

/-- One response taken by `pipelineDecode`, which ends at the first one that is
not a success. -/
def pipelineDecode (s : FollowerReplication) (req : AppendEntriesRequest)
    (rest : List (Server × AppendEntriesRequest)) (resp : AppendEntriesResponse) :
    FollowerReplication × Option Nat :=
  if req.term < resp.term ∨ resp.success = false then ({ s with inflight := [] }, none)
  else { s with inflight := rest }.updateLastAppended req

end FollowerReplication

namespace Raft

/-- One step of a replication goroutine: its next state, the index to be recorded
as matched by the peer, and what it sends. -/
def replicationStep (r : Raft) (s : FollowerReplication) :
    ReplicationInput → Option (FollowerReplication × Option Nat × List (Server × Command))
  | .trigger =>
    match s.pc with
    | .select => some ({ s with pc := .start r.lastLogIndex false }, none, [])
    | .pipeline peer nextIndex =>
      some ({ s with pc := .pipelineSend peer nextIndex r.lastLogIndex }, none, [])
    | _ => none
  | .stop =>
    match s.pc, s.stopCh with
    | .select, some maxIndex =>
      if 0 < maxIndex then some ({ s with pc := .start maxIndex true, stopCh := some 0 }, none, [])
      else some ({ s with pc := .done }, none, [])
    | .pipeline peer nextIndex, some maxIndex =>
      if 0 < maxIndex then
        some ({ s with pc := .pipelineSend peer nextIndex maxIndex, stopCh := some 0 }, none, [])
      else some ({ s with pc := .select, inflight := [] }, none, [])
    | _, _ => none
  | .send =>
    match s.pc with
    | .start lastIndex final =>
      match r.setupAppendEntries s.currentTerm s.nextIndex lastIndex with
      | some req =>
        some ({ s with pc := .call s.peer lastIndex final req }, none, [(s.peer, .appendEntries req)])
      | none =>
        match r.snapshots with
        | [] => some (s.replicated final, none, [])
        | snapshot :: _ =>
          let req := r.snapshotRequest s snapshot
          some ({ s with pc := .snapshot s.peer lastIndex final req }, none,
            [(s.peer, .installSnapshot req)])
    | .pipelineSend peer nextIndex lastIndex =>
      match r.setupAppendEntries s.currentTerm nextIndex lastIndex with
      | some req =>
        some
          ({ s with
              pc := .pipeline peer ((req.entries.getLast?.map (fun last => last.index + 1)).getD nextIndex)
              inflight := s.inflight ++ [(peer, req)] },
            none, [(peer, .appendEntries req)])
      | none => some ({ s with pc := .select, inflight := [] }, none, [])
    | _ => none
  | .reply result =>
    match s.pc with
    | .call _ lastIndex final req =>
      let (s, matched) := s.appendReply lastIndex final req result
      some (s, matched, [])
    | _ => none
  | .snapshotReply result =>
    match s.pc with
    | .snapshot _ lastIndex final req =>
      let (s, matched) := s.snapshotReply lastIndex final req result
      some (s, matched, [])
    | _ => none
  | .decode resp =>
    match s.inflight with
    | [] => none
    | (_, req) :: rest =>
      let (s, matched) := s.pipelineDecode req rest resp
      some (s, matched, [])
  | .pipelineEnd =>
    match s.pc with
    | .pipeline _ _ | .pipelineSend _ _ _ => some ({ s with pc := .select, inflight := [] }, none, [])
    | _ => none
  | .heartbeat => some (s, none, [(s.peer, .appendEntries (r.heartbeatRequest s))])

/-- The goroutine `j` of the leadership `k` takes a step. -/
def replicate (r : Raft) (k j : Nat) (input : ReplicationInput) :
    Option (Raft × List (Server × Command)) := do
  let ls ← r.leaderships[k]?
  let s ← ls.replState[j]?
  let (s', matched, sends) ← r.replicationStep s input
  let ls :=
    { ls with
      replState := ls.replState.set j s'
      commitment := match matched with
        | none => ls.commitment
        | some index => ls.commitment.matchServer s.peer.id index }
  some ({ r with leaderships := r.leaderships.set k ls }, sends)

end Raft

end PerfRaft
