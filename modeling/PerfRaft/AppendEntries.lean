import PerfRaft.Votes

namespace PerfRaft

/-- A log handed to the FSM, with the future to be answered for it. -/
structure CommitTuple where
  log : Log
  future : Option Nat
  deriving DecidableEq

/-- What `processLogs` does besides moving `lastApplied`: the batches sent to the
FSM, the futures answered at once, and whether it panicked on a missing log. -/
structure Processed where
  batches : List (List CommitTuple) := []
  responded : List Nat := []
  panicked : Bool := false
  deriving DecidableEq

def Processed.events (p : Processed) : List Event :=
  p.batches.flatten.map (fun t => .applied t.log)

namespace Raft

/-- `prepareLog`: barriers and commands go to the FSM, configurations only with
protocol version 3. -/
def prepareLog (r : Raft) (l : Log) (future : Option Nat) : Option CommitTuple :=
  match l.type with
  | .logBarrier | .logCommand => some ⟨l, future⟩
  | .logConfiguration => if 2 < r.conf.protocolVersion then some ⟨l, future⟩ else none
  | .logAddPeerDeprecated | .logRemovePeerDeprecated | .logNoop => none

/-- The loop of `processLogs` over the indexes still to be applied. -/
def processLoop (r : Raft) (futures : List LogFuture) :
    List Nat → List CommitTuple → Processed
  | [], batch => { batches := if batch = [] then [] else [batch] }
  | idx :: rest, batch =>
    let future := futures.find? (fun f => f.log.index == idx)
    match (future.map LogFuture.log).or (r.logs.getLog idx) with
    | none => { panicked := true }
    | some l =>
      match r.prepareLog l (future.map LogFuture.id) with
      | none =>
        let p := processLoop r futures rest batch
        { p with responded := (future.map LogFuture.id).toList ++ p.responded }
      | some t =>
        if r.conf.maxAppendEntries ≤ (batch ++ [t]).length then
          let p := processLoop r futures rest []
          { p with batches := (batch ++ [t]) :: p.batches }
        else processLoop r futures rest (batch ++ [t])

/-- `processLogs`, called with the futures of the leader or with none. -/
def processLogs (r : Raft) (index : Nat) (futures : List LogFuture) : Raft × Processed :=
  if index ≤ r.lastApplied then (r, {})
  else
    let p := r.processLoop futures (List.range' (r.lastApplied + 1) (index - r.lastApplied)) []
    if p.panicked then ({ r with down := true }, p) else ({ r with lastApplied := index }, p)

/-- `processConfigurationLogEntry`: the second component is false when the peers
of an old entry cannot be decoded. -/
def processConfigurationLogEntry (r : Raft) (entry : Log) : Raft × Bool :=
  let committed :=
    r.setCommittedConfiguration r.configurations.latest r.configurations.latestIndex
  match entry.type with
  | .logConfiguration =>
    match decodeConfiguration entry.data with
    | none => ({ committed with down := true }, false)
    | some configuration => (committed.setLatestConfiguration configuration entry.index, true)
  | .logAddPeerDeprecated | .logRemovePeerDeprecated =>
    match decodePeers entry.data with
    | none => (committed, false)
    | some configuration => (committed.setLatestConfiguration configuration entry.index, true)
  | _ => (r, true)

def processConfigurationLogEntries (r : Raft) : List Log → Raft × Bool
  | [] => (r, true)
  | entry :: rest =>
    match r.processConfigurationLogEntry entry with
    | (r, false) => (r, false)
    | (r, true) => processConfigurationLogEntries r rest

/-- The check of the previous entry. -/
def verifyPrevious (r : Raft) (a : AppendEntriesRequest) : Bool :=
  if a.prevLogEntry = 0 then true
  else
    let (lastIdx, lastTerm) := r.getLastEntry
    if a.prevLogEntry = lastIdx then a.prevLogTerm = lastTerm
    else
      match r.logs.getLog a.prevLogEntry with
      | none => false
      | some prevLog => a.prevLogTerm = prevLog.term

/-- The loop that deletes conflicting entries and skips duplicates: the server
after it and the entries still to be stored, or `none` when it gives up. -/
def newEntries (r : Raft) (lastLogIdx : Nat) (env : Env) : List Log → Option (Raft × List Log)
  | [] => some (r, [])
  | entry :: rest =>
    if lastLogIdx < entry.index then some (r, entry :: rest)
    else
      match r.logs.getLog entry.index with
      | none => none
      | some storeEntry =>
        if entry.term ≠ storeEntry.term then
          if env.deleteRange = false then none
          else
            let r := { r with logs := r.logs.deleteRange entry.index lastLogIdx }
            let r :=
              if entry.index ≤ r.configurations.latestIndex then
                r.setLatestConfiguration r.configurations.committed r.configurations.committedIndex
              else r
            some (r, entry :: rest)
        else newEntries r lastLogIdx env rest

/-- The outcome of storing the entries of a request: an early return, an early
return with an error, or everything stored. -/
inductive Stored where
  | gaveUp (r : Raft)
  | failed (r : Raft)
  | stored (r : Raft)

/-- The part of `appendEntries` that processes new entries. -/
def storeEntries (r : Raft) (entries : List Log) (env : Env) : Stored :=
  match r.newEntries r.lastLogIndex env entries with
  | none => .gaveUp r
  | some (r, []) => .stored r
  | some (r, entry :: rest) =>
    if env.storeLogs = false then .gaveUp r
    else
      match { r with logs := r.logs.storeLogs (entry :: rest) }.processConfigurationLogEntries
          (entry :: rest) with
      | (r, false) => .failed r
      | (r, true) =>
        let last := (entry :: rest).getLast (List.cons_ne_nil _ _)
        .stored (r.setLastLog last.index last.term)

/-- The part of `appendEntries` that moves the commit index. -/
def followCommit (r : Raft) (leaderCommitIndex : Nat) : Raft × List Event :=
  if 0 < leaderCommitIndex ∧ r.commitIndex < leaderCommitIndex then
    let idx := min leaderCommitIndex r.getLastIndex
    let r := { r with commitIndex := idx }
    let r :=
      if r.configurations.latestIndex ≤ idx then
        r.setCommittedConfiguration r.configurations.latest r.configurations.latestIndex
      else r
    let (r, p) := r.processLogs idx []
    (r, p.events)
  else (r, [])

/-- The head of `appendEntries`: take over a newer term, leave the candidate or
leader state, and note the leader. -/
def followLeader (r : Raft) (a : AppendEntriesRequest) (env : Env) : Raft :=
  let r :=
    if r.currentTerm < a.term ∨
        (r.state ≠ .follower ∧ r.candidateFromLeadershipTransfer = false) then
      (r.setState .follower).setCurrentTerm a.term env.writes
    else r
  if r.down then r
  else r.setLeader (if a.header.addr ≠ [] then a.header.addr else a.leader) a.header.id

/-- `appendEntries`. The response is `failed` when it goes out with an error. -/
def appendEntries (r : Raft) (a : AppendEntriesRequest) (env : Env) :
    Raft × Response × List Event :=
  let resp : AppendEntriesResponse :=
    { header := r.getRPCHeader, term := r.currentTerm, lastLog := r.getLastIndex }
  if a.term < r.currentTerm then (r, .appendEntries resp, [])
  else
    let resp := { resp with term := a.term }
    let r := r.followLeader a env
    if r.down then (r, .failed, [])
    else if r.verifyPrevious a = false then
      (r, .appendEntries { resp with noRetryBackoff := true }, [])
    else
      match r.storeEntries a.entries env with
      | .gaveUp r => (r, .appendEntries resp, [])
      | .failed r => (r, .failed, [])
      | .stored r =>
        let (r, events) := r.followCommit a.leaderCommitIndex
        ({ r with lastContact := env.now }, .appendEntries { resp with success := true }, events)

end Raft

end PerfRaft
