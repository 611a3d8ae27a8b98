import PerfRaft.Node

namespace PerfRaft

/-- The server when the `commitCh` case of `leaderLoop` calls `processLogs`. -/
def Raft.takeGroup (r : Raft) (ls : LeaderState) : Raft :=
  let commitIndex := ls.commitment.commitIndex
  (r.setLeaderCommit commitIndex).1.modifyLeaderState (fun ls' =>
    { ls' with
      commitment := { ls'.commitment with commitCh := false }
      inflight := ls'.inflight.drop (groupReady ls commitIndex).length })

/-- What that call hands on. -/
def Raft.committedGroup (r : Raft) (ls : LeaderState) : Processed :=
  ((r.takeGroup ls).processGroup (groupReady ls ls.commitment.commitIndex)).2

/-- The entries `processLogs` goes through for a group, each from its future or from
the log store. -/
def Raft.groupLogs (r : Raft) (group : List LogFuture) : List Log :=
  match group.getLast? with
  | none => []
  | some last =>
    (List.range' (r.lastApplied + 1) (last.log.index - r.lastApplied)).filterMap (fun idx =>
      ((group.find? (fun f => f.log.index == idx)).map LogFuture.log).or (r.logs.getLog idx))

/-- The calls of `respond` on initialised futures, and those of them that reach the
client; `true` stands for nil. -/
structure Replies where
  attempts : List (Nat × Bool) := []
  answers : List (Nat × Bool) := []

namespace Replies

/-- The futures that have an answer. -/
def answered (q : Replies) : List Nat := q.answers.map Prod.fst

/-- `deferError.respond`: only the first answer is sent. A future is known by its
number; the one of the no-op is never initialised and has the number 0. -/
def respond (success : Bool) (q : Replies) (id : Nat) : Replies :=
  if id = 0 then q
  else
    { attempts := (id, success) :: q.attempts
      answers := if id ∈ q.answered then q.answers else (id, success) :: q.answers }

def respondAll (q : Replies) (success : Bool) (ids : List Nat) : Replies :=
  ids.foldl (respond success) q

end Replies

/-- One leadership, from `setupLeaderState` to the clean-up of `runLeader`, with the
FSM thread. `pushed` are the futures put on `inflight`, and `processed` the entries
`processLogs` has gone through. -/
structure Tenure where
  raft : Raft
  fsmMutateCh : List (List CommitTuple) := []
  fsmStopped : Bool := false
  left : Bool := false
  next : Nat := 1
  pushed : List LogFuture := []
  processed : List Log := []
  replies : Replies := {}

/-- What the main thread does in `runLeader`, a match reported by a replication
goroutine, a step-down in the select or by a heartbeat beside it, and the FSM thread. -/
inductive TenureAction where
  | noop (env : Env)
  | loopTest (env : Env)
  | apply (logs : List Log) (env : Env)
  | configurationChange (req : ConfigurationChangeRequest) (env : Env)
  | commit
  | matched (server : ServerID) (index : Nat)
  | stepDown (state : RaftState) (term : Nat)
  | heartbeat (term : Nat)
  | take
  | stopFSM

namespace Tenure

/-- The queue of the leadership. -/
def inflight (s : Tenure) : List LogFuture :=
  (s.raft.leaderships.head?.map LeaderState.inflight).getD []

/-- The commit index of the leadership. -/
def commitIndex (s : Tenure) : Nat :=
  (s.raft.leaderships.head?.map (fun ls => ls.commitment.commitIndex)).getD 0

def newFutures (s : Tenure) (logs : List Log) : List LogFuture :=
  logs.mapIdx (fun i log => ⟨s.next + i, log⟩)

/-- `dispatchLogs` has left the server as `raft`. -/
def dispatched (s : Tenure) (futures : List LogFuture) (raft : Raft) (env : Env) : Tenure :=
  let stamped := Raft.stampLogs s.raft.currentTerm env.now s.raft.getLastIndex futures
  { s with
    raft := raft
    pushed := s.pushed ++ stamped
    replies := if env.storeLogs = false then s.replies.respondAll false (futures.map LogFuture.id)
      else s.replies }

/-- The `applyCh` case. -/
def apply (s : Tenure) (stepDown : Bool) (futures : List LogFuture) (env : Env) : Tenure :=
  let raft := (s.raft.apply stepDown futures env).raft
  if stepDown then
    { s with raft := raft, replies := s.replies.respondAll false (futures.map LogFuture.id) }
  else s.dispatched futures raft env

/-- The `configurationChangeCh` case. -/
def configurationChange (s : Tenure) (stepDown : Bool) (req : ConfigurationChangeRequest)
    (future : Nat) (env : Env) : Tenure :=
  let raft := { (s.raft.appendConfigurationEntry req future env).1 with main := .leader stepDown false }
  match nextConfiguration s.raft.configurations.latest s.raft.configurations.latestIndex req with
  | .error _ => { s with raft := raft, replies := s.replies.respond false future }
  | .ok configuration =>
    s.dispatched [⟨future, s.raft.configurationEntry configuration⟩] raft env

/-- The `commitCh` case; a panic ends the process. -/
def commit (s : Tenure) (ls : LeaderState) (stepDown : Bool) : Option Tenure :=
  let p := s.raft.committedGroup ls
  if p.panicked then none
  else
    some
      { s with
        raft := (s.raft.leaderCommit ls stepDown).1
        fsmMutateCh := s.fsmMutateCh ++ p.batches
        processed := s.processed ++ s.raft.groupLogs (Raft.groupReady ls ls.commitment.commitIndex)
        replies := s.replies.respondAll true p.responded }

def step (s : Tenure) : TenureAction → Option Tenure
  | .noop env =>
    if s.raft.main = .noop then
      some (s.dispatched [{ log := { index := 0, term := 0, type := .logNoop } }]
        (s.raft.dispatchNoop env).raft env)
    else none
  | .loopTest env =>
    match s.raft.main with
    | .leader stepDown false =>
      if s.raft.state = .leader then
        some { s with raft := { s.raft with main := .leader stepDown true } }
      else
        some { s with
          raft := s.raft.leaveLeader env
          left := true
          replies := s.replies.respondAll false (s.inflight.map LogFuture.id) }
    | _ => none
  | .apply logs env =>
    match s.raft.main with
    | .leader stepDown true =>
      let futures := s.newFutures logs
      if s.raft.acceptsFutures futures then
        some ({ s with next := s.next + logs.length }.apply stepDown futures env)
      else none
    | _ => none
  | .configurationChange req env =>
    match s.raft.main with
    | .leader stepDown true =>
      if s.raft.configurationChangeChIfStable then
        some ({ s with next := s.next + 1 }.configurationChange stepDown req s.next env)
      else none
    | _ => none
  | .commit =>
    match s.raft.main, s.raft.leaderships with
    | .leader stepDown true, ls :: _ =>
      if ls.commitment.commitCh then s.commit ls stepDown else none
    | _, _ => none
  | .matched server index =>
    some { s with
      raft := s.raft.modifyLeaderState (fun ls =>
        { ls with commitment := ls.commitment.matchServer server index }) }
  | .stepDown state term =>
    match s.raft.main with
    | .leader stepDown true =>
      if state = .follower ∨ state = .candidate then
        some { s with
          raft := { s.raft.setState state with
            currentTerm := max s.raft.currentTerm term, main := .leader stepDown false } }
      else none
    | _ => none
  | .heartbeat term =>
    if s.raft.state = .shutdown then none
    else
      some { s with
        raft := { s.raft.setState .follower with currentTerm := max s.raft.currentTerm term } }
  | .take =>
    if s.fsmStopped then none
    else
      match s.fsmMutateCh with
      | [] => none
      | batch :: rest =>
        some { s with
          fsmMutateCh := rest
          replies := s.replies.respondAll true (batch.filterMap CommitTuple.future) }
  | .stopFSM =>
    -- the select of `runFSM` may take `shutdownCh` whatever else is ready
    if s.raft.state = .shutdown then some { s with fsmStopped := true } else none

/-- The leadership that `r` enters. -/
def system (r : Raft) : Lib.System Tenure TenureAction where
  init := fun s => r.state = .leader ∧ s = { raft := r.enterLeader }
  step := step

end Tenure

end PerfRaft
