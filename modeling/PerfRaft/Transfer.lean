import PerfRaft.Node

namespace PerfRaft

/-- The last index a request stands for: that of its last entry, or of the previous
one. -/
def AppendEntriesRequest.lastIndex (req : AppendEntriesRequest) : Nat :=
  (req.entries.getLast?.map Log.index).getD req.prevLogEntry

/-- The index up to which the peer acknowledges the log with what the goroutine hears. -/
def FollowerReplication.acknowledges (s : FollowerReplication) : ReplicationInput → Option Nat
  | .reply (.response resp) =>
    match s.pc with
    | .call _ _ _ req =>
      if req.term < resp.term ∨ resp.success = false then none else some req.lastIndex
    | _ => none
  | .snapshotReply (.response resp) =>
    match s.pc with
    | .snapshot _ _ _ req =>
      if req.term < resp.term ∨ resp.success = false then none else some req.lastLogIndex
    | _ => none
  | .decode resp =>
    match s.inflight with
    | (_, req) :: _ =>
      if req.term < resp.term ∨ resp.success = false then none else some req.lastIndex
    | [] => none
  | _ => none

/-- The position of the replication state that `replState` has for a server. -/
def LeaderState.replIndex? (ls : LeaderState) (id : ServerID) : Option Nat :=
  ls.replState.findIdx? (fun s => s.stopCh.isNone && s.peer.id == id)

namespace Raft

/-- The replication states of the newest leadership. -/
def replications (r : Raft) : List FollowerReplication :=
  (r.leaderships.head?.map LeaderState.replState).getD []

/-- The loop of `pickServer`, with the best next index so far. -/
def pickFrom (r : Raft) (ls : LeaderState) : List Server → Nat → Option Server → Option Server
  | [], _, pick => pick
  | server :: rest, current, pick =>
    if server.id = r.localID ∨ server.suffrage ≠ .voter then r.pickFrom ls rest current pick
    else
      match (ls.replIndex? server.id).bind (fun j => ls.replState[j]?) with
      | none => r.pickFrom ls rest current pick
      | some s =>
        if current < s.nextIndex then r.pickFrom ls rest s.nextIndex (some server)
        else r.pickFrom ls rest current pick

def pickServer (r : Raft) (ls : LeaderState) : Option Server :=
  r.pickFrom ls r.configurations.latest.servers 0 none

/-- `initiateLeadershipTransfer`, behind the two API calls: whether the request gets to
the main thread. -/
def acceptsTransfer (r : Raft) (target : Option (ServerID × ServerAddress)) : Bool :=
  decide (3 ≤ r.conf.protocolVersion) && target.all (fun t => t.1 != r.localID)

/-- The server to transfer to, with the position of its replication state. -/
def transferTarget (r : Raft) (ls : LeaderState) (target : Option (ServerID × ServerAddress)) :
    Option (ServerID × ServerAddress × Nat) :=
  match target.or ((r.pickServer ls).map (fun server => (server.id, server.address))) with
  | none => none
  | some (id, address) => (ls.replIndex? id).map (fun j => (id, address, j))

end Raft

/-- Where `leadershipTransfer` stands: at its first select, at the loop condition, in it
with the next index it has loaded, waiting for the replication it has triggered, at the
TimeoutNow call with the last index it has compared with, or at its end. -/
inductive TransferPC where
  | start
  | test
  | compare (nextIndex : Nat)
  | waiting
  | offer (lastIndex : Nat)
  | done
  deriving DecidableEq

/-- A `leadershipTransfer` goroutine with the replication state it was given, by
position. `stopped` says that its `stopCh` has been closed. -/
structure LeadershipTransfer where
  id : ServerID
  address : ServerAddress
  repl : Nat
  stopped : Bool := false
  pc : TransferPC := .start
  deriving DecidableEq

/-- One leadership with its transfers. `finishing` counts the goroutines that watch over
a transfer which has ended and have still to reset `leadershipTransferInProgress`. The
history has what each server has acknowledged, and for each replication state the last
index at the time it was set up. -/
structure Handover where
  raft : Raft
  inProgress : Bool := false
  finishing : Nat := 0
  transfers : List LeadershipTransfer := []
  acknowledged : List (ServerID × Nat) := []
  created : List Nat := []
  deriving DecidableEq

/-- What the main thread and the replication goroutines do, a request to transfer the
leadership, and the steps of the transfer and of its watcher: the `stopCh` is closed, the
goroutine goes on, it is told the outcome of the replication, it calls TimeoutNow, and the
flag is reset. -/
inductive HandoverAction where
  | input (input : Input) (env : Env)
  | transfer (target : Option (ServerID × ServerAddress))
  | stop (k : Nat)
  | run (k : Nat)
  | replicated (k : Nat) (ok : Bool)
  | offer (k : Nat)
  | settle

namespace Handover

def replState (s : Handover) : List FollowerReplication := s.raft.replications

/-- The steps of the server that belong to the leadership. -/
def belongs (r : Raft) : Input → Bool
  | .enter => decide (r.main = .noop)
  | .loopTest => decide (r.state = .leader)
  | .apply _ | .configurationChange _ _ | .commit => true
  | .replication k _ _ => decide (k = 0)
  | _ => false

/-- The cases of `leaderLoop` that are refused during a transfer. -/
def refusable : Input → Bool
  | .apply _ | .configurationChange _ _ => true
  | _ => false

/-- What a replication goroutine hears of its peer's log. -/
def heard (s : Handover) : Input → List (ServerID × Nat)
  | .replication _ j input =>
    match s.replState[j]? with
    | none => []
    | some f => (f.acknowledges input).toList.map (fun index => (f.peer.id, index))
  | _ => []

/-- A step of the server; new replication states are noted. -/
def proceed (s : Handover) (input : Input) (raft : Raft) : Handover :=
  let s' := { s with raft := raft, acknowledged := s.heard input ++ s.acknowledged }
  { s' with
    created := s.created ++
      List.replicate (s'.replState.length - s.created.length) raft.getLastIndex }

/-- The `leadershipTransferCh` case of `leaderLoop`. When there is nobody to transfer to
the watcher ends at once. -/
def transfer (s : Handover) (ls : LeaderState) (stepDown : Bool)
    (target : Option (ServerID × ServerAddress)) : Handover :=
  let s := { s with raft := { s.raft with main := .leader stepDown false } }
  if s.inProgress then s
  else
    match s.raft.transferTarget ls target with
    | none => { s with finishing := s.finishing + 1 }
    | some (id, address, j) =>
      { s with
        inProgress := true
        transfers := s.transfers ++ [{ id := id, address := address, repl := j }] }

/-- The goroutine ends, and its watcher comes to its end. -/
def ended (s : Handover) (k : Nat) (t : LeadershipTransfer) : Handover :=
  { s with
    transfers := s.transfers.set k { t with pc := .done }, finishing := s.finishing + 1 }

def move (s : Handover) (k : Nat) (t : LeadershipTransfer) (pc : TransferPC) : Handover :=
  { s with transfers := s.transfers.set k { t with pc := pc } }

/-- The goroutine goes on by itself. -/
def runTransfer (s : Handover) (k : Nat) (t : LeadershipTransfer) : Option Handover :=
  match t.pc with
  | .start => some (if t.stopped then s.ended k t else s.move k t .test)
  | .test =>
    (s.replState[t.repl]?).map (fun f => s.move k t (.compare f.nextIndex))
  | .compare nextIndex =>
    let lastIndex := s.raft.getLastIndex
    some (if nextIndex ≤ lastIndex then s.move k t .waiting else s.move k t (.offer lastIndex))
  | .waiting => if t.stopped then some (s.ended k t) else none
  | _ => none

def step (s : Handover) : HandoverAction → Option Handover
  | .input input env =>
    if belongs s.raft input = false then none
    else if s.inProgress && refusable input then
      -- the future is answered with ErrLeadershipTransferInProgress
      match s.raft.main with
      | .leader stepDown true =>
        some { s with raft := { s.raft with main := .leader stepDown false } }
      | _ => none
    else (s.raft.stepUp env input).map (fun o => s.proceed input o.raft)
  | .transfer target =>
    match s.raft.main, s.raft.leaderships with
    | .leader stepDown true, ls :: _ =>
      if s.raft.acceptsTransfer target then some (s.transfer ls stepDown target) else none
    | _, _ => none
  | .stop k =>
    (s.transfers[k]?).map (fun t => { s with transfers := s.transfers.set k { t with stopped := true } })
  | .run k => (s.transfers[k]?).bind (s.runTransfer k)
  | .replicated k ok =>
    match s.transfers[k]? with
    | some t =>
      if t.pc = .waiting then some (if ok then s.move k t .test else s.ended k t) else none
    | none => none
  | .offer k =>
    match s.transfers[k]? with
    | some t =>
      match t.pc with
      | .offer _ => some (s.ended k t)
      | _ => none
    | none => none
  | .settle =>
    if 0 < s.finishing then some { s with inProgress := false, finishing := s.finishing - 1 } else none

/-- The leadership `r` enters. -/
def start (r : Raft) : Handover :=
  let s : Handover := { raft := r.enterLeader }
  { s with created := List.replicate s.replState.length r.getLastIndex }

/-- Every leadership of every server. -/
def system : Lib.System Handover HandoverAction where
  init := fun s => ∃ r : Raft, r.down = false ∧ r.state = .leader ∧ s = start r
  step := step

end Handover

end PerfRaft
