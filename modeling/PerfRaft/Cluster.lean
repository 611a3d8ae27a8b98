import PerfRaft.Node

namespace PerfRaft

/-- A request on its way. `leading` records whether the sender was the leader of
its current term, and the request of that term, when it was made. -/
structure Envelope where
  dest : ServerAddress
  command : Command
  leading : Bool := false
  deriving DecidableEq

/-- The answer a server has given to a request. -/
structure Reply where
  server : ServerAddress
  command : Command
  response : Response
  deriving DecidableEq

/-- The servers, every request ever sent and every answer ever given (so that each
may be lost, delayed, duplicated or reordered), and what has happened so far. -/
structure Cluster where
  nodes : ServerID → Raft
  network : List Envelope := []
  replies : List Reply := []
  history : List (ServerID × Event) := []

/-- One server takes one step. -/
structure Action where
  node : ServerID
  input : Input
  env : Env := {}

/-- Whether a transport with a heartbeat fast path takes it for this request. -/
def AppendEntriesRequest.isHeartbeat (req : AppendEntriesRequest) : Bool :=
  decide (req.term ≠ 0) && decide (req.header.addr ≠ [] ∨ req.leader ≠ []) &&
    decide (req.prevLogEntry = 0) && decide (req.prevLogTerm = 0) && req.entries.isEmpty &&
    decide (req.leaderCommitIndex = 0)

namespace Cluster

def sent (c : Cluster) (dest : ServerAddress) (cmd : Command) : Bool :=
  c.network.any (fun e => decide (e.dest = dest) && decide (e.command = cmd))

def answered (c : Cluster) (server : ServerAddress) (cmd : Command) (resp : Response) : Bool :=
  c.replies.any (fun e => decide (e = ⟨server, cmd, resp⟩))

/-- What the network allows to happen at a server: a request was sent to it, an
answer was given to it. Leadership transfers and the taking of snapshots are not
modelled, so TimeoutNow and InstallSnapshot may arrive at any time. -/
def deliverable (c : Cluster) (r : Raft) : Input → Bool
  | .rpc (.timeoutNow _) => true
  | .rpc (.installSnapshot _) => true
  | .rpc cmd => c.sent r.localAddr cmd
  | .heartbeat req => req.isHeartbeat && c.sent r.localAddr (.appendEntries req)
  | .preVote voter (.response resp) =>
    match r.main with
    | .candidate locals _ =>
      match locals.prevoteCh with
      | some (req, _) =>
        decide (voter.id = r.localID) ||
          c.answered voter.address (.requestPreVote req) (.requestPreVote resp)
      | none => false
    | _ => false
  | .vote voter (.response resp) =>
    match r.main with
    | .candidate locals _ =>
      match locals.voteCh with
      | some ch =>
        decide (voter.id = r.localID) ||
          c.answered voter.address (.requestVote ch.req) (.requestVote resp)
      | none => false
    | _ => false
  | .replication k j input =>
    match (r.leaderships[k]?).bind (fun ls => ls.replState[j]?) with
    | none => false
    | some s =>
      match input with
      | .reply (.response resp) =>
        match s.pc with
        | .call peer _ _ req => c.answered peer.address (.appendEntries req) (.appendEntries resp)
        | _ => false
      | .snapshotReply (.response resp) =>
        match s.pc with
        | .snapshot peer _ _ req =>
          c.answered peer.address (.installSnapshot req) (.installSnapshot resp)
        | _ => false
      | .decode resp =>
        match s.inflight with
        | (peer, req) :: _ => c.answered peer.address (.appendEntries req) (.appendEntries resp)
        | [] => false
      | _ => true
  | _ => true

/-- Whether a server leads the term of the request it makes. -/
def leads (r : Raft) : Command → Bool
  | .appendEntries req => decide (r.state = .leader) && decide (r.currentTerm = req.term)
  | _ => false

/-- The answer to a request goes to whoever made it. -/
def replyTo (r : Raft) : Input → Option Response → List Reply
  | .rpc cmd, some resp => [⟨r.localAddr, cmd, resp⟩]
  | .heartbeat req, some resp => [⟨r.localAddr, .appendEntries req, resp⟩]
  | _, _ => []

/-- The cluster after the outcome of a step at the server `id`. -/
def record (c : Cluster) (id : ServerID) (input : Input) (o : Outcome) : Cluster :=
  let r := c.nodes id
  { nodes := Function.update c.nodes id o.raft
    network := o.sends.map (fun (s, cmd) => ⟨s.address, cmd, leads r cmd⟩) ++ c.network
    replies := replyTo r input o.response ++ c.replies
    history := o.events.map (fun e => (id, e)) ++ c.history }

def step (c : Cluster) (a : Action) : Option Cluster :=
  if c.deliverable (c.nodes a.node) a.input then
    ((c.nodes a.node).step a.input a.env).map (c.record a.node a.input)
  else none

end Cluster

/-- The entry `BootstrapCluster` writes. -/
def bootstrapEntry (conf : Config) (configuration : Configuration) : Log :=
  if conf.protocolVersion < 3 then
    { index := 1, term := 1, type := .logRemovePeerDeprecated, data := encodePeers configuration }
  else
    { index := 1, term := 1, type := .logConfiguration, data := encodeConfiguration configuration }

/-- The settings of every server, and which servers have been bootstrapped with
`entry`, that is with `configuration`. Every server has an address, no two share
one, and the configuration has the right addresses. -/
structure Deployment where
  conf : ServerID → Config
  bootstrapped : ServerID → Bool
  entry : Log
  configuration : Configuration
  localID : ∀ id, (conf id).localID = id
  localAddr : ∀ id id', (conf id).localAddr = (conf id').localAddr → id = id'
  named : ∀ id, id ≠ [] → (conf id).localAddr ≠ []
  bootstrap : ∃ c, ∀ id, bootstrapped id = true → bootstrapEntry (conf id) c = entry
  entry_index : entry.index = 1
  entry_term : entry.term = 1
  entry_configuration : entry.configuration? = some configuration
  checked : checkConfiguration configuration = .ok ()
  addresses : ∀ s ∈ configuration.servers, s.address = (conf s.id).localAddr

namespace Deployment

/-- A server before its first start: its stores are empty or bootstrapped. -/
def server (d : Deployment) (id : ServerID) : Raft :=
  if d.bootstrapped id then
    { conf := d.conf id, stable := { currentTerm := 1 }, logs := [d.entry], down := true }
  else { conf := d.conf id, down := true }

def start (d : Deployment) : Cluster := { nodes := d.server }

/-- The runs of a deployment. -/
def system (d : Deployment) : Lib.System Cluster Action where
  init := fun c => c = d.start
  step := Cluster.step

end Deployment

end PerfRaft
