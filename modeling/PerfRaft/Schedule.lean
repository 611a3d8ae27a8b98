import PerfRaft.Process

namespace PerfRaft

namespace Cluster

/-- The server `id` takes a step that needs nothing from the network. -/
def act (id : ServerID) (input : Input) : Cluster → Action := fun _ => { node := id, input := input }

/-- The requests sent to `id`, the newest first. -/
def inbox (c : Cluster) (id : ServerID) : List Command :=
  (c.network.filter (fun e => decide (e.dest = (c.nodes id).localAddr))).map Envelope.command

/-- `id` handles a request of its inbox on its main thread. -/
def deliver (id : ServerID) (k : Nat) : Cluster → Action := fun c =>
  match (c.inbox id)[k]? with
  | some cmd => { node := id, input := .rpc cmd }
  | none => { node := id, input := .restart }

/-- `id` handles a request of its inbox as a heartbeat. -/
def heartbeat (id : ServerID) (k : Nat) : Cluster → Action := fun c =>
  match (c.inbox id)[k]? with
  | some (.appendEntries req) => { node := id, input := .heartbeat req }
  | _ => { node := id, input := .restart }

def answerTo (c : Cluster) (server : ServerAddress) (cmd : Command) : Option Response :=
  (c.replies.find? (fun e => decide (e.server = server) && decide (e.command = cmd))).map
    Reply.response

/-- `id` takes the vote of `voter` from its channel. -/
def countVote (id : ServerID) (voter : Server) : Cluster → Action := fun c =>
  match (c.nodes id).main with
  | .candidate locals _ =>
    match locals.voteCh.bind (fun ch => c.answerTo voter.address (.requestVote ch.req)) with
    | some (.requestVote resp) => { node := id, input := .vote voter (.response resp) }
    | _ => { node := id, input := .vote voter .failed }
  | _ => { node := id, input := .restart }

/-- `id` takes the pre-vote of `voter` from its channel. -/
def countPreVote (id : ServerID) (voter : Server) : Cluster → Action := fun c =>
  match (c.nodes id).main with
  | .candidate locals _ =>
    match locals.prevoteCh.bind (fun ch => c.answerTo voter.address (.requestPreVote ch.1)) with
    | some (.requestPreVote resp) => { node := id, input := .preVote voter (.response resp) }
    | _ => { node := id, input := .preVote voter .failed }
  | _ => { node := id, input := .restart }

/-- The goroutine `j` of the leadership `k` at `id` gets the answer to its call. -/
def hear (id : ServerID) (k j : Nat) : Cluster → Action := fun c =>
  match ((c.nodes id).leaderships[k]?).bind (fun ls => ls.replState[j]?) with
  | some s =>
    match s.pc with
    | .call peer _ _ req =>
      match c.answerTo peer.address (.appendEntries req) with
      | some (.appendEntries resp) =>
        { node := id, input := .replication k j (.reply (.response resp)) }
      | _ => { node := id, input := .replication k j (.reply .failed) }
    | _ => { node := id, input := .restart }
  | none => { node := id, input := .restart }

def goroutine (id : ServerID) (k j : Nat) (input : ReplicationInput) : Cluster → Action :=
  act id (.replication k j input)

/-- Start a server and let it wait in the follower loop. -/
def boot (id : ServerID) : List (Cluster → Action) :=
  [act id .restart, act id .run, act id .enter, act id .loopTest]

/-- `id` handles a request and waits in its select again. -/
def handle (id : ServerID) (k : Nat) : List (Cluster → Action) :=
  [deliver id k, act id .loopTest]

/-- From the select of the follower loop to that of an election, without pre-vote,
with the own vote counted. -/
def campaign (self : Server) : List (Cluster → Action) :=
  [act self.id .heartbeatTimer, act self.id .run, act self.id .enter, act self.id .loopTest,
    countVote self.id self, act self.id .loopTest]

/-- The election timer starts another election. -/
def recampaign (self : Server) : List (Cluster → Action) :=
  [act self.id .electionTimer, act self.id .run, act self.id .enter, act self.id .loopTest,
    countVote self.id self, act self.id .loopTest]

/-- From the end of an election to the select of the leader loop. -/
def lead (id : ServerID) : List (Cluster → Action) :=
  [act id .run, act id .enter, act id .enter, act id .loopTest]

end Cluster

/-- A voter whose address is its ID. -/
def voterNamed (name : UInt8) : Server := ⟨.voter, [name], [name]⟩

/-- A cluster bootstrapped on every server, in which each server's address is its
ID. -/
def namedDeployment (conf : Config) (servers : List Server)
    (hcheck : checkConfiguration ⟨servers⟩ = .ok ()) (hversion : conf.protocolVersion = 3)
    (haddr : ∀ s ∈ servers, s.address = s.id) : Deployment where
  conf := fun id => { conf with localID := id, localAddr := id }
  bootstrapped := fun _ => true
  entry := { index := 1, term := 1, type := .logConfiguration, data := encodeConfiguration ⟨servers⟩ }
  configuration := ⟨servers⟩
  localID := fun _ => rfl
  localAddr := fun _ _ h => h
  named := fun _ h => h
  bootstrap := ⟨⟨servers⟩, fun _ _ => by simp [bootstrapEntry, hversion]⟩
  entry_index := rfl
  entry_term := rfl
  entry_configuration := rfl
  checked := hcheck
  addresses := haddr

theorem checked_three :
    checkConfiguration ⟨[voterNamed 65, voterNamed 66, voterNamed 67]⟩ = .ok () := by
  decide

theorem address_three :
    ∀ s ∈ [voterNamed 65, voterNamed 66, voterNamed 67], s.address = s.id := by
  decide

/-- Three servers without pre-vote. -/
def threeServers : Deployment :=
  namedDeployment { localID := [], localAddr := [], preVoteDisabled := true }
    [voterNamed 65, voterNamed 66, voterNamed 67] checked_three rfl address_three

/-- The only voter of a cluster, before its first start. -/
def loneStart : ServerRun :=
  ⟨{ conf := { localID := [65], localAddr := [65], preVoteDisabled := true }
     stable := { currentTerm := 1 }
     logs := [{ index := 1, term := 1, type := .logConfiguration
                data := encodeConfiguration ⟨[voterNamed 65]⟩ }]
     down := true }, []⟩

/-- It starts, times out and counts its own vote. -/
def loneElection : List (ServerRun → Input × Env) :=
  [.restart, .run, .enter, .loopTest, .heartbeatTimer, .run, .enter, .loopTest,
    .vote (voterNamed 65) .failed].map (fun input _ => (input, {}))

/-- One of two voters, before its first start. -/
def pairStart : ServerRun :=
  ⟨{ loneStart.raft with
     logs := [{ index := 1, term := 1, type := .logConfiguration
                data := encodeConfiguration ⟨[voterNamed 65, voterNamed 66]⟩ }] }, []⟩

/-- The leader `B` adds the voter `C`. -/
def addsC : Input :=
  .rpc (.appendEntries
    { header := { id := [66], addr := [66] }, term := 2, prevLogEntry := 1, prevLogTerm := 1
      entries := [{ index := 2, term := 2, type := .logConfiguration
                    data := encodeConfiguration ⟨[voterNamed 65, voterNamed 66, voterNamed 67]⟩ }] })

/-- After that and `requests`, the server hears no more of `B`, and `C` votes for it in
the given term. -/
def electedByNewcomer (requests : List Input) (term : Nat) : List (ServerRun → Input × Env) :=
  ([Input.restart, .run, .enter, .loopTest, addsC, .loopTest] ++ requests ++
    [Input.heartbeatTimer, .run, .enter, .loopTest, .vote (voterNamed 65) .failed, .loopTest,
      .vote (voterNamed 67) (.response { header := {}, term := term, granted := true })]).map
    (fun input _ => (input, ({} : Env)))

/-- A server of the given configuration that has just won the election of term 2. -/
def newLeader (servers : List Server) : Raft :=
  { conf := { localID := [65], localAddr := [65] }
    stable := { currentTerm := 2, lastVoteTerm := 2, lastVoteCand := some [65] }
    logs := [{ index := 1, term := 1, type := .logConfiguration
               data := encodeConfiguration ⟨servers⟩ }]
    currentTerm := 2
    lastLogIndex := 1
    lastLogTerm := 1
    state := .leader
    leaderAddr := [65]
    leaderID := [65]
    configurations :=
      { committed := ⟨servers⟩, committedIndex := 1, latest := ⟨servers⟩, latestIndex := 1 } }

theorem length_counted (n : Nat) (logs : List Log) :
    (List.range' (n + 1) logs.length).length = logs.length :=
  List.length_range'

/-- An FSM that counts its commands. -/
def counter : FSM Nat Nat where
  apply n _ := (n + 1, n + 1)
  applyBatch n logs := (n + logs.length, List.range' (n + 1) logs.length)
  storeConfiguration n _ _ := n
  restore _ contents := (contents.length, true)
  persist n := List.replicate n 0
  length_applyBatch := length_counted

namespace Process

/-- A server of a bootstrapped cluster before its first start, with an FSM that
counts. It keeps no trailing logs. -/
def countingStart (monotonicLogs : Bool) : Process Nat Nat where
  raft :=
    { conf := { localID := [65], localAddr := [65], trailingLogs := 0, monotonicLogs := monotonicLogs }
      stable := { currentTerm := 1 }
      logs := [{ index := 1, term := 1, type := .logConfiguration
                 data := encodeConfiguration ⟨[voterNamed 65, voterNamed 66]⟩ }]
      down := true }
  thread := { state := 0 }

theorem init_countingStart (monotonicLogs : Bool) :
    (system counter 0).init (countingStart monotonicLogs) := ⟨_, _, _, _, rfl⟩

/-- A server of three before its first start, without pre-vote. -/
def thirdStart : Process Nat Nat where
  raft :=
    { conf := { localID := [65], localAddr := [65], preVoteDisabled := true }
      stable := { currentTerm := 1 }
      logs := [{ index := 1, term := 1, type := .logConfiguration
                 data := encodeConfiguration ⟨[voterNamed 65, voterNamed 66, voterNamed 67]⟩ }]
      down := true }
  thread := { state := 0 }

theorem init_thirdStart : (system counter 0).init thirdStart := ⟨_, _, _, _, rfl⟩

/-- The main thread takes an input, with no fault. -/
def given (input : Input) : ProcessAction := .main (.input input) {}

/-- The server starts and enters the select of `runFollower`. -/
def booted : List ProcessAction := [given .restart, given .run, given .enter, given .loopTest]

/-- Commands from the leader `B` after the entry `prev`, with term 2. -/
def commandsFrom (prev prevTerm count commit : Nat) : List ProcessAction :=
  [given (.rpc (.appendEntries
    { header := { id := [66], addr := [66] }, term := 2, prevLogEntry := prev
      prevLogTerm := prevTerm
      entries := (List.range' (prev + 1) count).map (fun i => { index := i, term := 2, type := .logCommand })
      leaderCommitIndex := commit })), given .loopTest]

/-- A snapshot from the leader `B`. -/
def snapshotAt (index : Nat) : List ProcessAction :=
  [given (.rpc (.installSnapshot
    { header := { id := [66], addr := [66] }, term := 2, lastLogIndex := index, lastLogTerm := 2
      configuration := encodeConfiguration ⟨[voterNamed 65, voterNamed 66]⟩, configurationIndex := 1 })),
    given .loopTest]

/-- The same with DeleteRange failing. -/
def undeleted : ProcessAction → ProcessAction
  | .main work env => .main work { env with deleteRange := false }
  | a => a

/-- `takeSnapshot` from beginning to end. -/
def takeSnapshot : List ProcessAction :=
  [.snapshot, .configurations, given .loopTest, .persist {}, .setLastSnapshot, .compact {}]

/-- No store fails and the process does not die. -/
def Calm : ProcessAction → Prop
  | .main _ env | .persist env | .compact env => env = {}
  | .dies _ _ => False
  | _ => True

instance : DecidablePred Calm
  | .main _ env | .persist env | .compact env => inferInstanceAs (Decidable (env = {}))
  | .dies _ _ => isFalse id
  | .apply | .snapshot | .configurations | .setLastSnapshot => isTrue trivial

end Process

end PerfRaft
