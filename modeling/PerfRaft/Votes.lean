import PerfRaft.State

namespace PerfRaft.Raft

/-- One write to the stable store: the value reaches the disk or not, and the
process may die at it. -/
def write (r : Raft) (w : Write) (f : StableStore → StableStore) : Raft :=
  { r with
    stable := if w.applied then f r.stable else r.stable
    down := match w with
      | .crash _ => true
      | _ => r.down }

/-- The term is persisted to disk first; a failed write panics. -/
def setCurrentTerm (r : Raft) (t : Nat) (ws : List Write) : Raft :=
  let r := r.write (ws.headD .ok) (fun stable => { stable with currentTerm := t })
  if ws.headD .ok = .ok then { r with currentTerm := t } else { r with down := true }

/-- The vote is two separate writes, the term and then the candidate. An empty
candidate reads back as not found. -/
def persistVote (r : Raft) (term : Nat) (candidate : Bytes) (ws : List Write) : Raft × Bool :=
  let r := r.write (ws.headD .ok) (fun stable => { stable with lastVoteTerm := term })
  if ws.headD .ok ≠ .ok then (r, false)
  else
    let w := ws.tail.headD .ok
    let r := r.write w (fun stable =>
      { stable with lastVoteCand := if candidate = [] then none else some candidate })
    (r, w = .ok)

/-- The address a vote request is from. -/
def candidateBytes (req : RequestVoteRequest) : Bytes :=
  if req.header.addr ≠ [] then req.header.addr else req.candidate

/-- The last-entry comparison of both vote handlers: our last entry is not newer
than the candidate's. -/
def upToDate (r : Raft) (lastLogIndex lastLogTerm : Nat) : Bool :=
  let (lastIdx, lastTerm) := r.getLastEntry
  !(decide (lastLogTerm < lastTerm) ||
    (decide (lastTerm = lastLogTerm) && decide (lastLogIndex < lastIdx)))

/-- The end of `requestVote`, from the look at the recorded vote on. -/
def castVote (r : Raft) (req : RequestVoteRequest) (resp : RequestVoteResponse)
    (env : Env) (ws : List Write) : Raft × RequestVoteResponse × List Event :=
  if r.stable.lastVoteTerm = req.term ∧ r.stable.lastVoteCand.isSome then
    -- a duplicate request is granted again without looking at the log
    if r.stable.lastVoteCand = some (candidateBytes req) then
      (r, { resp with granted := true }, [.voteGranted req.term (candidateBytes req)])
    else (r, resp, [])
  else if !r.upToDate req.lastLogIndex req.lastLogTerm then (r, resp, [])
  else
    match r.persistVote req.term (candidateBytes req) ws with
    | (r, false) => (r, resp, [.voteChecked req.term (candidateBytes req)])
    | (r, true) => ({ r with lastContact := env.now }, { resp with granted := true },
        [.voteChecked req.term (candidateBytes req), .voteGranted req.term (candidateBytes req)])

/-- `requestVote`, with the response it hands to `rpc.Respond`. -/
def requestVote (r : Raft) (req : RequestVoteRequest) (env : Env) :
    Raft × RequestVoteResponse × List Event :=
  let resp : RequestVoteResponse :=
    { header := r.getRPCHeader
      term := r.currentTerm
      peers := if r.conf.protocolVersion < 2 then some (encodePeers r.configurations.latest) else none }
  let latest := r.configurations.latest
  if req.header.id ≠ [] ∧ latest.servers ≠ [] ∧ inConfiguration latest req.header.id = false then
    (r, resp, [])
  else if r.leaderAddr ≠ [] ∧ r.leaderAddr ≠ candidateBytes req ∧ req.leadershipTransfer = false then
    (r, resp, [])
  else if req.term < r.currentTerm then (r, resp, [])
  else
    let (r, resp, ws) :=
      if r.currentTerm < req.term then
        ((r.setState .follower).setCurrentTerm req.term env.writes,
          { resp with term := req.term }, env.writes.tail)
      else (r, resp, env.writes)
    if r.down then (r, resp, [])
    else if req.header.id ≠ [] ∧ latest.servers ≠ [] ∧ hasVote latest req.header.id = false then
      (r, resp, [])
    else r.castVote req resp env ws

/-- `requestPreVote` changes nothing but the answer. -/
def requestPreVote (r : Raft) (req : RequestPreVoteRequest) : RequestPreVoteResponse :=
  let resp : RequestPreVoteResponse := { header := r.getRPCHeader, term := r.currentTerm }
  let latest := r.configurations.latest
  if latest.servers ≠ [] ∧ inConfiguration latest req.header.id = false then resp
  else if r.leaderAddr ≠ [] ∧ r.leaderAddr ≠ req.header.addr then resp
  else if req.term < r.currentTerm then resp
  else
    let resp := if r.currentTerm < req.term then { resp with term := req.term } else resp
    if latest.servers ≠ [] ∧ hasVote latest req.header.id = false then resp
    else if !r.upToDate req.lastLogIndex req.lastLogTerm then resp
    else { resp with granted := true }

/-- The loop of `electSelf` over the servers: our own vote is persisted when the
loop comes to us, and a failure there ends the function with a nil channel while
the peers before us have been asked. -/
def askVoters (r : Raft) (req : RequestVoteRequest) (ws : List Write) :
    List Server → Raft × Bool × List Server × List Event
  | [] => (r, true, [], [])
  | server :: rest =>
    if server.suffrage ≠ .voter then askVoters r req ws rest
    else if server.id = r.localID then
      match r.persistVote req.term req.header.addr ws with
      | (r, false) => (r, false, [], [])
      | (r, true) =>
        let (r, ok, asked, events) := askVoters r req (ws.drop 2) rest
        (r, ok, asked, .voteGranted req.term req.header.addr :: events)
    else
      let (r, ok, asked, events) := askVoters r req ws rest
      (r, ok, server :: asked, events)

/-- The request `electSelf` builds, after the term has been raised. -/
def voteRequest (r : Raft) : RequestVoteRequest :=
  { header := r.getRPCHeader
    term := r.currentTerm
    candidate := r.localAddr
    lastLogIndex := r.getLastEntry.1
    lastLogTerm := r.getLastEntry.2
    leadershipTransfer := r.candidateFromLeadershipTransfer }

/-- `electSelf`, with the peers it asks. -/
def electSelf (r : Raft) (env : Env) :
    Raft × Option VoteChannel × List (Server × Command) × List Event :=
  let r := r.setCurrentTerm (r.currentTerm + 1) env.writes
  if r.down then (r, none, [], [])
  else
    let req := r.voteRequest
    let (r, ok, asked, events) := r.askVoters req env.writes.tail r.configurations.latest.servers
    let ch : VoteChannel := { req := req, pending := r.configurations.latest.voters }
    (r, if ok then some ch else none, asked.map (fun server => (server, .requestVote req)), events)

/-- The request of `preElectSelf`, which proposes the next term without changing
the state. -/
def preVoteRequest (r : Raft) : RequestPreVoteRequest :=
  { header := r.getRPCHeader
    term := r.currentTerm + 1
    lastLogIndex := r.getLastEntry.1
    lastLogTerm := r.getLastEntry.2 }

end PerfRaft.Raft
