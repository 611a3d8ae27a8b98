import PerfRaft.Replication
import PerfRaft.Lib.Transition

namespace PerfRaft

/-- How a `verifyFuture` is answered. A nil answer is kept with the latest
configuration of that moment. -/
inductive VerifyAnswer where
  | confirmed (latest : Configuration)
  | notLeader
  | leadershipLost
  deriving DecidableEq

/-- `quorumSize` is zero until the main thread has started the verification, and
`notifyCh` tells whether the future is still to be sent to it. `called` is when
`VerifyLeader` was called. -/
structure VerifyFuture where
  called : Nat
  quorumSize : Nat := 0
  votes : Nat := 0
  notifyCh : Bool := false
  answer : Option VerifyAnswer := none
  deriving DecidableEq

namespace VerifyFuture

def respond (v : VerifyFuture) (answer : VerifyAnswer) : VerifyFuture :=
  if v.answer.isSome then v else { v with answer := some answer }

/-- The future after a vote, and whether it is sent on its channel. -/
def vote (v : VerifyFuture) (leader : Bool) : VerifyFuture × Bool :=
  if v.notifyCh = false then (v, false)
  else if leader then
    if v.quorumSize ≤ v.votes + 1 then ({ v with votes := v.votes + 1, notifyCh := false }, true)
    else ({ v with votes := v.votes + 1 }, false)
  else ({ v with notifyCh := false }, true)

end VerifyFuture

inductive RequestKind where
  | heartbeat | appendEntries | pipelined | installSnapshot
  deriving DecidableEq

structure SentRequest where
  kind : RequestKind
  sent : Nat
  deriving DecidableEq

/-- What the responses to AppendEntries and to InstallSnapshot have in common. -/
structure FollowerResponse where
  term : Nat
  success : Bool
  deriving DecidableEq

def CallResult.succeeded : CallResult FollowerResponse → Bool
  | .response resp => resp.success
  | .failed => false

/-- What a `followerReplication` keeps for the verifications: the futures to be
resolved at the next acknowledgement, by number, and the requests on their way. -/
structure NotifiedFollower where
  peer : Server
  currentTerm : Nat
  notify : List Nat := []
  outstanding : List SentRequest := []
  stopped : Bool := false
  deriving DecidableEq

/-- What the goroutine that gets an answer passes to `notifyAll`, if it calls it. -/
def NotifiedFollower.stillLeader (s : NotifiedFollower) :
    RequestKind → CallResult FollowerResponse → Option Bool
  | _, .failed => none
  | .heartbeat, .response resp => some resp.success
  | _, .response resp =>
    if s.currentTerm < resp.term then some false else if resp.success then some true else none

/-- A vote that `notifyAll` is yet to submit. -/
structure Ballot where
  future : Nat
  peer : ServerID
  leader : Bool
  deriving DecidableEq

/-- Where the main thread stands: outside `runLeader`, at the test of `leaderLoop`, or
in its select. -/
inductive LeaderPoint where
  | outside | loopTest | select
  deriving DecidableEq

/-- The leadership verifications of one server. `followers` are the replication
states of all leaderships, those of `replState` being the ones not stopped;
`answered` are the successful answers, with the time their request was sent. -/
structure Verification where
  localID : ServerID
  latest : Configuration := {}
  state : RaftState := .follower
  point : LeaderPoint := .outside
  followers : List NotifiedFollower := []
  notify : List Nat := []
  verifyCh : List Nat := []
  futures : List VerifyFuture := []
  ballots : List Ballot := []
  clock : Nat := 0
  answered : List (ServerID × Nat) := []
  deriving DecidableEq

inductive VerifyAction where
  | verifyLeader
  | lead (term : Nat)
  | loopTest
  | setFollower
  | configure (latest : Configuration) (term : Nat)
  | followConfiguration (latest : Configuration)
  | takeVerify
  | send (follower : Nat) (kind : RequestKind)
  | reply (follower request : Nat) (result : CallResult FollowerResponse)
  | submit (ballot : Nat)

namespace Verification

/-- Room in `verifyCh`. -/
def capacity : Nat := 64

/-- `startStopReplication`, the start of one server: an active replication state is
kept under its ID. -/
def startReplication (localID : ServerID) (term : Nat) (followers : List NotifiedFollower)
    (server : Server) : List NotifiedFollower :=
  if server.id = localID then followers
  else if followers.any (fun s => !s.stopped && s.peer.id == server.id) then
    followers.map (fun s =>
      if s.stopped = false ∧ s.peer.id = server.id ∧ s.peer.address ≠ server.address then
        { s with peer := server }
      else s)
  else followers ++ [{ peer := server, currentTerm := term }]

def stopReplication (localID : ServerID) (latest : Configuration) (s : NotifiedFollower) :
    NotifiedFollower :=
  if latest.servers.any (fun server => server.id != localID && server.id == s.peer.id) then s
  else { s with stopped := true }

def startStopReplication (n : Verification) (term : Nat) : Verification :=
  { n with
    followers := (n.latest.servers.foldl (startReplication n.localID term) n.followers).map
      (stopReplication n.localID n.latest) }

def modifyFuture (n : Verification) (v : Nat) (f : VerifyFuture → VerifyFuture) : Verification :=
  { n with futures := n.futures.modify v f }

/-- `verifyLeader`, on the main thread. -/
def verifyLeader (n : Verification) (v : Nat) : Verification :=
  let quorumSize := n.latest.quorumSize
  if quorumSize = 1 then
    n.modifyFuture v (fun f =>
      { f with votes := 1, quorumSize := 1 }.respond (.confirmed n.latest))
  else
    { n.modifyFuture v (fun f => { f with votes := 1, quorumSize := quorumSize, notifyCh := true }) with
      notify := v :: n.notify
      followers := n.followers.map (fun s =>
        if s.stopped then s else { s with notify := v :: s.notify }) }

/-- The end of a verification: nobody keeps the future any more. -/
def finishVerify (n : Verification) (v : Nat) (answer : VerifyAnswer) : Verification :=
  { n.modifyFuture v (fun f => f.respond answer) with
    notify := n.notify.filter (· != v)
    followers := n.followers.map (fun s =>
      if s.stopped then s else { s with notify := s.notify.filter (· != v) }) }

/-- What the select of `leaderLoop` does with a future taken from `verifyCh`. -/
def handleVerify (n : Verification) (v : Nat) (f : VerifyFuture) : Verification :=
  if f.quorumSize = 0 then n.verifyLeader v
  else if f.votes < f.quorumSize then { n with state := .follower }.finishVerify v .notLeader
  else n.finishVerify v (.confirmed n.latest)

/-- The cleanup of `runLeader`. -/
def leave (n : Verification) : Verification :=
  { n with
    point := .outside
    followers := n.followers.map (fun s => { s with stopped := true })
    futures := n.futures.mapIdx (fun v f => if v ∈ n.notify then f.respond .leadershipLost else f)
    notify := [] }

/-- An answer reaches the goroutine that waits for it; `notifyAll` empties the set of
the follower before it submits the votes. -/
def reply (n : Verification) (i : Nat) (s : NotifiedFollower) (req : SentRequest) (k : Nat)
    (result : CallResult FollowerResponse) : Verification :=
  let n := { n with
    answered := if result.succeeded then (s.peer.id, req.sent) :: n.answered else n.answered }
  let s' := { s with outstanding := s.outstanding.eraseIdx k }
  match s.stillLeader req.kind result with
  | none => { n with followers := n.followers.set i s' }
  | some leader =>
    { n with
      followers := n.followers.set i { s' with notify := [] }
      ballots := n.ballots ++ s.notify.map (fun v => ⟨v, s.peer.id, leader⟩) }

/-- A vote is submitted; the sender waits for room in the channel. -/
def submit (n : Verification) (j : Nat) : Option Verification :=
  match n.ballots[j]? with
  | none => none
  | some ballot =>
    match n.futures[ballot.future]? with
    | none => none
    | some f =>
      let (f', sent) := f.vote ballot.leader
      let n := { n with
        ballots := n.ballots.eraseIdx j, futures := n.futures.set ballot.future f' }
      if sent = false then some n
      else if n.verifyCh.length < capacity then
        some { n with verifyCh := n.verifyCh ++ [ballot.future] }
      else none

/-- What an action does; the clock is moved by `step`. -/
def act (n : Verification) : VerifyAction → Option Verification
  | .verifyLeader =>
    if n.verifyCh.length < capacity then
      some { n with
        verifyCh := n.verifyCh ++ [n.futures.length]
        futures := n.futures ++ [{ called := n.clock }] }
    else none
  | .lead term =>
    if n.point = .outside then
      some ({ n with state := .leader, point := .loopTest }.startStopReplication term)
    else none
  | .loopTest =>
    if n.point = .loopTest then
      some (if n.state = .leader then { n with point := .select } else n.leave)
    else none
  | .setFollower => some { n with state := .follower }
  | .configure latest term =>
    if n.point = .select then
      some ({ n with latest := latest, point := .loopTest }.startStopReplication term)
    else none
  | .followConfiguration latest =>
    match n.point with
    | .outside => some { n with latest := latest }
    | .select => some { n with latest := latest, state := .follower, point := .loopTest }
    | .loopTest => none
  | .takeVerify =>
    match n.verifyCh with
    | [] => none
    | v :: rest =>
      match n.futures[v]?, n.point with
      | some f, .select => some { { n with verifyCh := rest }.handleVerify v f with point := .loopTest }
      | some _, .outside =>
        some ({ n with verifyCh := rest }.modifyFuture v (fun f => f.respond .notLeader))
      | _, _ => none
  | .send i kind =>
    match n.followers[i]? with
    | none => none
    | some s =>
      some { n with
        followers := n.followers.set i
          { s with outstanding := s.outstanding ++ [⟨kind, n.clock⟩] } }
  | .reply i k result =>
    match n.followers[i]? with
    | none => none
    | some s =>
      match s.outstanding[k]? with
      | none => none
      | some req => some (n.reply i s req k result)
  | .submit j => n.submit j

def step (n : Verification) (a : VerifyAction) : Option Verification :=
  (n.act a).map (fun n => { n with clock := n.clock + 1 })

/-- A server of any configuration, before it leads for the first time. -/
def system : Lib.System Verification VerifyAction where
  init := fun n => ∃ localID latest, n = { localID := localID, latest := latest }
  step := step

end Verification

end PerfRaft
