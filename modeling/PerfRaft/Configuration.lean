import Mathlib.Data.List.Basic
import Mathlib.Data.List.Nodup

namespace PerfRaft

/-- Go strings and byte slices are byte sequences; the empty string is `[]`. -/
abbrev Bytes := List UInt8

abbrev ServerID := Bytes

abbrev ServerAddress := Bytes

inductive ServerSuffrage where
  | voter | nonvoter | staging
  deriving DecidableEq

structure Server where
  suffrage : ServerSuffrage
  id : ServerID
  address : ServerAddress
  deriving DecidableEq

/-- The servers are listed in no particular order, each at most once. The zero
value, with no servers at all, is what a server knows before it is bootstrapped. -/
structure Configuration where
  servers : List Server := []
  deriving DecidableEq

inductive ConfigurationChangeCommand where
  | addVoter | addNonvoter | demoteVoter | removeServer | promote
  deriving DecidableEq

structure ConfigurationChangeRequest where
  command : ConfigurationChangeCommand
  serverID : ServerID
  serverAddress : ServerAddress := []
  prevIndex : Nat := 0
  deriving DecidableEq

/-- The two configurations a server tracks, each with the log index it was
written at. -/
structure Configurations where
  committed : Configuration := {}
  committedIndex : Nat := 0
  latest : Configuration := {}
  latestIndex : Nat := 0
  deriving DecidableEq

inductive ConfigurationError where
  | emptyID (configuration : Configuration)
  | emptyAddress (server : Server)
  | duplicateID (id : ServerID)
  | duplicateAddress (address : ServerAddress)
  | noVoter (configuration : Configuration)
  | changedSince (prevIndex currentIndex : Nat)
  deriving DecidableEq

/-- Whether the first server listed under `id` is a voter. -/
def hasVote (configuration : Configuration) (id : ServerID) : Bool :=
  match configuration.servers.find? (fun server => server.id == id) with
  | some server => server.suffrage == .voter
  | none => false

def inConfiguration (configuration : Configuration) (id : ServerID) : Bool :=
  configuration.servers.any (fun server => server.id == id)

/-- The servers that take part in elections and commitment. -/
def Configuration.voters (configuration : Configuration) : List Server :=
  configuration.servers.filter (fun server => server.suffrage == .voter)

def Configuration.voterIDs (configuration : Configuration) : List ServerID :=
  configuration.voters.map Server.id

/-- `quorumSize`: a strict majority of the voters. -/
def Configuration.quorumSize (configuration : Configuration) : Nat :=
  configuration.voters.length / 2 + 1

/-- The loop of `checkConfiguration`, with the two sets and the voter count it
accumulates. -/
def checkServers (configuration : Configuration) :
    List Server → List ServerID → List ServerAddress → Nat → Except ConfigurationError Unit
  | [], _, _, voters => if voters = 0 then .error (.noVoter configuration) else .ok ()
  | server :: rest, idSet, addressSet, voters =>
    if server.id = [] then .error (.emptyID configuration)
    else if server.address = [] then .error (.emptyAddress server)
    else if server.id ∈ idSet then .error (.duplicateID server.id)
    else if server.address ∈ addressSet then .error (.duplicateAddress server.address)
    else checkServers configuration rest (server.id :: idSet) (server.address :: addressSet)
      (if server.suffrage = .voter then voters + 1 else voters)

def checkConfiguration (configuration : Configuration) : Except ConfigurationError Unit :=
  checkServers configuration configuration.servers [] [] 0

/-- Edit the first server listed under `id`, as the loops of `nextConfiguration`
do before they break; `none` when there is no such server. -/
def editFirst (p : Server → Bool) (f : Server → Option Server) :
    List Server → Option (List Server)
  | [] => none
  | server :: rest =>
    if p server then some ((f server).toList ++ rest)
    else (editFirst p f rest).map (server :: ·)

/-- The edit of `nextConfiguration`, before its result is checked. -/
def changeServers (servers : List Server) (change : ConfigurationChangeRequest) : List Server :=
  let sameID : Server → Bool := fun server => server.id == change.serverID
  match change.command with
  | .addVoter =>
    let newServer : Server := ⟨.voter, change.serverID, change.serverAddress⟩
    (editFirst sameID (fun server => some
      (if server.suffrage = .voter then { server with address := change.serverAddress }
       else newServer)) servers).getD (servers ++ [newServer])
  | .addNonvoter =>
    let newServer : Server := ⟨.nonvoter, change.serverID, change.serverAddress⟩
    (editFirst sameID (fun server => some
      (if server.suffrage ≠ .nonvoter then { server with address := change.serverAddress }
       else newServer)) servers).getD (servers ++ [newServer])
  | .demoteVoter =>
    (editFirst sameID (fun server => some { server with suffrage := .nonvoter }) servers).getD servers
  | .removeServer =>
    (editFirst sameID (fun _ => none) servers).getD servers
  | .promote =>
    (editFirst (fun server => sameID server && server.suffrage == .staging)
      (fun server => some { server with suffrage := .voter }) servers).getD servers

def nextConfiguration (current : Configuration) (currentIndex : Nat)
    (change : ConfigurationChangeRequest) : Except ConfigurationError Configuration :=
  if 0 < change.prevIndex ∧ change.prevIndex ≠ currentIndex then
    .error (.changedSince change.prevIndex currentIndex)
  else
    let configuration : Configuration := ⟨changeServers current.servers change⟩
    match checkConfiguration configuration with
    | .error err => .error err
    | .ok () => .ok configuration

end PerfRaft
