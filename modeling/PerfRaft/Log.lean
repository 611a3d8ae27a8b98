import PerfRaft.Configuration

namespace PerfRaft

inductive LogType where
  | logCommand | logNoop | logAddPeerDeprecated | logRemovePeerDeprecated
  | logBarrier | logConfiguration
  deriving DecidableEq

/-- The data of an entry. The msgpack coders are inverse to each other on the
values they encode, so encoded configurations and peer lists stand for
themselves; anything else is `bytes`, which neither decoder accepts. -/
inductive Data where
  | bytes (data : Bytes)
  | configuration (configuration : Configuration)
  | peers (peers : List ServerAddress)
  deriving DecidableEq

/-- One entry of the replicated log. Indexes and terms are `uint64` in the source;
a run would have to count to `2 ^ 64` to tell them from natural numbers. -/
structure Log where
  index : Nat
  term : Nat
  type : LogType
  data : Data := .bytes []
  extensions : Bytes := []
  appendedAt : Nat := 0
  deriving DecidableEq

/-- `EncodeConfiguration`. -/
def encodeConfiguration (configuration : Configuration) : Data := .configuration configuration

/-- `DecodeConfiguration`, which panics (`none`) on data it cannot decode. -/
def decodeConfiguration : Data → Option Configuration
  | .configuration configuration => some configuration
  | _ => none

/-- The old peers format keeps the addresses of the voters only. -/
def encodePeers (configuration : Configuration) : Data :=
  .peers (configuration.voters.map Server.address)

def decodePeers : Data → Option Configuration
  | .peers peers => some ⟨peers.map (fun p => ⟨.voter, p, p⟩)⟩
  | _ => none

/-- The configuration an entry carries, whichever of the formats it uses. -/
def Log.configuration? (entry : Log) : Option Configuration :=
  match entry.type with
  | .logConfiguration => decodeConfiguration entry.data
  | .logAddPeerDeprecated | .logRemovePeerDeprecated => decodePeers entry.data
  | _ => none

/-- The configuration in an entry can be decoded, if there is one. -/
def Log.decodes (entry : Log) : Bool :=
  match entry.type with
  | .logConfiguration => (decodeConfiguration entry.data).isSome
  | .logAddPeerDeprecated | .logRemovePeerDeprecated => (decodePeers entry.data).isSome
  | _ => true

/-- A log store maps indexes to entries. Every call is atomic. -/
abbrev LogStore := List Log

namespace LogStore

def getLog (logs : LogStore) (index : Nat) : Option Log :=
  logs.find? (fun entry => entry.index == index)

/-- 0 when there are no entries. -/
def lastIndex (logs : LogStore) : Nat :=
  logs.foldl (fun last entry => max last entry.index) 0

/-- 0 when there are no entries. -/
def firstIndex : LogStore → Nat
  | [] => 0
  | entry :: rest => rest.foldl (fun first entry => min first entry.index) entry.index

def storeLog (logs : LogStore) (entry : Log) : LogStore :=
  logs.filter (fun old => old.index != entry.index) ++ [entry]

def storeLogs (logs : LogStore) (entries : List Log) : LogStore :=
  entries.foldl storeLog logs

/-- The range is inclusive. -/
def deleteRange (logs : LogStore) (lo hi : Nat) : LogStore :=
  logs.filter (fun entry => !(decide (lo ≤ entry.index) && decide (entry.index ≤ hi)))

end LogStore

end PerfRaft
