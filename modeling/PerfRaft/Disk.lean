import PerfRaft.Node

namespace PerfRaft

/-- The last index, term and configuration that the newest snapshot stands for; 0 and
the empty configuration without one. -/
def snapshotIndex (snapshots : List Snapshot) : Nat :=
  (snapshots.head?.map (fun s => s.metadata.index)).getD 0

def snapshotTerm (snapshots : List Snapshot) : Nat :=
  (snapshots.head?.map (fun s => s.metadata.term)).getD 0

def snapshotConfiguration (snapshots : List Snapshot) : Configuration × Nat :=
  (snapshots.head?.map (fun s => (s.metadata.configuration, s.metadata.configurationIndex))).getD
    ({}, 0)

/-- The configuration in force after the entry at `index`. -/
def LogStore.configurationAt (logs : LogStore) (before : Configuration × Nat) (index : Nat) :
    Configuration × Nat :=
  (((logs.getLog index).bind Log.configuration?).map (fun c => (c, index))).getD before

/-- The configuration in force below `n`: the last one in the log above the newest
snapshot, or that of the snapshot. -/
def inForce (snapshots : List Snapshot) (logs : LogStore) (n : Nat) : Configuration × Nat :=
  (List.range' (snapshotIndex snapshots + 1) (n - (snapshotIndex snapshots + 1))).foldl
    logs.configurationAt (snapshotConfiguration snapshots)

/-- The configuration on disk, with its index. -/
def diskConfiguration (snapshots : List Snapshot) (logs : LogStore) : Configuration × Nat :=
  inForce snapshots logs (logs.lastIndex + 1)

/-- The last entry on disk, by index and term: that of the log store or that of the
newest snapshot, whichever is higher. -/
def diskEntry (snapshots : List Snapshot) (logs : LogStore) : Nat × Nat :=
  if snapshotIndex snapshots ≤ logs.lastIndex then
    (logs.lastIndex, (Raft.lastTermOf logs).getD 0)
  else (snapshotIndex snapshots, snapshotTerm snapshots)

namespace Raft

/-- An entry of a request that the log has already, by index and term. -/
def holds (r : Raft) (entry : Log) : Bool :=
  decide (entry.index ≤ r.lastLogIndex) &&
    (r.logs.getLog entry.index).any (fun old => old.term == entry.term)

/-- The entries of a request from the first one on that the log does not have. -/
def added (r : Raft) (entries : List Log) : List Log := entries.dropWhile r.holds

/-- The snapshot that `installSnapshot` writes. -/
def receivedSnapshot (req : InstallSnapshotRequest) (configuration : Configuration) (index : Nat) :
    Snapshot :=
  { metadata :=
      { index := req.lastLogIndex, term := req.lastLogTerm, configuration := configuration
        configurationIndex := index, size := req.size }
    contents := req.reader }

/-- The entries `dispatchLogs` makes of some futures. -/
def stampedLogs (r : Raft) (futures : List LogFuture) (env : Env) : List Log :=
  (stampLogs r.currentTerm env.now r.getLastIndex futures).map LogFuture.log

end Raft

end PerfRaft
