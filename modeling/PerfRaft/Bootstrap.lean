import PerfRaft.Cluster

namespace PerfRaft

/-- How a read of a store ends. -/
inductive Read where
  | ok | fail | crash
  deriving DecidableEq

/-- The three stores of one server. -/
structure Storage where
  stable : StableStore := {}
  logs : LogStore := []
  snapshots : List Snapshot := []
  deriving DecidableEq

/-- The errors of `HasExistingState`. -/
inductive ExistingStateError where
  | readTerm | lastIndex | listSnapshots
  deriving DecidableEq

inductive BootstrapError where
  | invalidConfig
  | configuration (err : ConfigurationError)
  | checkState (err : ExistingStateError)
  | cantBootstrap
  | saveTerm
  | appendEntry
  | notVoter
  | decodeEntry
  deriving DecidableEq

/-- Why a function has not run to its end. -/
inductive Halt (ε : Type) where
  | error (err : ε)
  | died
  deriving DecidableEq

def Read.outcome {ε : Type} (err : ε) : Read → Except (Halt ε) Unit
  | .ok => .ok ()
  | .fail => .error (.error err)
  | .crash => .error .died

def Write.outcome {ε : Type} (err : ε) : Write → Except (Halt ε) Unit
  | .ok => .ok ()
  | .fail _ => .error (.error err)
  | .crash _ => .error .died

/-- How the calls of the stores end that a bootstrap makes: the three reads of
`HasExistingState`, the two writes of `BootstrapCluster`, and the read and the write of
`liveBootstrap` after them. -/
structure BootstrapEnv where
  getTerm : Read := .ok
  lastIndex : Read := .ok
  list : Read := .ok
  setTerm : Write := .ok
  storeLog : Write := .ok
  getLog : Read := .ok
  setCurrentTerm : Write := .ok
  deriving DecidableEq

namespace Storage

def setTerm (s : Storage) (w : Write) : Storage :=
  if w.applied then { s with stable := { s.stable with currentTerm := 1 } } else s

def storeLog (s : Storage) (entry : Log) (w : Write) : Storage :=
  if w.applied then { s with logs := s.logs.storeLog entry } else s

end Storage

/-- `HasExistingState`. -/
def hasExistingState (s : Storage) (env : BootstrapEnv) : Except (Halt ExistingStateError) Bool := do
  env.getTerm.outcome .readTerm
  if 0 < s.stable.currentTerm then return true
  env.lastIndex.outcome .lastIndex
  if 0 < s.logs.lastIndex then return true
  env.list.outcome .listSnapshots
  return !s.snapshots.isEmpty

/-- The two writes of `BootstrapCluster`. -/
def writeBootstrap (conf : Config) (s : Storage) (configuration : Configuration) (env : BootstrapEnv) :
    Storage × Except (Halt BootstrapError) Unit :=
  let s := s.setTerm env.setTerm
  match env.setTerm.outcome .saveTerm with
  | .error halt => (s, .error halt)
  | .ok () =>
    (s.storeLog (bootstrapEntry conf configuration) env.storeLog, env.storeLog.outcome .appendEntry)

/-- `BootstrapCluster`. -/
def bootstrapCluster (conf : Config) (s : Storage) (configuration : Configuration)
    (env : BootstrapEnv) : Storage × Except (Halt BootstrapError) Unit :=
  if Raft.validateConfig conf = false then (s, .error (.error .invalidConfig))
  else
    match checkConfiguration configuration with
    | .error err => (s, .error (.error (.configuration err)))
    | .ok () =>
      match hasExistingState s env with
      | .error .died => (s, .error .died)
      | .error (.error err) => (s, .error (.error (.checkState err)))
      | .ok true => (s, .error (.error .cantBootstrap))
      | .ok false => writeBootstrap conf s configuration env

namespace Raft

def storage (r : Raft) : Storage := { stable := r.stable, logs := r.logs, snapshots := r.snapshots }

def setStorage (r : Raft) (s : Storage) : Raft :=
  { r with stable := s.stable, logs := s.logs, snapshots := s.snapshots }

/-- The end of `liveBootstrap`: the configuration is made live. -/
def makeLive (r : Raft) (entry : Log) (w : Write) : Raft × Except (Halt BootstrapError) Unit :=
  let r := r.setCurrentTerm 1 [w]
  if r.down then (r, .error .died)
  else
    match (r.setLastLog entry.index entry.term).processConfigurationLogEntry entry with
    | (r, true) => (r, .ok ())
    | (r, false) => (r, .error (.error .decodeEntry))

/-- `liveBootstrap`, which panics when it cannot read the entry back. -/
def liveBootstrap (r : Raft) (configuration : Configuration) (env : BootstrapEnv) :
    Raft × Except (Halt BootstrapError) Unit :=
  if hasVote configuration r.localID = false then (r, .error (.error .notVoter))
  else
    match bootstrapCluster r.conf r.storage configuration env with
    | (s, .error .died) => ({ r.setStorage s with down := true }, .error .died)
    | (s, .error (.error err)) => (r.setStorage s, .error (.error err))
    | (s, .ok ()) =>
      match env.getLog, s.logs.getLog 1 with
      | .ok, some entry => (r.setStorage s).makeLive entry env.setCurrentTerm
      | _, _ => ({ r.setStorage s with down := true }, .error .died)

/-- The server at the next call: the same process, or one started on its stores. -/
def again? (r : Raft) : Option Raft :=
  if r.down then newRaft r.conf r.stable r.logs r.snapshots {} else some r

end Raft

end PerfRaft
