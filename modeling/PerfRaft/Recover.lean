import PerfRaft.Bootstrap
import PerfRaft.Process

namespace PerfRaft

inductive RecoverError where
  | invalidConfig
  | configuration (err : ConfigurationError)
  | checkState (err : ExistingStateError)
  | noInitialState
  | listSnapshots
  | restoreSnapshots
  | findLastLog
  | getLog (index : Nat)
  | snapshotFSM
  | createSnapshot
  | persistSnapshot
  | finalizeSnapshot
  | firstLogIndex
  | compactLog
  deriving DecidableEq

/-- How the calls end that `RecoverCluster` makes, one after the other. Of the calls of
Open and of GetLog those that are not listed succeed. A sink whose Close fails may have
reached the store all the same. -/
structure RecoverEnv where
  existing : BootstrapEnv := {}
  list : Read := .ok
  opens : List Bool := []
  lastIndex : Read := .ok
  getLog : List Read := []
  snapshot : Read := .ok
  create : Read := .ok
  persist : Read := .ok
  close : Write := .ok
  firstIndex : Read := .ok
  deleteRange : Write := .ok
  deriving DecidableEq

section

variable {σ ρ : Type} (fsm : FSM σ ρ)

/-- Restore a snapshot, trying the newest first; one that cannot be opened or restored
is skipped. The list that is left begins with the snapshot that was restored. -/
def restoreSnapshots : List Bool → σ → List Snapshot → σ × List Snapshot
  | _, state, [] => (state, [])
  | opens, state, snapshot :: rest =>
    if opens.headD true = false then restoreSnapshots opens.tail state rest
    else
      match fsm.restore state snapshot.contents with
      | (state, true) => (state, snapshot :: rest)
      | (state, false) => restoreSnapshots opens.tail state rest

/-- Apply the entries at the given indexes; `last` is the index and the term of the last
one. Only commands go to the FSM. -/
def replayLogs (logs : LogStore) :
    List Read → σ → Nat × Nat → List Nat → Except (Halt RecoverError) (σ × Nat × Nat)
  | _, state, last, [] => .ok (state, last)
  | reads, state, _, index :: rest =>
    match (reads.headD .ok).outcome (.getLog index), logs.getLog index with
    | .error halt, _ => .error halt
    | .ok (), none => .error (.error (.getLog index))
    | .ok (), some entry =>
      let state := if entry.type = .logCommand then (fsm.apply state entry).1 else state
      replayLogs logs reads.tail state (entry.index, entry.term) rest

/-- The checks that `RecoverCluster` begins with. -/
def checkRecovery (conf : Config) (s : Storage) (configuration : Configuration) (env : RecoverEnv) :
    Except (Halt RecoverError) Unit :=
  if Raft.validateConfig conf = false then .error (.error .invalidConfig)
  else
    match checkConfiguration configuration with
    | .error err => .error (.error (.configuration err))
    | .ok () =>
      match hasExistingState s env.existing with
      | .error .died => .error .died
      | .error (.error err) => .error (.error (.checkState err))
      | .ok false => .error (.error .noInitialState)
      | .ok true => .ok ()

/-- The FSM with everything there is, and the last index and term. -/
def recoveredState (initial : σ) (s : Storage) (env : RecoverEnv) :
    Except (Halt RecoverError) (σ × Nat × Nat) := do
  env.list.outcome .listSnapshots
  let (state, restored) := restoreSnapshots fsm env.opens initial s.snapshots
  if s.snapshots ≠ [] ∧ (snapshotIndex restored = 0 ∨ snapshotTerm restored = 0) then
    throw (.error .restoreSnapshots)
  env.lastIndex.outcome .findLastLog
  replayLogs fsm s.logs env.getLog state (snapshotIndex restored, snapshotTerm restored)
    (List.range' (snapshotIndex restored + 1) (s.logs.lastIndex - snapshotIndex restored))

/-- The snapshot of all that, with the given configuration in it as if that had been
committed at index 1. -/
def recoveredSnapshot (configuration : Configuration) (state : σ) (last : Nat × Nat) : Snapshot :=
  { metadata :=
      { index := last.1, term := last.2, configuration := configuration, configurationIndex := 1
        size := (fsm.persist state).length }
    contents := fsm.persist state }

/-- `RecoverCluster` up to the Close of its sink. -/
def recoverySink (conf : Config) (initial : σ) (s : Storage) (configuration : Configuration)
    (env : RecoverEnv) : Except (Halt RecoverError) Snapshot := do
  checkRecovery conf s configuration env
  let (state, last) ← recoveredState fsm initial s env
  env.snapshot.outcome .snapshotFSM
  env.create.outcome .createSnapshot
  env.persist.outcome .persistSnapshot
  return recoveredSnapshot fsm configuration state last

/-- `RecoverCluster`. -/
def recoverCluster (conf : Config) (initial : σ) (s : Storage) (configuration : Configuration)
    (env : RecoverEnv) : Storage × Except (Halt RecoverError) Unit :=
  match recoverySink fsm conf initial s configuration env with
  | .error halt => (s, .error halt)
  | .ok snapshot =>
    let s :=
      if env.close.applied then { s with snapshots := addSnapshot snapshot s.snapshots } else s
    match env.close.outcome .finalizeSnapshot, env.firstIndex.outcome .firstLogIndex with
    | .error halt, _ | .ok (), .error halt => (s, .error halt)
    | .ok (), .ok () =>
      (if env.deleteRange.applied then
          { s with logs := s.logs.deleteRange s.logs.firstIndex s.logs.lastIndex }
        else s,
        env.deleteRange.outcome .compactLog)

/-- `NewRaft` on some stores, with the FSM in the state `initial`. -/
def Storage.newRaft (conf : Config) (initial : σ) (s : Storage) (opens : List Bool) (env : Env) :
    Option (Raft × σ) :=
  let (state, restored) := restoreSnapshots fsm opens initial s.snapshots
  if s.snapshots ≠ [] ∧ restored = [] then none
  else
    (Raft.newRaft conf s.stable s.logs restored { env with restoreFSM := true }).map (fun r =>
      ({ r with snapshots := s.snapshots }, state))

/-- The state that the stores stand for: that of the newest snapshot, followed by the
later commands in order. -/
def Storage.state (initial : σ) (s : Storage) : σ :=
  let commands := ((List.range' (snapshotIndex s.snapshots + 1)
    (s.logs.lastIndex - snapshotIndex s.snapshots)).filterMap s.logs.getLog).filter
      (fun entry => decide (entry.type = .logCommand))
  commands.foldl (fun state entry => (fsm.apply state entry).1)
    (Process.startFSM fsm initial s.snapshots).1

end

/-- The highest index and term of the newest snapshot and of the log. -/
def Storage.lastEntry (s : Storage) : Nat × Nat :=
  let last := (Raft.lastTermOf s.logs).getD 0
  if snapshotIndex s.snapshots < s.logs.lastIndex ∨
      (snapshotIndex s.snapshots = s.logs.lastIndex ∧ snapshotTerm s.snapshots ≤ last) then
    (s.logs.lastIndex, last)
  else (snapshotIndex s.snapshots, snapshotTerm s.snapshots)

end PerfRaft
