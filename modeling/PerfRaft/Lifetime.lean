import PerfRaft.Process

namespace PerfRaft

def Log.isCommand (l : Log) : Bool := decide (l.type = .logCommand)

/-- The indexes of the configuration entries that another one follows. -/
def LogStore.followed (logs : LogStore) : List Nat :=
  (logs.filter (fun e => e.configuration?.isSome &&
    logs.any (fun e' => e'.configuration?.isSome && decide (e.index < e'.index)))).map Log.index

/-- The entries of a call of StoreLogs come in the order of their indexes, above the last
snapshot, and can be decoded. -/
def Raft.InOrder (r : Raft) (call : LogStore × List Log) : Prop :=
  call.2.Pairwise (fun e e' => e.index < e'.index) ∧
    ∀ e ∈ call.2, e.decodes = true ∧ r.lastSnapshotIndex < e.index

instance (r : Raft) : DecidablePred r.InOrder :=
  fun call => inferInstanceAs (Decidable (call.2.Pairwise (fun e e' => e.index < e'.index) ∧
    ∀ e ∈ call.2, e.decodes = true ∧ r.lastSnapshotIndex < e.index))

/-- The call of StoreLogs for an AppendEntries request on the main thread: what the store
holds then, and the entries. -/
def Process.requestCall {σ ρ : Type} (s : Process σ ρ) (env : Env) :
    Work → Option (LogStore × List Log)
  | .input (.rpc (.appendEntries a)) => s.raft.storeCall env (.rpc (.appendEntries a))
  | _ => none

/-- The main thread is given no snapshot to install or to restore. -/
def Work.unaided : Work → Bool
  | .input (.rpc (.installSnapshot _)) | .restore _ => false
  | _ => true

/-- The main thread is asked to change the configuration. -/
def Work.reconfigures : Work → Bool
  | .input (.configurationChange _ _) => true
  | _ => false

/-- A process with the history since it was started: the snapshots it was started on and
the state of its FSM then, the entries that have been compacted away, the configuration
entries that another one has followed at some time, and the batches the FSM has applied. -/
structure Lifetime (σ ρ : Type) where
  process : Process σ ρ
  base : List Snapshot := []
  start : σ
  archive : LogStore := []
  followed : List Nat := []
  batches : List (List Log) := []

namespace Lifetime

variable {σ ρ : Type} (fsm : FSM σ ρ) (initial : σ)

/-- The log as if nothing had been compacted. -/
def whole (w : Lifetime σ ρ) : LogStore := w.archive ++ w.process.raft.logs

/-- The entries above the first snapshot, up to `index`. -/
def entriesTo (w : Lifetime σ ρ) (index : Nat) : List Log :=
  (FSMRun.indexes (snapshotIndex w.base) index).filterMap w.whole.getLog

def commandsTo (w : Lifetime σ ρ) (index : Nat) : List Log :=
  (w.entriesTo index).filter Log.isCommand

/-- A process that has just been started. -/
def born (s : Process σ ρ) : Lifetime σ ρ :=
  { process := s, base := s.raft.snapshots, start := s.thread.state
    followed := s.raft.logs.followed }

/-- The entries that `compactLogs` deletes. -/
def compacted (s s' : Process σ ρ) : ProcessAction → LogStore
  | .compact _ => s.raft.logs.filter (fun e => decide (e ∉ s'.raft.logs))
  | _ => []

/-- The batch that the FSM thread takes. -/
def taken (s : Process σ ρ) : ProcessAction → List (List Log)
  | .apply => s.fsmMutateCh.take 1
  | _ => []

def record (w : Lifetime σ ρ) (a : ProcessAction) (s' : Process σ ρ) : Lifetime σ ρ :=
  if w.process.raft.down then born s'
  else
    let archive := w.archive ++ compacted w.process s' a
    { w with
      process := s'
      archive := archive
      followed := LogStore.followed (archive ++ s'.raft.logs) ++ w.followed
      batches := w.batches ++ taken w.process a }

/-- The runs of one server on any stores in which no vote is recorded and every snapshot
covers its configuration. -/
def system : Lib.System (Lifetime σ ρ) ProcessAction where
  init := fun w => (Process.system fsm initial).init w.process ∧
    ∀ s ∈ w.process.raft.snapshots, s.metadata.configurationIndex ≤ s.metadata.index
  step := fun w a => (w.process.step fsm initial a).map (w.record a)

/-- The main thread is given no snapshot and its stores do not fail. A request truncates
neither what is committed nor a configuration that another one has followed. -/
def Settled (w : Lifetime σ ρ) : ProcessAction → Prop
  | .main work env => env.Faultless ∧ work.unaided = true ∧
      ∀ call ∈ w.process.requestCall env work, ∀ e ∈ w.process.raft.logs, e ∉ call.1 →
        w.process.raft.commitIndex < e.index ∧ e.index ∉ w.followed
  | .dies work _ => work.unaided = true
  | _ => True

instance (w : Lifetime σ ρ) : DecidablePred w.Settled
  | .main work env => inferInstanceAs (Decidable (env.Faultless ∧ work.unaided = true ∧
      ∀ call ∈ w.process.requestCall env work, ∀ e ∈ w.process.raft.logs, e ∉ call.1 →
        w.process.raft.commitIndex < e.index ∧ e.index ∉ w.followed))
  | .dies work _ => inferInstanceAs (Decidable (work.unaided = true))
  | .apply | .snapshot | .configurations | .persist _ | .setLastSnapshot | .compact _ =>
    isTrue trivial

/-- Moreover the entries of the requests are in order and above the last snapshot, and the
server writes configurations in the format that keeps all of them. -/
def Regular (w : Lifetime σ ρ) (a : ProcessAction) : Prop :=
  w.Settled a ∧
    match a with
    | .main work env => (∀ call ∈ w.process.requestCall env work, w.process.raft.InOrder call) ∧
        (work.reconfigures = true → 2 ≤ w.process.raft.conf.protocolVersion)
    | _ => True

instance (w : Lifetime σ ρ) : DecidablePred w.Regular
  | .main work env => inferInstanceAs (Decidable (w.Settled (.main work env) ∧
      (∀ call ∈ w.process.requestCall env work, w.process.raft.InOrder call) ∧
        (work.reconfigures = true → 2 ≤ w.process.raft.conf.protocolVersion)))
  | .dies work env => inferInstanceAs (Decidable (w.Settled (.dies work env) ∧ True))
  | .apply => inferInstanceAs (Decidable (w.Settled .apply ∧ True))
  | .snapshot => inferInstanceAs (Decidable (w.Settled .snapshot ∧ True))
  | .configurations => inferInstanceAs (Decidable (w.Settled .configurations ∧ True))
  | .persist env => inferInstanceAs (Decidable (w.Settled (.persist env) ∧ True))
  | .setLastSnapshot => inferInstanceAs (Decidable (w.Settled .setLastSnapshot ∧ True))
  | .compact env => inferInstanceAs (Decidable (w.Settled (.compact env) ∧ True))

end Lifetime

end PerfRaft
