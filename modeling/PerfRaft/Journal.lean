import PerfRaft.Process

namespace PerfRaft

/-- A process with the history of its FSM: the thread as it was left by the last start or
restore, the index that stood for, and the batches it has applied since. -/
structure Journal (σ ρ : Type) where
  process : Process σ ρ
  base : FSMThread σ ρ
  baseIndex : Nat
  batches : List (List Log) := []

/-- A step of the process, or an InstallSnapshot request whose snapshot `runFSM` cannot
open once it has been written. -/
inductive JournalAction where
  | process (a : ProcessAction)
  | unopened (req : InstallSnapshotRequest) (env : Env)

namespace Journal

variable {σ ρ : Type} (fsm : FSM σ ρ) (initial : σ)

/-- A new page: the state of the FSM is what there is up to the last applied index. -/
def opened (s : Process σ ρ) : Journal σ ρ :=
  { process := s, base := s.thread, baseIndex := s.raft.lastApplied }

/-- Whether `Restore` was called between `s` and `s'`, and whether it succeeded. -/
def restoreOutcome (s : Process σ ρ) (a : ProcessAction) (s' : Process σ ρ) : Option Bool :=
  match a with
  | .main work _ =>
    if s.raft.snapshots.length < s'.raft.snapshots.length then
      match work.snapshot? s.raft, s.drained fsm with
      | some snapshot, some thread => some (thread.restore fsm snapshot).2
      | _, _ => none
    else none
  | _ => none

/-- What is noted of a step: the batches that were applied in it. Before a restore they
are all those in the channel. -/
def record (j : Journal σ ρ) (a : ProcessAction) (s' : Process σ ρ) : Journal σ ρ :=
  if j.process.raft.down then opened s'
  else
    match restoreOutcome fsm j.process a s' with
    | some true => opened s'
    | some false => { j with process := s', batches := j.batches ++ j.process.fsmMutateCh }
    | none =>
      match a with
      | .apply => { j with process := s', batches := j.batches ++ j.process.fsmMutateCh.take 1 }
      | _ => { j with process := s' }

/-- The FSM thread has taken all the entries and does not get to `Restore`. -/
def unopened (j : Journal σ ρ) (req : InstallSnapshotRequest) (env : Env) : Option (Journal σ ρ) :=
  let s := j.process
  match s.raft.down, s.drained fsm with
  | false, some thread =>
    (s.perform { env with restoreFSM := false } (.input (.rpc (.installSnapshot req)))).map (fun o =>
      if s.raft.snapshots.length < o.raft.snapshots.length then
        { j with
          process := { s with raft := o.raft, thread := thread, fsmMutateCh := [] }
          batches := j.batches ++ s.fsmMutateCh }
      else { j with process := { s with raft := o.raft } })
  | _, _ => none

def step (j : Journal σ ρ) : JournalAction → Option (Journal σ ρ)
  | .process a => (j.process.step fsm initial a).map (j.record fsm a)
  | .unopened req env => j.unopened fsm req env

/-- The runs of a server from any state in which it is a follower and its FSM has applied
everything up to the last applied index. -/
def system : Lib.System (Journal σ ρ) JournalAction where
  init := fun j => ∃ s : Process σ ρ, s.raft.down = false ∧ s.raft.state = .follower ∧
    s.fsmMutateCh = [] ∧ j = opened s
  step := step fsm initial

end Journal

end PerfRaft
