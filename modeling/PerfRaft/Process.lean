import PerfRaft.Cluster
import PerfRaft.Disk
import PerfRaft.FSM

namespace PerfRaft

/-- What `Restore` is given: of the metadata what the code reads, and the contents. -/
structure UserSnapshot where
  version : Nat := 1
  index : Nat
  size : Nat
  contents : Bytes
  deriving DecidableEq

namespace Raft

/-- The snapshot `restoreUserSnapshot` writes, above everything there is, with the
current term and the latest configuration. -/
def userSnapshot (r : Raft) (user : UserSnapshot) : Snapshot :=
  { metadata :=
      { index := max r.getLastIndex user.index + 1, term := r.currentTerm
        configuration := r.configurations.latest
        configurationIndex := r.configurations.latestIndex, size := user.size }
    contents := user.contents }

/-- `restoreUserSnapshot`, which panics when the FSM cannot be restored. -/
def restoreUserSnapshot (r : Raft) (user : UserSnapshot) (env : Env) : Raft :=
  if 1 < user.version then r
  else if r.configurations.committedIndex ≠ r.configurations.latestIndex then r
  else
    let snapshot := r.userSnapshot user
    let r := r.modifyLeaderState (fun ls => { ls with inflight := [] })
    if env.createSink = false ∨ env.copySink = false ∨ user.contents.length ≠ user.size ∨
        env.closeSink = false then r
    else
      let r := { r with snapshots := addSnapshot snapshot r.snapshots }
      if env.restoreFSM = false then { r with down := true }
      else
        let m := snapshot.metadata
        let r := r.setLastLog m.index m.term
        let r := { r with lastApplied := m.index }
        let r := r.setLastSnapshot m.index m.term
        if r.conf.monotonicLogs then r.removeOldLogs env else r

/-- The call of StoreLogs that `appendEntries` makes: what the store holds then, and
the entries. -/
def appendCall (r : Raft) (a : AppendEntriesRequest) (env : Env) : Option (LogStore × List Log) :=
  if a.term < r.currentTerm then none
  else
    let r := r.followLeader a env
    if r.down ∨ r.verifyPrevious a = false then none
    else
      match r.newEntries r.lastLogIndex env a.entries with
      | none => none
      | some (_, []) => none
      | some (r, entry :: rest) => some (r.logs, entry :: rest)

/-- The call of StoreLogs that a step makes. -/
def storeCall (r : Raft) (env : Env) : Input → Option (LogStore × List Log)
  | .rpc (.appendEntries a) =>
    if r.main.selecting && r.checkRPCHeader a.header then r.appendCall a env else none
  | .heartbeat a => if r.state = .shutdown then none else r.appendCall a env
  | .enter =>
    if r.main = .noop then
      some (r.logs, r.stampedLogs [{ log := { index := 0, term := 0, type := .logNoop } }] env)
    else none
  | .apply futures =>
    if r.main = .leader false true ∧ r.acceptsFutures futures then
      some (r.logs, r.stampedLogs futures env)
    else none
  | .configurationChange req future =>
    match r.main, nextConfiguration r.configurations.latest r.configurations.latestIndex req with
    | .leader _ true, .ok configuration =>
      if r.configurationChangeChIfStable then
        some (r.logs, r.stampedLogs [⟨future, r.configurationEntry configuration⟩] env)
      else none
    | _, _ => none
  | _ => none

end Raft

/-- The entries of a step that go to the FSM. -/
def appliedLogs (events : List Event) : List Log :=
  events.filterMap (fun e => match e with
    | .applied l => some l
    | _ => none)

/-- The batches `processLogs` cuts its entries into, after those it has gathered. -/
def cutBatches (maxAppendEntries : Nat) : List Log → List Log → List (List Log)
  | [], batch => if batch = [] then [] else [batch]
  | l :: rest, batch =>
    if maxAppendEntries ≤ (batch ++ [l]).length then
      (batch ++ [l]) :: cutBatches maxAppendEntries rest []
    else cutBatches maxAppendEntries rest (batch ++ [l])

/-- Where the snapshot goroutine stands in `takeSnapshot`: it has the FSM's snapshot,
it has the committed configuration too, the snapshot is in the store, or the last
snapshot has been set and the log is to be compacted. -/
inductive TakeSnapshot (σ : Type) where
  | idle
  | snapped (index term : Nat) (state : σ)
  | configured (index term : Nat) (state : σ) (committed : Configuration) (committedIndex : Nat)
  | closed (index term : Nat)
  | compacting (index : Nat)

/-- What the main thread is given to do: a step of the server, or a snapshot of the
user to restore. -/
inductive Work where
  | input (input : Input)
  | restore (user : UserSnapshot)

/-- The snapshot that the main thread writes and has the FSM restore, when it gets so
far. -/
def Work.snapshot? (r : Raft) : Work → Option Snapshot
  | .input (.rpc (.installSnapshot req)) =>
    (Raft.requestConfiguration req).map (fun c => Raft.receivedSnapshot req c.1 c.2)
  | .restore user => some (r.userSnapshot user)
  | _ => none

/-- One process with its three threads: the main thread, the FSM thread and the
snapshot thread. The futures are left out. The history has the indexes of the
snapshots whose installation was acknowledged to a leader since the process was
started, and all the calls of StoreLogs with what the store held. -/
structure Process (σ ρ : Type) where
  raft : Raft
  thread : FSMThread σ ρ
  fsmMutateCh : List (List Log) := []
  taking : TakeSnapshot σ := .idle
  acknowledged : List Nat := []
  storeCalls : List (LogStore × List Log) := []

/-- The process may die inside what its main thread does; what has not reached the
stores by then is lost. -/
inductive ProcessAction where
  | main (work : Work) (env : Env)
  | dies (work : Work) (env : Env)
  | apply
  | snapshot
  | configurations
  | persist (env : Env)
  | setLastSnapshot
  | compact (env : Env)

namespace Process

variable {σ ρ : Type} (fsm : FSM σ ρ) (initial : σ)

/-- A transport with a heartbeat fast path takes it for heartbeats only. -/
def perform (s : Process σ ρ) (env : Env) : Work → Option Outcome
  | .input (.heartbeat req) =>
    if req.isHeartbeat then s.raft.step (.heartbeat req) env else none
  | .input input => s.raft.step input env
  | .restore user =>
    match s.raft.down, s.raft.main with
    | false, .leader stepDown true =>
      some { raft := { s.raft.restoreUserSnapshot user env with main := .leader stepDown false } }
    | _, _ => none

def storeCall (s : Process σ ρ) (env : Env) : Work → List (LogStore × List Log)
  | .input input => (s.raft.storeCall env input).toList
  | .restore _ => []

def applyBatch (t : FSMThread σ ρ) (batch : List Log) : Option (FSMThread σ ρ) :=
  t.applyBatch fsm (batch.map (fun l => ⟨l, none⟩))

/-- The FSM thread when it has taken everything from its channel. -/
def drained (s : Process σ ρ) : Option (FSMThread σ ρ) :=
  s.fsmMutateCh.foldlM (applyBatch fsm) s.thread

/-- The FSM as `NewRaft` restores it from the newest snapshot; `runFSM` starts with
the index 0 all the same. -/
def startFSM (snapshots : List Snapshot) : σ × Bool :=
  match snapshots with
  | [] => (initial, true)
  | snapshot :: _ => fsm.restore initial snapshot.contents

def restart (s : Process σ ρ) (env : Env) : Option (Process σ ρ) :=
  let (state, ok) := startFSM fsm initial s.raft.snapshots
  (s.raft.step .restart { env with restoreFSM := ok }).map (fun o =>
    { raft := o.raft, thread := { state := state }
      storeCalls := s.storeCalls })

/-- The main thread does something that leaves the FSM alone, but for the entries it
is sent. -/
def proceed (s : Process σ ρ) (work : Work) (env : Env) : Option (Process σ ρ) :=
  (s.perform env work).map (fun o =>
    { s with
      raft := o.raft
      fsmMutateCh := s.fsmMutateCh ++
        cutBatches s.raft.conf.maxAppendEntries (appliedLogs o.events) []
      storeCalls := s.storeCall env work ++ s.storeCalls })

/-- The main thread waits until the FSM has taken all the entries and then the
snapshot, if it gets so far as to write it. -/
def install (s : Process σ ρ) (work : Work) (env : Env) (snapshot : Snapshot) :
    Option (Process σ ρ) :=
  match s.drained fsm with
  | none => some { s with raft := { s.raft with down := true } }
  | some thread =>
    let (thread, ok) := thread.restore fsm snapshot
    (s.perform { env with restoreFSM := ok } work).map (fun o =>
      if s.raft.snapshots.length < o.raft.snapshots.length then
        { s with
          raft := o.raft, thread := thread, fsmMutateCh := []
          acknowledged := match o.response with
            | some (.installSnapshot resp) =>
              if resp.success then snapshot.metadata.index :: s.acknowledged else s.acknowledged
            | _ => s.acknowledged }
      else { s with raft := o.raft })

def main (s : Process σ ρ) (work : Work) (env : Env) : Option (Process σ ρ) :=
  if s.raft.down then
    match work with
    | .input .restart => s.restart fsm initial env
    | _ => none
  else
    match work.snapshot? s.raft with
    | none => s.proceed work env
    | some snapshot => s.install fsm work env snapshot

def dies (s : Process σ ρ) (work : Work) (env : Env) : Option (Process σ ρ) :=
  if s.raft.down then none
  else
    (s.perform env work).map (fun o =>
      { s with
        raft := { o.raft with down := true }
        storeCalls := s.storeCall env work ++ s.storeCalls })

/-- The snapshot thread has asked the main thread for the configurations, and goes on
only if the committed one is covered. -/
def configurations (s : Process σ ρ) (index term : Nat) (state : σ) : Process σ ρ :=
  let c := s.raft.configurations
  { s with
    raft := { s.raft with main := s.raft.main.again }
    taking := if index < c.committedIndex then .idle
      else .configured index term state c.committed c.committedIndex }

/-- The snapshot `takeSnapshot` creates and persists. -/
def takenSnapshot (index term : Nat) (state : σ) (committed : Configuration)
    (committedIndex : Nat) : Snapshot :=
  { metadata :=
      { index := index, term := term, configuration := committed
        configurationIndex := committedIndex, size := (fsm.persist state).length }
    contents := fsm.persist state }

def persist (s : Process σ ρ) (snapshot : Snapshot) (env : Env) : Process σ ρ :=
  if env.createSink = false ∨ env.copySink = false ∨ env.closeSink = false then
    { s with taking := .idle }
  else
    { s with
      raft := { s.raft with snapshots := addSnapshot snapshot s.raft.snapshots }
      taking := .closed snapshot.metadata.index snapshot.metadata.term }

/-- The steps of the FSM thread and of the snapshot thread. -/
def stepBeside (s : Process σ ρ) : ProcessAction → Option (Process σ ρ)
  | .main _ _ | .dies _ _ => none
  | .apply =>
    match s.fsmMutateCh with
    | [] => none
    | batch :: rest =>
      match applyBatch fsm s.thread batch with
      | none => some { s with raft := { s.raft with down := true } }
      | some thread => some { s with thread := thread, fsmMutateCh := rest }
  | .snapshot =>
    match s.taking with
    | .idle =>
      if s.thread.lastIndex = 0 then none
      else some { s with taking := .snapped s.thread.lastIndex s.thread.lastTerm s.thread.state }
    | _ => none
  | .configurations =>
    match s.taking with
    | .snapped index term state =>
      if s.raft.main.selecting then some (s.configurations index term state) else none
    | _ => none
  | .persist env =>
    match s.taking with
    | .configured index term state committed committedIndex =>
      some (s.persist (takenSnapshot fsm index term state committed committedIndex) env)
    | _ => none
  | .setLastSnapshot =>
    match s.taking with
    | .closed index term =>
      some { s with raft := s.raft.setLastSnapshot index term, taking := .compacting index }
    | _ => none
  | .compact env =>
    match s.taking with
    | .compacting index => some { s with raft := s.raft.compactLogs index env, taking := .idle }
    | _ => none

def step (s : Process σ ρ) (a : ProcessAction) : Option (Process σ ρ) :=
  match a with
  | .main work env => s.main fsm initial work env
  | .dies work env => s.dies work env
  | _ => if s.raft.down then none else s.stepBeside fsm a

/-- The runs of one server on any stores in which no vote is recorded, with an FSM
that starts in the state `initial`. -/
def system : Lib.System (Process σ ρ) ProcessAction where
  init := fun s => ∃ conf currentTerm logs snapshots,
    s = { raft := { conf := conf, stable := { currentTerm := currentTerm }, logs := logs
                    snapshots := snapshots, down := true }
          thread := { state := initial } }
  step := step fsm initial

end Process

end PerfRaft
