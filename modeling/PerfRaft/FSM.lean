import PerfRaft.AppendEntries
import PerfRaft.Lib.Transition

namespace PerfRaft

/-- The application's FSM with the optional interfaces it implements. A batching
FSM answers each log of a batch. `restore` says whether it succeeded, and leaves
some state behind in either case. -/
structure FSM (σ ρ : Type) where
  batching : Bool := false
  configurationStore : Bool := false
  apply : σ → Log → σ × ρ
  applyBatch : σ → List Log → σ × List ρ
  storeConfiguration : σ → Nat → Configuration → σ
  restore : σ → Bytes → σ × Bool
  persist : σ → Bytes
  length_applyBatch : ∀ state logs, (applyBatch state logs).2.length = logs.length

/-- The locals of `runFSM` and the state of the FSM. `calls` are the calls of Apply
and ApplyBatch with their results and `answers` the futures answered, both since
the last restore. -/
structure FSMThread (σ ρ : Type) where
  state : σ
  lastIndex : Nat := 0
  lastTerm : Nat := 0
  calls : List (List Log × List ρ) := []
  answers : List (Nat × Option ρ) := []

/-- The logs a batching FSM is sent. -/
def shouldSend (l : Log) : Bool :=
  match l.type with
  | .logCommand | .logConfiguration => true
  | _ => false

namespace FSMThread

variable {σ ρ : Type} (fsm : FSM σ ρ)

/-- The future is answered with this response, if there is one. -/
def answer (t : FSMThread σ ρ) (req : CommitTuple) (resp : Option ρ) : FSMThread σ ρ :=
  { t with answers := t.answers ++ req.future.toList.map (fun future => (future, resp)) }

def setLast (t : FSMThread σ ρ) (l : Log) : FSMThread σ ρ :=
  { t with lastIndex := l.index, lastTerm := l.term }

/-- `applySingle`; `none` when `DecodeConfiguration` panics. Without a configuration
store an entry of that type does not move the index. -/
def applySingle (t : FSMThread σ ρ) (req : CommitTuple) : Option (FSMThread σ ρ) :=
  match req.log.type with
  | .logCommand =>
    let (state, resp) := fsm.apply t.state req.log
    let t := { t with state := state, calls := t.calls ++ [([req.log], [resp])] }
    some ((t.setLast req.log).answer req (some resp))
  | .logConfiguration =>
    if fsm.configurationStore = false then some (t.answer req none)
    else
      match decodeConfiguration req.log.data with
      | none => none
      | some configuration =>
        let t := { t with state := fsm.storeConfiguration t.state req.log.index configuration }
        some ((t.setLast req.log).answer req none)
  | _ => some ((t.setLast req.log).answer req none)

/-- The last loop of `applyBatch`: each log that was sent takes the next response. -/
def answerBatch : List CommitTuple → List ρ → List (Nat × Option ρ)
  | [], _ => []
  | req :: rest, responses =>
    if shouldSend req.log then
      req.future.toList.map (fun future => (future, responses.head?)) ++
        answerBatch rest responses.tail
    else req.future.toList.map (fun future => (future, none)) ++ answerBatch rest responses

/-- `applyBatch`; `none` when it panics. -/
def applyBatch (t : FSMThread σ ρ) (reqs : List CommitTuple) : Option (FSMThread σ ρ) :=
  if fsm.batching = false then reqs.foldlM (applySingle fsm) t
  else
    let sendLogs := (reqs.map CommitTuple.log).filter shouldSend
    let (state, responses) :=
      if sendLogs = [] then (t.state, []) else fsm.applyBatch t.state sendLogs
    if sendLogs.length ≠ responses.length then none
    else
      some
        { state := state
          lastIndex := (reqs.getLast?.map (fun req => req.log.index)).getD 0
          lastTerm := (reqs.getLast?.map (fun req => req.log.term)).getD 0
          calls := if sendLogs = [] then t.calls else t.calls ++ [(sendLogs, responses)]
          answers := t.answers ++ answerBatch reqs responses }

/-- The `restore` of `runFSM`, and whether it succeeded. -/
def restore (t : FSMThread σ ρ) (snapshot : Snapshot) : FSMThread σ ρ × Bool :=
  let (state, ok) := fsm.restore t.state snapshot.contents
  if ok then
    ({ state := state, lastIndex := snapshot.metadata.index, lastTerm := snapshot.metadata.term },
      true)
  else ({ t with state := state }, false)

end FSMThread

/-- What goes over `fsmMutateCh`. -/
inductive Mutation where
  | batch (reqs : List CommitTuple)
  | restore (snapshot : Snapshot)
  deriving DecidableEq

/-- The tuples of a batch. -/
def Mutation.tuples : Mutation → List CommitTuple
  | .batch reqs => reqs
  | .restore _ => []

/-- The main thread, the FSM thread and the channel between them. `waiting` says
that the main thread waits for a restore. The history has the calls since the last
restore: `base` is the index of the snapshot, `highest` the highest index `processLogs`
was called with, `processed` are the entries that the log store held up to there when
it was called, `handed` the futures it was given for them, and `responded` those it
has answered itself. -/
structure FSMRun (σ ρ : Type) where
  raft : Raft
  thread : FSMThread σ ρ
  fsmMutateCh : List Mutation := []
  waiting : Bool := false
  base : Nat := 0
  highest : Nat := 0
  processed : List Log := []
  handed : List LogFuture := []
  responded : List Nat := []

/-- `processLogs` is called, with what the log store holds at that time; a snapshot
is sent to be restored; the FSM thread takes the next value from the channel. -/
inductive FSMAction where
  | processLogs (logs : LogStore) (index : Nat) (futures : List LogFuture)
  | restore (snapshot : Snapshot)
  | take

namespace FSMRun

variable {σ ρ : Type} (fsm : FSM σ ρ)

/-- The indexes `processLogs` goes through. -/
def indexes (lastApplied index : Nat) : List Nat :=
  List.range' (lastApplied + 1) (index - lastApplied)

/-- A call of `processLogs` that does not panic, with the futures it answers. -/
def processLogs (s : FSMRun σ ρ) (logs : LogStore) (index : Nat) (futures : List LogFuture) :
    Option (FSMRun σ ρ × List Nat) :=
  let (r, p) := { s.raft with logs := logs }.processLogs index futures
  if p.panicked then none
  else some ({ s with raft := r, fsmMutateCh := s.fsmMutateCh ++ p.batches.map .batch }, p.responded)

/-- The FSM thread restores a snapshot. The main thread waits for it, and has nothing
to do afterwards but to move `lastApplied` when the restore has succeeded. -/
def restored (s : FSMRun σ ρ) (snapshot : Snapshot) (rest : List Mutation) : FSMRun σ ρ × Bool :=
  match s.thread.restore fsm snapshot with
  | (thread, false) => ({ s with thread := thread, fsmMutateCh := rest, waiting := false }, false)
  | (thread, true) =>
    ({ s with
        raft := { s.raft with lastApplied := snapshot.metadata.index }
        thread := thread, fsmMutateCh := rest, waiting := false }, true)

/-- A call of `processLogs` goes into the history. -/
def record (s : FSMRun σ ρ) (logs : LogStore) (index : Nat) (futures : List LogFuture)
    (responded : List Nat) : FSMRun σ ρ :=
  { s with
    highest := max s.highest index
    processed := s.processed ++ (indexes s.highest index).filterMap logs.getLog
    handed := s.handed ++ futures.filter
      (fun f => decide (s.highest < f.log.index) && decide (f.log.index ≤ index))
    responded := s.responded ++ responded }

/-- With a restored snapshot the history starts again. -/
def rebase (s : FSMRun σ ρ) (index : Nat) : FSMRun σ ρ :=
  { s with base := index, highest := index, processed := [], handed := [], responded := [] }

def step (s : FSMRun σ ρ) : FSMAction → Option (FSMRun σ ρ)
  | .processLogs logs index futures =>
    if s.waiting then none
    else (s.processLogs logs index futures).map (fun p => p.1.record logs index futures p.2)
  | .restore snapshot =>
    if s.waiting then none
    else some { s with fsmMutateCh := s.fsmMutateCh ++ [.restore snapshot], waiting := true }
  | .take =>
    match s.fsmMutateCh with
    | [] => none
    | .batch reqs :: rest =>
      (s.thread.applyBatch fsm reqs).map (fun t => { s with thread := t, fsmMutateCh := rest })
    | .restore snapshot :: rest =>
      let (s, ok) := s.restored fsm snapshot rest
      some (if ok then s.rebase snapshot.metadata.index else s)

/-- Any number of calls and restores, on a server that has applied any index. -/
def system : Lib.System (FSMRun σ ρ) FSMAction where
  init := fun s => ∃ conf lastApplied thread,
    1 ≤ conf.maxAppendEntries ∧ thread.calls = [] ∧ thread.answers = [] ∧
      s = { raft := { conf := conf, lastApplied := lastApplied }, thread := thread
            base := lastApplied, highest := lastApplied }
  step := step fsm

end FSMRun

end PerfRaft
