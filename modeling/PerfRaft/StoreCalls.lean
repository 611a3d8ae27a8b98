import PerfRaft.Lib.Transition
import PerfRaft.Replication

namespace PerfRaft

/-- Where a replication goroutine stands in `setupAppendEntries`: before
`setPreviousLog`, or in the loop of `setNewLogs` with what it has read. -/
inductive Setup where
  | idle
  | previous (nextIndex lastIndex : Nat)
  | logs (nextIndex lastIndex prevLogEntry prevLogTerm : Nat) (entries : List Log)
  deriving DecidableEq

/-- Where the main thread stands in `appendEntries`: at the comparison of the next
entry, before DeleteRange, or before StoreLogs. -/
inductive Append where
  | idle
  | compare (lastLogIdx : Nat) (entries : List Log)
  | delete (lastLogIdx : Nat) (entry : Log) (rest : List Log)
  | store (entry : Log) (rest : List Log)
  deriving DecidableEq

/-- What a request says of the log. -/
structure Slice where
  prevLogEntry : Nat
  prevLogTerm : Nat
  entries : List Log
  deriving DecidableEq

/-- One server between two calls of its log store. `past` are the contents the
store had before the present ones, `sent` the requests sent so far. -/
structure StoreRun where
  raft : Raft
  setup : Setup := .idle
  append : Append := .idle
  past : List LogStore := []
  sent : List Slice := []

/-- The goroutine starts a request or goes on with it; the main thread comes to the
new entries of a request it has accepted, or goes on with them. -/
inductive StoreCall where
  | setupAppendEntries (nextIndex lastIndex : Nat)
  | read
  | appendEntries (entries : List Log)
  | write
  deriving DecidableEq

namespace StoreRun

/-- The last index `setNewLogs` reads. -/
def maxIndex (s : StoreRun) (nextIndex lastIndex : Nat) : Nat :=
  min (nextIndex + s.raft.conf.maxAppendEntries - 1) lastIndex

/-- The next GetLog of the goroutine; after the last one the request is sent. -/
def read (s : StoreRun) : Option StoreRun :=
  match s.setup with
  | .idle => none
  | .previous nextIndex lastIndex =>
    match s.raft.setPreviousLog nextIndex with
    | none => some { s with setup := .idle }
    | some (prevLogEntry, prevLogTerm) =>
      some { s with setup := .logs nextIndex lastIndex prevLogEntry prevLogTerm [] }
  | .logs nextIndex lastIndex prevLogEntry prevLogTerm entries =>
    if nextIndex + entries.length ≤ s.maxIndex nextIndex lastIndex then
      match s.raft.logs.getLog (nextIndex + entries.length) with
      | none => some { s with setup := .idle }
      | some entry =>
        some { s with setup := .logs nextIndex lastIndex prevLogEntry prevLogTerm (entries ++ [entry]) }
    else some { s with setup := .idle, sent := ⟨prevLogEntry, prevLogTerm, entries⟩ :: s.sent }

/-- The store gets new contents. -/
def setLogs (s : StoreRun) (logs : LogStore) : StoreRun :=
  { s with raft := { s.raft with logs := logs }, past := s.raft.logs :: s.past }

/-- The next call of the main thread. -/
def write (s : StoreRun) : Option StoreRun :=
  match s.append with
  | .idle => none
  | .compare _ [] => some { s with append := .idle }
  | .compare lastLogIdx (entry :: rest) =>
    if lastLogIdx < entry.index then some { s with append := .store entry rest }
    else
      match s.raft.logs.getLog entry.index with
      | none => some { s with append := .idle }
      | some storeEntry =>
        if entry.term ≠ storeEntry.term then some { s with append := .delete lastLogIdx entry rest }
        else some { s with append := .compare lastLogIdx rest }
  | .delete lastLogIdx entry rest =>
    some { s.setLogs (s.raft.logs.deleteRange entry.index lastLogIdx) with append := .store entry rest }
  | .store entry rest =>
    let last := (entry :: rest).getLast (List.cons_ne_nil _ _)
    let s := s.setLogs (s.raft.logs.storeLogs (entry :: rest))
    some { s with raft := s.raft.setLastLog last.index last.term, append := .idle }

def step (s : StoreRun) : StoreCall → Option StoreRun
  | .setupAppendEntries nextIndex lastIndex =>
    -- a next index is never 0
    if s.setup = .idle ∧ 1 ≤ nextIndex then some { s with setup := .previous nextIndex lastIndex } else none
  | .read => s.read
  | .appendEntries entries =>
    if s.append = .idle then some { s with append := .compare s.raft.lastLogIndex entries } else none
  | .write => s.write

/-- Any number of requests and of accepted AppendEntries, on any server. -/
def system : Lib.System StoreRun StoreCall where
  init := fun s => ∃ r, s = { raft := r }
  step := step

end StoreRun

/-- The previous entry and the entries of a request are a contiguous segment of
`logs`. The previous entry may be the last snapshot, and there is none before the
first index. -/
def Slice.SegmentOf (slice : Slice) (r : Raft) (logs : LogStore) : Prop :=
  (if slice.prevLogEntry = 0 then slice.prevLogTerm = 0
    else if slice.prevLogEntry = r.lastSnapshotIndex then slice.prevLogTerm = r.lastSnapshotTerm
    else (logs.getLog slice.prevLogEntry).map Log.term = some slice.prevLogTerm) ∧
  (List.range' (slice.prevLogEntry + 1) slice.entries.length).map logs.getLog =
    slice.entries.map some

instance (slice : Slice) (r : Raft) (logs : LogStore) : Decidable (slice.SegmentOf r logs) :=
  inferInstanceAs (Decidable (_ ∧ _))

end PerfRaft
