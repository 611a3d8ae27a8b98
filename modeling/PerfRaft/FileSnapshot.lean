import PerfRaft.Lib.Top
import PerfRaft.Lib.Transition
import PerfRaft.State

namespace PerfRaft

/-- What `meta.json` has; the CRC is empty until the snapshot is finalized. -/
structure FileSnapshotMeta extends SnapshotMeta where
  version : Nat
  id : Bytes
  crc : Bytes := []
  deriving DecidableEq

/-- A directory of the store, with the two files in it. -/
structure SnapshotDir where
  metadata : FileSnapshotMeta
  state : Bytes := []
  deriving DecidableEq

/-- A call on a sink. -/
inductive SinkCall where
  | write (b : Bytes)
  | close
  | cancel
  deriving DecidableEq

/-- The sink is not written to after such a call. -/
def SinkCall.ends : SinkCall → Bool
  | .write _ => false
  | .close | .cancel => true

def SinkCall.written? : SinkCall → Option Bytes
  | .write b => some b
  | .close | .cancel => none

/-- A sink with the name of its directory and the checksum's input so far. The history
has the calls that were made on it. -/
structure FileSnapshotSink where
  dir : Bytes
  metadata : FileSnapshotMeta
  buffered : Bytes := []
  hashed : Bytes := []
  closed : Bool := false
  calls : List SinkCall := []
  deriving DecidableEq

/-- The directory of the store by name, and every sink it has given out. -/
structure FileSnapshotStore where
  retain : Nat
  dirs : List (Bytes × SnapshotDir) := []
  sinks : List FileSnapshotSink := []

/-- A call of the store, or of the sink with the given ID. The buffered writer passes
on some of what it has at a write. -/
inductive FileSnapshotAction where
  | create (version index term : Nat) (configuration : Configuration) (configurationIndex msec : Nat)
  | write (id : Bytes) (b : Bytes) (passed : Nat)
  | close (id : Bytes)
  | cancel (id : Bytes)

/-- `.tmp`. -/
def tmpSuffix : Bytes := [46, 116, 109, 112]

def decimal (n : Nat) : Bytes := (Nat.toDigits 10 n).map Char.toUInt8

/-- `snapshotName` at the given time, with a dash between the numbers. -/
def snapshotName (term index msec : Nat) : Bytes :=
  decimal term ++ [45] ++ decimal index ++ [45] ++ decimal msec

def hasSuffix (s suffix : Bytes) : Bool := suffix.isSuffixOf s

def trimSuffix (s suffix : Bytes) : Bytes :=
  if hasSuffix s suffix then s.take (s.length - suffix.length) else s

/-- `Less` of `snapMetaSlice`. -/
def snapMetaLess (a b : FileSnapshotMeta) : Bool :=
  if a.term ≠ b.term then decide (a.term < b.term)
  else if a.index ≠ b.index then decide (a.index < b.index)
  else decide (a.id < b.id)

/-- The order of `sort.Reverse`: the newer one comes first. -/
def notOlder (a b : FileSnapshotMeta) : Prop := snapMetaLess a b = false

instance : DecidableRel notOlder := fun a b => inferInstanceAs (Decidable (snapMetaLess a b = false))

namespace FileSnapshotSink

/-- The buffered writer takes `b` and passes some of what it has on to the file and to
the checksum. -/
def write (sink : FileSnapshotSink) (b : Bytes) (passed : Nat) : FileSnapshotSink :=
  let data := sink.buffered ++ b
  { sink with buffered := data.drop passed, hashed := sink.hashed ++ data.take passed }

/-- The sink is closed and everything it had buffered is passed on; its metadata gets
the size of the file and the checksum. -/
def finalize (sink : FileSnapshotSink) (crc64 : Bytes → Bytes) (size : Nat) : FileSnapshotSink :=
  let hashed := sink.hashed ++ sink.buffered
  { sink with
    closed := true, buffered := [], hashed := hashed
    metadata := { sink.metadata with size := size, crc := crc64 hashed } }

def called (sink : FileSnapshotSink) (call : SinkCall) : FileSnapshotSink :=
  { sink with calls := sink.calls ++ [call] }

/-- The writes made before the sink was closed or cancelled. -/
def writes (sink : FileSnapshotSink) : List Bytes :=
  (sink.calls.takeWhile (fun call => !call.ends)).filterMap SinkCall.written?

def ended (sink : FileSnapshotSink) : Bool := sink.calls.any SinkCall.ends

/-- The sink was closed before it was cancelled. -/
def completed (sink : FileSnapshotSink) : Bool := sink.calls.find? SinkCall.ends == some .close

end FileSnapshotSink

namespace FileSnapshotStore

def sink? (f : FileSnapshotStore) (id : Bytes) : Option FileSnapshotSink :=
  f.sinks.find? (fun sink => sink.metadata.id == id)

def setSink (f : FileSnapshotStore) (id : Bytes) (sink : FileSnapshotSink) : FileSnapshotStore :=
  { f with sinks := f.sinks.map (fun old => if old.metadata.id = id then sink else old) }

/-- Some file in the directory `name` is written. -/
def modifyDir (f : FileSnapshotStore) (name : Bytes) (g : SnapshotDir → SnapshotDir) :
    FileSnapshotStore :=
  { f with dirs := f.dirs.map (fun d => if d.1 = name then (d.1, g d.2) else d) }

def rename (f : FileSnapshotStore) (old new : Bytes) : FileSnapshotStore :=
  { f with dirs := f.dirs.map (fun d => if d.1 = old then (new, d.2) else d) }

def removeAll (f : FileSnapshotStore) (name : Bytes) : FileSnapshotStore :=
  { f with dirs := f.dirs.filter (fun d => decide (d.1 ≠ name)) }

/-- The metadata of a directory that holds a snapshot of a version we understand. -/
def snapshotMeta? (d : Bytes × SnapshotDir) : Option FileSnapshotMeta :=
  if hasSuffix d.1 tmpSuffix then none
  else if 1 < d.2.metadata.version then none
  else some d.2.metadata

def getSnapshots (f : FileSnapshotStore) : List FileSnapshotMeta :=
  (f.dirs.filterMap snapshotMeta?).insertionSort notOlder

def list (f : FileSnapshotStore) : List FileSnapshotMeta := f.getSnapshots.take f.retain

def reapSnapshots (f : FileSnapshotStore) : FileSnapshotStore :=
  (f.getSnapshots.drop f.retain).foldl (fun f m => f.removeAll m.id) f

/-- The directory is made if it is not there, and both files are truncated. -/
def create (f : FileSnapshotStore) (version index term : Nat) (configuration : Configuration)
    (configurationIndex msec : Nat) : FileSnapshotStore :=
  if version ≠ 1 then f
  else
    let name := snapshotName term index msec
    let path := name ++ tmpSuffix
    let metadata : FileSnapshotMeta :=
      { version := version, id := name, index := index, term := term
        configuration := configuration, configurationIndex := configurationIndex }
    { f with
      dirs := (path, { metadata := metadata }) :: f.dirs.filter (fun d => decide (d.1 ≠ path))
      sinks := { dir := path, metadata := metadata } :: f.sinks }

/-- `Write`. Once the file is closed nothing reaches it any more. -/
def write (f : FileSnapshotStore) (sink : FileSnapshotSink) (b : Bytes) (passed : Nat) :
    FileSnapshotStore :=
  if sink.closed then f
  else
    let data := sink.buffered ++ b
    (f.modifyDir sink.dir (fun d => { d with state := d.state ++ data.take passed })).setSink
      sink.metadata.id (sink.write b passed)

section

variable (crc64 : Bytes → Bytes)

/-- `finalize`: flush, take the size of the file, close it, and take the checksum. -/
def finalize (f : FileSnapshotStore) (sink : FileSnapshotSink) :
    FileSnapshotStore × FileSnapshotSink :=
  let f := f.modifyDir sink.dir (fun d => { d with state := d.state ++ sink.buffered })
  let size := ((f.dirs.find? (fun d => d.1 == sink.dir)).map (fun d => d.2.state.length)).getD 0
  (f, sink.finalize crc64 size)

def close (f : FileSnapshotStore) (sink : FileSnapshotSink) : FileSnapshotStore :=
  if sink.closed then f
  else
    let (f, sink) := f.finalize crc64 sink
    let f := f.modifyDir sink.dir (fun d => { d with metadata := sink.metadata })
    let f := f.rename sink.dir (trimSuffix sink.dir tmpSuffix)
    f.reapSnapshots.setSink sink.metadata.id sink

def cancel (f : FileSnapshotStore) (sink : FileSnapshotSink) : FileSnapshotStore :=
  if sink.closed then f
  else
    let (f, sink) := f.finalize crc64 sink
    (f.removeAll sink.dir).setSink sink.metadata.id sink

/-- `Open`: the metadata and what the reader delivers, if the checksum is right. -/
def openSnapshot (f : FileSnapshotStore) (id : Bytes) : Option (FileSnapshotMeta × Bytes) :=
  match f.dirs.find? (fun d => d.1 == id) with
  | none => none
  | some (_, d) => if d.metadata.crc = crc64 d.state then some (d.metadata, d.state) else none

/-- A call goes into the history of its sink. -/
def record (f : FileSnapshotStore) (id : Bytes) (call : SinkCall) : FileSnapshotStore :=
  { f with sinks := f.sinks.map (fun sink => if sink.metadata.id = id then sink.called call else sink) }

def step (f : FileSnapshotStore) : FileSnapshotAction → Option FileSnapshotStore
  | .create version index term configuration configurationIndex msec =>
    some (f.create version index term configuration configurationIndex msec)
  | .write id b passed =>
    (f.sink? id).map (fun sink => (f.write sink b passed).record id (.write b))
  | .close id => (f.sink? id).map (fun sink => (f.close crc64 sink).record id .close)
  | .cancel id => (f.sink? id).map (fun sink => (f.cancel crc64 sink).record id .cancel)

/-- `NewFileSnapshotStore` on an empty directory, which retains at least one. -/
def system : Lib.System FileSnapshotStore FileSnapshotAction where
  init := fun f => ∃ retain, 1 ≤ retain ∧ f = { retain := retain }
  step := step crc64

end

/-- No sink gets the ID of an earlier one. -/
def distinctIDs (f : FileSnapshotStore) : FileSnapshotAction → Prop
  | .create _ index term _ _ msec =>
    ∀ sink ∈ f.sinks, sink.metadata.id ≠ snapshotName term index msec
  | _ => True

end FileSnapshotStore

end PerfRaft
