import PerfRaft.LogCache
import PerfRaft.Lib.Transition
import PerfRaft.Lib.Watermarks

namespace PerfRaft

/-- `InmemStore`, as far as it is a log store. The map has the entries under their
indexes, which are `uint64`. -/
structure InmemStore where
  lowIndex : UInt64 := 0
  highIndex : UInt64 := 0
  logs : UInt64 → Option Log := fun _ => none

namespace InmemStore

def firstIndex (i : InmemStore) : UInt64 := i.lowIndex

def lastIndex (i : InmemStore) : UInt64 := i.highIndex

/-- `none` stands for ErrLogNotFound. -/
def getLog (i : InmemStore) (index : UInt64) : Option Log := i.logs index

/-- One turn of the loop of `StoreLogs`. -/
def put (i : InmemStore) (l : Log) : InmemStore :=
  let index := UInt64.ofNat l.index
  { logs := Function.update i.logs index (some l)
    lowIndex := if i.lowIndex = 0 then index else i.lowIndex
    highIndex := if i.highIndex < index then index else i.highIndex }

def storeLogs (i : InmemStore) (logs : List Log) : InmemStore := logs.foldl put i

def storeLog (i : InmemStore) (log : Log) : InmemStore := i.storeLogs [log]

/-- The loop of `DeleteRange`, `turns` times from `j` on. -/
def deleteFrom (logs : UInt64 → Option Log) : (turns : Nat) → (j : UInt64) → UInt64 → Option Log
  | 0, _ => logs
  | turns + 1, j => deleteFrom (Function.update logs j none) turns (j + 1)

/-- The end of `DeleteRange`: watermarks that have passed each other go back to 0. -/
def reset (i : InmemStore) : InmemStore :=
  if i.highIndex < i.lowIndex then { i with lowIndex := 0, highIndex := 0 } else i

/-- The range is inclusive. With the greatest `uint64` for `max` the loop of the source
does not end. -/
def deleteRange (i : InmemStore) (min max : UInt64) : InmemStore :=
  reset
    { logs := deleteFrom i.logs (max.toNat + 1 - min.toNat) min
      lowIndex := if min ≤ i.lowIndex then max + 1 else i.lowIndex
      highIndex := if i.highIndex ≤ max then min - 1 else i.highIndex }

def call (i : InmemStore) : LogStoreCall → InmemStore
  | .storeLog log => i.storeLog log
  | .storeLogs logs => i.storeLogs logs
  | .deleteRange min max => i.deleteRange (UInt64.ofNat min) (UInt64.ofNat max)
  | .getLog _ => i

end InmemStore

/-- The entries that are stored and have not been deleted since. -/
def LogStore.call (held : LogStore) : LogStoreCall → LogStore
  | .storeLog log => held.storeLog log
  | .storeLogs logs => held.storeLogs logs
  | .deleteRange min max => held.deleteRange min max
  | .getLog _ => held

/-- The indexes of the entries. -/
def LogStore.indexes (held : LogStore) : Set Nat := fun n => ∃ e ∈ held, e.index = n

/-- The entries come in the order of their indexes, which are `uint64` from 1 on, above
everything that is held. -/
def LogStore.Appends (held : LogStore) (logs : List Log) : Prop :=
  logs.Pairwise (fun l l' => l.index < l'.index) ∧
    ∀ l ∈ logs, 1 ≤ l.index ∧ l.index < UInt64.size ∧ ∀ e ∈ held, e.index < l.index

instance (held : LogStore) : DecidablePred held.Appends :=
  fun logs => inferInstanceAs (Decidable (logs.Pairwise (fun l l' => l.index < l'.index) ∧
    ∀ l ∈ logs, 1 ≤ l.index ∧ l.index < UInt64.size ∧ ∀ e ∈ held, e.index < l.index))

/-- An `InmemStore` beside the entries it should hold. -/
structure InmemRun where
  store : InmemStore := {}
  held : LogStore := []

namespace InmemRun

def step (w : InmemRun) (c : LogStoreCall) : Option InmemRun :=
  some { store := w.store.call c, held := w.held.call c }

/-- Any calls, on a new store. -/
def system : Lib.System InmemRun LogStoreCall where
  init := fun w => w = {}
  step := step

/-- A DeleteRange call has a range that ends below the greatest `uint64`. -/
def Allowed (w : InmemRun) : LogStoreCall → Prop
  | .storeLog log => w.held.Appends [log]
  | .storeLogs logs => w.held.Appends logs
  | .deleteRange min max => min ≤ max ∧ max < UInt64.size - 1
  | .getLog _ => True

/-- When a DeleteRange call begins at or below the first index, either nothing is left or
the index after the range is held. When it ends at or above the last index, it begins
between 1 and the first index, or the index before the range is held. -/
def LeavesEdges (w : InmemRun) : LogStoreCall → Prop
  | .deleteRange min max =>
    (min ≤ w.held.firstIndex → w.held.lastIndex ≤ max ∨ (w.held.getLog (max + 1)).isSome = true) ∧
      (w.held.lastIndex ≤ max → (1 ≤ min ∧ min ≤ Nat.max w.held.firstIndex 1) ∨
        (w.held.getLog (min - 1)).isSome = true)
  | _ => True

instance (w : InmemRun) : DecidablePred w.Allowed
  | .storeLog log => inferInstanceAs (Decidable (w.held.Appends [log]))
  | .storeLogs logs => inferInstanceAs (Decidable (w.held.Appends logs))
  | .deleteRange min max => inferInstanceAs (Decidable (min ≤ max ∧ max < UInt64.size - 1))
  | .getLog _ => isTrue trivial

instance (w : InmemRun) : DecidablePred w.LeavesEdges
  | .deleteRange min max => inferInstanceAs (Decidable (
    (min ≤ w.held.firstIndex → w.held.lastIndex ≤ max ∨ (w.held.getLog (max + 1)).isSome = true) ∧
      (w.held.lastIndex ≤ max → (1 ≤ min ∧ min ≤ Nat.max w.held.firstIndex 1) ∨
        (w.held.getLog (min - 1)).isSome = true)))
  | .storeLog _ | .storeLogs _ | .getLog _ => isTrue trivial

end InmemRun

end PerfRaft
