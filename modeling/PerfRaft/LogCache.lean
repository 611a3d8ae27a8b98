import PerfRaft.Lib.Slots
import PerfRaft.Log

namespace PerfRaft

/-- An implementation of `LogStore` over its own state, with the errors it returns.
GetLog finds the entry or returns ErrLogNotFound. -/
structure LogBackend (S : Type) where
  monotonic : Option Bool := none
  getLog : S → Nat → Option Log
  firstIndex : S → Except String Nat
  lastIndex : S → Except String Nat
  storeLog : S → Log → S × Except String Unit
  storeLogs : S → List Log → S × Except String Unit
  deleteRange : S → Nat → Nat → S × Except String Unit

/-- Some calls of a log store. -/
inductive LogStoreCall where
  | storeLog (log : Log)
  | storeLogs (logs : List Log)
  | deleteRange (min max : Nat)
  | getLog (index : Nat)
  deriving DecidableEq

namespace LogBackend

variable {S : Type} (b : LogBackend S)

/-- The store behaves as a map from indexes to entries: a batch that is stored
overwrites what was there, one that fails leaves everything as it was, and a single
entry is stored as a batch of one. -/
structure IsMap : Prop where
  stored : ∀ s logs, (b.storeLogs s logs).2 = .ok () →
    b.getLog (b.storeLogs s logs).1 = Lib.Slots.overwrite Log.index (b.getLog s) logs
  failed : ∀ s logs err, (b.storeLogs s logs).2 = .error err →
    b.getLog (b.storeLogs s logs).1 = b.getLog s
  single : ∀ s log, b.storeLog s log = b.storeLogs s [log]

/-- The state of the store after a call. -/
def call (s : S) : LogStoreCall → S
  | .storeLog log => (b.storeLog s log).1
  | .storeLogs logs => (b.storeLogs s logs).1
  | .deleteRange min max => (b.deleteRange s min max).1
  | .getLog _ => s

def calls (s : S) (cs : List LogStoreCall) : S := cs.foldl b.call s

end LogBackend

/-- `LogCache`: a store with a ring of the entries written last. -/
structure LogCache (S : Type) where
  store : S
  cache : Lib.Slots Log

/-- `NewLogCache`. -/
def newLogCache {S : Type} (capacity : Int) (store : S) : Except String (LogCache S) :=
  if h : capacity ≤ 0 then .error "capacity must be positive"
  else .ok { store := store, cache := .empty capacity.toNat (by omega) }

namespace LogCache

variable {S : Type} (b : LogBackend S) (c : LogCache S)

def isMonotonic : Bool := b.monotonic.getD false

def getLog (idx : Nat) : Option Log :=
  match c.cache.lookup Log.index idx with
  | some cached => some cached
  | none => b.getLog c.store idx

/-- The logs go to the ring only when they have been stored. -/
def storeLogs (logs : List Log) : LogCache S × Except String Unit :=
  match b.storeLogs c.store logs with
  | (store, .error err) =>
    ({ c with store := store },
      .error ("unable to store logs within log store, err: " ++ err.quote))
  | (store, .ok ()) => ({ store := store, cache := c.cache.putAll Log.index logs }, .ok ())

def storeLog (log : Log) : LogCache S × Except String Unit := c.storeLogs b [log]

def firstIndex : Except String Nat := b.firstIndex c.store

def lastIndex : Except String Nat := b.lastIndex c.store

/-- The whole ring is dropped first, whether or not the store succeeds. -/
def deleteRange (min max : Nat) : LogCache S × Except String Unit :=
  let (store, err) := b.deleteRange c.store min max
  ({ store := store, cache := c.cache.clear }, err)

/-- The cache after a call. -/
def call : LogStoreCall → LogCache S
  | .storeLog log => (c.storeLog b log).1
  | .storeLogs logs => (c.storeLogs b logs).1
  | .deleteRange min max => (c.deleteRange b min max).1
  | .getLog _ => c

def calls (cs : List LogStoreCall) : LogCache S := cs.foldl (call b) c

end LogCache

end PerfRaft
