import Mathlib.Data.List.Dedup
import Mathlib.Data.List.Sort
import PerfRaft.Configuration

namespace PerfRaft

/-- `matchIndexes` is a map, kept as an association list; `commitCh` tells
whether the one-place channel holds a notification. -/
structure Commitment where
  commitCh : Bool := false
  matchIndexes : List (ServerID × Nat)
  commitIndex : Nat := 0
  startIndex : Nat
  deriving DecidableEq

def newCommitment (configuration : Configuration) (startIndex : Nat) : Commitment :=
  { matchIndexes := configuration.voterIDs.dedup.map (fun id => (id, 0)), startIndex := startIndex }

namespace Commitment

/-- Go's map lookup. -/
def matchIndex (c : Commitment) (server : ServerID) : Option Nat :=
  c.matchIndexes.lookup server

/-- The entry at position `(n-1)/2` of the sorted match indexes. -/
def quorumMatchIndex (c : Commitment) : Nat :=
  let matched := (c.matchIndexes.map Prod.snd).insertionSort (· ≤ ·)
  matched.getD ((matched.length - 1) / 2) 0

def recalculate (c : Commitment) : Commitment :=
  if c.matchIndexes = [] then c
  else if c.commitIndex < c.quorumMatchIndex ∧ c.startIndex ≤ c.quorumMatchIndex then
    { c with commitIndex := c.quorumMatchIndex, commitCh := true }
  else c

def setConfiguration (c : Commitment) (configuration : Configuration) : Commitment :=
  recalculate
    { c with
      matchIndexes := configuration.voterIDs.dedup.map (fun id => (id, (c.matchIndex id).getD 0)) }

def setMatchIndex (c : Commitment) (server : ServerID) (matchIndex : Nat) : Commitment :=
  { c with
    matchIndexes := c.matchIndexes.map
      (fun entry => if entry.1 = server then (entry.1, matchIndex) else entry) }

/-- `match`, which is a keyword here. -/
def matchServer (c : Commitment) (server : ServerID) (matchIndex : Nat) : Commitment :=
  match c.matchIndex server with
  | none => c
  | some prev =>
    if prev < matchIndex then (c.setMatchIndex server matchIndex).recalculate else c

end Commitment

end PerfRaft
