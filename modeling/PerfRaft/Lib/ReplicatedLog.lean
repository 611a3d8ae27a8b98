import Mathlib.Data.Set.Insert
import Mathlib.Logic.Function.Basic

namespace PerfRaft.Lib

/-- Log entries carry the term they were created in. -/
class Stamped (E : Type) where
  stamp : E → Nat

export Stamped (stamp)

/-- The term of the last entry, 0 for the empty log. -/
def lastStamp {E : Type} [Stamped E] (l : List E) : Nat := (l.getLast?.map stamp).getD 0

/-- The log `R` is at least as up to date as `l`. -/
def UpToDate {E : Type} [Stamped E] (l R : List E) : Prop :=
  lastStamp l < lastStamp R ∨ (lastStamp l = lastStamp R ∧ l.length ≤ R.length)

namespace Replicated

variable {N E : Type}

/-- The entries some logs start with before the first election. -/
structure Setting (E : Type) [Stamped E] where
  rootTerm : Nat
  root : List E
  root_stamp : ∀ e ∈ root, stamp e = rootTerm

/-- An election that was won, with the log the leader had then. -/
structure Win (N E : Type) where
  leader : N
  term : Nat
  log : List E
  quorum : List N

/-- A vote, with the log it was asked for with and the elections won before. -/
structure Vote (N E : Type) where
  voter : N
  candidate : N
  term : Nat
  log : List E
  seen : List (Win N E)

/-- A request of a leader of `term`: to store the entries of `log` up to `last`. -/
structure Msg (E : Type) where
  term : Nat
  log : List E
  last : Nat

/-- A node has stored the entries up to `last` of a leader of `term`. -/
structure Ack (N E : Type) where
  node : N
  term : Nat
  last : Nat
  seen : List (Win N E)

/-- Nodes that replicate a log. `wins` has the newest election first; `leaderLog t` is
the log of the leader of term `t` with all that it has appended in this term. -/
structure State (N E : Type) where
  term : N → Nat
  log : N → List E
  reqs : N → Nat → Option (List E)
  votes : Set (Vote N E)
  wins : List (Win N E)
  leaderLog : Nat → List E
  msgs : Set (Msg E)
  acks : Set (Ack N E)

/-- The log of a node that accepts a request: the same when it has all of it, and
otherwise what the request says. -/
noncomputable def accepted (l : List E) (m : Msg E) : List E :=
  open Classical in if m.log.take m.last <+: l then l else m.log.take m.last

section

variable [DecidableEq N] [Stamped E] (g : Setting E)

/-- The steps of the nodes. Who may decide an election is left open: what is needed of
elections is that a term is won once. A leader of a term may go on sending requests of
this term, cut from the log it has then, after its term has passed. -/
inductive Step : State N E → State N E → Prop
  | bump (s : State N E) (n : N) (t : Nat) (hle : s.term n ≤ t) :
      Step s { s with term := Function.update s.term n t }
  | ask (s : State N E) (n : N) (hnew : s.reqs n (s.term n) = none) :
      Step s { s with
        reqs := Function.update s.reqs n (Function.update (s.reqs n) (s.term n) (some (s.log n))) }
  | grant (s : State N E) (v n : N) (R : List E) (hreq : s.reqs n (s.term v) = some R)
      (hnew : ∀ vote ∈ s.votes, vote.voter = v → vote.term ≠ s.term v)
      (hlog : UpToDate (s.log v) R) :
      Step s { s with votes := insert ⟨v, n, s.term v, R, s.wins⟩ s.votes }
  | win (s : State N E) (n : N) (Q : List N) (hroot : g.rootTerm < s.term n)
      (hvotes : ∀ v ∈ Q, ∃ vote ∈ s.votes, vote.voter = v ∧ vote.candidate = n ∧
        vote.term = s.term n)
      (hnew : ∀ w ∈ s.wins, w.term ≠ s.term n) :
      Step s { s with
        wins := ⟨n, s.term n, s.log n, Q⟩ :: s.wins
        leaderLog := Function.update s.leaderLog (s.term n) (s.log n) }
  | append (s : State N E) (n : N) (es : List E)
      (hwon : ∃ w ∈ s.wins, w.leader = n ∧ w.term = s.term n)
      (hes : ∀ e ∈ es, stamp e = s.term n) :
      Step s { s with
        log := Function.update s.log n (s.log n ++ es)
        leaderLog := Function.update s.leaderLog (s.term n) (s.log n ++ es)
        acks := insert ⟨n, s.term n, (s.log n ++ es).length, s.wins⟩ s.acks }
  | cut (s : State N E) (n : N) (t last : Nat)
      (hwon : ∃ w ∈ s.wins, w.leader = n ∧ w.term = t) (hlast : last ≤ (s.log n).length) :
      Step s { s with msgs := insert ⟨t, s.log n, last⟩ s.msgs }
  | accept (s : State N E) (n : N) (m : Msg E) (hm : m ∈ s.msgs) (hterm : s.term n = m.term) :
      Step s { s with
        log := Function.update s.log n (accepted (s.log n) m)
        acks := insert ⟨n, m.term, m.last, s.wins⟩ s.acks }

/-- Every log is empty or the root. -/
structure Init (s : State N E) : Prop where
  log : ∀ n, s.log n = [] ∨ s.log n = g.root
  reqs : ∀ n t, s.reqs n t = none
  votes : s.votes = ∅
  wins : s.wins = []
  root : s.leaderLog g.rootTerm = g.root
  leaderLog : ∀ t, t ≠ g.rootTerm → s.leaderLog t = []
  msgs : s.msgs = ∅
  acks : s.acks = ∅

/-- `Steps s s'`: any number of steps lead from `s` to `s'`. -/
inductive Steps (s : State N E) : State N E → Prop
  | refl : Steps s s
  | tail {s' s'' : State N E} : Steps s s' → Step g s' s'' → Steps s s''

end

end Replicated

end PerfRaft.Lib
