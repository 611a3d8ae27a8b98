import Mathlib.Logic.Function.Basic
import PerfRaft.Configuration
import PerfRaft.Lib.Transition

namespace PerfRaft

/-- A response on its way back, with the call it was produced for. A remote error
comes with a body all the same. -/
structure RPCReply where
  call : Nat
  error : Bytes := []
  body : Bytes := []
  deriving DecidableEq

/-- One outgoing connection: the calls whose request the remote has not read yet, and
the responses that have not been decoded. `dirty` says that something other than
whole requests was written, so that the remote may answer anything. -/
structure NetConn where
  target : ServerAddress
  requests : List Nat := []
  responses : List RPCReply := []
  dirty : Bool := false
  released : Bool := false
  deriving DecidableEq

namespace NetConn

def release (c : NetConn) : NetConn := { c with released := true }

/-- A request is written as a whole. -/
def send (c : NetConn) (call : Nat) : NetConn := { c with requests := c.requests ++ [call] }

/-- A write, an encoding or a flush fails: the request may have been sent as a whole,
in part or not at all. -/
def sendFailed (c : NetConn) (call : Nat) (whole : Bool) : NetConn :=
  { (if whole then c.send call else c) with dirty := true, released := true }

end NetConn

/-- What a goroutine wants a connection for. -/
inductive Use where
  | genericRPC | installSnapshot | pipeline
  deriving DecidableEq

/-- Where a goroutine stands: outside, before `sendRPC`, before `decodeResponse`,
before `returnConn`, in `InstallSnapshot` after `sendRPC`, or with an open pipeline. -/
inductive Caller where
  | idle
  | acquired (conn : Nat) (use : Use)
  | waiting (conn call : Nat)
  | decoded (conn : Nat)
  | streaming (conn : Nat)
  | pipeline (conn : Nat)
  deriving DecidableEq

/-- The connection a goroutine uses. -/
def Caller.conn? : Caller → Option Nat
  | .idle => none
  | .acquired conn _ | .waiting conn _ | .decoded conn | .streaming conn | .pipeline conn => some conn

/-- What a goroutine does with the connection it has been given. A pipeline keeps it
until it is closed. -/
def Caller.start (c : Nat) : Use → Caller
  | .pipeline => .pipeline c
  | use => .acquired c use

/-- `conns` are the connections dialed so far, by number. `results` are the responses
`genericRPC` has decoded, with its call. -/
structure NetworkTransport where
  maxPool : Nat
  connPool : ServerAddress → List Nat := fun _ => []
  conns : Nat → NetConn := fun _ => { target := [] }
  dialed : Nat := 0
  callers : Nat → Caller := fun _ => .idle
  calls : Nat := 0
  shutdown : Bool := false
  results : List (Nat × RPCReply) := []

/-- A goroutine takes its next step, with the outcome it meets; the remote side of a
connection answers the next request, or anything on a dirty one; the transport is
closed. -/
inductive PoolAction where
  | getConn (caller : Nat) (target : ServerAddress) (use : Use)
  | send (caller : Nat)
  | sendFailed (caller : Nat) (whole : Bool)
  | streamFailed (caller : Nat)
  | decode (caller : Nat)
  | decodeFailed (caller : Nat)
  | returnConn (caller : Nat)
  | closePipeline (caller : Nat)
  | answer (conn : Nat) (error body : Bytes)
  | garble (conn : Nat) (reply : RPCReply)
  | closeStreams
  | close

namespace NetworkTransport

def setCaller (n : NetworkTransport) (i : Nat) (caller : Caller) : NetworkTransport :=
  { n with callers := Function.update n.callers i caller }

def setConn (n : NetworkTransport) (c : Nat) (conn : NetConn) : NetworkTransport :=
  { n with conns := Function.update n.conns c conn }

def setPool (n : NetworkTransport) (target : ServerAddress) (conns : List Nat) : NetworkTransport :=
  { n with connPool := Function.update n.connPool target conns }

/-- `getConn`: the last connection of the pool, or a new one. -/
def getConn (n : NetworkTransport) (target : ServerAddress) : NetworkTransport × Nat :=
  match (n.connPool target).getLast? with
  | some conn => (n.setPool target (n.connPool target).dropLast, conn)
  | none =>
    ({ n.setConn n.dialed { target := target } with dialed := n.dialed + 1 }, n.dialed)

/-- `returnConn`. -/
def returnConn (n : NetworkTransport) (c : Nat) : NetworkTransport :=
  let key := (n.conns c).target
  let conns := n.connPool key
  if n.shutdown = false ∧ conns.length < n.maxPool then n.setPool key (conns ++ [c])
  else n.setConn c (n.conns c).release

/-- `sendRPC` succeeds. What follows the request of `InstallSnapshot` on the connection
is the snapshot. -/
def send (n : NetworkTransport) (i : Nat) : Option NetworkTransport :=
  let n' := { n with calls := n.calls + 1 }
  match n.callers i with
  | .acquired c .genericRPC =>
    some ((n'.setConn c ((n.conns c).send n.calls)).setCaller i (.waiting c n.calls))
  | .acquired c .installSnapshot =>
    some ((n'.setConn c { (n.conns c).send n.calls with dirty := true }).setCaller i (.streaming c))
  | .pipeline c => some (n'.setConn c ((n.conns c).send n.calls))
  | _ => none

/-- `sendRPC` fails and releases the connection. -/
def sendFailed (n : NetworkTransport) (i : Nat) (whole : Bool) : Option NetworkTransport :=
  let n' := { n with calls := n.calls + 1 }
  match n.callers i with
  | .acquired c _ => some ((n'.setConn c ((n.conns c).sendFailed n.calls whole)).setCaller i .idle)
  | .pipeline c => some (n'.setConn c ((n.conns c).sendFailed n.calls whole))
  | _ => none

/-- `decodeResponse` reads a whole response. -/
def decode (n : NetworkTransport) (i : Nat) : Option NetworkTransport :=
  match n.callers i with
  | .waiting c call =>
    match (n.conns c).responses with
    | [] => none
    | reply :: rest =>
      let n := n.setConn c { n.conns c with responses := rest }
      some ({ n with results := (call, reply) :: n.results }.setCaller i (.decoded c))
  | .streaming c =>
    match (n.conns c).responses with
    | [] => none
    | _ :: _ => some ((n.setConn c (n.conns c).release).setCaller i .idle)
  | .pipeline c =>
    match (n.conns c).responses with
    | [] => none
    | _ :: rest => some (n.setConn c { n.conns c with responses := rest })
  | _ => none

/-- `decodeResponse` fails, having read nothing or a part, and releases the
connection. -/
def decodeFailed (n : NetworkTransport) (i : Nat) : Option NetworkTransport :=
  match n.callers i with
  | .waiting c _ | .streaming c => some ((n.setConn c (n.conns c).release).setCaller i .idle)
  | .pipeline c => some (n.setConn c (n.conns c).release)
  | _ => none

def step (n : NetworkTransport) : PoolAction → Option NetworkTransport
  | .getConn i target use =>
    if n.callers i = .idle then
      let (n, c) := n.getConn target
      some (n.setCaller i (Caller.start c use))
    else none
  | .send i => n.send i
  | .sendFailed i whole => n.sendFailed i whole
  | .streamFailed i =>
    match n.callers i with
    | .streaming c => some ((n.setConn c (n.conns c).release).setCaller i .idle)
    | _ => none
  | .decode i => n.decode i
  | .decodeFailed i => n.decodeFailed i
  | .returnConn i =>
    match n.callers i with
    | .decoded c => some ((n.returnConn c).setCaller i .idle)
    | _ => none
  | .closePipeline i =>
    match n.callers i with
    | .pipeline c => some ((n.setConn c (n.conns c).release).setCaller i .idle)
    | _ => none
  | .answer c error body =>
    match (n.conns c).requests with
    | [] => none
    | call :: rest =>
      some (n.setConn c
        { n.conns c with
          requests := rest, responses := (n.conns c).responses ++ [⟨call, error, body⟩] })
  | .garble c reply =>
    if (n.conns c).dirty then
      some (n.setConn c { n.conns c with responses := (n.conns c).responses ++ [reply] })
    else none
  | .closeStreams =>
    some
      { n with
        conns := fun c => if c ∈ n.connPool (n.conns c).target then (n.conns c).release else n.conns c
        connPool := fun _ => [] }
  | .close => some { n with shutdown := true }

/-- A transport on which nothing has been sent yet. -/
def system : Lib.System NetworkTransport PoolAction where
  init := fun n => ∃ maxPool, n = { maxPool := maxPool }
  step := step

end NetworkTransport

end PerfRaft
