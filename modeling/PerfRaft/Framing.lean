import PerfRaft.Cluster
import PerfRaft.Lib.Code

namespace PerfRaft

/-- The msgpack coder, of which it is only assumed that it decodes one value at a
time. The reader of a snapshot request is no part of the encoded value. -/
structure Msgpack where
  appendEntries : Lib.Code UInt8 AppendEntriesRequest
  requestVote : Lib.Code UInt8 RequestVoteRequest
  installSnapshot : Lib.Code UInt8 InstallSnapshotRequest
  timeoutNow : Lib.Code UInt8 TimeoutNowRequest
  requestPreVote : Lib.Code UInt8 RequestPreVoteRequest

def rpcAppendEntries : UInt8 := 0
def rpcRequestVote : UInt8 := 1
def rpcInstallSnapshot : UInt8 := 2
def rpcTimeoutNow : UInt8 := 3
def rpcRequestPreVote : UInt8 := 4

/-- The raw bytes that follow a request on the connection. -/
def Command.snapshot : Command → Bytes
  | .installSnapshot req => req.reader
  | _ => []

/-- A snapshot request is followed by exactly `Size` bytes. -/
def Command.Sized : Command → Prop
  | .installSnapshot req => req.reader.length = req.size
  | _ => True

namespace Msgpack

/-- The type byte and the encoded request. -/
def encode (m : Msgpack) : Command → Bytes
  | .appendEntries req => rpcAppendEntries :: m.appendEntries.encode req
  | .requestVote req => rpcRequestVote :: m.requestVote.encode req
  | .installSnapshot req => rpcInstallSnapshot :: m.installSnapshot.encode { req with reader := [] }
  | .timeoutNow req => rpcTimeoutNow :: m.timeoutNow.encode req
  | .requestPreVote req => rpcRequestPreVote :: m.requestPreVote.encode req

/-- What a peer writes on the connection for one request. -/
def write (m : Msgpack) (cmd : Command) : Bytes := m.encode cmd ++ cmd.snapshot

/-- The first part of `handleCommand`: the request, with the reader limited to `Size`
bytes, and what has not been read from the connection. `none` at the end of the
stream, for an unknown type and when the request does not decode. -/
def readCommand (m : Msgpack) : Bytes → Option (Command × Bytes)
  | [] => none
  | rpcType :: rest =>
    if rpcType = rpcAppendEntries then
      (m.appendEntries.decode rest).map (fun p => (.appendEntries p.1, p.2))
    else if rpcType = rpcRequestVote then
      (m.requestVote.decode rest).map (fun p => (.requestVote p.1, p.2))
    else if rpcType = rpcRequestPreVote then
      (m.requestPreVote.decode rest).map (fun p => (.requestPreVote p.1, p.2))
    else if rpcType = rpcInstallSnapshot then
      (m.installSnapshot.decode rest).map
        (fun p => (.installSnapshot { p.1 with reader := p.2.take p.1.size }, p.2))
    else if rpcType = rpcTimeoutNow then
      (m.timeoutNow.decode rest).map (fun p => (.timeoutNow p.1, p.2))
    else none

end Msgpack

namespace Raft

/-- The node after it has answered a request of the transport, which passes heartbeats
to a handler of their own. -/
def serve (r : Raft) (cmd : Command) (env : Env) : Raft :=
  match cmd with
  | .appendEntries req =>
    if req.isHeartbeat then (r.appendEntries req env).1 else (r.processRPC cmd env).1
  | _ => (r.processRPC cmd env).1

/-- How many bytes of its reader the node has read when it answers. On every path
`installSnapshot` discards what is left of the reader; nothing else reads it. -/
def readSnapshot (r : Raft) (cmd : Command) : Nat :=
  if r.checkRPCHeader cmd.header = false then 0
  else
    match cmd with
    | .installSnapshot req => req.size
    | _ => 0

end Raft

/-- One inbound connection: the bytes not read yet, the requests handed to the node,
whether `handleConn` has returned, and whether it did so because a response could not
be written or the process died. -/
structure Conn where
  stream : Bytes
  handed : List Command := []
  closed : Bool := false
  failed : Bool := false

/-- The node that takes the next request, its surroundings, and whether the response
can be encoded and flushed. -/
structure Turn where
  raft : Raft
  env : Env := {}
  written : Bool := true

namespace Conn

/-- One round of the loop of `handleConn`. -/
def step (m : Msgpack) (c : Conn) (t : Turn) : Option Conn :=
  if c.closed then none
  else
    match m.readCommand c.stream with
    | none => some { c with closed := true }
    | some (cmd, rest) =>
      let failed := (t.raft.serve cmd t.env).down || !t.written
      some
        { stream := rest.drop (t.raft.readSnapshot cmd), handed := c.handed ++ [cmd]
          closed := failed, failed := failed }

/-- A connection on which a peer writes these requests. -/
def system (m : Msgpack) (cmds : List Command) : Lib.System Conn Turn where
  init := fun c => c = { stream := cmds.flatMap m.write }
  step := step m

end Conn

end PerfRaft
