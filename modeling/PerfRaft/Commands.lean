import PerfRaft.Log

namespace PerfRaft

structure RPCHeader where
  protocolVersion : Nat := 3
  id : Bytes := []
  addr : Bytes := []
  deriving DecidableEq

structure AppendEntriesRequest where
  header : RPCHeader
  term : Nat
  leader : Bytes := []
  prevLogEntry : Nat := 0
  prevLogTerm : Nat := 0
  entries : List Log := []
  leaderCommitIndex : Nat := 0
  deriving DecidableEq

structure AppendEntriesResponse where
  header : RPCHeader
  term : Nat
  lastLog : Nat
  success : Bool := false
  noRetryBackoff : Bool := false
  deriving DecidableEq

structure RequestVoteRequest where
  header : RPCHeader
  term : Nat
  candidate : Bytes := []
  lastLogIndex : Nat
  lastLogTerm : Nat
  leadershipTransfer : Bool := false
  deriving DecidableEq

structure RequestVoteResponse where
  header : RPCHeader
  term : Nat
  peers : Option Data := none
  granted : Bool := false
  deriving DecidableEq

structure RequestPreVoteRequest where
  header : RPCHeader
  term : Nat
  lastLogIndex : Nat
  lastLogTerm : Nat
  deriving DecidableEq

structure RequestPreVoteResponse where
  header : RPCHeader
  term : Nat
  granted : Bool := false
  deriving DecidableEq

/-- The request together with what its reader delivers, at most `size` bytes. -/
structure InstallSnapshotRequest where
  header : RPCHeader
  snapshotVersion : Nat := 1
  term : Nat
  leader : Bytes := []
  lastLogIndex : Nat
  lastLogTerm : Nat
  peers : Data := .peers []
  configuration : Data
  configurationIndex : Nat
  size : Nat := 0
  reader : Bytes := []
  deriving DecidableEq

structure InstallSnapshotResponse where
  term : Nat
  success : Bool := false
  deriving DecidableEq

structure TimeoutNowRequest where
  header : RPCHeader
  deriving DecidableEq

/-- The command of an RPC. -/
inductive Command where
  | appendEntries (req : AppendEntriesRequest)
  | requestVote (req : RequestVoteRequest)
  | requestPreVote (req : RequestPreVoteRequest)
  | installSnapshot (req : InstallSnapshotRequest)
  | timeoutNow (req : TimeoutNowRequest)
  deriving DecidableEq

def Command.header : Command → RPCHeader
  | .appendEntries req => req.header
  | .requestVote req => req.header
  | .requestPreVote req => req.header
  | .installSnapshot req => req.header
  | .timeoutNow req => req.header

/-- What `RPC.Respond` is given. `failed` is a response with an error, of which
the caller only sees that the call failed. -/
inductive Response where
  | appendEntries (resp : AppendEntriesResponse)
  | requestVote (resp : RequestVoteResponse)
  | requestPreVote (resp : RequestPreVoteResponse)
  | installSnapshot (resp : InstallSnapshotResponse)
  | timeoutNow
  | failed
  deriving DecidableEq

end PerfRaft
