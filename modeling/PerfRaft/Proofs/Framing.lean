import PerfRaft.Framing

namespace PerfRaft

namespace Msgpack

/-- A request is read back as it was written, up to the bytes its reader delivers. -/
theorem readCommand_write (m : Msgpack) {cmd : Command} (h : cmd.Sized) (rest : Bytes) :
    m.readCommand (m.write cmd ++ rest) = some (cmd, cmd.snapshot ++ rest) := by
  cases cmd with
  | appendEntries req =>
    simp [readCommand, write, encode, Command.snapshot, m.appendEntries.decode_encode]
  | requestVote req =>
    simp [readCommand, write, encode, Command.snapshot, m.requestVote.decode_encode,
      rpcAppendEntries, rpcRequestVote]
  | requestPreVote req =>
    simp [readCommand, write, encode, Command.snapshot, m.requestPreVote.decode_encode,
      rpcAppendEntries, rpcRequestVote, rpcRequestPreVote]
  | installSnapshot req =>
    have hlen : req.reader.length = req.size := h
    simp [readCommand, write, encode, Command.snapshot, m.installSnapshot.decode_encode,
      rpcAppendEntries, rpcRequestVote, rpcRequestPreVote, rpcInstallSnapshot, List.take_left' hlen]
  | timeoutNow req =>
    simp [readCommand, write, encode, Command.snapshot, m.timeoutNow.decode_encode,
      rpcAppendEntries, rpcRequestVote, rpcRequestPreVote, rpcInstallSnapshot, rpcTimeoutNow]

end Msgpack

/-- The node does not turn down the header of a request that is followed by a
snapshot. -/
def Turn.Accepts (t : Turn) : Command → Prop
  | .installSnapshot req => t.raft.checkRPCHeader req.header = true ∨ req.size = 0
  | _ => True

namespace Conn

/-- The requests handed to the node are the first of those written, the reader stands
at the next one, and all of them have been handed over when `handleConn` returns at
the end of the stream. -/
structure Framed (m : Msgpack) (cmds : List Command) (c : Conn) : Prop where
  handed : c.handed <+: cmds
  stream : c.closed = false → c.stream = (cmds.drop c.handed.length).flatMap m.write
  complete : c.closed = true → c.failed = false → c.handed = cmds

/-- The node has read the snapshot to its end. -/
theorem drop_readSnapshot {t : Turn} {cmd : Command} (hsized : cmd.Sized) (h : t.Accepts cmd)
    (rest : Bytes) : (cmd.snapshot ++ rest).drop (t.raft.readSnapshot cmd) = rest := by
  cases cmd with
  | installSnapshot req =>
    have hlen : req.reader.length = req.size := hsized
    rcases h with h | h
    · simp [Raft.readSnapshot, Command.header, h, Command.snapshot, ← hlen]
    · have hempty : req.reader = [] := List.eq_nil_of_length_eq_zero (hlen.trans h)
      simp [Raft.readSnapshot, Command.snapshot, hempty, h]
  | _ =>
    unfold Raft.readSnapshot
    split <;> rfl

theorem Framed.step {m : Msgpack} {cmds : List Command} {c c' : Conn} {t : Turn}
    (h : Framed m cmds c) (hsized : ∀ cmd ∈ cmds, cmd.Sized) (ht : ∀ cmd ∈ cmds, t.Accepts cmd)
    (hs : Conn.step m c t = some c') : Framed m cmds c' := by
  unfold Conn.step at hs
  split at hs
  · simp at hs
  · rename_i hopen
    have hopen : c.closed = false := by simpa using hopen
    have hstream := h.stream hopen
    have hsplit := List.prefix_iff_eq_append.mp h.handed
    cases hleft : cmds.drop c.handed.length with
    | nil =>
      -- the end of the stream
      rw [hleft, List.append_nil] at hsplit
      rw [hleft, List.flatMap_nil] at hstream
      simp only [hstream, Msgpack.readCommand, Option.some.injEq] at hs
      subst hs
      exact ⟨h.handed, by simp, fun _ _ => hsplit⟩
    | cons cmd left =>
      rw [hleft] at hsplit
      have hmem : cmd ∈ cmds := by
        rw [← hsplit]
        simp
      have hread : m.readCommand c.stream = some (cmd, cmd.snapshot ++ left.flatMap m.write) := by
        rw [hstream, hleft, List.flatMap_cons, m.readCommand_write (hsized cmd hmem)]
      simp only [hread, Option.some.injEq] at hs
      subst hs
      have hcmds : (c.handed ++ [cmd]) ++ left = cmds := by
        rw [← hsplit]
        simp
      refine ⟨⟨left, hcmds⟩, ?_, ?_⟩
      · intro _
        rw [drop_readSnapshot (hsized cmd hmem) (ht cmd hmem), ← hcmds, List.drop_left]
      · intro hclosed hfailed
        exact absurd (hclosed.symm.trans hfailed) (by simp)

/-- As long as no node turns down the header of a request that brings a snapshot, it
is handed exactly the requests the peer has written. -/
theorem framed_of_accepted (m : Msgpack) {cmds : List Command} (hsized : ∀ cmd ∈ cmds, cmd.Sized)
    {c : Conn} (h : (system m cmds).Reachable (fun _ t => ∀ cmd ∈ cmds, t.Accepts cmd) c) :
    Framed m cmds c := by
  refine Lib.System.Reachable.invariant ?_ ?_ h
  · rintro c rfl
    exact ⟨List.nil_prefix, fun _ => rfl, by simp⟩
  · intro c t c' hc ht hs
    exact hc.step hsized ht hs

end Conn

section Codes

def natCode : Lib.Code UInt8 Nat := .unary 1 0 (by decide)

def boolCode : Lib.Code UInt8 Bool :=
  .map natCode (fun n => n == 0) (fun b => if b then 0 else 1) (by decide)

def bytesCode : Lib.Code UInt8 Bytes := .list natCode .symbol

def suffrageCode : Lib.Code UInt8 ServerSuffrage :=
  .map natCode (fun n => if n = 0 then .voter else if n = 1 then .nonvoter else .staging)
    (fun s => match s with | .voter => 0 | .nonvoter => 1 | .staging => 2)
    (by intro s; cases s <;> rfl)

def serverCode : Lib.Code UInt8 Server :=
  .map (suffrageCode.prod (bytesCode.prod bytesCode)) (fun p => ⟨p.1, p.2.1, p.2.2⟩)
    (fun s => (s.suffrage, s.id, s.address)) (fun _ => rfl)

def configurationCode : Lib.Code UInt8 Configuration :=
  .map (.list natCode serverCode) Configuration.mk Configuration.servers (fun _ => rfl)

def dataCode : Lib.Code UInt8 Data :=
  .map (.sum boolCode bytesCode (.sum boolCode configurationCode (.list natCode bytesCode)))
    (fun s => match s with
      | .inl data => .bytes data
      | .inr (.inl configuration) => .configuration configuration
      | .inr (.inr peers) => .peers peers)
    (fun d => match d with
      | .bytes data => .inl data
      | .configuration configuration => .inr (.inl configuration)
      | .peers peers => .inr (.inr peers))
    (by intro d; cases d <;> rfl)

def logTypeCode : Lib.Code UInt8 LogType :=
  .map natCode
    (fun n => match n with
      | 0 => .logCommand | 1 => .logNoop | 2 => .logAddPeerDeprecated
      | 3 => .logRemovePeerDeprecated | 4 => .logBarrier | _ => .logConfiguration)
    (fun t => match t with
      | .logCommand => 0 | .logNoop => 1 | .logAddPeerDeprecated => 2
      | .logRemovePeerDeprecated => 3 | .logBarrier => 4 | .logConfiguration => 5)
    (by intro t; cases t <;> rfl)

def logCode : Lib.Code UInt8 Log :=
  .map (natCode.prod (natCode.prod (logTypeCode.prod (dataCode.prod (bytesCode.prod natCode)))))
    (fun p => ⟨p.1, p.2.1, p.2.2.1, p.2.2.2.1, p.2.2.2.2.1, p.2.2.2.2.2⟩)
    (fun l => (l.index, l.term, l.type, l.data, l.extensions, l.appendedAt)) (fun _ => rfl)

def headerCode : Lib.Code UInt8 RPCHeader :=
  .map (natCode.prod (bytesCode.prod bytesCode)) (fun p => ⟨p.1, p.2.1, p.2.2⟩)
    (fun h => (h.protocolVersion, h.id, h.addr)) (fun _ => rfl)

/-- A coder that spells everything out, numbers in unary. -/
def spelledOut : Msgpack where
  appendEntries :=
    .map (headerCode.prod (natCode.prod (bytesCode.prod (natCode.prod (natCode.prod
      ((Lib.Code.list natCode logCode).prod natCode))))))
      (fun p => ⟨p.1, p.2.1, p.2.2.1, p.2.2.2.1, p.2.2.2.2.1, p.2.2.2.2.2.1, p.2.2.2.2.2.2⟩)
      (fun r => (r.header, r.term, r.leader, r.prevLogEntry, r.prevLogTerm, r.entries,
        r.leaderCommitIndex))
      (fun _ => rfl)
  requestVote :=
    .map (headerCode.prod (natCode.prod (bytesCode.prod (natCode.prod (natCode.prod boolCode)))))
      (fun p => ⟨p.1, p.2.1, p.2.2.1, p.2.2.2.1, p.2.2.2.2.1, p.2.2.2.2.2⟩)
      (fun r => (r.header, r.term, r.candidate, r.lastLogIndex, r.lastLogTerm, r.leadershipTransfer))
      (fun _ => rfl)
  installSnapshot :=
    .map (headerCode.prod (natCode.prod (natCode.prod (bytesCode.prod (natCode.prod (natCode.prod
      (dataCode.prod (dataCode.prod (natCode.prod (natCode.prod bytesCode))))))))))
      (fun p => ⟨p.1, p.2.1, p.2.2.1, p.2.2.2.1, p.2.2.2.2.1, p.2.2.2.2.2.1, p.2.2.2.2.2.2.1,
        p.2.2.2.2.2.2.2.1, p.2.2.2.2.2.2.2.2.1, p.2.2.2.2.2.2.2.2.2.1, p.2.2.2.2.2.2.2.2.2.2⟩)
      (fun r => (r.header, r.snapshotVersion, r.term, r.leader, r.lastLogIndex, r.lastLogTerm,
        r.peers, r.configuration, r.configurationIndex, r.size, r.reader))
      (fun _ => rfl)
  timeoutNow := .map headerCode TimeoutNowRequest.mk TimeoutNowRequest.header (fun _ => rfl)
  requestPreVote :=
    .map (headerCode.prod (natCode.prod (natCode.prod natCode)))
      (fun p => ⟨p.1, p.2.1, p.2.2.1, p.2.2.2⟩)
      (fun r => (r.header, r.term, r.lastLogIndex, r.lastLogTerm)) (fun _ => rfl)

end Codes

def smuggled : Command := .timeoutNow ⟨{ id := [1], addr := [1] }⟩

/-- A snapshot request from a newer version, whose snapshot reads like a request. -/
def rejectedSnapshot : Command :=
  .installSnapshot
    { header := { protocolVersion := 4 }, term := 1, lastLogIndex := 1, lastLogTerm := 1
      configuration := .configuration {}, configurationIndex := 1
      size := (spelledOut.write smuggled).length, reader := spelledOut.write smuggled }

/-- Any server of the present version. -/
def presentTurn : Turn := { raft := { conf := { localID := [2], localAddr := [2] } } }

/-- The snapshot of a rejected request is parsed as the next request. -/
theorem rejected_snapshot_is_parsed :
    rejectedSnapshot.Sized ∧
      ∃ c, (Conn.system spelledOut [rejectedSnapshot]).Reachable (fun _ _ => True) c ∧
        c.handed = [rejectedSnapshot, smuggled] ∧ ¬ Conn.Framed spelledOut [rejectedSnapshot] c := by
  refine ⟨rfl, ?_⟩
  obtain ⟨c, hreach, hhanded⟩ : ∃ c,
      (Conn.system spelledOut [rejectedSnapshot]).Reachable (fun _ _ => True) c ∧
      c.handed = [rejectedSnapshot, smuggled] :=
    Lib.System.exists_reachable rfl [fun _ => presentTurn, fun _ => presentTurn] (by decide +kernel)
  refine ⟨c, hreach, hhanded, ?_⟩
  intro h
  have hlen := h.handed.length_le
  simp [hhanded] at hlen

/-- An accepted snapshot is followed by the next request. -/
def acceptedSnapshot : Command :=
  .installSnapshot
    { header := {}, term := 1, lastLogIndex := 1, lastLogTerm := 1
      configuration := .configuration {}, configurationIndex := 1, size := 2, reader := [3, 0] }

theorem framed_acceptedSnapshot :
    ∃ c, (Conn.system spelledOut [acceptedSnapshot, smuggled]).Reachable
        (fun _ t => ∀ cmd ∈ [acceptedSnapshot, smuggled], t.Accepts cmd) c ∧
      c.handed = [acceptedSnapshot, smuggled] ∧ c.closed = true ∧
      Conn.Framed spelledOut [acceptedSnapshot, smuggled] c := by
  have htest : ∀ (_ : Conn) (t : Turn), decide (t.raft.checkRPCHeader {} = true) = true →
      ∀ cmd ∈ [acceptedSnapshot, smuggled], t.Accepts cmd := by
    intro _ t ht cmd hcmd
    rcases List.mem_pair.mp hcmd with rfl | rfl
    · exact .inl (of_decide_eq_true ht)
    · trivial
  obtain ⟨c, hreach, hhanded, hclosed⟩ : ∃ c,
      (Conn.system spelledOut [acceptedSnapshot, smuggled]).Reachable
        (fun _ t => ∀ cmd ∈ [acceptedSnapshot, smuggled], t.Accepts cmd) c ∧
      c.handed = [acceptedSnapshot, smuggled] ∧ c.closed = true :=
    Lib.System.exists_reachable_of htest rfl [fun _ => presentTurn, fun _ => presentTurn,
      fun _ => presentTurn] (by decide +kernel)
  refine ⟨c, hreach, hhanded, hclosed, Conn.framed_of_accepted spelledOut ?_ hreach⟩
  intro cmd hcmd
  rcases List.mem_pair.mp hcmd with rfl | rfl
  · rfl
  · trivial

end PerfRaft
