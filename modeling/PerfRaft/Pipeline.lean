import PerfRaft.Commands
import PerfRaft.Lib.Transition

namespace PerfRaft

/-- A response as the remote sends it, with its error in front; the error is empty
when there is none. -/
structure PipelineReply where
  rpcError : Bytes := []
  resp : AppendEntriesResponse
  deriving DecidableEq

inductive PipelineError where
  | remote (rpcError : Bytes)
  | connection
  deriving DecidableEq

/-- An `appendFuture` that has been answered. -/
structure AppendFuture where
  args : AppendEntriesRequest
  resp : Option AppendEntriesResponse
  err : Option PipelineError
  deriving DecidableEq

/-- Where the sender stands: outside `AppendEntries`, or in its select after `sendRPC`. -/
inductive PipelineSender where
  | idle
  | handing (args : AppendEntriesRequest)
  deriving DecidableEq

/-- Where `decodeResponses` stands: in its first select, in `decodeResponse`, in its
second select, or at its end. -/
inductive PipelineDecoder where
  | waiting
  | decoding (args : AppendEntriesRequest)
  | delivering (future : AppendFuture)
  | stopped
  deriving DecidableEq

/-- One pipeline. `buffered` are the responses that the decoder's reader holds and has
not decoded; they stay readable when the connection is released. `closing` is set while
`Close` is between releasing the connection and closing `shutdownCh`. The history has
the requests written as a whole, the responses read, and the futures taken from
`Consumer`. -/
structure NetPipeline where
  maxInFlight : Nat
  sender : PipelineSender := .idle
  inprogressCh : List AppendEntriesRequest := []
  decoder : PipelineDecoder := .waiting
  doneCh : List AppendFuture := []
  buffered : List PipelineReply := []
  released : Bool := false
  closing : Bool := false
  shutdown : Bool := false
  sent : List AppendEntriesRequest := []
  read : List PipelineReply := []
  delivered : List AppendFuture := []
  deriving DecidableEq

/-- The steps of the sender, of the decoder, of the consumer and of `Close`. A value
goes through the buffer of a channel, or directly to a receiver that waits for it. -/
inductive PipelineAction where
  | send (args : AppendEntriesRequest)
  | sendFailed (args : AppendEntriesRequest) (whole : Bool)
  | handOff
  | handOver
  | sendShutdown
  | take
  | fill (replies : List PipelineReply)
  | decode
  | decodeFailed
  | deliver
  | deliverOver
  | decodeShutdown
  | consume
  | release
  | close

/-- The future as `decodeResponse` leaves it: with an error of the remote the response
has been decoded all the same. -/
def PipelineReply.answer (reply : PipelineReply) (args : AppendEntriesRequest) : AppendFuture :=
  { args := args, resp := some reply.resp
    err := if reply.rpcError = [] then none else some (.remote reply.rpcError) }

namespace NetPipeline

/-- The capacity of both channels. -/
def capacity (n : NetPipeline) : Nat := n.maxInFlight - 2

def step (n : NetPipeline) : PipelineAction → Option NetPipeline
  | .send args =>
    if n.sender = .idle ∧ n.released = false then
      some { n with sender := .handing args, sent := n.sent ++ [args] }
    else none
  | .sendFailed args whole =>
    if n.sender = .idle then
      some
        { n with
          sent := if whole && !n.released then n.sent ++ [args] else n.sent
          released := true }
    else none
  | .handOff =>
    match n.sender with
    | .handing args =>
      if n.inprogressCh.length < n.capacity then
        some { n with sender := .idle, inprogressCh := n.inprogressCh ++ [args] }
      else none
    | .idle => none
  | .handOver =>
    match n.sender, n.inprogressCh, n.decoder with
    | .handing args, [], .waiting => some { n with sender := .idle, decoder := .decoding args }
    | _, _, _ => none
  | .sendShutdown =>
    if n.sender ≠ .idle ∧ n.shutdown then some { n with sender := .idle } else none
  | .take =>
    match n.inprogressCh, n.decoder with
    | args :: rest, .waiting => some { n with inprogressCh := rest, decoder := .decoding args }
    | _, _ => none
  | .fill replies =>
    -- the reader asks the connection for more only when it has nothing left
    match n.decoder with
    | .decoding _ =>
      if n.buffered = [] ∧ n.released = false then some { n with buffered := replies } else none
    | _ => none
  | .decode =>
    match n.decoder, n.buffered with
    | .decoding args, reply :: rest =>
      some
        { n with
          decoder := .delivering (reply.answer args), buffered := rest, read := n.read ++ [reply] }
    | _, _ => none
  | .decodeFailed =>
    match n.decoder, n.buffered with
    | .decoding args, [] =>
      some { n with decoder := .delivering ⟨args, none, some .connection⟩, released := true }
    | _, _ => none
  | .deliver =>
    match n.decoder with
    | .delivering future =>
      if n.doneCh.length < n.capacity then
        some { n with decoder := .waiting, doneCh := n.doneCh ++ [future] }
      else none
    | _ => none
  | .deliverOver =>
    match n.decoder, n.doneCh with
    | .delivering future, [] =>
      some { n with decoder := .waiting, delivered := n.delivered ++ [future] }
    | _, _ => none
  | .decodeShutdown =>
    match n.decoder with
    | .waiting | .delivering _ => if n.shutdown then some { n with decoder := .stopped } else none
    | _ => none
  | .consume =>
    match n.doneCh with
    | future :: rest => some { n with doneCh := rest, delivered := n.delivered ++ [future] }
    | [] => none
  | .release =>
    if n.closing = false ∧ n.shutdown = false then some { n with closing := true, released := true }
    else none
  | .close => if n.closing then some { n with closing := false, shutdown := true } else none

/-- `newNetPipeline`, which panics below two, and whatever happens afterwards. -/
def system : Lib.System NetPipeline PipelineAction where
  init := fun n => ∃ maxInFlight, 2 ≤ maxInFlight ∧ n = { maxInFlight := maxInFlight }
  step := step

end NetPipeline

end PerfRaft
