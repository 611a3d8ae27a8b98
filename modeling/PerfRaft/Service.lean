import PerfRaft.Bootstrap
import PerfRaft.Process

namespace PerfRaft

/-- What can happen at a server: a step of its process, and the two calls of the API that
are beside it, `BootstrapCluster` on a running server and `Shutdown`. -/
inductive ServiceAction where
  | process (a : ProcessAction)
  | bootstrap (configuration : Configuration) (env : BootstrapEnv)
  | shutdown

namespace ServiceAction

/-- The step of the main thread, also when the process dies at its end. -/
def input? : ServiceAction → Option Input
  | .process (.main (.input input) _) | .process (.dies (.input input) _) => some input
  | _ => none

/-- The request that is handled on the main thread. -/
def command? (a : ServiceAction) : Option Command :=
  match a.input? with
  | some (.rpc cmd) => some cmd
  | _ => none

end ServiceAction

namespace Process

variable {σ ρ : Type} (fsm : FSM σ ρ) (initial : σ)

def serve (s : Process σ ρ) : ServiceAction → Option (Process σ ρ)
  | .process a => s.step fsm initial a
  | .bootstrap configuration env =>
    if s.raft.down = false ∧ s.raft.main = .follower true then
      some { s with
        raft := { (s.raft.liveBootstrap configuration env).1 with main := .follower false } }
    else none
  | .shutdown => if s.raft.down then none else some { s with raft := s.raft.setState .shutdown }

/-- The runs of one server with its whole API. -/
def service : Lib.System (Process σ ρ) ServiceAction where
  init := (system fsm initial).init
  step := serve fsm initial

end Process

end PerfRaft
