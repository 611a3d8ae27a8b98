import PerfRaft.Proofs.Aborted
import PerfRaft.Proofs.Answers
import PerfRaft.Proofs.Bootstrap
import PerfRaft.Proofs.ConnPool
import PerfRaft.Proofs.DiskConfiguration
import PerfRaft.Proofs.FileSnapshot
import PerfRaft.Proofs.Framing
import PerfRaft.Proofs.Hole
import PerfRaft.Proofs.InmemStore
import PerfRaft.Proofs.Journal
import PerfRaft.Proofs.Lifetime
import PerfRaft.Proofs.Membership
import PerfRaft.Proofs.Permanence
import PerfRaft.Proofs.Pipeline
import PerfRaft.Proofs.PreVotes
import PerfRaft.Proofs.QuorumIndex
import PerfRaft.Proofs.Recover
import PerfRaft.Proofs.Refusals
import PerfRaft.Proofs.StoreCalls
import PerfRaft.Proofs.Threshold
import PerfRaft.Proofs.Verify
import PerfRaft.Proofs.VoteChecks
import PerfRaft.Proofs.Voters
