import PerfRaft.Proofs.Data

namespace PerfRaft.Raft

variable {r r' : Raft} {c : Candidacy} {input : Input} {env : Env} {o : Outcome}

/-- How a step leads into the loop of `runCandidate`, or keeps the main thread in
it, with the local variables `c`; the index says whether the loop condition has
been tested. -/
inductive Campaigns (r : Raft) (input : Input) (env : Env) (o : Outcome) (c : Candidacy) :
    Bool → Prop where
  /-- `runCandidate` starts with a pre-vote. -/
  | ask (hmain : r.main = .call .candidate)
      (hc : c = { term := r.currentTerm + 1
                  prevoteCh := some (r.preVoteRequest, r.configurations.latest.voters)
                  votesNeeded := r.configurations.latest.quorumSize })
      (hraft : o.raft = { r with main := .candidate c false }) (hevents : o.events = []) :
      Campaigns r input env o c false
  /-- `runCandidate` starts with an election. -/
  | start (hmain : r.main = .call .candidate)
      (hc : c = { term := r.currentTerm + 1
                  voteCh := (r.electSelf env).2.1
                  votesNeeded := r.configurations.latest.quorumSize })
      (hraft : o.raft = { (r.electSelf env).1 with main := .candidate c false })
      (hevents : o.events = (r.electSelf env).2.2.2) : Campaigns r input env o c false
  /-- A pre-vote is won and the election starts. -/
  | elect (c₀ : Candidacy) (req : RequestPreVoteRequest) (waiting : List Server)
      (hmain : r.main = .candidate c₀ true) (hpre : c₀.prevoteCh = some (req, waiting))
      (hwaiting : waiting ≠ [])
      (hc : c = { c₀ with
                  prevoteCh := none, voteCh := (r.electSelf env).2.1
                  preVoteGrantedVotes := 0, preVoteRefusedVotes := 0 })
      (hraft : o.raft = { (r.electSelf env).1 with main := .candidate c false })
      (hevents : o.events = (r.electSelf env).2.2.2) : Campaigns r input env o c false
  | countPreVote (c₀ : Candidacy) (req : RequestPreVoteRequest) (waiting : List Server)
      (voter : Server) (granted : Bool) (hmain : r.main = .candidate c₀ true)
      (hpre : c₀.prevoteCh = some (req, waiting))
      (hc : c = c₀.countPreVote req (waiting.erase voter) granted)
      (hraft : o.raft = { r with main := .candidate c false }) (hevents : o.events = []) :
      Campaigns r input env o c false
  | countVote (c₀ : Candidacy) (ch : VoteChannel) (voter : Server)
      (result : CallResult RequestVoteResponse) (hmain : r.main = .candidate c₀ true)
      (hinput : input = .vote voter result) (hch : c₀.voteCh = some ch)
      (hmem : voter ∈ ch.pending)
      (hc : c = c₀.countVote ch voter (r.voteAnswer ch.req voter result).2)
      (hraft : o.raft = { r with main := .candidate c false }) (hevents : o.events = []) :
      Campaigns r input env o c false
  /-- The loop condition holds. -/
  | test (hmain : r.main = .candidate c false) (hstate : r.state = .candidate)
      (hraft : o.raft = { r with main := .candidate c true }) (hevents : o.events = []) :
      Campaigns r input env o c true
  | rpc (cmd : Command) (hinput : input = .rpc cmd) (hmain : r.main = .candidate c true)
      (hraft : o.raft = { (r.processRPC cmd env).1 with main := .candidate c false })
      (hevents : o.events = (r.processRPC cmd env).2.2) : Campaigns r input env o c false
  | heartbeat (req : AppendEntriesRequest) (tested : Bool) (hinput : input = .heartbeat req)
      (hmain : r.main = .candidate c tested) (hraft : o.raft = (r.appendEntries req env).1)
      (hevents : o.events = (r.appendEntries req env).2.2) : Campaigns r input env o c tested
  /-- A replication goroutine acts, or the process dies. -/
  | beside (tested : Bool) (leaderships : List LeaderState) (down : Bool)
      (hmain : r.main = .candidate c tested)
      (hraft : o.raft = { r with leaderships := leaderships, down := down })
      (hevents : o.events = []) : Campaigns r input env o c tested

/-- The channel of an election belongs to a request of the new term, and has the
voters of the latest configuration. -/
theorem electSelf_voteCh (hup : r.down = false) (h : (r.electSelf env).2.1 = some ch) :
    ch = ⟨r.nextTerm.voteRequest, r.configurations.latest.voters⟩ ∧
      (r.electSelf env).1.currentTerm = r.currentTerm + 1 := by
  rcases electSelf_cases r env hup with ⟨r', _, _, _, he⟩ | ⟨r', ok, asked, events, _, hsame, he⟩
  · simp [he] at h
  · rw [he] at h ⊢
    cases ok with
    | false => simp at h
    | true =>
      simp only [if_true, Option.some.injEq] at h
      exact ⟨h.symm, hsame.currentTerm⟩

theorem campaigns_enter (hup : r.down = false) (h : r.enter env = some o)
    (hm : o.raft.main = .candidate c tested) : Campaigns r input env o c tested := by
  cases enterStep h with
  | follower => simp at hm
  | ask hmain _ _ hlocals =>
    subst hlocals
    simp only [MainThread.candidate.injEq] at hm
    obtain ⟨rfl, rfl⟩ := hm
    exact .ask hmain rfl rfl rfl
  | elect hmain _ hlocals =>
    subst hlocals
    simp only [MainThread.candidate.injEq] at hm
    obtain ⟨rfl, rfl⟩ := hm
    refine .start hmain ?_ rfl rfl
    rw [(sameData_electSelf hup env).configurations]
  | leader => simp [enterLeader] at hm
  | noop => simp [dispatchNoop] at hm

theorem campaigns_preVote (hmain : r.main = .candidate c₀ true)
    (h : r.preVote c₀ voter result env = some o) (hm : o.raft.main = .candidate c tested) :
    Campaigns r input env o c tested := by
  cases preVoteStep h with
  | follow => simp [leaveCandidate] at hm
  | elect req waiting hpre hmem _ hc' =>
    subst hc'
    simp only [MainThread.candidate.injEq] at hm
    obtain ⟨rfl, rfl⟩ := hm
    exact .elect c₀ req waiting hmain hpre (List.ne_nil_of_mem hmem) rfl rfl rfl
  | count req waiting hpre =>
    simp only [MainThread.candidate.injEq] at hm
    obtain ⟨rfl, rfl⟩ := hm
    exact .countPreVote c₀ req waiting voter _ hmain hpre rfl rfl rfl

theorem campaigns_vote (hmain : r.main = .candidate c₀ true)
    (h : r.vote c₀ voter result env = some o) (hm : o.raft.main = .candidate c tested) :
    Campaigns r (.vote voter result) env o c tested := by
  cases voteStep h with
  | follow => simp [leaveCandidate] at hm
  | win => simp [leaveCandidate] at hm
  | count ch hch hmem =>
    simp only [MainThread.candidate.injEq] at hm
    obtain ⟨rfl, rfl⟩ := hm
    exact .countVote c₀ ch voter result hmain rfl hch hmem rfl rfl rfl

theorem campaigns_loopTest (h : r.loopTest env = some r') (hm : r'.main = .candidate c tested) :
    Campaigns r input env { raft := r' } c tested := by
  unfold loopTest at h
  split at h
  · cases h
    dsimp only at hm
    split at hm <;> simp at hm
  · rename_i locals hmain
    cases h
    split at hm
    · rename_i hstate
      simp only [MainThread.candidate.injEq] at hm
      obtain ⟨rfl, rfl⟩ := hm
      exact .test hmain hstate (by simp [hstate]) rfl
    · simp [leaveCandidate] at hm
  · cases h
    split at hm
    · simp at hm
    · unfold leaveLeader at hm
      dsimp only at hm
      split at hm <;> simp [modifyLeaderState, setLeader] at hm
  · simp at h

theorem heartbeatTimer_main (r : Raft) (c : Candidacy) (tested : Bool) :
    r.heartbeatTimer.main ≠ .candidate c tested := by
  unfold heartbeatTimer
  dsimp only
  split
  · simp
  · split
    · simp
    · split <;> simp

/-- A running server is in the loop of `runCandidate` only by one of these steps. -/
theorem campaigns_stepUp (hup : r.down = false) (h : r.stepUp env input = some o)
    (hm : o.raft.main = .candidate c tested) : Campaigns r input env o c tested := by
  cases input with
  | rpc cmd =>
    obtain ⟨hsel, hraft, _, hevents, _⟩ := stepUp_rpc h
    have hmain := (rpcEffect_processRPC r cmd env).main
    rw [hraft] at hm
    simp only [hmain] at hm
    cases hr : r.main with
    | candidate c' tested' =>
      simp only [hr, MainThread.selecting] at hsel
      rw [hr, hsel] at hmain
      simp only [hr, MainThread.again, MainThread.candidate.injEq] at hm
      obtain ⟨rfl, rfl⟩ := hm
      refine .rpc cmd rfl (hsel ▸ hr) ?_ hevents
      rw [hraft, hmain]
      rfl
    | _ => simp [hr, MainThread.again] at hm
  | heartbeat req =>
    obtain ⟨_, hraft, _, hevents, _⟩ := stepUp_heartbeat h
    rw [hraft, (rpcEffect_appendEntries r req env).1.main] at hm
    exact .heartbeat req tested rfl hm hraft hevents
  | run =>
    obtain ⟨_, rfl⟩ := stepUp_run h
    simp at hm
  | enter => exact campaigns_enter hup h hm
  | loopTest =>
    obtain ⟨r', hr, rfl⟩ := stepUp_loopTest h
    exact campaigns_loopTest hr hm
  | heartbeatTimer =>
    obtain ⟨_, rfl⟩ := stepUp_heartbeatTimer h
    exact absurd hm (heartbeatTimer_main r c tested)
  | preVote voter result =>
    obtain ⟨c₀, hmain, ho⟩ := stepUp_preVote h
    exact campaigns_preVote hmain ho hm
  | vote voter result =>
    obtain ⟨c₀, hmain, ho⟩ := stepUp_vote h
    exact campaigns_vote hmain ho hm
  | electionTimer =>
    obtain ⟨_, rfl⟩ := stepUp_electionTimer h
    simp [leaveCandidate] at hm
  | stepDown =>
    obtain ⟨_, _, rfl⟩ := stepUp_stepDown h
    simp at hm
  | apply futures =>
    obtain ⟨stepDown, _, _, rfl⟩ := stepUp_apply h
    cases stepDown <;> simp [apply] at hm
  | configurationChange req future =>
    obtain ⟨stepDown, _, _, hraft, _⟩ := stepUp_configurationChange h
    simp [hraft] at hm
  | commit =>
    obtain ⟨stepDown, ls, rest, _, _, _, hraft, _⟩ := stepUp_commit h
    obtain ⟨_, _, hmain⟩ := leaderCommit_main r ls stepDown
    simp [hraft, hmain] at hm
  | replication k j input =>
    obtain ⟨r', sends, hr, rfl⟩ := stepUp_replication h
    have heq := replicate_eq hr
    dsimp only at hm
    rw [heq] at hm
    exact .beside tested r'.leaderships r.down hm heq rfl
  | crash =>
    rw [stepUp_crash h] at hm ⊢
    exact .beside tested r.leaderships true hm rfl rfl
  | restart => exact absurd h stepUp_restart

/-- The same of every step; a restart does not begin in the loop. -/
theorem campaigns_step (h : r.step input env = some o) (hm : o.raft.main = .candidate c tested) :
    r.down = false ∧ Campaigns r input env o c tested := by
  cases hdown : r.down with
  | true =>
    obtain ⟨_, r', hr, rfl⟩ := step_down h hdown
    simp [(started_newRaft hr).main] at hm
  | false => exact ⟨rfl, campaigns_stepUp hdown (step_up h hdown) hm⟩

end PerfRaft.Raft
