import PerfRaft.Proofs.Leading
import PerfRaft.Proofs.Writes

namespace PerfRaft

/-- The main thread is at the start of `runCandidate`, or in its select. -/
def MainThread.elects : MainThread → Bool
  | .call .candidate | .candidate _ true => true
  | _ => false

/-- The main thread is in `runCandidate`, before the test of the loop condition. -/
def MainThread.campaigns : MainThread → Bool
  | .candidate _ false => true
  | _ => false

theorem MainThread.elects_again {main : MainThread} (h : main.selecting = true) :
    main.again.elects = false := by
  cases main <;> simp_all [selecting, again, elects]

theorem MainThread.selecting_again (main : MainThread) : main.again.selecting = false := by
  cases main <;> rfl

namespace Raft

variable {r r' : Raft} {env : Env} {o : Outcome} {input : Input}

/-- The server is a voter of its latest configuration. -/
def isVoter (r : Raft) : Bool := hasVote r.configurations.latest r.localID

/-- The server is a candidate, or its main thread has found it to be one. -/
def Stands (r : Raft) : Prop := r.state = .candidate ∨ r.main.elects = true

theorem isVoter_congr (hconf : r'.conf = r.conf)
    (hlatest : r'.configurations.latest = r.configurations.latest) : r'.isVoter = r.isVoter := by
  unfold isVoter localID
  rw [hconf, hlatest]

theorem requestVote_state (r : Raft) (req : RequestVoteRequest) (env : Env) :
    (r.requestVote req env).1.state = r.state ∨ (r.requestVote req env).1.state = .follower := by
  have hcast (r₁ : Raft) (resp : RequestVoteResponse) (ws : List Write) :
      (r₁.castVote req resp env ws).1.state = r₁.state :=
    (sameThreads_castVote r₁ req resp env ws).state
  obtain ⟨_, hr | ⟨-, -, hr⟩ | ⟨_, hlt, rfl, hr | ⟨-, hr⟩⟩, -⟩ := requestVote_cases r req env <;> rw [hr]
  · exact .inl rfl
  · exact .inl (hcast _ _ _)
  · exact .inr (rpcEffect_follow r hlt.le env.writes).2
  · exact .inr ((hcast _ _ _).trans (rpcEffect_follow r hlt.le env.writes).2)

/-- A server that is not made a follower has been sent a request of its own term, or
nothing has happened. -/
theorem installSnapshot_stays {req : InstallSnapshotRequest}
    (h : (r.installSnapshot req env).1.state ≠ .follower) :
    (r.installSnapshot req env).1.state = r.state ∧
      ((r.installSnapshot req env).1 = r ∨ req.term = r.currentTerm) := by
  by_cases hversion : 1 < req.snapshotVersion
  · have hsame : (r.installSnapshot req env).1 = r := by
      unfold installSnapshot
      rw [if_pos hversion]
    exact ⟨by rw [hsame], .inl hsame⟩
  by_cases hstale : req.term < r.currentTerm
  · have hsame : (r.installSnapshot req env).1 = r := by
      unfold installSnapshot
      rw [if_neg hversion, if_pos hstale]
    exact ⟨by rw [hsame], .inl hsame⟩
  have hreceive := (sameThreads_receiveSnapshot (r.followSnapshot req env) req env).state
  have hhead : (r.installSnapshot req env).1.state = (r.followSnapshot req env).state := by
    unfold installSnapshot
    rw [if_neg hversion, if_neg hstale]
    dsimp only
    split
    · rfl
    · split
      · rename_i hr
        rw [hr] at hreceive
        exact hreceive
      · rename_i hr
        rw [hr] at hreceive
        exact hreceive
  rw [hhead] at h ⊢
  unfold followSnapshot at h ⊢
  dsimp only at h ⊢
  by_cases hnewer : r.currentTerm < req.term
  · have hfollow := (rpcEffect_follow r hnewer.le env.writes).2
    simp only [if_pos hnewer] at h
    split at h
    · exact absurd hfollow h
    · exact absurd hfollow h
  · simp only [if_neg hnewer]
    refine ⟨?_, .inr (by omega)⟩
    split <;> rfl

theorem appendEntries_stays {a : AppendEntriesRequest}
    (h : (r.appendEntries a env).1.state ≠ .follower) :
    (r.appendEntries a env).1.state = r.state ∧ ((r.appendEntries a env).1 = r ∨
      (r.candidateFromLeadershipTransfer = true ∧ a.term = r.currentTerm)) := by
  by_cases hstale : a.term < r.currentTerm
  · have hsame := (appendEntries_stale hstale env).1
    exact ⟨by rw [hsame], .inl hsame⟩
  rw [(sameControl_appendEntries r a env (Nat.not_lt.mp hstale)).state] at h ⊢
  unfold followLeader at h ⊢
  dsimp only at h ⊢
  by_cases hfollows : r.currentTerm < a.term ∨
      (r.state ≠ .follower ∧ r.candidateFromLeadershipTransfer = false)
  · have hfollow := (rpcEffect_follow r (Nat.not_lt.mp hstale) env.writes).2
    simp only [if_pos hfollows] at h
    split at h
    · exact absurd hfollow h
    · exact absurd hfollow h
  · simp only [if_neg hfollows] at h ⊢
    have hstate : r.state ≠ .follower := by
      split at h <;> exact h
    simp only [not_or, not_and, Bool.not_eq_false] at hfollows
    refine ⟨?_, .inr ⟨hfollows.2 hstate, by omega⟩⟩
    split <;> rfl

/-- The configuration of a candidate that handles a request stays, but for two kinds of
request that do not make a follower of it. -/
theorem processRPC_candidate {cmd : Command} (h : (r.processRPC cmd env).1.state = .candidate) :
    (∃ req, cmd = .timeoutNow req ∧ (r.processRPC cmd env).1.configurations = r.configurations) ∨
      (r.state = .candidate ∧
        ((r.processRPC cmd env).1.configurations = r.configurations ∨
          (∃ a, cmd = .appendEntries a ∧ r.candidateFromLeadershipTransfer = true ∧
            a.term = r.currentTerm) ∨
          ∃ req, cmd = .installSnapshot req ∧ req.term = r.currentTerm)) := by
  have hother {state : RaftState} (hstate : state = .candidate) : state ≠ .follower := by
    rw [hstate]
    simp
  unfold processRPC at h ⊢
  by_cases hheader : r.checkRPCHeader cmd.header = false
  · rw [if_pos hheader] at h ⊢
    exact .inr ⟨h, .inl rfl⟩
  rw [if_neg hheader] at h ⊢
  cases cmd with
  | appendEntries a =>
    obtain ⟨hstate, hsame | hterm⟩ := appendEntries_stays (r := r) (hother h)
    · exact .inr ⟨hstate ▸ h, .inl (congrArg configurations hsame)⟩
    · exact .inr ⟨hstate ▸ h, .inr (.inl ⟨a, rfl, hterm⟩)⟩
  | requestVote req =>
    have hdata := sameData_requestVote r req env
    rcases requestVote_state r req env with hstate | hstate
    · exact .inr ⟨hstate ▸ h, .inl hdata.configurations⟩
    · dsimp only at h
      rw [hstate] at h
      cases h
  | requestPreVote req => exact .inr ⟨h, .inl rfl⟩
  | installSnapshot req =>
    obtain ⟨hstate, hsame | hterm⟩ := installSnapshot_stays (r := r) (hother h)
    · exact .inr ⟨hstate ▸ h, .inl (congrArg configurations hsame)⟩
    · exact .inr ⟨hstate ▸ h, .inr (.inr ⟨req, rfl, hterm⟩)⟩
  | timeoutNow req => exact .inl ⟨req, rfl, rfl⟩

theorem dispatchLogs_configurations (r : Raft) (futures : List LogFuture) (env : Env) :
    (r.dispatchLogs futures env).1.configurations = r.configurations := by
  unfold dispatchLogs
  dsimp only
  split <;> rfl

theorem loopTest_state (h : r.loopTest env = some r') : r'.state = r.state := by
  unfold loopTest at h
  split at h
  · cases h
    rfl
  · cases h
    split <;> rfl
  · cases h
    split
    · rfl
    · exact (leaveLeader_control r env).1
  · cases h

theorem enter_state (hup : r.down = false) (h : r.enter env = some o) :
    o.raft.state = r.state ∨ o.raft.state = .follower := by
  cases enterStep h with
  | elect => exact .inl (electSelf_state hup env)
  | noop => exact dispatchLogs_state r _ env
  | _ => exact .inl rfl

theorem preVote_state {c : Candidacy} {voter : Server} {result : PreVoteResult}
    (hup : r.down = false) (h : r.preVote c voter result env = some o) :
    o.raft.state = r.state ∨ o.raft.state = .follower := by
  cases preVoteStep h with
  | follow => exact .inr (setCurrentTerm_state _ _ _).1
  | elect => exact .inl (electSelf_state hup env)
  | count => exact .inl rfl

theorem vote_state {c : Candidacy} {voter : Server} {result : CallResult RequestVoteResponse}
    (h : r.vote c voter result env = some o) :
    o.raft.state = r.state ∨ o.raft.state ≠ .candidate := by
  cases voteStep h with
  | follow =>
    refine .inr ?_
    simp only [leaveCandidate, (setCurrentTerm_state (r.setState .follower) _ env.writes).1]
    simp [setState]
  | win => exact .inr (by simp [leaveCandidate, setLeader, setState])
  | count => exact .inl rfl

/-- The only two ways to become a candidate. -/
theorem candidate_stepUp (hup : r.down = false) (h : r.stepUp env input = some o)
    (hcandidate : o.raft.state = .candidate) :
    r.state = .candidate ∨ r.isVoter = true ∨ ∃ req, input = .rpc (.timeoutNow req) := by
  have hkept (hstate : o.raft.state = r.state ∨ o.raft.state = .follower) :
      r.state = .candidate := by
    rcases hstate with hsame | hfollower
    · exact hsame ▸ hcandidate
    · rw [hfollower] at hcandidate
      cases hcandidate
  cases input with
  | rpc cmd =>
    rw [(stepUp_rpc h).2.1] at hcandidate
    have hhandled : (r.processRPC cmd env).1.state = .candidate := hcandidate
    rcases processRPC_candidate hhandled with ⟨req, rfl, -⟩ | ⟨hstate, -⟩
    · exact .inr (.inr ⟨req, rfl⟩)
    · exact .inl hstate
  | heartbeat a =>
    have hstays : (r.appendEntries a env).1.state ≠ .follower := by
      rw [← (stepUp_heartbeat h).2.1, hcandidate]
      simp
    refine .inl (hkept (.inl ?_))
    rw [(stepUp_heartbeat h).2.1]
    exact (appendEntries_stays hstays).1
  | run =>
    obtain ⟨-, rfl⟩ := stepUp_run h
    exact .inl hcandidate
  | enter => exact .inl (hkept (enter_state hup h))
  | loopTest =>
    obtain ⟨r', hr', rfl⟩ := stepUp_loopTest h
    exact .inl (hkept (.inl (loopTest_state hr')))
  | heartbeatTimer =>
    obtain ⟨-, rfl⟩ := stepUp_heartbeatTimer h
    unfold heartbeatTimer at hcandidate
    dsimp only at hcandidate
    split at hcandidate
    · exact .inl hcandidate
    split at hcandidate
    · exact .inl hcandidate
    split at hcandidate
    · rename_i hvote
      exact .inr (.inl hvote)
    · exact .inl hcandidate
  | preVote voter result =>
    obtain ⟨c, -, ho⟩ := stepUp_preVote h
    exact .inl (hkept (preVote_state hup ho))
  | vote voter result =>
    obtain ⟨c, -, ho⟩ := stepUp_vote h
    rcases vote_state ho with hsame | hother
    · exact .inl (hkept (.inl hsame))
    · exact absurd hcandidate hother
  | electionTimer =>
    obtain ⟨-, rfl⟩ := stepUp_electionTimer h
    exact .inl hcandidate
  | stepDown =>
    obtain ⟨stepDown, -, rfl⟩ := stepUp_stepDown h
    cases hcandidate
  | apply futures =>
    obtain ⟨stepDown, -, -, rfl⟩ := stepUp_apply h
    unfold apply at hcandidate
    split at hcandidate
    · exact .inl hcandidate
    · rcases dispatchLogs_state r futures env with hsame | hfollower
      · exact .inl (hsame ▸ hcandidate)
      · exact absurd hcandidate (by simp [hfollower])
  | configurationChange req future =>
    obtain ⟨stepDown, -, -, ho, -⟩ := stepUp_configurationChange h
    refine .inl (hkept ?_)
    rw [ho]
    exact appendConfigurationEntry_state r req future env
  | commit =>
    obtain ⟨stepDown, ls, rest, -, -, -, ho, -⟩ := stepUp_commit h
    rw [ho] at hcandidate
    rcases leaderCommit_state_cases r ls stepDown with hsame | hfollower | hshutdown
    · exact .inl (hsame ▸ hcandidate)
    · exact absurd hcandidate (by simp [hfollower])
    · exact absurd hcandidate (by simp [hshutdown])
  | replication k j input =>
    obtain ⟨r', sends, hr', rfl⟩ := stepUp_replication h
    dsimp only at hcandidate
    rw [replicate_eq hr'] at hcandidate
    exact .inl hcandidate
  | crash =>
    rw [stepUp_crash h] at hcandidate
    exact .inl hcandidate
  | restart => exact absurd h stepUp_restart

theorem enter_main (h : r.enter env = some o) :
    o.raft.main.selecting = false ∧ o.raft.main.elects = false := by
  cases enterStep h <;> exact ⟨rfl, rfl⟩

theorem enter_campaigns (h : r.enter env = some o) (hmain : o.raft.main.campaigns = true) :
    r.main = .call .candidate := by
  cases enterStep h with
  | ask hcall => exact hcall
  | elect hcall => exact hcall
  | _ => cases hmain

theorem preVote_main {c : Candidacy} {voter : Server} {result : PreVoteResult}
    (h : r.preVote c voter result env = some o) :
    o.raft.main.selecting = false ∧ o.raft.main.elects = false := by
  cases preVoteStep h <;> exact ⟨rfl, rfl⟩

theorem vote_main {c : Candidacy} {voter : Server} {result : CallResult RequestVoteResponse}
    (h : r.vote c voter result env = some o) :
    o.raft.main.selecting = false ∧ o.raft.main.elects = false := by
  cases voteStep h <;> exact ⟨rfl, rfl⟩

theorem heartbeatTimer_idle (r : Raft) :
    r.heartbeatTimer.main.selecting = false ∧ r.heartbeatTimer.main.elects = false := by
  unfold heartbeatTimer
  dsimp only
  split
  · exact ⟨rfl, rfl⟩
  split
  · exact ⟨rfl, rfl⟩
  split <;> exact ⟨rfl, rfl⟩

/-- Where the main thread is after a step: where it was while somebody else acted, at the
call of the switch, in a select whose loop condition it has just tested, or out of any
select. -/
theorem main_stepUp (h : r.stepUp env input = some o) :
    (o.raft.main = r.main ∧ (o.raft.state = .candidate → r.state = .candidate)) ∨
      o.raft.main = .call r.state ∨
      (o.raft.main.selecting = true ∧
        (r.state = .candidate ↔ o.raft.main.elects = true) ∧ o.raft.state = r.state) ∨
      (o.raft.main.selecting = false ∧ o.raft.main.elects = false) := by
  cases input with
  | rpc cmd =>
    obtain ⟨hselecting, ho, -⟩ := stepUp_rpc h
    rw [ho]
    refine .inr (.inr (.inr ⟨MainThread.selecting_again _, MainThread.elects_again ?_⟩))
    rw [(rpcEffect_processRPC r cmd env).main]
    exact hselecting
  | heartbeat a =>
    rw [(stepUp_heartbeat h).2.1]
    refine .inl ⟨(rpcEffect_appendEntries r a env).1.main, ?_⟩
    intro hc
    rw [← (appendEntries_stays (by rw [hc]; simp)).1]
    exact hc
  | run =>
    obtain ⟨-, rfl⟩ := stepUp_run h
    exact .inr (.inl rfl)
  | enter => exact .inr (.inr (.inr (enter_main h)))
  | loopTest =>
    obtain ⟨r', hr', rfl⟩ := stepUp_loopTest h
    unfold loopTest at hr'
    split at hr'
    · cases hr'
      split
      · rename_i hstate
        exact .inr (.inr (.inl ⟨rfl, by simp [hstate, MainThread.elects], rfl⟩))
      · exact .inr (.inr (.inr ⟨rfl, rfl⟩))
    · cases hr'
      split
      · rename_i hstate
        exact .inr (.inr (.inl ⟨rfl, by simp [hstate, MainThread.elects], rfl⟩))
      · exact .inr (.inr (.inr ⟨rfl, rfl⟩))
    · cases hr'
      split
      · rename_i hstate
        exact .inr (.inr (.inl ⟨rfl, by simp [hstate, MainThread.elects], rfl⟩))
      · refine .inr (.inr (.inr ?_))
        unfold leaveLeader
        dsimp only
        split <;> exact ⟨rfl, rfl⟩
    · cases hr'
  | heartbeatTimer =>
    obtain ⟨-, rfl⟩ := stepUp_heartbeatTimer h
    exact .inr (.inr (.inr (heartbeatTimer_idle r)))
  | preVote voter result =>
    obtain ⟨c, -, ho⟩ := stepUp_preVote h
    exact .inr (.inr (.inr (preVote_main ho)))
  | vote voter result =>
    obtain ⟨c, -, ho⟩ := stepUp_vote h
    exact .inr (.inr (.inr (vote_main ho)))
  | electionTimer =>
    obtain ⟨-, rfl⟩ := stepUp_electionTimer h
    exact .inr (.inr (.inr ⟨rfl, rfl⟩))
  | stepDown =>
    obtain ⟨stepDown, -, rfl⟩ := stepUp_stepDown h
    exact .inr (.inr (.inr ⟨rfl, rfl⟩))
  | apply futures =>
    obtain ⟨stepDown, -, -, rfl⟩ := stepUp_apply h
    unfold apply
    refine .inr (.inr (.inr ?_))
    split <;> exact ⟨rfl, rfl⟩
  | configurationChange req future =>
    obtain ⟨stepDown, -, -, ho, -⟩ := stepUp_configurationChange h
    rw [ho]
    exact .inr (.inr (.inr ⟨rfl, rfl⟩))
  | commit =>
    obtain ⟨stepDown, ls, rest, -, -, -, ho, -⟩ := stepUp_commit h
    rw [ho]
    unfold leaderCommit
    dsimp only
    rw [finishCommit_main]
    exact .inr (.inr (.inr ⟨rfl, rfl⟩))
  | replication k j input =>
    obtain ⟨r', sends, hr', rfl⟩ := stepUp_replication h
    left
    dsimp only
    rw [replicate_eq hr']
    exact ⟨rfl, id⟩
  | crash =>
    rw [stepUp_crash h]
    exact .inl ⟨rfl, id⟩
  | restart => exact absurd h stepUp_restart

theorem configurations_heartbeat {a : AppendEntriesRequest} (hbeat : a.isHeartbeat = true) :
    (r.appendEntries a env).1.configurations = r.configurations := by
  simp only [AppendEntriesRequest.isHeartbeat, Bool.and_eq_true, decide_eq_true_eq,
    List.isEmpty_iff] at hbeat
  obtain ⟨⟨⟨-, hprev⟩, hentries⟩, hcommit⟩ := hbeat
  have hhead := (sameData_followLeader r a env).configurations
  unfold appendEntries
  dsimp only
  split
  · rfl
  split
  · exact hhead
  · split
    · exact hhead
    · simp only [hentries, storeEntries, newEntries, hcommit, followCommit]
      exact hhead

/-- The latest configuration changes only with the entries of a leader, an installed
snapshot, or a change that the server makes as the leader. -/
theorem latest_stepUp (hup : r.down = false) (h : r.stepUp env input = some o)
    (hbeat : ∀ a, input = .heartbeat a → a.isHeartbeat = true)
    (hrpc : ∀ cmd, input ≠ .rpc cmd)
    (hchange : ∀ req future, input ≠ .configurationChange req future) :
    o.raft.configurations.latest = r.configurations.latest := by
  cases hwrites : r.writesData input with
  | false => rw [(sameData_stepUp h hup hwrites).configurations]
  | true =>
    cases input with
    | rpc cmd => exact absurd rfl (hrpc cmd)
    | heartbeat a =>
      rw [(stepUp_heartbeat h).2.1, configurations_heartbeat (hbeat a rfl)]
    | enter =>
      have hmain : r.main = .noop := of_decide_eq_true hwrites
      simp only [stepUp, enter, hmain, Option.some.injEq] at h
      subst h
      have hsame := dispatchLogs_configurations r
        [{ log := { index := 0, term := 0, type := .logNoop } }] env
      exact congrArg Configurations.latest hsame
    | apply futures =>
      obtain ⟨stepDown, -, -, rfl⟩ := stepUp_apply h
      unfold apply
      split
      · rfl
      · exact congrArg Configurations.latest (dispatchLogs_configurations r futures env)
    | configurationChange req future => exact absurd rfl (hchange req future)
    | commit =>
      obtain ⟨stepDown, ls, rest, -, -, -, ho, -⟩ := stepUp_commit h
      rw [ho]
      rcases (advances_leaderCommit r ls stepDown).configurations with hsame | ⟨-, hsettle⟩
      · rw [hsame]
      · rw [hsettle]
        rfl
    | restart => exact absurd h stepUp_restart
    | run | loopTest | heartbeatTimer | preVote | vote | electionTimer | stepDown | replication
    | crash => cases hwrites

/-- A server that stands for election is a voter, and while it waits as a follower or as a
leader it is not a candidate. -/
structure Standing (r : Raft) : Prop where
  voter : r.Stands → r.isVoter = true
  waiting : r.main.selecting = true → r.main.elects = false → r.state ≠ .candidate

theorem Standing.of_idle (hstate : r.state ≠ .candidate) (hmain : r.main.elects = false) :
    Standing r where
  voter h := by
    rcases h with h | h
    · exact absurd h hstate
    · rw [hmain] at h
      cases h
  waiting _ _ := hstate

/-- Nothing has changed but for the threads, and nobody has become a candidate. -/
theorem Standing.keep (h : Standing r) (hconf : r'.conf = r.conf)
    (hlatest : r'.configurations.latest = r.configurations.latest) (hstate : r'.state = r.state)
    (hmain : r'.main = r.main ∨ (r'.main.selecting = false ∧ r'.main.elects = false)) :
    Standing r' where
  voter hstands := by
    rw [isVoter_congr hconf hlatest]
    apply h.voter
    rcases hstands with hcandidate | helects
    · exact .inl (hstate ▸ hcandidate)
    · rcases hmain with hsame | ⟨-, hnot⟩
      · exact .inr (hsame ▸ helects)
      · rw [hnot] at helects
        cases helects
  waiting hselecting helects := by
    rw [hstate]
    rcases hmain with hsame | ⟨hnot, -⟩
    · rw [hsame] at hselecting helects
      exact h.waiting hselecting helects
    · rw [hnot] at hselecting
      cases hselecting

/-- A TimeoutNow request is handled by a voter only. -/
def AsksVoter (r : Raft) : Command → Prop
  | .timeoutNow _ => r.isVoter = true
  | _ => True

instance (r : Raft) (cmd : Command) : Decidable (r.AsksVoter cmd) :=
  match cmd with
  | .timeoutNow _ => inferInstanceAs (Decidable (r.isVoter = true))
  | .appendEntries _ | .installSnapshot _ | .requestVote _ | .requestPreVote _ => isTrue trivial

/-- Besides, a candidate does not handle an InstallSnapshot request of its own term whose
configuration does not have it as a voter or, when it is one because of a leadership
transfer, an AppendEntries request of its own term that brings a configuration or cuts one
off: these may replace its configuration and leave it a candidate. -/
def KeepsVote (r : Raft) : Command → Prop
  | .timeoutNow _ => r.isVoter = true
  | .appendEntries a => r.state = .candidate → r.SteadyAppend a
  | .installSnapshot req => r.state = .candidate → req.term = r.currentTerm →
    ∀ p ∈ requestConfiguration req, hasVote p.1 r.localID = true
  | _ => True

instance (r : Raft) (a : AppendEntriesRequest) : Decidable (r.SteadyAppend a) :=
  inferInstanceAs (Decidable (_ → _ → ∀ e ∈ a.entries, e.configuration? = none ∧ _))

instance (r : Raft) (cmd : Command) : Decidable (r.KeepsVote cmd) :=
  match cmd with
  | .timeoutNow _ => inferInstanceAs (Decidable (r.isVoter = true))
  | .appendEntries a => inferInstanceAs (Decidable (_ → r.SteadyAppend a))
  | .installSnapshot req =>
    inferInstanceAs (Decidable (_ → _ → ∀ p ∈ requestConfiguration req, hasVote p.1 r.localID = true))
  | .requestVote _ | .requestPreVote _ => isTrue trivial

/-- The configuration that an installation leaves is the old one or that of the request. -/
theorem installSnapshot_configurations (r : Raft) (req : InstallSnapshotRequest) (env : Env) :
    (r.installSnapshot req env).1.configurations = r.configurations ∨
      ∃ p ∈ requestConfiguration req, (r.installSnapshot req env).1.configurations.latest = p.1 := by
  rcases installSnapshot_cases r req env with hsame | ⟨-, c, index, hi⟩ | ⟨-, c, index, -, hwritten⟩
  · exact .inl hsame.configurations
  · exact .inr ⟨(c, index), hi.request, by rw [hi.configurations]⟩
  · exact .inl hwritten.configurations

/-- A voter that is a candidate after it has handled such a request is a voter still. -/
theorem KeepsVote.isVoter {cmd : Command} (h : r.KeepsVote cmd) (hvoter : r.isVoter = true)
    (hconf : (r.processRPC cmd env).1.conf = r.conf)
    (hcandidate : (r.processRPC cmd env).1.state = .candidate) :
    (r.processRPC cmd env).1.isVoter = true := by
  have hkept (hlatest : (r.processRPC cmd env).1.configurations.latest = r.configurations.latest) :
      (r.processRPC cmd env).1.isVoter = true :=
    (isVoter_congr hconf hlatest).trans hvoter
  rcases processRPC_candidate hcandidate with
    ⟨req, -, hsame⟩ | ⟨hstate, hsame | ⟨a, rfl, -⟩ | ⟨req, rfl, hterm⟩⟩
  · exact hkept (by rw [hsame])
  · exact hkept (by rw [hsame])
  · apply hkept
    unfold processRPC at hcandidate ⊢
    split at hcandidate
    · rename_i hheader
      rw [if_pos hheader]
    · rename_i hheader
      rw [if_neg hheader]
      exact latest_appendEntries (h hstate) hcandidate
  · by_cases hheader : r.checkRPCHeader (Command.installSnapshot req).header = false
    · apply hkept
      unfold processRPC
      rw [if_pos hheader]
    · have hhandled : (r.processRPC (.installSnapshot req) env).1 = (r.installSnapshot req env).1 := by
        unfold processRPC
        rw [if_neg hheader]
      rw [hhandled] at hconf hkept ⊢
      rcases installSnapshot_configurations r req env with hsame | ⟨p, hp, hlatest⟩
      · exact hkept (by rw [hsame])
      · unfold Raft.isVoter localID
        rw [hconf, hlatest]
        exact h hstate hterm p hp

theorem Standing.stepUp (hs : Standing r) (hup : r.down = false) (h : r.stepUp env input = some o)
    (hbeat : ∀ a, input = .heartbeat a → a.isHeartbeat = true)
    (hkeeps : ∀ cmd, input = .rpc cmd → r.KeepsVote cmd) : Standing o.raft := by
  have hconf : o.raft.conf = r.conf := by
    have hstep : r.step input env = some o := by
      unfold Raft.step
      rw [if_neg (by simp [hup])]
      exact h
    exact conf_step hstep
  have hmain := main_stepUp h
  have hcandidate := candidate_stepUp hup h
  constructor
  case voter =>
    intro hstands
    -- a server that stands afterwards was a voter before
    have hbefore : r.isVoter = true := by
      rcases hstands with hstate | helects
      · rcases hcandidate hstate with hold | hvoter | ⟨req, rfl⟩
        · exact hs.voter (.inl hold)
        · exact hvoter
        · exact hkeeps _ rfl
      · apply hs.voter
        rcases hmain with ⟨hsame, -⟩ | hcall | ⟨-, hiff, -⟩ | ⟨-, hnot⟩
        · exact .inr (hsame ▸ helects)
        · rw [hcall] at helects
          cases hstate : r.state with
          | candidate => exact .inl hstate
          | follower | leader | shutdown => simp [hstate, MainThread.elects] at helects
        · exact .inl (hiff.mpr helects)
        · rw [hnot] at helects
          cases helects
    by_cases hrpc : ∃ cmd, input = .rpc cmd
    · obtain ⟨cmd, rfl⟩ := hrpc
      obtain ⟨hselecting, ho, -⟩ := stepUp_rpc h
      rw [ho] at hconf ⊢
      refine (hkeeps cmd rfl).isVoter hbefore hconf ?_
      rcases hstands with hstate | helects
      · rw [ho] at hstate
        exact hstate
      · rw [ho, MainThread.elects_again] at helects
        · cases helects
        · rw [(rpcEffect_processRPC r cmd env).main]
          exact hselecting
    rw [isVoter_congr hconf]
    · exact hbefore
    · apply latest_stepUp hup h hbeat
      · exact fun cmd hcmd => hrpc ⟨cmd, hcmd⟩
      · rintro req future rfl
        -- the leader that makes the change is no candidate
        obtain ⟨stepDown, hleader, -, ho, -⟩ := stepUp_configurationChange h
        have hno : r.state ≠ .candidate := hs.waiting (by simp [hleader, MainThread.selecting])
          (by simp [hleader, MainThread.elects])
        rw [ho] at hstands
        rcases hstands with hstate | helects
        · rcases appendConfigurationEntry_state r req future env with hsame | hfollower
          · exact hno (hsame ▸ hstate)
          · exact absurd hstate (by simp [hfollower])
        · cases helects
  case waiting =>
    intro hselecting helects hstate
    rcases hmain with ⟨hsame, hold⟩ | hcall | ⟨-, hiff, hkept⟩ | ⟨hnot, -⟩
    · rw [hsame] at hselecting helects
      exact hs.waiting hselecting helects (hold hstate)
    · rw [hcall] at hselecting
      cases hselecting
    · rw [hiff.mp (hkept ▸ hstate)] at helects
      cases helects
    · rw [hnot] at hselecting
      cases hselecting

end Raft

end PerfRaft
