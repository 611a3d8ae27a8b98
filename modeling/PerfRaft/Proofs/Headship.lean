import PerfRaft.Proofs.Leading

namespace PerfRaft

namespace Raft

variable {r r' : Raft} {env : Env} {o : Outcome} {events : List Event}

/-- An election has been won and the leadership is not set up yet. -/
def elected (r : Raft) : Bool :=
  match r.main with
  | .call .leader => true
  | .run => decide (r.state = .leader)
  | _ => false

/-- The main thread acts in the leadership it has set up last. -/
def heads (r : Raft) : Bool :=
  match r.main with
  | .noop | .leader _ true => true
  | .leader _ false => decide (r.state = .leader)
  | _ => false

/-- The term of the leadership set up last. -/
def headTerm (r : Raft) : Option Nat := r.leaderships.head?.map LeaderState.term

theorem headTerm_modifyLeaderState (r : Raft) {f : LeaderState → LeaderState}
    (hf : ∀ ls, (f ls).term = ls.term) : (r.modifyLeaderState f).headTerm = r.headTerm := by
  unfold headTerm modifyLeaderState
  cases r.leaderships with
  | nil => rfl
  | cons ls rest => simp [hf]

theorem headTerm_dispatchLogs (r : Raft) (futures : List LogFuture) (env : Env) :
    (r.dispatchLogs futures env).1.headTerm = r.headTerm := by
  unfold dispatchLogs
  dsimp only
  split
  · exact headTerm_modifyLeaderState r (fun _ => rfl)
  · simp only [headTerm, modifyLeaderState, setLastLog]
    cases r.leaderships <;> rfl

theorem headTerm_appendConfigurationEntry (r : Raft) (req : ConfigurationChangeRequest) (future : Nat)
    (env : Env) : (r.appendConfigurationEntry req future env).1.headTerm = r.headTerm := by
  unfold appendConfigurationEntry
  split
  · rfl
  · rename_i configuration _
    rw [← headTerm_dispatchLogs r [⟨future, r.configurationEntry configuration⟩] env]
    simp only [headTerm, startStopReplication, modifyLeaderState, setLatestConfiguration]
    cases (r.dispatchLogs [⟨future, r.configurationEntry configuration⟩] env).1.leaderships <;> rfl

theorem leaderships_leaderCommit (r : Raft) (ls : LeaderState) (stepDown : Bool) :
    (r.leaderCommit ls stepDown).1.leaderships = r.leaderships.modifyHead (fun head =>
      { head with
        commitment := { head.commitment with commitCh := false }
        inflight := head.inflight.drop (groupReady ls ls.commitment.commitIndex).length }) := by
  rw [leaderCommit_frame]

theorem headTerm_leaderCommit (r : Raft) (ls : LeaderState) (stepDown : Bool) :
    (r.leaderCommit ls stepDown).1.headTerm = r.headTerm := by
  unfold headTerm
  rw [leaderships_leaderCommit]
  cases r.leaderships <;> rfl

theorem headTerm_replicate {k j : Nat} {input : ReplicationInput} {sends : List (Server × Command)}
    (h : r.replicate k j input = some (r', sends)) : r'.headTerm = r.headTerm := by
  obtain ⟨ls, s, s', matched, hls, _, _, rfl⟩ := replicate_cases h
  unfold headTerm
  cases hlist : r.leaderships with
  | nil => simp [hlist] at hls
  | cons head rest =>
    cases k with
    | zero =>
      simp only [hlist, List.getElem?_cons_zero, Option.some.injEq] at hls
      simp [hls]
    | succ k => simp

/-- What a step can do to a leader before and after it sets up its leadership. -/
structure Heads (r r' : Raft) (events : List Event) : Prop where
  fresh : r'.elected = true →
    (r.elected = true ∧ r'.currentTerm = r.currentTerm ∧ r'.logs = r.logs) ∨
      ∃ req votes latest, .becameLeader r'.currentTerm req votes latest r'.logs ∈ events
  head : r'.heads = true →
    (r.heads = true ∧ r'.currentTerm = r.currentTerm ∧ r'.headTerm = r.headTerm) ∨
      r'.headTerm = some r'.currentTerm

theorem heads_of_neither (helected : r'.elected = false) (hheads : r'.heads = false) :
    Heads r r' events :=
  ⟨fun h => by simp [helected] at h, fun h => by simp [hheads] at h⟩

theorem heads_of_main (hmain : r'.main.mayLead = false) : Heads r r' events := by
  refine heads_of_neither ?_ ?_
  · unfold elected
    split <;> simp_all [MainThread.mayLead]
  · unfold heads
    split <;> simp_all [MainThread.mayLead]

theorem heads_of_run (hmain : r'.main = .run) (hstate : r'.state ≠ .leader) : Heads r r' events :=
  heads_of_neither (by simp [elected, hmain, hstate]) (by simp [heads, hmain])

/-- The threads are left alone. -/
theorem heads_of_beside (hmain : r'.main = r.main) (hstate : r'.state = r.state)
    (hterm : r'.currentTerm = r.currentTerm) (hlogs : r'.logs = r.logs)
    (hhead : r'.headTerm = r.headTerm) : Heads r r' events := by
  refine ⟨fun h => .inl ⟨?_, hterm, hlogs⟩, fun h => .inl ⟨?_, hterm, hhead⟩⟩
  · rwa [elected, hmain, hstate] at h
  · rwa [heads, hmain, hstate] at h

/-- A select case of `leaderLoop` is over. -/
theorem heads_of_leader {stepDown : Bool} (hmain : r'.main = .leader stepDown false)
    (h : r'.state = .leader →
      r.heads = true ∧ r'.currentTerm = r.currentTerm ∧ r'.headTerm = r.headTerm) :
    Heads r r' events := by
  refine ⟨fun he => by simp [elected, hmain] at he, fun hh => .inl (h ?_)⟩
  simpa [heads, hmain] using hh

theorem heads_enter (h : r.enter env = some o) : Heads r o.raft o.events := by
  cases enterStep h with
  | leader => exact ⟨fun he => by simp [elected, enterLeader] at he, fun _ => .inr rfl⟩
  | noop hmain =>
    have hterm := (sameTerm_dispatchLogs r
      [{ log := { index := 0, term := 0, type := .logNoop } }] env).currentTerm
    have hhead := headTerm_dispatchLogs r
      [{ log := { index := 0, term := 0, type := .logNoop } }] env
    exact heads_of_leader rfl (fun _ => ⟨by simp [heads, hmain], hterm, hhead⟩)
  | _ => exact heads_of_main rfl

theorem heads_loopTest (hplace : r.state = .leader → r.main.mayLead = true)
    (h : r.loopTest env = some r') : Heads r r' events := by
  unfold loopTest at h
  split at h
  · rename_i hmain
    have hstate : r.state ≠ .leader := fun hs => by simpa [hmain, MainThread.mayLead] using hplace hs
    cases h
    by_cases hfollower : r.state = .follower
    · exact heads_of_main (by simp [hfollower, MainThread.mayLead])
    · exact heads_of_run (by simp [hfollower]) hstate
  · rename_i locals hmain
    have hstate : r.state ≠ .leader := fun hs => by simpa [hmain, MainThread.mayLead] using hplace hs
    cases h
    split
    · exact heads_of_main rfl
    · exact heads_of_run rfl hstate
  · rename_i stepDown hmain
    cases h
    split
    · rename_i hstate
      exact ⟨fun he => by simp [elected] at he,
        fun _ => .inl ⟨by simp [heads, hmain, hstate], rfl, rfl⟩⟩
    · rename_i hstate
      have hleave := leaveLeader_control r env
      exact heads_of_run hleave.2 (by rw [hleave.1]; exact hstate)
  · simp at h

theorem heads_preVote {c : Candidacy} {voter : Server} {result : PreVoteResult}
    (h : r.preVote c voter result env = some o) : Heads r o.raft o.events := by
  cases preVoteStep h with
  | follow =>
    refine heads_of_run rfl ?_
    simp [leaveCandidate, setCurrentTerm_state, setState]
  | _ => exact heads_of_main rfl

theorem heads_vote {c : Candidacy} {voter : Server} {result : CallResult RequestVoteResponse}
    (h : r.vote c voter result env = some o) : Heads r o.raft o.events := by
  cases voteStep h with
  | follow =>
    refine heads_of_run rfl ?_
    simp [leaveCandidate, setCurrentTerm_state, setState]
  | win =>
    refine ⟨fun _ => .inr ⟨_, _, _, List.mem_singleton.mpr rfl⟩, ?_⟩
    intro hh
    simp [heads, leaveCandidate] at hh
  | count => exact heads_of_main rfl

theorem heads_rpc {cmd : Command} (h : r.stepUp env (.rpc cmd) = some o) :
    Heads r o.raft o.events := by
  obtain ⟨hsel, ho, _⟩ := stepUp_rpc h
  have heffect := rpcEffect_processRPC r cmd env
  have hmain : o.raft.main = r.main.again := by rw [ho, heffect.main]
  cases hr : r.main with
  | leader stepDown tested =>
    simp only [hr, MainThread.selecting] at hsel
    refine heads_of_leader (by rw [hmain, hr]; rfl) ?_
    intro hstate
    rw [ho] at hstate ⊢
    refine ⟨by simp [heads, hr, hsel], ?_, ?_⟩
    · rcases heffect.term with hsame | ⟨_, hfollower⟩
      · exact hsame
      · simp [hfollower] at hstate
    · unfold headTerm
      dsimp only
      rw [heffect.leaderships]
  | follower tested | candidate locals tested =>
    refine heads_of_main ?_
    rw [hmain, hr]
    rfl
  | run | call state | noop => simp [hr, MainThread.selecting] at hsel

theorem heads_stepUp (hplace : r.state = .leader → r.main.mayLead = true)
    (hmain : ∀ req, input ≠ .heartbeat req) (h : r.stepUp env input = some o) :
    Heads r o.raft o.events := by
  cases input with
  | rpc cmd => exact heads_rpc h
  | heartbeat req => exact absurd rfl (hmain req)
  | run =>
    obtain ⟨hrun, rfl⟩ := stepUp_run h
    refine ⟨fun he => .inl ⟨?_, rfl, rfl⟩, fun hh => by simp [heads] at hh⟩
    cases hs : r.state <;> simp_all [elected]
  | enter => exact heads_enter h
  | loopTest =>
    obtain ⟨r', hr, rfl⟩ := stepUp_loopTest h
    exact heads_loopTest hplace hr
  | heartbeatTimer =>
    obtain ⟨hfollower, rfl⟩ := stepUp_heartbeatTimer h
    unfold heartbeatTimer
    dsimp only
    split
    · exact heads_of_main rfl
    split
    · exact heads_of_main rfl
    split
    · exact heads_of_run rfl (by simp [setState])
    · exact heads_of_main rfl
  | preVote voter result =>
    obtain ⟨c, _, ho⟩ := stepUp_preVote h
    exact heads_preVote ho
  | vote voter result =>
    obtain ⟨c, _, ho⟩ := stepUp_vote h
    exact heads_vote ho
  | electionTimer =>
    obtain ⟨⟨c, hc⟩, rfl⟩ := stepUp_electionTimer h
    exact heads_of_run rfl (fun hs => by simpa [hc, MainThread.mayLead] using hplace hs)
  | stepDown =>
    obtain ⟨_, _, rfl⟩ := stepUp_stepDown h
    exact heads_of_leader rfl (fun hs => by simp [setState] at hs)
  | apply futures =>
    obtain ⟨stepDown, hleader, _, rfl⟩ := stepUp_apply h
    have hheads : r.heads = true := by simp [heads, hleader]
    cases stepDown with
    | true => exact heads_of_leader rfl (fun _ => ⟨hheads, rfl, rfl⟩)
    | false =>
      have hterm := (sameTerm_dispatchLogs r futures env).currentTerm
      have hhead := headTerm_dispatchLogs r futures env
      exact heads_of_leader rfl (fun _ => ⟨hheads, hterm, hhead⟩)
  | configurationChange req future =>
    obtain ⟨stepDown, hleader, _, ho, _⟩ := stepUp_configurationChange h
    have hterm := (sameTerm_appendConfigurationEntry r req future env).currentTerm
    have hhead := headTerm_appendConfigurationEntry r req future env
    rw [ho]
    exact heads_of_leader rfl (fun _ => ⟨by simp [heads, hleader], hterm, hhead⟩)
  | commit =>
    obtain ⟨stepDown, ls, _, hleader, _, _, ho, _⟩ := stepUp_commit h
    rw [ho]
    exact heads_of_leader (finishCommit_main _ _) (fun _ => ⟨by simp [heads, hleader],
      (sameTerm_leaderCommit r ls stepDown).currentTerm, headTerm_leaderCommit r ls stepDown⟩)
  | replication k j input =>
    obtain ⟨r', sends, hr, rfl⟩ := stepUp_replication h
    have hhead := headTerm_replicate hr
    have heq := replicate_eq hr
    refine heads_of_beside ?_ ?_ ?_ ?_ hhead
    all_goals
      rw [heq]
  | crash =>
    rw [stepUp_crash h]
    exact heads_of_beside rfl rfl rfl rfl rfl
  | restart => exact absurd h stepUp_restart

theorem heads_step (hplace : r.state = .leader → r.main.mayLead = true)
    (hmain : ∀ req, input ≠ .heartbeat req) (h : r.step input env = some o) :
    Heads r o.raft o.events := by
  refine step_cases (P := fun o => Heads r o.raft o.events) h ?_
    (fun _ h' => heads_stepUp hplace hmain h')
  intro r' _ _ hr
  have hstarted := started_newRaft hr
  exact heads_of_run hstarted.main (by simp [hstarted.state])

end Raft

/-- Until a leader has set up its leadership its log is the one it was elected with,
and then the leadership set up last is of its term. -/
structure Headship (s : ServerRun) : Prop where
  fresh : s.raft.elected = true → ∃ req votes latest,
    .becameLeader s.raft.currentTerm req votes latest s.raft.logs ∈ s.history
  head : s.raft.heads = true → s.raft.headTerm = some s.raft.currentTerm

theorem Headship.init {s : ServerRun} (h : serverSystem.init s) : Headship s := by
  obtain ⟨conf, currentTerm, logs, snapshots, rfl⟩ := h
  exact ⟨by simp [Raft.elected], by simp [Raft.heads]⟩

theorem Headship.step {s : ServerRun} (h : Headship s) (hleading : Leading s) {input : Input}
    {env : Env} {o : Outcome} (hmain : ∀ req, input ≠ .heartbeat req)
    (ho : s.raft.step input env = some o) : Headship ⟨o.raft, o.events ++ s.history⟩ := by
  have hheads := Raft.heads_step hleading.place hmain ho
  constructor
  · intro he
    rcases hheads.fresh he with ⟨hold, hterm, hlogs⟩ | ⟨req, votes, latest, hmem⟩
    · obtain ⟨req, votes, latest, hmem⟩ := h.fresh hold
      refine ⟨req, votes, latest, List.mem_append_right _ ?_⟩
      rw [hterm, hlogs]
      exact hmem
    · exact ⟨req, votes, latest, List.mem_append_left _ hmem⟩
  · intro hh
    rcases hheads.head hh with ⟨hold, hterm, hhead⟩ | hhead
    · exact hhead.trans ((h.head hold).trans (congrArg some hterm.symm))
    · exact hhead

end PerfRaft
