import PerfRaft.Proofs.Threads

namespace PerfRaft

/-- The AppendEntries request of an input, on the main thread or beside it. -/
def Input.append? : Input → Option AppendEntriesRequest
  | .rpc (.appendEntries a) => some a
  | .heartbeat a => some a
  | _ => none

namespace Raft

variable {r r' : Raft} {env : Env} {o : Outcome}

theorem stepUp_rpc (h : r.stepUp env (.rpc cmd) = some o) :
    r.main.selecting = true ∧
      o.raft = { (r.processRPC cmd env).1 with main := (r.processRPC cmd env).1.main.again } ∧
      o.sends = [] ∧ o.events = (r.processRPC cmd env).2.2 ∧
      o.response = if (r.processRPC cmd env).1.down then none else some (r.processRPC cmd env).2.1 := by
  simp only [stepUp] at h
  split at h
  · rename_i hsel
    cases h
    exact ⟨hsel, rfl, rfl, rfl, rfl⟩
  · simp at h

theorem stepUp_heartbeat (h : r.stepUp env (.heartbeat req) = some o) :
    r.state ≠ .shutdown ∧ o.raft = (r.appendEntries req env).1 ∧ o.sends = [] ∧
      o.events = (r.appendEntries req env).2.2 ∧
      o.response =
        if (r.appendEntries req env).1.down then none else some (r.appendEntries req env).2.1 := by
  simp only [stepUp] at h
  split at h
  · simp at h
  · rename_i hstate
    cases h
    exact ⟨hstate, rfl, rfl, rfl, rfl⟩

theorem stepUp_run (h : r.stepUp env .run = some o) :
    r.main = .run ∧ o = { raft := { r with main := .call r.state } } := by
  simp only [stepUp] at h
  split at h
  · rename_i hmain
    cases h
    exact ⟨hmain.1, rfl⟩
  · simp at h

theorem stepUp_loopTest (h : r.stepUp env .loopTest = some o) :
    ∃ r', r.loopTest env = some r' ∧ o = { raft := r' } := by
  simp only [stepUp, Option.map_eq_some_iff] at h
  obtain ⟨r', hr, ho⟩ := h
  exact ⟨r', hr, ho.symm⟩

theorem stepUp_heartbeatTimer (h : r.stepUp env .heartbeatTimer = some o) :
    r.main = .follower true ∧ o = { raft := r.heartbeatTimer } := by
  simp only [stepUp] at h
  split at h
  · rename_i hmain
    cases h
    exact ⟨hmain, rfl⟩
  · simp at h

theorem stepUp_preVote (h : r.stepUp env (.preVote voter result) = some o) :
    ∃ c, r.main = .candidate c true ∧ r.preVote c voter result env = some o := by
  simp only [stepUp] at h
  split at h
  · rename_i c hmain
    exact ⟨c, hmain, h⟩
  · simp at h

theorem stepUp_vote (h : r.stepUp env (.vote voter result) = some o) :
    ∃ c, r.main = .candidate c true ∧ r.vote c voter result env = some o := by
  simp only [stepUp] at h
  split at h
  · rename_i c hmain
    exact ⟨c, hmain, h⟩
  · simp at h

theorem stepUp_electionTimer (h : r.stepUp env .electionTimer = some o) :
    (∃ c, r.main = .candidate c true) ∧ o = { raft := r.leaveCandidate } := by
  simp only [stepUp] at h
  split at h
  · rename_i c hmain
    cases h
    exact ⟨⟨c, hmain⟩, rfl⟩
  · simp at h

theorem stepUp_stepDown (h : r.stepUp env .stepDown = some o) :
    ∃ stepDown, r.main = .leader stepDown true ∧
      o = { raft := { r.setState .follower with main := .leader stepDown false } } := by
  simp only [stepUp] at h
  split at h
  · rename_i stepDown hmain
    cases h
    exact ⟨stepDown, hmain, rfl⟩
  · simp at h

theorem stepUp_apply (h : r.stepUp env (.apply futures) = some o) :
    ∃ stepDown, r.main = .leader stepDown true ∧ r.acceptsFutures futures = true ∧
      o = r.apply stepDown futures env := by
  simp only [stepUp] at h
  split at h
  · rename_i stepDown hmain
    split at h
    · rename_i hfutures
      cases h
      exact ⟨stepDown, hmain, hfutures, rfl⟩
    · simp at h
  · simp at h

theorem latestIndex_of_stable (h : r.configurationChangeChIfStable = true) :
    r.configurations.latestIndex = r.configurations.committedIndex := by
  unfold configurationChangeChIfStable at h
  split at h
  · simp at h
  · simp only [Bool.and_eq_true, decide_eq_true_eq] at h
    exact h.1

theorem stepUp_configurationChange (h : r.stepUp env (.configurationChange req future) = some o) :
    ∃ stepDown, r.main = .leader stepDown true ∧ r.configurationChangeChIfStable = true ∧
      o.raft = { (r.appendConfigurationEntry req future env).1 with main := .leader stepDown false } ∧
      o.sends = [] ∧ o.response = none ∧
      o.events = (r.appendConfigurationEntry req future env).2 := by
  simp only [stepUp] at h
  split at h
  · rename_i stepDown hmain
    split at h
    · rename_i hstable
      cases h
      exact ⟨stepDown, hmain, hstable, rfl, rfl, rfl, rfl⟩
    · simp at h
  · simp at h

theorem stepUp_commit (h : r.stepUp env .commit = some o) :
    ∃ stepDown ls rest, r.main = .leader stepDown true ∧ r.leaderships = ls :: rest ∧
      ls.commitment.commitCh = true ∧ o.raft = (r.leaderCommit ls stepDown).1 ∧ o.sends = [] ∧
      o.response = none ∧ o.events = (r.leaderCommit ls stepDown).2 := by
  simp only [stepUp] at h
  split at h
  · rename_i stepDown ls rest hmain hls
    split at h
    · rename_i hch
      cases h
      exact ⟨stepDown, ls, rest, hmain, hls, hch, rfl, rfl, rfl, rfl⟩
    · simp at h
  · simp at h

theorem stepUp_replication (h : r.stepUp env (.replication k j input) = some o) :
    ∃ r' sends, r.replicate k j input = some (r', sends) ∧ o = { raft := r', sends := sends } := by
  simp only [stepUp, Option.map_eq_some_iff] at h
  obtain ⟨⟨r', sends⟩, hr, ho⟩ := h
  exact ⟨r', sends, hr, ho.symm⟩

theorem stepUp_crash (h : r.stepUp env .crash = some o) : o = { raft := { r with down := true } } := by
  cases h
  rfl

theorem stepUp_restart : r.stepUp env .restart ≠ some o := by
  simp [stepUp]

/-- What kind of thing an event records. -/
inductive Kind where
  | vote | win | dispatch | apply | commit
  deriving DecidableEq

def kind : Event → Kind
  | .voteChecked _ _ => .vote
  | .voteGranted _ _ => .vote
  | .becameLeader _ _ _ _ _ => .win
  | .dispatched _ => .dispatch
  | .applied _ => .apply
  | .committed _ _ => .commit

theorem kind_castVote (h : e ∈ (r.castVote req resp env ws).2.2) : kind e = .vote := by
  unfold castVote at h
  split at h
  · split at h
    · simp only [List.mem_singleton] at h
      rw [h, kind]
    · simp at h
  · split at h
    · simp at h
    · split at h
      · simp only [List.mem_singleton] at h
        rw [h, kind]
      · simp only [List.mem_cons, List.not_mem_nil, or_false] at h
        rcases h with rfl | rfl <;> rfl

theorem kind_requestVote (h : e ∈ (r.requestVote req env).2.2) : kind e = .vote := by
  obtain ⟨_, hr | ⟨-, -, hr⟩ | ⟨_, -, -, hr | ⟨-, hr⟩⟩, -⟩ := requestVote_cases r req env <;> rw [hr] at h
  · simp at h
  · exact kind_castVote h
  · simp at h
  · exact kind_castVote h

theorem kind_processRPC (h : e ∈ (r.processRPC cmd env).2.2) :
    kind e = .vote ∨ (kind e = .apply ∧ ∃ req, cmd = .appendEntries req) := by
  unfold processRPC at h
  split at h
  · simp at h
  · cases cmd with
    | appendEntries req =>
      obtain ⟨l, rfl⟩ := appendEntries_events h
      exact .inr ⟨rfl, req, rfl⟩
    | requestVote req => exact .inl (kind_requestVote h)
    | requestPreVote req => simp at h
    | installSnapshot req => simp at h
    | timeoutNow req => simp at h

theorem kind_askVoters (h : e ∈ (r.askVoters req ws servers).2.2.2) : kind e = .vote := by
  induction servers generalizing r ws with
  | nil => simp [askVoters] at h
  | cons server rest ih =>
    unfold askVoters at h
    split at h
    · exact ih h
    · split at h
      · split at h
        · simp at h
        · simp only [List.mem_cons] at h
          rcases h with rfl | h
          · rfl
          · exact ih h
      · exact ih h

theorem kind_electSelf (hup : r.down = false) (h : e ∈ (r.electSelf env).2.2.2) :
    kind e = .vote := by
  rcases electSelf_cases r env hup with ⟨r', _, _, _, he⟩ | ⟨r', ok, asked, events, ha, _, he⟩
  · simp [he] at h
  · have hmem : e ∈ (r.nextTerm.askVoters r.nextTerm.voteRequest env.writes.tail
        r.configurations.latest.servers).2.2.2 := by
      rw [ha]
      rw [he] at h
      exact h
    exact kind_askVoters hmem

theorem dispatchLogs_events (h : e ∈ (r.dispatchLogs futures env).2) :
    env.storeLogs = true ∧ e = .dispatched
      ((stampLogs r.currentTerm env.now r.getLastIndex futures).map LogFuture.log) := by
  unfold dispatchLogs at h
  dsimp only at h
  split at h
  · simp at h
  · rename_i hstore
    simp only [List.mem_singleton] at h
    exact ⟨by simpa using hstore, h⟩

theorem appendConfigurationEntry_events
    (h : e ∈ (r.appendConfigurationEntry req future env).2) :
    ∃ configuration,
      nextConfiguration r.configurations.latest r.configurations.latestIndex req = .ok configuration ∧
      e ∈ (r.dispatchLogs [⟨future, r.configurationEntry configuration⟩] env).2 := by
  unfold appendConfigurationEntry at h
  split at h
  · simp at h
  · rename_i configuration hnext
    exact ⟨configuration, hnext, h⟩

theorem leaderCommit_events (h : e ∈ (r.leaderCommit ls stepDown).2) :
    e = .committed ls.term ls.commitment.commitIndex ∨ kind e = .apply := by
  unfold leaderCommit at h
  simp only [List.mem_cons, Processed.events, List.mem_map] at h
  rcases h with h | ⟨t, _, h⟩
  · exact .inl h
  · rw [← h]
    exact .inr rfl

theorem kind_enter (hup : r.down = false) (h : r.enter env = some o) (hmem : e ∈ o.events) :
    kind e = .vote ∨ (r.main = .noop ∧
      e ∈ (r.dispatchLogs [{ log := { index := 0, term := 0, type := .logNoop } }] env).2) := by
  cases enterStep h with
  | elect => exact .inl (kind_electSelf hup hmem)
  | noop hmain => exact .inr ⟨hmain, hmem⟩
  | _ => simp at hmem

theorem kind_preVote (hup : r.down = false) (h : r.preVote c voter result env = some o)
    (hmem : e ∈ o.events) : kind e = .vote := by
  cases preVoteStep h with
  | elect => exact kind_electSelf hup hmem
  | _ => simp at hmem

/-- The only event of a vote is the election won with it. -/
theorem vote_events (h : r.vote c voter result env = some o) (hmem : e ∈ o.events) :
    ∃ ch, c.voteCh = some ch ∧ voter ∈ ch.pending ∧
      (r.voteAnswer ch.req voter result).1 ≤ r.currentTerm ∧
      (c.countVote ch voter (r.voteAnswer ch.req voter result).2).votesNeeded ≤
        (c.countVote ch voter (r.voteAnswer ch.req voter result).2).grantedVotes ∧
      e = .becameLeader r.currentTerm ch.req
        (c.countVote ch voter (r.voteAnswer ch.req voter result).2).votes
        r.configurations.latest r.logs ∧
      o.raft = ((r.setState .leader).setLeader r.localAddr r.localID).leaveCandidate := by
  cases voteStep h with
  | win ch hch hpending hterm c' hc' hwon =>
    subst hc'
    simp only [List.mem_singleton] at hmem
    exact ⟨ch, hch, hpending, hterm, hwon, hmem, rfl⟩
  | _ => simp at hmem

/-- The inputs at which a server neither takes over a term nor votes. -/
def quiet : Input → Bool
  | .rpc _ | .heartbeat _ | .enter | .preVote _ _ | .vote _ _ | .restart => false
  | _ => true

/-- Where an event of a running server comes from: from a vote that is cast or
asked for, from the election won with a vote, from the entries a leader stores, from
what goes to the FSM, or from the commit index of a leader. -/
inductive Emits (r : Raft) (env : Env) (input : Input) (o : Outcome) (e : Event) : Prop where
  | vote (hkind : kind e = .vote) (hinput : quiet input = false)
  | win (voter : Server) (result : CallResult RequestVoteResponse) (c : Candidacy)
      (hinput : input = .vote voter result) (hmain : r.main = .candidate c true)
      (hvote : r.vote c voter result env = some o) (hkind : kind e = .win)
  | dispatch (futures : List LogFuture) (hmain : r.main = .noop ∨ ∃ stepDown, r.main = .leader stepDown true)
      (hmem : e ∈ (r.dispatchLogs futures env).2) (hkind : kind e = .dispatch)
  | apply (hkind : kind e = .apply) (hinput : input.append?.isSome ∨ input = .commit)
  | commit (hkind : kind e = .commit)

theorem emits_stepUp (h : r.stepUp env input = some o) (hup : r.down = false) (hmem : e ∈ o.events) :
    Emits r env input o e := by
  have hdispatch : ∀ futures, (r.main = .noop ∨ ∃ stepDown, r.main = .leader stepDown true) →
      e ∈ (r.dispatchLogs futures env).2 → Emits r env input o e := by
    intro futures hmain hd
    refine .dispatch futures hmain hd ?_
    rw [(dispatchLogs_events hd).2]
    rfl
  cases input with
  | rpc cmd =>
    obtain ⟨_, _, _, he, _⟩ := stepUp_rpc h
    rw [he] at hmem
    rcases kind_processRPC hmem with hk | ⟨hk, req, rfl⟩
    · exact .vote hk rfl
    · exact .apply hk (.inl rfl)
  | heartbeat req =>
    obtain ⟨_, _, _, he, _⟩ := stepUp_heartbeat h
    rw [he] at hmem
    obtain ⟨l, rfl⟩ := appendEntries_events hmem
    exact .apply rfl (.inl rfl)
  | enter =>
    rcases kind_enter hup h hmem with hk | ⟨hmain, hd⟩
    · exact .vote hk rfl
    · exact hdispatch _ (.inl hmain) hd
  | preVote voter result =>
    obtain ⟨c, _, ho⟩ := stepUp_preVote h
    exact .vote (kind_preVote hup ho hmem) rfl
  | vote voter result =>
    obtain ⟨c, hmain, ho⟩ := stepUp_vote h
    obtain ⟨_, _, _, _, _, rfl, _⟩ := vote_events ho hmem
    exact .win voter result c rfl hmain ho rfl
  | apply futures =>
    obtain ⟨stepDown, hmain, _, rfl⟩ := stepUp_apply h
    cases stepDown with
    | true => simp [apply] at hmem
    | false => exact hdispatch futures (.inr ⟨_, hmain⟩) hmem
  | configurationChange req future =>
    obtain ⟨stepDown, hmain, _, _, _, _, he⟩ := stepUp_configurationChange h
    rw [he] at hmem
    obtain ⟨_, _, hd⟩ := appendConfigurationEntry_events hmem
    exact hdispatch _ (.inr ⟨_, hmain⟩) hd
  | commit =>
    obtain ⟨_, ls, _, _, _, _, _, _, _, he⟩ := stepUp_commit h
    rw [he] at hmem
    rcases leaderCommit_events hmem with rfl | hk
    · exact .commit rfl
    · exact .apply hk (.inr rfl)
  | run =>
    obtain ⟨_, rfl⟩ := stepUp_run h
    simp at hmem
  | loopTest =>
    obtain ⟨r', _, rfl⟩ := stepUp_loopTest h
    simp at hmem
  | heartbeatTimer =>
    obtain ⟨_, rfl⟩ := stepUp_heartbeatTimer h
    simp at hmem
  | electionTimer =>
    obtain ⟨_, rfl⟩ := stepUp_electionTimer h
    simp at hmem
  | stepDown =>
    obtain ⟨_, _, rfl⟩ := stepUp_stepDown h
    simp at hmem
  | replication k j input =>
    obtain ⟨_, _, _, rfl⟩ := stepUp_replication h
    simp at hmem
  | crash =>
    rw [stepUp_crash h] at hmem
    simp at hmem
  | restart => exact absurd h stepUp_restart

/-- A server becomes leader by counting a vote. -/
theorem becameLeader_vote (h : r.stepUp env input = some o) (hup : r.down = false)
    (hmem : e ∈ o.events) (hkind : kind e = .win) :
    ∃ voter result c, input = .vote voter result ∧ r.main = .candidate c true ∧
      r.vote c voter result env = some o := by
  cases emits_stepUp h hup hmem with
  | win voter result c hinput hmain hvote _ => exact ⟨voter, result, c, hinput, hmain, hvote⟩
  | _ => simp_all

/-- A step of a server without a process is a restart. -/
theorem step_down (h : r.step input env = some o) (hdown : r.down = true) :
    input = .restart ∧ ∃ r', newRaft r.conf r.stable r.logs r.snapshots env = some r' ∧
      o = { raft := r' } := by
  simp only [step, hdown, if_true] at h
  split at h
  · simp only [Option.map_eq_some_iff] at h
    obtain ⟨r', hr, ho⟩ := h
    exact ⟨rfl, r', hr, ho.symm⟩
  · simp at h

theorem step_up (h : r.step input env = some o) (hup : r.down = false) :
    r.stepUp env input = some o := by
  simpa [step, hup] using h

/-- To prove something of every step, prove it of a restart and of the steps of a
running server. -/
theorem step_cases {P : Outcome → Prop} (h : r.step input env = some o)
    (hrestart : ∀ r', r.down = true → input = .restart →
      newRaft r.conf r.stable r.logs r.snapshots env = some r' → P { raft := r' })
    (hup : r.down = false → r.stepUp env input = some o → P o) : P o := by
  cases hd : r.down with
  | true =>
    obtain ⟨hi, r', hr, rfl⟩ := step_down h hd
    exact hrestart r' hd hi hr
  | false => exact hup hd (step_up h hd)

theorem quiet_stepUp (h : r.stepUp env input = some o) (hup : r.down = false)
    (hquiet : quiet input = true) : SameTerm r o.raft ∧ ∀ e ∈ o.events, kind e ≠ .vote := by
  refine ⟨?_, fun e he hkind => by cases emits_stepUp h hup he <;> simp_all⟩
  cases input with
  | rpc cmd => simp [quiet] at hquiet
  | heartbeat req => simp [quiet] at hquiet
  | enter => simp [quiet] at hquiet
  | preVote voter result => simp [quiet] at hquiet
  | vote voter result => simp [quiet] at hquiet
  | restart => simp [quiet] at hquiet
  | run =>
    obtain ⟨_, rfl⟩ := stepUp_run h
    exact ⟨rfl, rfl, rfl⟩
  | loopTest =>
    obtain ⟨r', hr, rfl⟩ := stepUp_loopTest h
    exact sameTerm_loopTest hr
  | heartbeatTimer =>
    obtain ⟨_, rfl⟩ := stepUp_heartbeatTimer h
    exact sameTerm_heartbeatTimer r
  | electionTimer =>
    obtain ⟨_, rfl⟩ := stepUp_electionTimer h
    exact ⟨rfl, rfl, rfl⟩
  | stepDown =>
    obtain ⟨_, _, rfl⟩ := stepUp_stepDown h
    exact ⟨rfl, rfl, rfl⟩
  | apply futures =>
    obtain ⟨stepDown, _, _, rfl⟩ := stepUp_apply h
    cases stepDown with
    | true => exact ⟨rfl, rfl, rfl⟩
    | false => exact (sameTerm_dispatchLogs r futures env).trans ⟨rfl, rfl, rfl⟩
  | configurationChange req future =>
    obtain ⟨_, _, _, ho, _⟩ := stepUp_configurationChange h
    rw [ho]
    exact (sameTerm_appendConfigurationEntry r req future env).trans ⟨rfl, rfl, rfl⟩
  | commit =>
    obtain ⟨stepDown, ls, _, _, _, _, ho, _⟩ := stepUp_commit h
    rw [ho]
    exact sameTerm_leaderCommit r ls stepDown
  | replication k j input =>
    obtain ⟨_, _, hr, rfl⟩ := stepUp_replication h
    exact sameTerm_replicate hr
  | crash =>
    rw [stepUp_crash h]
    exact ⟨rfl, rfl, rfl⟩

theorem conf_electSelf (hup : r.down = false) : (r.electSelf env).1.conf = r.conf := by
  rcases electSelf_cases r env hup with ⟨r', hsame, _, _, he⟩ | ⟨r', _, _, _, _, hsame, he⟩
  · rw [he]
    exact hsame.conf
  · rw [he]
    exact hsame.conf

theorem conf_follow (r : Raft) (t : Nat) (ws : List Write) :
    ((r.setState .follower).setCurrentTerm t ws).conf = r.conf := by
  rcases setCurrentTerm_cases (r.setState .follower) t ws with h | ⟨_, hsame, _⟩
  · rw [h]
    rfl
  · exact hsame.conf

theorem conf_preVote (hup : r.down = false) (h : r.preVote c voter result env = some o) :
    o.raft.conf = r.conf := by
  cases preVoteStep h with
  | follow => exact conf_follow r _ _
  | elect => exact conf_electSelf hup
  | count => rfl

theorem conf_vote (h : r.vote c voter result env = some o) : o.raft.conf = r.conf := by
  cases voteStep h with
  | follow => exact conf_follow r _ _
  | _ => rfl

theorem conf_enter (hup : r.down = false) (h : r.enter env = some o) : o.raft.conf = r.conf := by
  cases enterStep h with
  | elect => exact conf_electSelf hup
  | leader => exact (sameTerm_enterLeader r).conf
  | noop => exact (sameTerm_dispatchLogs r _ env).conf
  | _ => rfl

/-- No step changes the settings of a server. -/
theorem conf_step (h : r.step input env = some o) : o.raft.conf = r.conf := by
  refine step_cases (P := fun o => o.raft.conf = r.conf) h (fun r' _ _ hr => (started_newRaft hr).conf) ?_
  intro hup h
  cases input with
  | rpc cmd =>
    rw [(stepUp_rpc h).2.1]
    exact (rpcEffect_processRPC r cmd env).conf
  | heartbeat req =>
    rw [(stepUp_heartbeat h).2.1]
    exact (rpcEffect_appendEntries r req env).1.conf
  | enter => exact conf_enter hup h
  | preVote voter result =>
    obtain ⟨c, _, ho⟩ := stepUp_preVote h
    exact conf_preVote hup ho
  | vote voter result =>
    obtain ⟨c, _, ho⟩ := stepUp_vote h
    exact conf_vote ho
  | restart => exact absurd h stepUp_restart
  | _ => exact (quiet_stepUp h hup rfl).1.conf

end Raft

theorem serverSystem_step {s s' : ServerRun} {a : Input × Env}
    (h : serverSystem.step s a = some s') :
    ∃ o, s.raft.step a.1 a.2 = some o ∧ s' = ⟨o.raft, o.events ++ s.history⟩ := by
  simp only [serverSystem, ServerRun.step, Option.map_eq_some_iff] at h
  obtain ⟨o, ho, hs⟩ := h
  exact ⟨o, ho, hs.symm⟩

/-- The run rule for one server: `P` holds of the server, and `Q` of everything
that is recorded. -/
theorem server_invariant {ok : ServerRun → Input × Env → Prop} {P : Raft → Prop}
    {Q : Event → Prop}
    (hinit : ∀ conf currentTerm logs snapshots,
      P { conf := conf, stable := { currentTerm := currentTerm }, logs := logs
          snapshots := snapshots, down := true })
    (hstep : ∀ s a o, P s.raft → ok s a → s.raft.step a.1 a.2 = some o →
      P o.raft ∧ ∀ e ∈ o.events, Q e)
    {s : ServerRun} (h : serverSystem.Reachable ok s) : P s.raft ∧ ∀ e ∈ s.history, Q e := by
  refine Lib.System.Reachable.invariant (P := fun s => P s.raft ∧ ∀ e ∈ s.history, Q e) ?_ ?_ h
  · rintro s ⟨conf, currentTerm, logs, snapshots, rfl⟩
    exact ⟨hinit conf currentTerm logs snapshots, by simp⟩
  · intro s a s' ⟨hP, hQ⟩ hok hs
    obtain ⟨o, ho, rfl⟩ := serverSystem_step hs
    obtain ⟨hP', hQ'⟩ := hstep s a o hP hok ho
    refine ⟨hP', ?_⟩
    intro e he
    rcases List.mem_append.mp he with he | he
    · exact hQ' e he
    · exact hQ e he

end PerfRaft
