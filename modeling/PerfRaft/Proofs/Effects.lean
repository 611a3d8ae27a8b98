import PerfRaft.Proofs.Handlers
import PerfRaft.Proofs.Leading

namespace PerfRaft

open Lib

/-- No answer to an AppendEntries request. -/
def Outcome.Silent (o : Outcome) : Prop := ∀ resp, o.response ≠ some (.appendEntries resp)

namespace Raft

variable {r r' : Raft} {env : Env} {input : Input} {o : Outcome}

/-- What a step does to the term, the votes, the log and the leaderships of a
server, on a transport without a heartbeat fast path and without snapshots. -/
inductive Effect (r : Raft) (env : Env) (input : Input) (o : Outcome) : Prop where
  | restart (hdown : r.down = true)
      (hraft : newRaft r.conf r.stable r.logs r.snapshots env = some o.raft)
      (hevents : o.events = []) (hsends : o.sends = []) (hsilent : o.Silent)
  /-- Nothing of interest changes. -/
  | idle (hdata : SameData r o.raft) (hterm : SameTerm r o.raft)
      (hleaderships : o.raft.leaderships = r.leaderships) (hevents : o.events = [])
      (hsends : ∀ p ∈ o.sends, ∃ req, p.2 = .requestPreVote req) (hsilent : o.Silent)
  | requestVote (req : RequestVoteRequest) (hinput : input = .rpc (.requestVote req))
      (hraft : o.raft = { (r.requestVote req env).1 with main := r.main.again })
      (hevents : o.events = (r.requestVote req env).2.2) (hsends : o.sends = [])
      (hsilent : o.Silent)
  | appendEntries (req : AppendEntriesRequest) (hinput : input = .rpc (.appendEntries req))
      (hraft : o.raft = { (r.appendEntries req env).1 with main := r.main.again })
      (hevents : o.events = (r.appendEntries req env).2.2) (hsends : o.sends = [])
      (hresponse : o.response = none ∨ o.response = some (r.appendEntries req env).2.1)
  /-- `electSelf`, at the start of `runCandidate` or after a pre-vote. -/
  | elect (main : MainThread) (hraft : o.raft = { (r.electSelf env).1 with main := main })
      (hevents : o.events = (r.electSelf env).2.2.2) (hsends : o.sends = (r.electSelf env).2.2.1)
      (hsilent : o.Silent)
  /-- A candidate hears of a newer term. -/
  | follow (t : Nat)
      (hraft : o.raft = ((r.setState .follower).setCurrentTerm t env.writes).leaveCandidate)
      (hevents : o.events = []) (hsends : o.sends = []) (hsilent : o.Silent)
  | win (locals : Candidacy) (ch : VoteChannel) (votes : List ServerID)
      (hmain : r.main = .candidate locals true) (hch : locals.voteCh = some ch)
      (hpending : ch.pending ≠ [])
      (hraft : o.raft = ((r.setState .leader).setLeader r.localAddr r.localID).leaveCandidate)
      (hevents : o.events =
        [.becameLeader r.currentTerm ch.req votes r.configurations.latest r.logs])
      (hsends : o.sends = []) (hsilent : o.Silent)
  /-- `runLeader` sets up the leadership. -/
  | setup (hmain : r.main = .call .leader) (hraft : o.raft = r.enterLeader) (hevents : o.events = [])
      (hsends : o.sends = []) (hsilent : o.Silent)
  | dispatch (futures : List LogFuture) (stepDown : Bool)
      (hmain : r.main = .noop ∨ r.main = .leader stepDown true) (hne : futures ≠ [])
      (hdecodes : ∀ f ∈ futures, f.log.decodes = true)
      (hraft : o.raft = { (r.dispatchLogs futures env).1 with main := .leader stepDown false })
      (hevents : o.events = (r.dispatchLogs futures env).2) (hsends : o.sends = [])
      (hsilent : o.Silent)
  | configure (req : ConfigurationChangeRequest) (future : Nat) (configuration : Configuration)
      (stepDown : Bool) (hinput : input = .configurationChange req future)
      (hmain : r.main = .leader stepDown true)
      (hnext : nextConfiguration r.configurations.latest r.configurations.latestIndex req =
        .ok configuration)
      (hraft : o.raft =
        { (r.appendConfigurationEntry req future env).1 with main := .leader stepDown false })
      (hevents : o.events = (r.appendConfigurationEntry req future env).2) (hsends : o.sends = [])
      (hsilent : o.Silent)
  | commit (ls : LeaderState) (rest : List LeaderState) (stepDown : Bool)
      (hmain : r.main = .leader stepDown true) (hleaderships : r.leaderships = ls :: rest)
      (hraft : o.raft = (r.leaderCommit ls stepDown).1)
      (hevents : o.events = (r.leaderCommit ls stepDown).2) (hsends : o.sends = [])
      (hsilent : o.Silent)
  /-- `leaderLoop` is left. -/
  | leave (stepDown : Bool) (hmain : r.main = .leader stepDown false)
      (hstate : r.state ≠ .leader) (hraft : o.raft = r.leaveLeader env) (hevents : o.events = [])
      (hsends : o.sends = []) (hsilent : o.Silent)
  | replicate (k j : Nat) (inp : ReplicationInput) (hinput : input = .replication k j inp)
      (hstep : r.replicate k j inp = some (o.raft, o.sends)) (hevents : o.events = [])
      (hsilent : o.Silent)

/-- The step only moves the main thread. -/
theorem effect_idle (hdata : SameData r r') (hterm : SameTerm r r')
    (hleaderships : r'.leaderships = r.leaderships) : Effect r env input { raft := r' } :=
  .idle hdata hterm hleaderships rfl (by simp) (by simp [Outcome.Silent])

theorem effect_answered {cmd : Command} {resp : Response} (h : r.stepUp env (.rpc cmd) = some o)
    (hp : r.processRPC cmd env = (r', resp, [])) (hdata : SameData r r') (hterm : SameTerm r r')
    (hleaderships : r'.leaderships = r.leaderships) (hresp : ∀ x, resp ≠ .appendEntries x) :
    Effect r env (.rpc cmd) o := by
  obtain ⟨_, hraft, hsends, hevents, hresponse⟩ := stepUp_rpc h
  rw [hp] at hraft hevents hresponse
  refine .idle ?_ ?_ ?_ hevents (by simp [hsends]) ?_
  · rw [hraft]
    exact hdata.setMain _
  · rw [hraft]
    exact hterm.trans ⟨rfl, rfl, rfl⟩
  · rw [hraft]
    exact hleaderships
  · intro x hx
    rw [hresponse] at hx
    split at hx
    · simp at hx
    · exact hresp x (Option.some.inj hx)

theorem effect_rpc {cmd : Command} (h : r.stepUp env (.rpc cmd) = some o)
    (hsnapshot : ∀ req, cmd ≠ .installSnapshot req) : Effect r env (.rpc cmd) o := by
  by_cases hheader : r.checkRPCHeader cmd.header = false
  · have hp : r.processRPC cmd env = (r, .failed, []) := by simp [processRPC, hheader]
    exact effect_answered h hp (.refl r) (.refl r) rfl (by simp)
  · obtain ⟨_, hraft, hsends, hevents, hresponse⟩ := stepUp_rpc h
    rw [(rpcEffect_processRPC r cmd env).main] at hraft
    cases cmd with
    | appendEntries req =>
      have hp : r.processRPC (.appendEntries req) env = r.appendEntries req env := by
        unfold processRPC
        rw [if_neg hheader]
      rw [hp] at hraft hevents hresponse
      refine .appendEntries req rfl hraft hevents hsends ?_
      rw [hresponse]
      split
      · exact .inl rfl
      · exact .inr rfl
    | requestVote req =>
      have hp : r.processRPC (.requestVote req) env =
          ((r.requestVote req env).1, .requestVote (r.requestVote req env).2.1,
            (r.requestVote req env).2.2) := by
        unfold processRPC
        rw [if_neg hheader]
      rw [hp] at hraft hevents hresponse
      refine .requestVote req rfl hraft hevents hsends ?_
      intro resp hr
      rw [hresponse] at hr
      split at hr <;> simp at hr
    | requestPreVote req =>
      have hp : r.processRPC (.requestPreVote req) env =
          (r, .requestPreVote (r.requestPreVote req), []) := by
        unfold processRPC
        rw [if_neg hheader]
      exact effect_answered h hp (.refl r) (.refl r) rfl (by simp)
    | installSnapshot req => exact absurd rfl (hsnapshot req)
    | timeoutNow req =>
      have hp : r.processRPC (.timeoutNow req) env = (r.timeoutNow, .timeoutNow, []) := by
        unfold processRPC
        rw [if_neg hheader]
      have hdata := sameData_timeoutNow r
      rw [timeoutNow_eq] at hp hdata
      exact effect_answered h hp hdata ⟨rfl, rfl, rfl⟩ rfl (by simp)

theorem effect_enter (h : r.enter env = some o) : Effect r env .enter o := by
  cases enterStep h with
  | follower => exact effect_idle ((SameData.refl r).setMain _) ⟨rfl, rfl, rfl⟩ rfl
  | ask _ _ _ _ _ hsends =>
    refine .idle ((SameData.refl r).setMain _) ⟨rfl, rfl, rfl⟩ rfl rfl ?_ (by simp [Outcome.Silent])
    exact fun p hp => ⟨_, hsends p hp⟩
  | elect => exact .elect _ rfl rfl rfl (by simp [Outcome.Silent])
  | leader hmain => exact .setup hmain rfl rfl rfl (by simp [Outcome.Silent])
  | noop hmain =>
    exact .dispatch [{ log := { index := 0, term := 0, type := .logNoop } }] false (.inl hmain)
      (by simp) (by simp [Log.decodes]) rfl rfl rfl (by simp [dispatchNoop, Outcome.Silent])

theorem effect_loopTest (h : r.loopTest env = some r') : Effect r env .loopTest { raft := r' } := by
  have hdata := sameData_loopTest h
  have hterm := sameTerm_loopTest h
  unfold loopTest at h
  split at h
  · cases h
    exact effect_idle hdata hterm rfl
  · cases h
    refine effect_idle hdata hterm ?_
    split <;> rfl
  · rename_i stepDown hmain
    cases h
    split at hdata
    · rename_i hstate
      rw [if_pos hstate] at hterm ⊢
      exact effect_idle hdata hterm rfl
    · rename_i hstate
      rw [if_neg hstate]
      exact .leave stepDown hmain hstate rfl rfl rfl (by simp [Outcome.Silent])
  · simp at h

theorem effect_preVote {c : Candidacy} {voter : Server} {result : PreVoteResult}
    (h : r.preVote c voter result env = some o) : Effect r env (.preVote voter result) o := by
  cases preVoteStep h with
  | follow => exact .follow _ rfl rfl rfl (by simp [Outcome.Silent])
  | elect => exact .elect _ rfl rfl rfl (by simp [Outcome.Silent])
  | count => exact effect_idle ((SameData.refl r).setMain _) ⟨rfl, rfl, rfl⟩ rfl

theorem effect_vote {c : Candidacy} {voter : Server} {result : CallResult RequestVoteResponse}
    (hmain : r.main = .candidate c true) (h : r.vote c voter result env = some o) :
    Effect r env (.vote voter result) o := by
  cases voteStep h with
  | follow => exact .follow _ rfl rfl rfl (by simp [Outcome.Silent])
  | win ch hch hmem =>
    exact .win c ch _ hmain hch (List.ne_nil_of_mem hmem) rfl rfl rfl (by simp [Outcome.Silent])
  | count => exact effect_idle ((SameData.refl r).setMain _) ⟨rfl, rfl, rfl⟩ rfl

theorem decodes_of_acceptsFutures {futures : List LogFuture} (h : r.acceptsFutures futures = true) :
    futures ≠ [] ∧ ∀ f ∈ futures, f.log.decodes = true := by
  simp only [acceptsFutures, Bool.and_eq_true, Bool.not_eq_true', List.isEmpty_eq_false_iff,
    List.all_eq_true, Bool.or_eq_true, beq_iff_eq] at h
  refine ⟨h.1.1, ?_⟩
  intro f hf
  unfold Log.decodes
  rcases h.2 f hf with htype | htype
  · rw [htype]
  · rw [htype]

theorem effect_stepUp (h : r.stepUp env input = some o)
    (hmain : ∀ req, input ≠ .heartbeat req)
    (hsnapshot : ∀ req, input ≠ .rpc (.installSnapshot req)) : Effect r env input o := by
  cases input with
  | rpc cmd => exact effect_rpc h (fun req heq => hsnapshot req (by rw [heq]))
  | heartbeat req => exact absurd rfl (hmain req)
  | run =>
    obtain ⟨_, rfl⟩ := stepUp_run h
    exact effect_idle ((SameData.refl r).setMain _) ⟨rfl, rfl, rfl⟩ rfl
  | enter => exact effect_enter h
  | loopTest =>
    obtain ⟨r', hr, rfl⟩ := stepUp_loopTest h
    exact effect_loopTest hr
  | heartbeatTimer =>
    obtain ⟨_, rfl⟩ := stepUp_heartbeatTimer h
    refine effect_idle (sameData_heartbeatTimer r) (sameTerm_heartbeatTimer r) ?_
    unfold heartbeatTimer
    dsimp only
    split
    · rfl
    split
    · rfl
    split <;> rfl
  | preVote voter result =>
    obtain ⟨c, _, ho⟩ := stepUp_preVote h
    exact effect_preVote ho
  | vote voter result =>
    obtain ⟨c, hmain, ho⟩ := stepUp_vote h
    exact effect_vote hmain ho
  | electionTimer =>
    obtain ⟨_, rfl⟩ := stepUp_electionTimer h
    exact effect_idle (SameData.refl r).leaveCandidate ⟨rfl, rfl, rfl⟩ rfl
  | stepDown =>
    obtain ⟨_, _, rfl⟩ := stepUp_stepDown h
    exact effect_idle ⟨rfl, rfl, rfl, rfl, rfl, rfl, rfl, rfl, rfl⟩ ⟨rfl, rfl, rfl⟩ rfl
  | apply futures =>
    obtain ⟨stepDown, hmain, hfutures, rfl⟩ := stepUp_apply h
    cases stepDown with
    | true => exact effect_idle ((SameData.refl r).setMain _) ⟨rfl, rfl, rfl⟩ rfl
    | false =>
      obtain ⟨hne, hdecodes⟩ := decodes_of_acceptsFutures hfutures
      exact .dispatch futures false (.inr hmain) hne hdecodes rfl rfl rfl
        (by simp [apply, Outcome.Silent])
  | configurationChange req future =>
    obtain ⟨stepDown, hmain, _, hraft, hsends, hresponse, hevents⟩ := stepUp_configurationChange h
    cases hnext : nextConfiguration r.configurations.latest r.configurations.latestIndex req with
    | error err =>
      have hsame : r.appendConfigurationEntry req future env = (r, []) := by
        simp only [appendConfigurationEntry, hnext]
      rw [hsame] at hraft hevents
      refine .idle ?_ ?_ ?_ hevents (by simp [hsends]) (by simp [Outcome.Silent, hresponse])
      · rw [hraft]
        exact (SameData.refl r).setMain _
      · rw [hraft]
        exact ⟨rfl, rfl, rfl⟩
      · rw [hraft]
    | ok configuration =>
      exact .configure req future configuration stepDown rfl hmain hnext hraft hevents hsends
        (by simp [Outcome.Silent, hresponse])
  | commit =>
    obtain ⟨stepDown, ls, rest, hmain, hls, _, hraft, hsends, hresponse, hevents⟩ := stepUp_commit h
    exact .commit ls rest stepDown hmain hls hraft hevents hsends
      (by simp [Outcome.Silent, hresponse])
  | replication k j inp =>
    obtain ⟨r', sends, hr, rfl⟩ := stepUp_replication h
    exact .replicate k j inp rfl hr rfl (by simp [Outcome.Silent])
  | crash =>
    rw [stepUp_crash h]
    exact effect_idle ⟨rfl, rfl, rfl, rfl, rfl, rfl, rfl, rfl, rfl⟩ ⟨rfl, rfl, rfl⟩ rfl
  | restart => exact absurd h stepUp_restart

/-- What a step does to the leaderships of a server that runs. -/
inductive LeadStep (r : Raft) (env : Env) (input : Input) (o : Outcome) : Prop where
  | same (hleaderships : o.raft.leaderships = r.leaderships)
  | setup (hmain : r.main = .call .leader) (hraft : o.raft = r.enterLeader)
  | dispatch (futures : List LogFuture) (stepDown : Bool)
      (hmain : r.main = .noop ∨ r.main = .leader stepDown true) (hne : futures ≠ [])
      (hraft : o.raft = { (r.dispatchLogs futures env).1 with main := .leader stepDown false })
      (hevents : o.events = (r.dispatchLogs futures env).2)
  | configure (req : ConfigurationChangeRequest) (future : Nat) (configuration : Configuration)
      (stepDown : Bool) (hinput : input = .configurationChange req future)
      (hmain : r.main = .leader stepDown true)
      (hnext : nextConfiguration r.configurations.latest r.configurations.latestIndex req =
        .ok configuration)
      (hraft : o.raft =
        { (r.appendConfigurationEntry req future env).1 with main := .leader stepDown false })
      (hevents : o.events = (r.appendConfigurationEntry req future env).2)
  | commit (ls : LeaderState) (stepDown : Bool) (hraft : o.raft = (r.leaderCommit ls stepDown).1)
  | leave (hraft : o.raft = r.leaveLeader env)
  | replicate (k j : Nat) (inp : ReplicationInput) (hinput : input = .replication k j inp)
      (hstep : r.replicate k j inp = some (o.raft, o.sends))

theorem leaderships_electSelf (hup : r.down = false) (env : Env) :
    (r.electSelf env).1.leaderships = r.leaderships := by
  rcases electSelf_cases r env hup with ⟨r', hsame, -, -, heq⟩ | ⟨r', ok, asked, events, -, hsame, heq⟩
  · rw [heq, hsame]
  · rw [heq, hsame]
    rfl

theorem Effect.leadStep (h : Effect r env input o) (hup : r.down = false) (henv : env.writes = []) :
    LeadStep r env input o := by
  cases h with
  | restart hdown => simp [hup] at hdown
  | idle hdata hterm hleaderships => exact .same hleaderships
  | requestVote req hinput hraft =>
    refine .same ?_
    rw [hraft]
    exact (rpcEffect_requestVote r req env).leaderships
  | appendEntries req hinput hraft =>
    refine .same ?_
    rw [hraft]
    exact (rpcEffect_appendEntries r req env).1.leaderships
  | elect main hraft =>
    refine .same ?_
    rw [hraft]
    exact leaderships_electSelf hup env
  | follow t hraft =>
    refine .same ?_
    rw [hraft, henv, setCurrentTerm_nil]
    rfl
  | win locals ch votes hmain hch hpending hraft =>
    refine .same ?_
    rw [hraft]
    rfl
  | setup hmain hraft => exact .setup hmain hraft
  | dispatch futures stepDown hmain hne hdecodes hraft hevents =>
    exact .dispatch futures stepDown hmain hne hraft hevents
  | configure req future configuration stepDown hinput hmain hnext hraft hevents =>
    exact .configure req future configuration stepDown hinput hmain hnext hraft hevents
  | commit ls rest stepDown hmain hleaderships hraft => exact .commit ls stepDown hraft
  | leave stepDown hmain hstate hraft => exact .leave hraft
  | replicate k j inp hinput hstep => exact .replicate k j inp hinput hstep

end Raft

end PerfRaft
