import PerfRaft.Proofs.Elections

namespace PerfRaft

open Lib

/-- The main thread is past the test that made it a leader: at the start of
`runLeader`, or in the select of `leaderLoop`. -/
def MainThread.leads : MainThread → Bool
  | .call .leader | .noop | .leader _ true => true
  | _ => false

/-- Where the main thread can be while the state is Leader. -/
def MainThread.mayLead : MainThread → Bool
  | .run | .call .leader | .noop | .leader _ _ => true
  | _ => false

namespace Raft

variable {r : Raft} {env : Env} {o : Outcome}

/-- No heartbeat raises the term while the main thread acts as a leader. -/
def Unchallenged (r : Raft) (input : Input) : Prop :=
  input.newerHeartbeat r = true → r.main.leads = false

instance (r : Raft) (input : Input) : Decidable (Unchallenged r input) :=
  inferInstanceAs (Decidable (_ → _))

/-- The election recorded in the events. -/
def Wins (events : List Event) (T : Nat) : Prop :=
  ∃ req votes latest logs, .becameLeader T req votes latest logs ∈ events

/-- What a step can do to a leader: only a won election makes one, and the term of
a leader does not change under it. -/
structure Leads (r r' : Raft) (events : List Event) : Prop where
  state : r'.state = .leader →
    (r.state = .leader ∧ r'.currentTerm = r.currentTerm) ∨ Wins events r'.currentTerm
  thread : r'.main.leads = true →
    (r.main.leads = true ∨ r.state = .leader) ∧ r'.currentTerm = r.currentTerm
  place : r'.state = .leader → r'.main.mayLead = true

theorem leads_of_not_leader {r' : Raft} {events : List Event} (hstate : r'.state ≠ .leader)
    (hmain : r'.main.leads = false) : Leads r r' events :=
  ⟨fun h => absurd h hstate, fun h => by simp [hmain] at h, fun h => absurd h hstate⟩

theorem dispatchLogs_state (r : Raft) (futures : List LogFuture) (env : Env) :
    (r.dispatchLogs futures env).1.state = r.state ∨
      (r.dispatchLogs futures env).1.state = .follower := by
  unfold dispatchLogs
  dsimp only
  split
  · exact .inr rfl
  · exact .inl rfl

theorem appendConfigurationEntry_state (r : Raft) (req : ConfigurationChangeRequest) (future : Nat)
    (env : Env) : (r.appendConfigurationEntry req future env).1.state = r.state ∨
      (r.appendConfigurationEntry req future env).1.state = .follower := by
  unfold appendConfigurationEntry
  split
  · exact .inl rfl
  · rename_i configuration _
    have hd := dispatchLogs_state r [⟨future, r.configurationEntry configuration⟩] env
    cases hdispatch : r.dispatchLogs [⟨future, r.configurationEntry configuration⟩] env with
    | mk r' events =>
      rw [hdispatch] at hd
      exact hd

theorem leaderCommit_state_cases (r : Raft) (ls : LeaderState) (stepDown : Bool) :
    (r.leaderCommit ls stepDown).1.state = r.state ∨
      (r.leaderCommit ls stepDown).1.state = .follower ∨
      (r.leaderCommit ls stepDown).1.state = .shutdown := by
  have hcommit : (r.setLeaderCommit ls.commitment.commitIndex).1.state = r.state := by
    unfold setLeaderCommit
    dsimp only
    split <;> rfl
  have hgroup (r₁ : Raft) (group : List LogFuture) : (r₁.processGroup group).1.state = r₁.state := by
    rw [processGroup_eq]
  unfold leaderCommit
  dsimp only
  cases stepDown || (r.setLeaderCommit ls.commitment.commitIndex).2 with
  | false => exact .inl ((hgroup _ _).trans hcommit)
  | true =>
    simp only [finishCommit, if_true, setState]
    split
    · exact .inr (.inr rfl)
    · exact .inr (.inl rfl)

theorem leaderCommit_state (r : Raft) (ls : LeaderState) (stepDown : Bool)
    (h : (r.leaderCommit ls stepDown).1.state = .leader) : r.state = .leader := by
  rcases leaderCommit_state_cases r ls stepDown with hsame | hfollower | hshutdown
  · exact hsame ▸ h
  · simp [hfollower] at h
  · simp [hshutdown] at h

theorem setCurrentTerm_state (r : Raft) (t : Nat) (ws : List Write) :
    (r.setCurrentTerm t ws).state = r.state ∧ (r.setCurrentTerm t ws).main = r.main := by
  rcases setCurrentTerm_cases r t ws with h | ⟨_, hsame, _⟩
  · rw [h]
    exact ⟨rfl, rfl⟩
  · exact ⟨hsame.state, hsame.main⟩

theorem electSelf_state (hup : r.down = false) (env : Env) : (r.electSelf env).1.state = r.state := by
  rcases electSelf_cases r env hup with ⟨r', hsame, _, _, he⟩ | ⟨r', _, _, _, _, hsame, he⟩
  · rw [he]
    exact hsame.state
  · rw [he]
    exact hsame.state

theorem leads_enter (hup : r.down = false) (hplace : r.state = .leader → r.main.mayLead = true)
    (h : r.enter env = some o) : Leads r o.raft o.events := by
  have hstate (hmain : r.main.mayLead = false) : r.state ≠ .leader := by
    intro hstate
    simp [hplace hstate] at hmain
  cases enterStep h with
  | follower hmain => exact leads_of_not_leader (hstate (by rw [hmain]; rfl)) rfl
  | ask hmain => exact leads_of_not_leader (hstate (by rw [hmain]; rfl)) rfl
  | elect hmain =>
    refine leads_of_not_leader ?_ rfl
    have he := electSelf_state hup env
    exact fun hs => hstate (by rw [hmain]; rfl) (he ▸ hs)
  | leader hmain =>
    have hsame := sameTerm_enterLeader r
    refine ⟨fun hs => .inl ⟨hs, hsame.currentTerm⟩, fun _ => ⟨.inl ?_, hsame.currentTerm⟩, fun _ => rfl⟩
    rw [hmain]
    rfl
  | noop =>
    have hsame := sameTerm_dispatchLogs r [{ log := { index := 0, term := 0, type := .logNoop } }] env
    have hstate := dispatchLogs_state r [{ log := { index := 0, term := 0, type := .logNoop } }] env
    refine ⟨?_, fun hm => by simp [dispatchNoop, MainThread.leads] at hm, fun _ => rfl⟩
    intro hs
    simp only [dispatchNoop] at hs ⊢
    rcases hstate with h' | h'
    · exact .inl ⟨h' ▸ hs, hsame.currentTerm⟩
    · simp [h'] at hs

theorem leads_loopTest {r' : Raft} (hplace : r.state = .leader → r.main.mayLead = true)
    (h : r.loopTest env = some r') : Leads r r' [] := by
  have hsame := sameTerm_loopTest h
  unfold loopTest at h
  split at h
  · rename_i hmain
    have hstate : r.state ≠ .leader := by
      intro hstate
      simpa [hmain, MainThread.mayLead] using hplace hstate
    cases h
    refine leads_of_not_leader hstate ?_
    dsimp only
    split <;> rfl
  · rename_i locals hmain
    have hstate : r.state ≠ .leader := by
      intro hstate
      simpa [hmain, MainThread.mayLead] using hplace hstate
    cases h
    split
    · exact leads_of_not_leader hstate rfl
    · exact leads_of_not_leader hstate rfl
  · rename_i stepDown hmain
    cases h
    split
    · rename_i hstate
      exact ⟨fun _ => .inl ⟨hstate, rfl⟩, fun _ => ⟨.inr hstate, rfl⟩, fun _ => rfl⟩
    · rename_i hstate
      have hleave := leaveLeader_control r env
      refine leads_of_not_leader (hleave.1 ▸ hstate) ?_
      rw [hleave.2]
      rfl
  · simp at h

theorem leads_heartbeat (hplace : r.state = .leader → r.main.mayLead = true)
    (req : AppendEntriesRequest) (env : Env) (hquiet : Unchallenged r (.heartbeat req)) :
    Leads r (r.appendEntries req env).1 (r.appendEntries req env).2.2 := by
  have heffect := (rpcEffect_appendEntries r req env).1
  refine ⟨?_, ?_, ?_⟩
  · intro hs
    rcases heffect.term with hsame | ⟨_, hfollower⟩
    · exact .inl ⟨heffect.leader hs, hsame⟩
    · simp [hfollower] at hs
  · intro hm
    rw [heffect.main] at hm
    refine ⟨.inl hm, ?_⟩
    rcases heffect.term with hsame | ⟨hlt, _⟩
    · exact hsame
    · rcases appendEntries_term r req env with heq | heq
      · exact heq
      · have hnone := hquiet (by simp [Input.newerHeartbeat, ← heq, hlt])
        simp [hm] at hnone
  · intro hs
    rw [heffect.main]
    exact hplace (heffect.leader hs)

theorem leads_stepUp (hup : r.down = false) (hplace : r.state = .leader → r.main.mayLead = true)
    (hquiet : Unchallenged r input) (h : r.stepUp env input = some o) :
    Leads r o.raft o.events := by
  have hcandidate : ∀ locals tested, r.main = .candidate locals tested → r.state ≠ .leader := by
    intro locals tested hmain hstate
    simpa [hmain, MainThread.mayLead] using hplace hstate
  have hsame : ∀ (r' : Raft) (events : List Event), (∃ stepDown, r'.main = .leader stepDown false) →
      (r'.state = r.state ∨ r'.state = .follower) → r'.currentTerm = r.currentTerm →
      Leads r r' events := by
    intro r' events ⟨stepDown, hmain⟩ hstate hterm
    refine ⟨?_, fun hm => by simp [hmain, MainThread.leads] at hm, fun _ => by rw [hmain]; rfl⟩
    intro hs
    rcases hstate with h' | h'
    · exact .inl ⟨h' ▸ hs, hterm⟩
    · simp [h'] at hs
  cases input with
  | rpc cmd =>
    obtain ⟨hsel, ho, _⟩ := stepUp_rpc h
    have heffect := rpcEffect_processRPC r cmd env
    rw [ho]
    refine ⟨?_, ?_, ?_⟩
    · intro hs
      rcases heffect.term with hsame | ⟨_, hfollower⟩
      · exact .inl ⟨heffect.leader hs, hsame⟩
      · simp [hfollower] at hs
    · intro hm
      dsimp only at hm
      rw [heffect.main] at hm
      cases hmain : r.main <;> simp_all [MainThread.again, MainThread.leads, MainThread.selecting]
    · intro hs
      dsimp only
      rw [heffect.main]
      have hlead := hplace (heffect.leader hs)
      cases hmain : r.main <;> simp_all [MainThread.again, MainThread.mayLead, MainThread.selecting]
  | heartbeat req =>
    obtain ⟨_, ho, _, he, _⟩ := stepUp_heartbeat h
    rw [ho, he]
    exact leads_heartbeat hplace req env hquiet
  | run =>
    obtain ⟨_, rfl⟩ := stepUp_run h
    refine ⟨fun hs => .inl ⟨hs, rfl⟩, ?_, ?_⟩
    · intro hm
      cases hs : r.state <;> simp_all [MainThread.leads]
    · intro hs
      have hs' : r.state = .leader := hs
      simp [hs', MainThread.mayLead]
  | enter => exact leads_enter hup hplace h
  | loopTest =>
    obtain ⟨r', hr, rfl⟩ := stepUp_loopTest h
    exact leads_loopTest hplace hr
  | heartbeatTimer =>
    obtain ⟨hmain, rfl⟩ := stepUp_heartbeatTimer h
    have hstate : r.state ≠ .leader := by
      intro hstate
      simpa [hmain, MainThread.mayLead] using hplace hstate
    unfold heartbeatTimer
    dsimp only
    split
    · exact leads_of_not_leader hstate rfl
    split
    · exact leads_of_not_leader hstate rfl
    split
    · exact leads_of_not_leader (by simp [setState]) rfl
    · exact leads_of_not_leader hstate rfl
  | preVote voter result =>
    obtain ⟨c, hmain, ho⟩ := stepUp_preVote h
    have hstate := hcandidate c true hmain
    cases preVoteStep ho with
    | follow =>
      refine leads_of_not_leader ?_ rfl
      simp [leaveCandidate, setCurrentTerm_state, setState]
    | elect =>
      refine leads_of_not_leader ?_ rfl
      have he := electSelf_state hup env
      exact fun hs => hstate (he ▸ hs)
    | count => exact leads_of_not_leader hstate rfl
  | vote voter result =>
    obtain ⟨c, hmain, ho⟩ := stepUp_vote h
    have hstate := hcandidate c true hmain
    cases voteStep ho with
    | follow =>
      refine leads_of_not_leader ?_ rfl
      simp [leaveCandidate, setCurrentTerm_state, setState]
    | win =>
      exact ⟨fun _ => .inr ⟨_, _, _, _, List.mem_singleton.mpr rfl⟩,
        fun hm => by simp [leaveCandidate, MainThread.leads] at hm, fun _ => rfl⟩
    | count => exact leads_of_not_leader hstate rfl
  | electionTimer =>
    obtain ⟨⟨c, hmain⟩, rfl⟩ := stepUp_electionTimer h
    exact leads_of_not_leader (hcandidate c true hmain) rfl
  | stepDown =>
    obtain ⟨stepDown, _, rfl⟩ := stepUp_stepDown h
    exact hsame _ _ ⟨stepDown, rfl⟩ (.inr rfl) rfl
  | apply futures =>
    obtain ⟨stepDown, _, _, rfl⟩ := stepUp_apply h
    cases stepDown with
    | true => exact hsame _ _ ⟨true, rfl⟩ (.inl rfl) rfl
    | false =>
      exact hsame _ _ ⟨false, rfl⟩ (dispatchLogs_state r futures env)
        (sameTerm_dispatchLogs r futures env).currentTerm
  | configurationChange req future =>
    obtain ⟨stepDown, _, _, ho, _⟩ := stepUp_configurationChange h
    rw [ho]
    exact hsame _ _ ⟨stepDown, rfl⟩ (appendConfigurationEntry_state r req future env)
      (sameTerm_appendConfigurationEntry r req future env).currentTerm
  | commit =>
    obtain ⟨stepDown, ls, _, _, _, _, ho, _⟩ := stepUp_commit h
    have hmain : ∃ b, (r.leaderCommit ls stepDown).1.main = .leader b false :=
      ⟨_, finishCommit_main _ _⟩
    obtain ⟨b, hmain⟩ := hmain
    rw [ho]
    refine ⟨?_, fun hm => by simp [hmain, MainThread.leads] at hm, fun _ => by rw [hmain]; rfl⟩
    intro hs
    exact .inl ⟨leaderCommit_state r ls stepDown hs, (sameTerm_leaderCommit r ls stepDown).currentTerm⟩
  | replication k j input =>
    obtain ⟨r', sends, hr, rfl⟩ := stepUp_replication h
    rw [replicate_eq hr]
    exact ⟨fun hs => .inl ⟨hs, rfl⟩, fun hm => ⟨.inl hm, rfl⟩, hplace⟩
  | crash =>
    rw [stepUp_crash h]
    exact ⟨fun hs => .inl ⟨hs, rfl⟩, fun hm => ⟨.inl hm, rfl⟩, hplace⟩
  | restart => exact absurd h stepUp_restart

theorem leads_step (hplace : r.state = .leader → r.main.mayLead = true)
    (hquiet : Unchallenged r input) (h : r.step input env = some o) : Leads r o.raft o.events := by
  refine step_cases (P := fun o => Leads r o.raft o.events) h ?_
    (fun hup h' => leads_stepUp hup hplace hquiet h')
  intro r' _ _ hr
  have hstarted := started_newRaft hr
  refine leads_of_not_leader (by simp [hstarted.state]) ?_
  rw [hstarted.main]
  rfl

/-- Entries are stamped with the current term, by a main thread that leads. -/
theorem dispatched_stepUp (hup : r.down = false) (h : r.stepUp env input = some o)
    (hmem : .dispatched entries ∈ o.events) :
    r.main.leads = true ∧ ∃ futures, entries =
      (stampLogs r.currentTerm env.now r.getLastIndex futures).map LogFuture.log := by
  cases emits_stepUp h hup hmem with
  | dispatch futures hmain hd _ =>
    obtain ⟨_, he⟩ := dispatchLogs_events hd
    refine ⟨?_, futures, by simpa using he⟩
    rcases hmain with hmain | ⟨_, hmain⟩ <;> simp [hmain, MainThread.leads]
  | _ => simp_all [kind]

theorem stampLogs_term (term now lastIndex : Nat) (futures : List LogFuture) :
    ∀ f ∈ stampLogs term now lastIndex futures, f.log.term = term := by
  induction futures generalizing lastIndex with
  | nil => simp [stampLogs]
  | cons f rest ih =>
    intro g hg
    simp only [stampLogs, List.mem_cons] at hg
    rcases hg with rfl | hg
    · rfl
    · exact ih (lastIndex + 1) g hg

end Raft

/-- Whoever leads has won the current term, and whatever was stored as a leader is
of a term that was won. -/
structure Leading (s : ServerRun) : Prop where
  state : s.raft.state = .leader → Raft.Wins s.history s.raft.currentTerm
  thread : s.raft.main.leads = true → Raft.Wins s.history s.raft.currentTerm
  place : s.raft.state = .leader → s.raft.main.mayLead = true
  dispatched : ∀ entries, .dispatched entries ∈ s.history →
    ∀ e ∈ entries, Raft.Wins s.history e.term

theorem Leading.init {s : ServerRun} (h : serverSystem.init s) : Leading s := by
  obtain ⟨conf, currentTerm, logs, snapshots, rfl⟩ := h
  exact ⟨by simp, by simp [MainThread.leads], by simp, by simp⟩

theorem Raft.Wins.append {events history : List Event} {T : Nat} (h : Raft.Wins history T) :
    Raft.Wins (events ++ history) T := by
  obtain ⟨req, votes, latest, logs, hmem⟩ := h
  exact ⟨req, votes, latest, logs, List.mem_append_right _ hmem⟩

theorem Leading.step {s : ServerRun} (h : Leading s) {input : Input} {env : Env} {o : Outcome}
    (hquiet : s.raft.Unchallenged input) (ho : s.raft.step input env = some o) :
    Leading ⟨o.raft, o.events ++ s.history⟩ := by
  have hleads := Raft.leads_step h.place hquiet ho
  refine ⟨?_, ?_, hleads.place, ?_⟩
  · intro hs
    rcases hleads.state hs with ⟨hold, hterm⟩ | ⟨req, votes, latest, logs, hmem⟩
    · dsimp only
      rw [hterm]
      exact (h.state hold).append
    · exact ⟨req, votes, latest, logs, List.mem_append_left _ hmem⟩
  · intro hm
    obtain ⟨hold, hterm⟩ := hleads.thread hm
    dsimp only
    rw [hterm]
    rcases hold with hold | hold
    · exact (h.thread hold).append
    · exact (h.state hold).append
  · intro entries hmem e he
    rcases List.mem_append.mp hmem with hnew | hold
    · cases hdown : s.raft.down with
      | true =>
        obtain ⟨_, r', _, rfl⟩ := Raft.step_down ho hdown
        simp at hnew
      | false =>
        obtain ⟨hmain, futures, rfl⟩ := Raft.dispatched_stepUp hdown (Raft.step_up ho hdown) hnew
        obtain ⟨f, hf, rfl⟩ := List.mem_map.mp he
        rw [Raft.stampLogs_term _ _ _ _ f hf]
        exact (h.thread hmain).append
    · exact (h.dispatched entries hold e he).append

theorem leading_of_reachable {s : ServerRun}
    (h : serverSystem.Reachable (fun s a => s.raft.Unchallenged a.1) s) : Leading s := by
  refine System.Reachable.invariant (fun _ => Leading.init) ?_ h
  intro s a s' hs hquiet hstep
  obtain ⟨o, ho, rfl⟩ := serverSystem_step hstep
  exact hs.step hquiet ho

/-- No heartbeat raises the term of a server while its main thread acts as a leader
or waits for votes. -/
def Cluster.Undisturbed (c : Cluster) (a : Action) : Prop :=
  (c.nodes a.node).Unchallenged a.input ∧ (c.nodes a.node).Calm true a.input

instance (c : Cluster) (a : Action) : Decidable (c.Undisturbed a) :=
  inferInstanceAs (Decidable (_ ∧ _))

/-- In every run of every cluster in which no heartbeat of a newer term is processed
while the main thread acts as a leader or waits for votes, the entries a server
stores in `dispatchLogs` are of terms it was elected in. If the voters are fixed, no
two servers create entries of the same index and term. -/
theorem dispatched_by_elected {d : Deployment} {c : Cluster}
    (h : d.system.Reachable Cluster.Undisturbed c) :
    (∀ id entries, (id, .dispatched entries) ∈ c.history → ∀ e ∈ entries,
      ∃ req votes latest logs, (id, .becameLeader e.term req votes latest logs) ∈ c.history ∧
        req.term = e.term) ∧
    (d.system.Reachable (fun c a => c.Undisturbed a ∧ d.FixedVoters c a) c →
      ∀ id₁ id₂ entries₁ entries₂ e₁ e₂,
        (id₁, .dispatched entries₁) ∈ c.history → (id₂, .dispatched entries₂) ∈ c.history →
        e₁ ∈ entries₁ → e₂ ∈ entries₂ → e₁.index = e₂.index → e₁.term = e₂.term → id₁ = id₂) := by
  have hwon : ∀ id entries, (id, .dispatched entries) ∈ c.history → ∀ e ∈ entries,
      ∃ req votes latest logs, (id, .becameLeader e.term req votes latest logs) ∈ c.history := by
    intro id entries hmem e he
    have hleading := leading_of_reachable (Deployment.view_reachable (fun _ _ hok => hok.1) h id)
    obtain ⟨req, votes, latest, logs, hwin⟩ :=
      hleading.dispatched entries (Cluster.mem_view.mpr hmem) e he
    exact ⟨req, votes, latest, logs, Cluster.mem_view.mp hwin⟩
  constructor
  · intro id entries hmem e he
    obtain ⟨req, votes, latest, logs, hwin⟩ := hwon id entries hmem e he
    have hcalm : serverSystem.Reachable (CalmStep true) (c.view id) :=
      Deployment.view_reachable (fun _ _ hok => hok.2) h id
    have hterm := requested_of_reachable hcalm _ (Cluster.mem_view.mpr hwin) _ _ _ _ _ rfl
    exact ⟨req, votes, latest, logs, hwin, hterm.symm⟩
  · intro hfixed id₁ id₂ entries₁ entries₂ e₁ e₂ h₁ h₂ he₁ he₂ _ hterm
    have helections := Deployment.elections_of_reachable (d := d)
      (fun _ _ hok => ⟨hok.1.2, hok.2⟩) hfixed
    obtain ⟨_, _, _, _, hwin₁⟩ := hwon id₁ entries₁ h₁ e₁ he₁
    obtain ⟨_, _, _, _, hwin₂⟩ := hwon id₂ entries₂ h₂ e₂ he₂
    rw [hterm] at hwin₁
    exact helections.unique hwin₁ hwin₂

open Cluster in
/-- `A` is elected and dispatches its no-op. -/
def firstNoop : List (Cluster → Action) := firstElection ++ lead (voterNamed 65).id

/-- At least one entry was dispatched. -/
def Event.dispatches : Event → Bool
  | .dispatched entries => !entries.isEmpty
  | _ => false

/-- The no-op of the first leader. -/
theorem dispatched_by_elected_three :
    ∃ c, threeServers.system.Reachable Cluster.Undisturbed c ∧
      ∃ id entries e, (id, .dispatched entries) ∈ c.history ∧ e ∈ entries ∧
        ∃ req votes latest logs, (id, .becameLeader e.term req votes latest logs) ∈ c.history ∧
          req.term = e.term := by
  obtain ⟨c, hreachable, ⟨id, event⟩, hmem, hp⟩ : ∃ c,
      threeServers.system.Reachable Cluster.Undisturbed c ∧ ∃ p ∈ c.history, p.2.dispatches = true :=
    System.exists_reachable rfl firstNoop (by decide +kernel)
  cases event with
  | dispatched entries =>
    cases entries with
    | nil => simp [Event.dispatches] at hp
    | cons e rest =>
      exact ⟨c, hreachable, id, e :: rest, e, hmem, by simp,
        (dispatched_by_elected hreachable).1 id (e :: rest) hmem e (by simp)⟩
  | _ => simp [Event.dispatches] at hp

/-- A command whose data is one byte. -/
def commandOf (data : UInt8) : LogFuture :=
  { log := { index := 0, term := 0, type := .logCommand, data := .bytes [data] } }

open Cluster in
/-- `A` leads term 2 and waits in its select. `C` is elected in term 3 with `B` and
sends `A` a heartbeat. Then `A` takes a command from `applyCh`, and so does `C`. -/
def challengedLeader : List (Cluster → Action) :=
  let a := voterNamed 65
  let b := voterNamed 66
  let c := voterNamed 67
  firstNoop ++ boot c.id ++ campaign c ++ recampaign c ++ handle b.id 0 ++ [countVote c.id b] ++
    lead c.id ++ [goroutine c.id 0 0 .heartbeat, heartbeat a.id 0, act a.id (.apply [commandOf 1]),
      act c.id (.apply [commandOf 2])]

/-- The term of an election that was won. -/
def Event.wonTerm : Event → Option Nat
  | .becameLeader T _ _ _ _ => some T
  | _ => none

/-- With the heartbeat fast path a deposed leader stamps an entry with a term it has
not won, and the leader of that term creates another entry of this index and term. -/
theorem dispatched_by_deposed :
    ∃ c, threeServers.system.Reachable (fun _ _ => True) c ∧
      ∃ id₁ id₂ entries₁ entries₂ e₁ e₂,
        (id₁, .dispatched entries₁) ∈ c.history ∧ (id₂, .dispatched entries₂) ∈ c.history ∧
        e₁ ∈ entries₁ ∧ e₂ ∈ entries₂ ∧ e₁.index = e₂.index ∧ e₁.term = e₂.term ∧ id₁ ≠ id₂ ∧
        e₁ ≠ e₂ ∧ ¬ ∃ req votes latest logs,
          (id₁, .becameLeader e₁.term req votes latest logs) ∈ c.history := by
  let a := (voterNamed 65).id
  let b := (voterNamed 67).id
  let e₁ : Log := { (commandOf 1).log with index := 3, term := 3 }
  let e₂ : Log := { (commandOf 2).log with index := 3, term := 3 }
  obtain ⟨c, hreach, h₁, h₂, hnone⟩ : ∃ c, threeServers.system.Reachable (fun _ _ => True) c ∧
      (a, .dispatched [e₁]) ∈ c.history ∧ (b, .dispatched [e₂]) ∈ c.history ∧
      ∀ p ∈ c.history, p.1 = a → p.2.wonTerm ≠ some 3 :=
    System.exists_reachable rfl challengedLeader (by decide +kernel)
  refine ⟨c, hreach, a, b, [e₁], [e₂], e₁, e₂, h₁, h₂, by simp, by simp, rfl, rfl,
    by decide, by decide, ?_⟩
  rintro ⟨req, votes, latest, logs, hwin⟩
  exact hnone _ hwin rfl rfl

end PerfRaft
