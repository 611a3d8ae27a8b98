import PerfRaft.Service
import PerfRaft.Proofs.Candidates
import PerfRaft.Proofs.Process
import PerfRaft.Proofs.Transfer

namespace PerfRaft

namespace Raft

theorem liveBootstrap_state (r : Raft) (configuration : Configuration) (env : BootstrapEnv) :
    (r.liveBootstrap configuration env).1.state = r.state := by
  have hlive (r₁ : Raft) (entry : Log) (w : Write) : (r₁.makeLive entry w).1.state = r₁.state := by
    have hterm := (setCurrentTerm_state r₁ 1 [w]).1
    have hentry := congrArg Raft.state (processConfigurationLogEntry_eq
      ((r₁.setCurrentTerm 1 [w]).setLastLog entry.index entry.term) entry)
    unfold makeLive
    dsimp only
    split
    · exact hterm
    · split
      · rename_i hprocess
        rw [hprocess] at hentry
        exact hentry.trans hterm
      · rename_i hprocess
        rw [hprocess] at hentry
        exact hentry.trans hterm
  unfold liveBootstrap
  split
  · rfl
  split
  · rfl
  · rfl
  · split
    · exact hlive _ _ _
    · rfl

end Raft

/-- An InstallSnapshot request is handled. -/
def ServiceAction.installs (a : ServiceAction) : Bool :=
  match a.command? with
  | some (.installSnapshot _) => true
  | _ => false

/-- An AppendEntries request is handled. -/
def ServiceAction.appends (a : ServiceAction) : Bool :=
  match a.command? with
  | some (.appendEntries _) => true
  | _ => false

/-- The steps at which `runCandidate` may call `electSelf`. -/
def Input.mayElect : Input → Bool
  | .enter | .preVote _ _ => true
  | _ => false

/-- The step of the server that the main thread is given. -/
def Work.input? : Work → Option Input
  | .input i => some i
  | .restore _ => none

namespace Process

variable {σ ρ : Type} {fsm : FSM σ ρ} {initial : σ} {s s' : Process σ ρ} {work : Work} {env : Env}
  {o : Outcome}

def AsksVoter (s : Process σ ρ) (a : ServiceAction) : Prop :=
  ∀ cmd ∈ a.command?, s.raft.AsksVoter cmd

def KeepsVote (s : Process σ ρ) (a : ServiceAction) : Prop :=
  ∀ cmd ∈ a.command?, s.raft.KeepsVote cmd

instance (s : Process σ ρ) (a : ServiceAction) : Decidable (s.AsksVoter a) :=
  inferInstanceAs (Decidable (∀ cmd ∈ a.command?, s.raft.AsksVoter cmd))

instance (s : Process σ ρ) (a : ServiceAction) : Decidable (s.KeepsVote a) :=
  inferInstanceAs (Decidable (∀ cmd ∈ a.command?, s.raft.KeepsVote cmd))

/-- `runCandidate` calls `electSelf`, at its start or with the last pre-vote it needs, and
the term on the disk is raised. -/
def ElectsSelf (s : Process σ ρ) (a : ServiceAction) (s' : Process σ ρ) : Prop :=
  a.input?.any Input.mayElect = true ∧ s'.raft.main.campaigns = true ∧
    s.raft.stable.currentTerm < s'.raft.stable.currentTerm

instance (s : Process σ ρ) (a : ServiceAction) (s' : Process σ ρ) : Decidable (s.ElectsSelf a s') :=
  inferInstanceAs (Decidable (_ ∧ _ ∧ _))

theorem perform_candidate (hup : s.raft.down = false) (ho : s.perform env work = some o)
    (hcandidate : o.raft.state = .candidate) :
    s.raft.state = .candidate ∨ s.raft.isVoter = true ∨
      ∃ req, work = .input (.rpc (.timeoutNow req)) := by
  rcases perform_cases ho with ⟨input, rfl, hstep, -⟩ | ⟨user, stepDown, rfl, -, -, rfl⟩
  · rcases Raft.candidate_stepUp hup (Raft.step_up hstep hup) hcandidate with
      hstate | hvoter | ⟨req, rfl⟩
    · exact .inl hstate
    · exact .inr (.inl hvoter)
    · exact .inr (.inr ⟨req, rfl⟩)
  · obtain ⟨leaderships, hsame⟩ := Raft.sameThreads_restoreUserSnapshot s.raft user env
    exact .inl (hsame.state.symm.trans hcandidate)

theorem standing_perform (h : s.raft.Standing) (hup : s.raft.down = false)
    (ho : s.perform env work = some o)
    (hkeeps : ∀ cmd, work = .input (.rpc cmd) → s.raft.KeepsVote cmd) : o.raft.Standing := by
  rcases perform_cases ho with ⟨input, rfl, hstep, hbeat⟩ | ⟨user, stepDown, rfl, -, hmain, rfl⟩
  · refine h.stepUp hup (Raft.step_up hstep hup) hbeat ?_
    rintro cmd rfl
    exact hkeeps cmd rfl
  · refine .of_idle ?_ rfl
    obtain ⟨leaderships, hsame⟩ := Raft.sameThreads_restoreUserSnapshot s.raft user env
    dsimp only
    rw [hsame.state]
    exact h.waiting (by simp [hmain, MainThread.selecting]) (by simp [hmain, MainThread.elects])

/-- What a step does to the server: a start, something on the main thread, something
beside it, or one of the two calls. -/
inductive Turn (s : Process σ ρ) (a : ServiceAction) : Raft → Prop where
  | started {r : Raft} (hstate : r.state = .follower) (hmain : r.main = .run) : Turn s a r
  | performed {work : Work} {env : Env} {o : Outcome} (down : Bool) (hup : s.raft.down = false)
      (ho : s.perform env work = some o) (hinput : a.input? = work.input?) :
      Turn s a { o.raft with down := down }
  | beside {r : Raft} (hconf : r.conf = s.raft.conf) (hstable : r.stable = s.raft.stable)
      (hlatest : r.configurations.latest = s.raft.configurations.latest)
      (hstate : r.state = s.raft.state)
      (hmain : r.main = s.raft.main ∨ (r.main.selecting = false ∧ r.main.elects = false)) :
      Turn s a r
  | bootstrapped {r : Raft} (hfollower : s.raft.main = .follower true)
      (hstate : r.state = s.raft.state) (hmain : r.main = .follower false) : Turn s a r
  | shut : Turn s a (s.raft.setState .shutdown)

variable {a : ServiceAction}

theorem turn_beside {b : ProcessAction} (h : BesideStep fsm s b s') :
    Turn s a s'.raft := by
  cases h with
  | applied | snapped => exact .beside rfl rfl rfl rfl (.inl rfl)
  | panicked => exact .beside rfl rfl rfl rfl (.inl rfl)
  | configurations hsnapped hmain =>
    exact .beside rfl rfl rfl rfl
      (.inr ⟨MainThread.selecting_again _, MainThread.elects_again hmain⟩)
  | persist hconfigured =>
    unfold persist
    split <;> exact .beside rfl rfl rfl rfl (.inl rfl)
  | setLastSnapshot => exact .beside rfl rfl rfl rfl (.inl rfl)
  | @compact env index hcompacting =>
    have hsame := Raft.sameThreads_compactLogsWithTrailing s.raft index s.raft.lastLogIndex
      s.raft.conf.trailingLogs env
    refine .beside hsame.conf hsame.stable ?_ hsame.state (.inl hsame.main)
    simp only [Raft.compactLogs]
    rcases Raft.compactLogsWithTrailing_eq s.raft index s.raft.lastLogIndex
      s.raft.conf.trailingLogs env with heq | ⟨maxLog, -, -, -, heq⟩
    · rw [heq]
    · rw [heq]

theorem turn_serve (h : s.serve fsm initial a = some s') : Turn s a s'.raft := by
  cases a with
  | process b =>
    refine step_cases (P := fun s' => Turn s (.process b) s'.raft) h ?_ ?_ ?_ ?_
    · intro env r _ _ hr
      have hstarted := Raft.started_newRaft hr
      exact .started hstarted.state hstarted.main
    · rintro work env s'' rfl hup hmain
      have hinput : (ServiceAction.process (.main work env)).input? = work.input? := by
        cases work <;> rfl
      cases hmain with
      | proceed hwork ho => exact .performed _ hup ho hinput
      | refused hwork ho hsame => exact .performed _ hup ho hinput
      | install acknowledged hwork hdrained hrestore ho => exact .performed _ hup ho hinput
      | panicked => exact .beside rfl rfl rfl rfl (.inl rfl)
    · rintro work env o rfl hup ho
      exact .performed true hup ho (by cases work <;> rfl)
    · intro s'' _ hbeside
      exact turn_beside hbeside
  | bootstrap configuration env =>
    simp only [serve] at h
    split at h
    · rename_i hfollower
      cases h
      exact .bootstrapped hfollower.2 (Raft.liveBootstrap_state s.raft configuration env) rfl
    · cases h
  | shutdown =>
    simp only [serve] at h
    split at h
    · cases h
    · cases h
      exact .shut

theorem standing_serve (h : s.raft.Standing) (hkeeps : s.KeepsVote a)
    (hstep : s.serve fsm initial a = some s') : s'.raft.Standing := by
  have hturn := turn_serve hstep
  generalize s'.raft = r' at hturn
  cases hturn with
  | started hstate hmain => exact .of_idle (by simp [hstate]) (by simp [hmain, MainThread.elects])
  | performed down hup ho hinput =>
    have hperform := standing_perform h hup ho (by
      rintro cmd rfl
      apply hkeeps
      simp [ServiceAction.command?, hinput, Work.input?])
    exact hperform.keep rfl rfl rfl (.inl rfl)
  | beside hconf hstable hlatest hstate hmain => exact h.keep hconf hlatest hstate hmain
  | bootstrapped hfollower hstate hmain =>
    refine .of_idle ?_ (by simp [hmain, MainThread.elects])
    rw [hstate]
    exact h.waiting (by simp [hfollower, MainThread.selecting])
      (by simp [hfollower, MainThread.elects])
  | shut =>
    refine ⟨?_, by simp [Raft.setState]⟩
    rintro (hstate | helects)
    · cases hstate
    · exact h.voter (.inr helects)

theorem standing_of_reachable (h : (service fsm initial).Reachable KeepsVote s) :
    s.raft.Standing := by
  refine h.invariant ?_ (fun _ _ _ hs hkeeps hstep => standing_serve hs hkeeps hstep)
  rintro s ⟨conf, currentTerm, logs, snapshots, rfl⟩
  exact .of_idle (by simp) rfl

/-- When TimeoutNow is handled by voters only, a server becomes a candidate only as a
voter of its latest configuration. When moreover no candidate handles a request that may
replace its configuration and leave it a candidate, `electSelf` raises the term only of
such a voter. -/
theorem candidate_is_voter {a : ServiceAction} (hstep : s.serve fsm initial a = some s') :
    (s.AsksVoter a → s.raft.state ≠ .candidate → s'.raft.state = .candidate →
      s.raft.isVoter = true) ∧
    ((service fsm initial).Reachable KeepsVote s → s.ElectsSelf a s' → s.raft.isVoter = true) := by
  have hturn := turn_serve hstep
  constructor
  · intro hasks hbefore hafter
    generalize s'.raft = r' at hturn hafter
    cases hturn with
    | started hstate hmain =>
      rw [hstate] at hafter
      cases hafter
    | performed down hup ho hinput =>
      rcases perform_candidate hup ho hafter with hold | hvoter | ⟨req, rfl⟩
      · exact absurd hold hbefore
      · exact hvoter
      · exact hasks (.timeoutNow req) (by simp [ServiceAction.command?, hinput, Work.input?])
    | beside hconf hstable hlatest hstate hmain => exact absurd (hstate ▸ hafter) hbefore
    | bootstrapped hfollower hstate hmain => exact absurd (hstate ▸ hafter) hbefore
    | shut => cases hafter
  · rintro hreach ⟨helects, hmain', hterm⟩
    have hstanding := standing_of_reachable hreach
    apply hstanding.voter
    generalize s'.raft = r' at hturn hmain' hterm
    cases hturn with
    | started hstate hmain => rw [hmain] at hmain'; cases hmain'
    | @performed work env o down hup ho hinput =>
      right
      rcases perform_cases ho with ⟨input, rfl, hperform, -⟩ | ⟨user, stepDown, rfl, -, -, rfl⟩
      · have hstepUp := Raft.step_up hperform hup
        rw [hinput] at helects
        simp only [Work.input?, Option.any_some] at helects
        unfold Input.mayElect at helects
        split at helects
        · rw [Raft.enter_campaigns hstepUp hmain']
          rfl
        · obtain ⟨c', hmain, -⟩ := Raft.stepUp_preVote hstepUp
          rw [hmain]
          rfl
        · cases helects
      · cases hmain'
    | beside hconf hstable hlatest hstate hmain =>
      rw [hstable] at hterm
      exact absurd hterm (Nat.lt_irrefl _)
    | bootstrapped hfollower hstate hmain => rw [hmain] at hmain'; cases hmain'
    | shut => exact absurd hterm (Nat.lt_irrefl _)

/-- The server `id` before its first start, in a cluster bootstrapped with `servers` and
without pre-vote. -/
def enrolled (id : ServerID) (servers : List Server) : Process Nat Nat where
  raft :=
    { conf := { localID := id, localAddr := id, preVoteDisabled := true }
      stable := { currentTerm := 1 }
      logs := [{ index := 1, term := 1, type := .logConfiguration
                 data := encodeConfiguration ⟨servers⟩ }]
      down := true }
  thread := { state := 0 }

theorem init_enrolled (id : ServerID) (servers : List Server) :
    (service counter 0).init (enrolled id servers) := ⟨_, _, _, _, rfl⟩

def offered (input : Input) : ServiceAction := .process (given input)

/-- The server starts and waits as a follower. -/
def enrol : List ServiceAction := booted.map .process

/-- The server is told to time out and goes to `runCandidate`. -/
def toldToElect : List ServiceAction :=
  [offered (.rpc (.timeoutNow ⟨{}⟩)), offered .loopTest, offered .run]

/-- The heartbeat timer makes a candidate of a voter, and the election starts. -/
theorem candidate_is_voter_timeout :
    (∃ s s' : Process Nat Nat, (service counter 0).Reachable KeepsVote s ∧
      s.serve counter 0 (offered .heartbeatTimer) = some s' ∧
      s.raft.state ≠ .candidate ∧ s'.raft.state = .candidate ∧ s.raft.isVoter = true) ∧
    ∃ s s' : Process Nat Nat, (service counter 0).Reachable KeepsVote s ∧
      s.serve counter 0 (offered .enter) = some s' ∧
      s.ElectsSelf (offered .enter) s' ∧ s.raft.isVoter = true := by
  constructor
  · obtain ⟨s, hreach, s', hstep, hbefore, hafter⟩ : ∃ s : Process Nat Nat,
        (service counter 0).Reachable KeepsVote s ∧
        ∃ s', s.serve counter 0 (offered .heartbeatTimer) = some s' ∧
        s.raft.state ≠ .candidate ∧ s'.raft.state = .candidate :=
      Lib.System.exists_reachable (init_enrolled [65] [voterNamed 65, voterNamed 66])
        (enrol.map (fun a _ => a)) (by decide +kernel)
    have hasks : s.AsksVoter (offered .heartbeatTimer) := by
      intro cmd hcmd
      cases hcmd
    exact ⟨s, s', hreach, hstep, hbefore, hafter,
      (candidate_is_voter hstep).1 hasks hbefore hafter⟩
  · obtain ⟨s, hreach, s', hstep, helects⟩ : ∃ s : Process Nat Nat,
        (service counter 0).Reachable KeepsVote s ∧
        ∃ s', s.serve counter 0 (offered .enter) = some s' ∧ s.ElectsSelf (offered .enter) s' :=
      Lib.System.exists_reachable (init_enrolled [65] [voterNamed 65, voterNamed 66])
        ((enrol ++ [offered .heartbeatTimer, offered .run]).map (fun a _ => a)) (by decide +kernel)
    exact ⟨s, s', hreach, hstep, helects, (candidate_is_voter hstep).2 hreach helects⟩

/-- A snapshot of the candidate's own term, whose configuration has it as a nonvoter. -/
def demotingSnapshot : InstallSnapshotRequest :=
  { header := { id := [66], addr := [66] }, term := 2, lastLogIndex := 2, lastLogTerm := 2
    configuration := encodeConfiguration ⟨[⟨.nonvoter, [65], [65]⟩, voterNamed 66]⟩
    configurationIndex := 2 }

/-- An entry of the candidate's own term with the same configuration. -/
def demotingEntries : AppendEntriesRequest :=
  { header := { id := [66], addr := [66] }, term := 2, prevLogEntry := 1, prevLogTerm := 1
    entries := [{ index := 2, term := 2, type := .logConfiguration
                  data := encodeConfiguration ⟨[⟨.nonvoter, [65], [65]⟩, voterNamed 66]⟩ }] }

/-- The candidate handles `cmd` in its first election and comes to the second. -/
def demoted (cmd : Command) : List ServiceAction :=
  [offered .enter, offered .loopTest, offered (.rpc cmd), offered .loopTest, offered .electionTimer,
    offered .run]

/-- A nonvoter raises its term in some run whose steps meet `ok`. -/
def ElectsNonvoter (ok : Process Nat Nat → ServiceAction → Prop) : Prop :=
  ∃ s s', (service counter 0).Reachable ok s ∧ s.serve counter 0 (offered .enter) = some s' ∧
    s.ElectsSelf (offered .enter) s' ∧ s.raft.isVoter = false

/-- The leadership is offered to a nonvoter that has the whole log. -/
theorem offered_to_nonvoter :
    ∃ h : Handover, Handover.system.Reachable Handover.Heeds h ∧
      h.transfers = [⟨[66], [66], 0, false, .offer 2⟩] ∧
      hasVote h.raft.configurations.latest [66] = false :=
  Lib.System.exists_reachable
    (Handover.init_newLeader [voterNamed 65, ⟨.nonvoter, [66], [66]⟩])
    (Handover.caughtUp ++ (fun _ => .transfer (some ([66], [66]))) :: Handover.runToOffer 0)
    (by decide +kernel)

/-- A leader offers the leadership to a nonvoter. Told to time out, a nonvoter becomes a
candidate and raises its term. A candidate that is demoted, by a snapshot or, after a
leadership transfer, by an entry, starts another election as a nonvoter. -/
theorem nonvoter_elects_itself :
    (∃ h : Handover, Handover.system.Reachable Handover.Heeds h ∧
      h.transfers = [⟨[66], [66], 0, false, .offer 2⟩] ∧
      hasVote h.raft.configurations.latest [66] = false) ∧
    (∃ s s' : Process Nat Nat, (service counter 0).Reachable (fun _ _ => True) s ∧
      s.serve counter 0 (offered (.rpc (.timeoutNow ⟨{}⟩))) = some s' ∧
      s.raft.state = .follower ∧ s'.raft.state = .candidate ∧ s.raft.isVoter = false) ∧
    ElectsNonvoter (fun _ _ => True) ∧
    ElectsNonvoter (fun s a => s.AsksVoter a ∧ a.appends = false) ∧
    ElectsNonvoter (fun s a => s.AsksVoter a ∧ a.installs = false) := by
  unfold ElectsNonvoter
  simp only [exists_and_left]
  exact ⟨offered_to_nonvoter,
    Lib.System.exists_reachable (init_enrolled [66] [voterNamed 65, ⟨.nonvoter, [66], [66]⟩])
      (enrol.map (fun a _ => a)) (by decide +kernel),
    Lib.System.exists_reachable (init_enrolled [66] [voterNamed 65, ⟨.nonvoter, [66], [66]⟩])
      ((enrol ++ toldToElect).map (fun a _ => a)) (by decide +kernel),
    Lib.System.exists_reachable (init_enrolled [65] [voterNamed 65, voterNamed 66])
      ((enrol ++ [offered .heartbeatTimer, offered .run] ++
        demoted (.installSnapshot demotingSnapshot)).map (fun a _ => a)) (by decide +kernel),
    Lib.System.exists_reachable (init_enrolled [65] [voterNamed 65, voterNamed 66])
      ((enrol ++ toldToElect ++ demoted (.appendEntries demotingEntries)).map (fun a _ => a))
      (by decide +kernel)⟩

end Process

end PerfRaft
