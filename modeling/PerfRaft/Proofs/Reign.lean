import PerfRaft.Reign
import PerfRaft.Proofs.Candidates
import PerfRaft.Proofs.Effects
import PerfRaft.Proofs.Groups
import PerfRaft.Proofs.Headship
import PerfRaft.Proofs.Process

namespace PerfRaft

namespace Raft

variable {r r' r'' : Raft} {env : Env} {o : Outcome} {input : Input}

/-- The log has only been extended after its last entry, or compacted, and what is new
in flight is in the log. -/
structure Extends (r r' : Raft) : Prop where
  last : r.lastLogIndex ≤ r'.lastLogIndex
  logs : ∀ e ∈ r'.logs, e ∈ r.logs ∨ r.lastLogIndex < e.index
  inflight : ∀ f ∈ r'.inflight, f ∈ r.inflight ∨ f.log.index ≤ r'.lastLogIndex

theorem Extends.refl (r : Raft) : Extends r r :=
  ⟨Nat.le_refl _, fun _ he => .inl he, fun _ hf => .inl hf⟩

theorem inflight_congr (h : r'.leaderships = r.leaderships) : r'.inflight = r.inflight := by
  unfold inflight
  rw [h]

theorem SameData.extends (h : SameData r r') (hinflight : ∀ f ∈ r'.inflight, f ∈ r.inflight) :
    Extends r r' where
  last := h.lastLogIndex.ge
  logs := by
    rw [h.logs]
    exact fun e he => .inl he
  inflight := fun f hf => .inl (hinflight f hf)

/-- Entries are only removed from the log. -/
theorem extends_of_subset (hlast : r.lastLogIndex ≤ r'.lastLogIndex)
    (hlogs : ∀ e ∈ r'.logs, e ∈ r.logs) (hinflight : ∀ f ∈ r'.inflight, f ∈ r.inflight) :
    Extends r r' :=
  ⟨hlast, fun e he => .inl (hlogs e he), fun f hf => .inl (hinflight f hf)⟩

theorem inflight_of_modifyHead {g : LeaderState → LeaderState} {P : LogFuture → Prop}
    (h : r'.leaderships = r.leaderships.modifyHead g)
    (hg : ∀ ls, ∀ f ∈ (g ls).inflight, f ∈ ls.inflight ∨ P f) :
    ∀ f ∈ r'.inflight, f ∈ r.inflight ∨ P f := by
  intro f hf
  unfold inflight at *
  rw [h] at hf
  cases hls : r.leaderships with
  | nil => simp [hls] at hf
  | cons ls rest =>
    simp only [hls, List.modifyHead_cons, List.head?_cons, Option.map_some, Option.getD_some] at hf ⊢
    exact hg ls f hf

theorem leaderships_dispatchLogs (r : Raft) (futures : List LogFuture) (env : Env) :
    ∃ g : LeaderState → LeaderState,
      (r.dispatchLogs futures env).1.leaderships = r.leaderships.modifyHead g ∧
      ∀ ls, (g ls).inflight =
        ls.inflight ++ stampLogs r.currentTerm env.now r.getLastIndex futures := by
  unfold dispatchLogs
  dsimp only
  split
  · exact ⟨_, rfl, fun ls => rfl⟩
  · exact ⟨_, List.modifyHead_modifyHead .., fun ls => rfl⟩

/-- `dispatchLogs` appends to the log, unless it fails and the leader steps down. -/
theorem extends_dispatchLogs (hstore : env.storeLogs = true) (futures : List LogFuture) :
    Extends r (r.dispatchLogs futures env).1 := by
  have hdispatches := dispatches_dispatchLogs (r := r) hstore futures
  have hbelow : r.lastLogIndex ≤ r.getLastIndex := Nat.le_max_left _ _
  constructor
  case last =>
    rw [hdispatches.lastLogIndex]
    omega
  case logs =>
    intro e he
    rw [hdispatches.logs] at he
    rcases LogStore.mem_of_mem_storeLogs he with hold | hnew
    · exact .inl hold
    · obtain ⟨i, hi⟩ := List.getElem?_of_mem hnew
      have hindex := hdispatches.index i e hi
      exact .inr (by omega)
  case inflight =>
    obtain ⟨g, hleaderships, hg⟩ := leaderships_dispatchLogs r futures env
    apply inflight_of_modifyHead hleaderships
    intro ls f hf
    rw [hg, List.mem_append] at hf
    rcases hf with hold | hnew
    · exact .inl hold
    · right
      rw [hdispatches.lastLogIndex, stampedLogs, List.length_map, stampLogs_length]
      exact ((sorted_stampLogs _ _ _ _).2 f hnew).2

/-- Only the configurations and the other parts of the leadership change. -/
theorem Extends.congr (h : Extends r r') (hlogs : r''.logs = r'.logs)
    (hlast : r''.lastLogIndex = r'.lastLogIndex) (hinflight : ∀ f ∈ r''.inflight, f ∈ r'.inflight) :
    Extends r r'' where
  last := hlast ▸ h.last
  logs := hlogs ▸ h.logs
  inflight := by
    rw [hlast]
    exact fun f hf => h.inflight f (hinflight f hf)

theorem Extends.setMain (h : Extends r r') (main : MainThread) : Extends r { r' with main := main } :=
  h.congr rfl rfl (fun _ hf => hf)

theorem inflight_modifyLeaderState (r : Raft) {g : LeaderState → LeaderState}
    (hg : ∀ ls, (g ls).inflight = ls.inflight) : (r.modifyLeaderState g).inflight = r.inflight := by
  unfold inflight modifyLeaderState
  cases r.leaderships with
  | nil => rfl
  | cons ls rest =>
    simp only [List.modifyHead_cons, List.head?_cons, Option.map_some, Option.getD_some, hg]

theorem extends_appendConfigurationEntry (hstore : env.storeLogs = true)
    (req : ConfigurationChangeRequest) (future : Nat) :
    Extends r (r.appendConfigurationEntry req future env).1 := by
  unfold appendConfigurationEntry
  split
  · exact .refl r
  · rename_i configuration hnext
    have hext := extends_dispatchLogs (r := r) hstore [⟨future, r.configurationEntry configuration⟩]
    generalize r.dispatchLogs [⟨future, r.configurationEntry configuration⟩] env = dispatched at hext ⊢
    dsimp only
    refine hext.congr rfl rfl ?_
    intro f hf
    unfold startStopReplication at hf
    rw [inflight_modifyLeaderState, inflight_modifyLeaderState] at hf
    · exact hf
    · exact fun _ => rfl
    · exact fun _ => rfl

theorem extends_leaderCommit (r : Raft) (ls : LeaderState) (stepDown : Bool) :
    Extends r (r.leaderCommit ls stepDown).1 := by
  have hstores := (advances_leaderCommit r ls stepDown).stores
  refine extends_of_subset hstores.lastLogIndex.ge ?_ ?_
  · rw [hstores.logs]
    exact fun e he => he
  · intro f hf
    rcases inflight_of_modifyHead (P := fun _ => False) (leaderships_leaderCommit r ls stepDown)
      (fun head f hf => .inl (List.mem_of_mem_drop hf)) f hf with hold | hfalse
    · exact hold
    · exact hfalse.elim

theorem extends_replicate {k j : Nat} {input : ReplicationInput} {sends : List (Server × Command)}
    (h : r.replicate k j input = some (r', sends)) : Extends r r' := by
  obtain ⟨ls, s, s', matched, hls, -, -, rfl⟩ := replicate_cases h
  refine extends_of_subset (Nat.le_refl _) (fun e he => he) ?_
  unfold inflight
  cases hlist : r.leaderships with
  | nil => simp [hlist] at hls
  | cons head rest =>
    cases k with
    | zero =>
      simp only [hlist, List.getElem?_cons_zero, Option.some.injEq] at hls
      simp [hls]
    | succ k => simp

/-- A request of another leader's term that does not make a follower of the server has
no effect. -/
theorem request_stays (hterm : input.leaderTerm? ≠ some r.currentTerm)
    (hother : o.raft.state ≠ .follower) (h : r.stepUp env input = some o)
    (hrequest : input.leaderTerm? ≠ none) : ∃ main, o.raft = { r with main := main } := by
  unfold Input.leaderTerm? at hterm hrequest
  split at hrequest
  · rename_i req
    rw [(stepUp_rpc h).2.1] at hother ⊢
    unfold processRPC at hother ⊢
    split
    · exact ⟨_, rfl⟩
    · rename_i hheader
      rw [if_neg hheader] at hother
      obtain ⟨-, hsame | ⟨-, heq⟩⟩ := appendEntries_stays (r := r) hother
      · dsimp only
        rw [hsame]
        exact ⟨_, rfl⟩
      · exact absurd (congrArg some heq) hterm
  · rename_i req
    rw [(stepUp_heartbeat h).2.1] at hother ⊢
    obtain ⟨-, hsame | ⟨-, heq⟩⟩ := appendEntries_stays (r := r) hother
    · exact ⟨r.main, hsame⟩
    · exact absurd (congrArg some heq) hterm
  · rename_i req
    rw [(stepUp_rpc h).2.1] at hother ⊢
    unfold processRPC at hother ⊢
    split
    · exact ⟨_, rfl⟩
    · rename_i hheader
      rw [if_neg hheader] at hother
      obtain ⟨-, hsame | heq⟩ := installSnapshot_stays (r := r) hother
      · dsimp only
        rw [hsame]
        exact ⟨_, rfl⟩
      · exact absurd (congrArg some heq) hterm
  · exact absurd rfl hrequest

/-- What any input does to the log of a server that is the leader afterwards, when no
other server leads in its term. -/
theorem extends_stepUp (hup : r.down = false) (hleader : o.raft.state = .leader)
    (hterm : input.leaderTerm? ≠ some r.currentTerm) (h : r.stepUp env input = some o) :
    Extends r o.raft := by
  have hother : o.raft.state ≠ .follower := by
    rw [hleader]
    simp
  by_cases hrequest : input.leaderTerm? = none
  case neg =>
    obtain ⟨main, hsame⟩ := request_stays hterm hother h hrequest
    rw [hsame]
    exact (Extends.refl r).setMain main
  have hbeat : ∀ req, input ≠ .heartbeat req := by
    rintro req rfl
    simp [Input.leaderTerm?] at hrequest
  have hinstall : ∀ req, input ≠ .rpc (.installSnapshot req) := by
    rintro req rfl
    simp [Input.leaderTerm?] at hrequest
  cases effect_stepUp h hbeat hinstall with
  | restart hdown => simp [hup] at hdown
  | idle hdata _ hleaderships =>
    exact hdata.extends (fun f hf => inflight_congr hleaderships ▸ hf)
  | requestVote req hinput hraft =>
    rw [hraft]
    refine (((sameData_requestVote r req env).setMain _).extends ?_)
    have hleaderships := (rpcEffect_requestVote r req env).leaderships
    exact fun f hf => inflight_congr (r := r) hleaderships ▸ hf
  | appendEntries req hinput =>
    subst hinput
    simp [Input.leaderTerm?] at hrequest
  | elect main hraft =>
    rw [hraft]
    refine ((sameData_electSelf hup env).setMain main).extends ?_
    exact fun f hf => inflight_congr (r := r) (leaderships_electSelf hup env) ▸ hf
  | follow t hraft =>
    rw [hraft] at hother
    exact absurd (setCurrentTerm_state _ t env.writes).1 hother
  | win locals ch votes _ _ _ hraft =>
    rw [hraft, won_eq]
    exact extends_of_subset (Nat.le_refl _) (fun e he => he) (fun f hf => hf)
  | setup _ hraft =>
    rw [hraft]
    refine extends_of_subset (Nat.le_refl _) (fun e he => he) ?_
    intro f hf
    simp [inflight, enterLeader, startStopReplication, modifyLeaderState, setupLeaderState] at hf
  | dispatch futures stepDown _ _ _ hraft =>
    rw [hraft] at hother ⊢
    have hstore : env.storeLogs = true := by
      by_contra hfails
      exact hother (by simp [dispatchLogs, hfails, setState])
    exact (extends_dispatchLogs hstore futures).setMain _
  | configure req future configuration stepDown _ _ hnext hraft =>
    rw [hraft] at hother ⊢
    have hstore : env.storeLogs = true := by
      by_contra hfails
      exact hother (by
        simp [appendConfigurationEntry, hnext, dispatchLogs, hfails, setState,
          setLatestConfiguration, startStopReplication, modifyLeaderState])
    exact (extends_appendConfigurationEntry hstore req future).setMain _
  | commit ls rest stepDown _ _ hraft =>
    rw [hraft]
    exact extends_leaderCommit r ls stepDown
  | leave stepDown _ hstate hraft =>
    rw [hraft, (leaveLeader_control r env).1] at hleader
    exact absurd hleader hstate
  | replicate k j inp _ hstep => exact extends_replicate hstep

theorem mem_compactLogsWithTrailing {i j k : Nat} {e : Log}
    (he : e ∈ (r.compactLogsWithTrailing i j k env).logs) : e ∈ r.logs := by
  rcases compactLogsWithTrailing_eq r i j k env with hsame | ⟨maxLog, -, -, -, hsame⟩
  · rwa [hsame] at he
  · rw [hsame] at he
    exact LogStore.mem_of_mem_deleteRange he

theorem inflight_restoreUserSnapshot (r : Raft) (user : UserSnapshot) (env : Env) :
    ∀ f ∈ (r.restoreUserSnapshot user env).inflight, f ∈ r.inflight := by
  have hempty : (r.modifyLeaderState (fun ls => { ls with inflight := [] })).inflight = [] := by
    unfold inflight modifyLeaderState
    cases r.leaderships <;> rfl
  unfold restoreUserSnapshot
  split
  · exact fun f hf => hf
  split
  · exact fun f hf => hf
  intro f hf
  exfalso
  have hnone : f ∈ (r.modifyLeaderState (fun ls => { ls with inflight := [] })).inflight := by
    dsimp only at hf
    split at hf
    · exact hf
    split at hf
    · exact hf
    split at hf
    · unfold removeOldLogs at hf
      rwa [inflight_congr (sameThreads_compactLogsWithTrailing _ _ _ _ env).leaderships] at hf
    · exact hf
  rw [hempty] at hnone
  cases hnone

theorem extends_restoreUserSnapshot (user : UserSnapshot)
    (hup : (r.restoreUserSnapshot user env).down = false) :
    Extends r (r.restoreUserSnapshot user env) := by
  have hinflight := inflight_restoreUserSnapshot r user env
  rcases restoreUserSnapshot_cases r user env with hkept | ⟨-, hr⟩ | ⟨-, hdown, -⟩
  · exact hkept.extends hinflight
  · refine extends_of_subset ?_ ?_ hinflight
    · rw [hr.lastLogIndex]
      exact (Nat.le_max_left _ _).trans ((Nat.le_max_left _ _).trans (Nat.le_succ _))
    · intro e he
      rw [hr.logs] at he
      split at he
      · exact mem_compactLogsWithTrailing he
      · exact he
  · rw [hdown] at hup
    cases hup

end Raft

namespace Process

variable {σ ρ : Type} {fsm : FSM σ ρ} {initial : σ} {s s' : Process σ ρ} {work : Work} {env : Env}
  {o : Outcome} {a : ProcessAction}

theorem reign_eq (h : s.reign fsm initial a = some s') :
    s.step fsm initial a = some s' ∧ s'.raft.down = false ∧ s'.raft.state = .leader := by
  unfold reign at h
  rw [Option.filter_eq_some_iff] at h
  obtain ⟨hstep, hreigns⟩ := h
  simp only [reigns, Bool.and_eq_true, Bool.not_eq_true', decide_eq_true_eq] at hreigns
  exact ⟨hstep, hreigns.1, hreigns.2⟩

theorem extends_perform {given : Env} (hup : s.raft.down = false)
    (hrival : s.Unrivalled (.main work given))
    (ho : s.perform env work = some o) (hup' : o.raft.down = false)
    (hleader : o.raft.state = .leader) : Raft.Extends s.raft o.raft := by
  rcases perform_cases ho with ⟨input, rfl, hstep, -⟩ | ⟨user, stepDown, rfl, -, -, rfl⟩
  · exact Raft.extends_stepUp hup hleader hrival (Raft.step_up hstep hup)
  · exact (Raft.extends_restoreUserSnapshot user hup').setMain _

/-- A leader never installs the snapshot of another one. -/
theorem restore_of_grown {snapshot : Snapshot} {given : Env} (hup : s.raft.down = false)
    (hrival : s.Unrivalled (.main work given)) (hwork : work.snapshot? s.raft = some snapshot)
    (ho : s.perform env work = some o) (hup' : o.raft.down = false)
    (hleader : o.raft.state = .leader)
    (hgrown : s.raft.snapshots.length < o.raft.snapshots.length) :
    ∃ user, work = .restore user ∧ Raft.RestoresUser s.raft user env o.raft := by
  rcases perform_cases ho with ⟨input, rfl, hstep, -⟩ | ⟨user, stepDown, rfl, -, -, rfl⟩
  · obtain ⟨req, c, index, rfl, -, -⟩ := install_of_snapshot? hwork
    have hother : o.raft.state ≠ .follower := by
      rw [hleader]
      simp
    obtain ⟨main, hsame⟩ :=
      Raft.request_stays hrival hother (Raft.step_up hstep hup) (by simp [Input.leaderTerm?])
    rw [hsame] at hgrown
    exact absurd hgrown (Nat.lt_irrefl _)
  · refine ⟨user, rfl, ?_⟩
    have hmain : Raft.SameData (s.raft.restoreUserSnapshot user env)
        { s.raft.restoreUserSnapshot user env with main := .leader stepDown false } :=
      (Raft.SameData.refl _).setMain _
    rcases Raft.restoreUserSnapshot_cases s.raft user env with hkept | ⟨-, hr⟩ | ⟨-, hdown, -⟩
    · exact absurd hgrown (not_grown_of_sameData (hkept.trans hmain))
    · exact hr.sameData hmain
    · exact absurd hup' (by simp [hdown])

/-- Along a reign the log is only extended after its last entry, or compacted. -/
theorem extends_reign (hup : s.raft.down = false) (hrival : s.Unrivalled a)
    (h : s.reign fsm initial a = some s') : Raft.Extends s.raft s'.raft := by
  obtain ⟨hstep, hup', hleader⟩ := reign_eq h
  revert hup' hleader
  refine step_cases (P := fun s' => s'.raft.down = false → s'.raft.state = .leader →
    Raft.Extends s.raft s'.raft) hstep ?_ ?_ ?_ ?_
  · intro env r _ hdown
    simp [hup] at hdown
  · rintro work env s' rfl - hmain hup' hleader
    cases hmain with
    | proceed hwork ho => exact extends_perform hup hrival ho hup' hleader
    | refused hwork ho => exact extends_perform hup hrival ho hup' hleader
    | install acknowledged hwork hdrained hrestore ho =>
      exact extends_perform hup hrival ho hup' hleader
    | panicked => exact (Raft.Extends.refl _).congr rfl rfl (fun f hf => hf)
  · intro work env o _ _ _ hup'
    simp at hup'
  · intro s' _ hbeside _ _
    cases hbeside with
    | applied _ _ => exact .refl _
    | panicked => exact (Raft.Extends.refl _).congr rfl rfl (fun f hf => hf)
    | snapped _ _ => exact .refl _
    | configurations _ _ => exact (Raft.Extends.refl _).congr rfl rfl (fun f hf => hf)
    | persist _ =>
      unfold persist
      split
      · exact .refl _
      · exact (Raft.Extends.refl _).congr rfl rfl (fun f hf => hf)
    | setLastSnapshot _ => exact (Raft.Extends.refl _).congr rfl rfl (fun f hf => hf)
    | @compact env index _ =>
      have hthreads := Raft.sameThreads_compactLogsWithTrailing s.raft index s.raft.lastLogIndex
        s.raft.conf.trailingLogs env
      refine Raft.extends_of_subset ?_ (fun e he => Raft.mem_compactLogsWithTrailing he)
        (fun f hf => Raft.inflight_congr hthreads.leaderships ▸ hf)
      rcases Raft.compactLogsWithTrailing_eq s.raft index s.raft.lastLogIndex
        s.raft.conf.trailingLogs env with hsame | ⟨maxLog, -, -, -, hsame⟩
      · exact (congrArg Raft.lastLogIndex hsame).ge
      · exact (congrArg Raft.lastLogIndex hsame).ge

end Process

end PerfRaft
