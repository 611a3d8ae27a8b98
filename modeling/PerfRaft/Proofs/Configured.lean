import PerfRaft.Proofs.Data
import PerfRaft.Proofs.LogStore

namespace PerfRaft

namespace Raft

variable {r r' : Raft} {env : Env} {o : Outcome} {G : Configuration → Prop}

/-- Every configuration the server knows of is good, or none at all. -/
structure Configured (G : Configuration → Prop) (r : Raft) : Prop where
  committed : r.configurations.committed = {} ∨ G r.configurations.committed
  latest : r.configurations.latest = {} ∨ G r.configurations.latest
  logs : ∀ e ∈ r.logs, ∀ c, e.configuration? = some c → G c
  snapshots : ∀ s ∈ r.snapshots, G s.metadata.configuration

/-- Every configuration of the entries is good. -/
def Carries (G : Configuration → Prop) (entries : List Log) : Prop :=
  ∀ e ∈ entries, ∀ c, e.configuration? = some c → G c

theorem Configured.sameData (h : Configured G r) (hs : SameData r r') : Configured G r' where
  committed := by rw [hs.configurations]; exact h.committed
  latest := by rw [hs.configurations]; exact h.latest
  logs := by rw [hs.logs]; exact h.logs
  snapshots := by rw [hs.snapshots]; exact h.snapshots

theorem Configured.setLatest (h : Configured G r) (hc : c = {} ∨ G c) (i : Nat) :
    Configured G (r.setLatestConfiguration c i) :=
  ⟨h.committed, hc, h.logs, h.snapshots⟩

theorem Configured.setCommitted (h : Configured G r) (hc : c = {} ∨ G c) (i : Nat) :
    Configured G (r.setCommittedConfiguration c i) :=
  ⟨hc, h.latest, h.logs, h.snapshots⟩

theorem Configured.setLogs (h : Configured G r) {logs : LogStore} (hlogs : Carries G logs) :
    Configured G { r with logs := logs } :=
  ⟨h.committed, h.latest, hlogs, h.snapshots⟩

theorem Configured.storeLogs (h : Configured G r) (he : Carries G entries) :
    Carries G (r.logs.storeLogs entries) := by
  intro e hmem
  rcases LogStore.mem_of_mem_storeLogs hmem with hold | hnew
  · exact h.logs e hold
  · exact he e hnew

theorem Configured.deleteRange (h : Configured G r) (lo hi : Nat) :
    Carries G (r.logs.deleteRange lo hi) :=
  fun e hmem => h.logs e (LogStore.mem_of_mem_deleteRange hmem)

theorem Configured.processConfigurationLogEntry (h : Configured G r) {entry : Log}
    (he : ∀ c, entry.configuration? = some c → G c) :
    Configured G (r.processConfigurationLogEntry entry).1 := by
  have hcommitted := h.setCommitted h.latest r.configurations.latestIndex
  unfold Raft.processConfigurationLogEntry
  dsimp only
  split
  · rename_i htype
    split
    · exact ⟨hcommitted.committed, hcommitted.latest, h.logs, h.snapshots⟩
    · rename_i configuration hdecode
      exact hcommitted.setLatest (.inr (he _ (by simp [Log.configuration?, htype, hdecode]))) _
  · rename_i htype
    split
    · exact hcommitted
    · rename_i configuration hdecode
      exact hcommitted.setLatest (.inr (he _ (by simp [Log.configuration?, htype, hdecode]))) _
  · rename_i htype
    split
    · exact hcommitted
    · rename_i configuration hdecode
      exact hcommitted.setLatest (.inr (he _ (by simp [Log.configuration?, htype, hdecode]))) _
  · exact h

theorem Configured.processConfigurationLogEntries (h : Configured G r) (he : Carries G entries) :
    Configured G (r.processConfigurationLogEntries entries).1 :=
  processConfigurationLogEntries_induct (P := Configured G) h
    (fun _ entry hmem h => h.processConfigurationLogEntry (he entry hmem))

theorem Configured.storeEntries (h : Configured G r) (he : Carries G entries) (env : Env) :
    Configured G (r.storeEntries entries env).raft := by
  refine storeEntries_induct (P := Configured G) h ?_ ?_ ?_
  · intro entry _
    have hdelete := h.setLogs (h.deleteRange entry.index r.lastLogIndex)
    unfold cut
    dsimp only
    split
    · exact hdelete.setLatest hdelete.committed _
    · exact hdelete
  · intro r' rest hsub h'
    have hrest : Carries G rest := fun e hmem => he e (hsub e hmem)
    exact (h'.setLogs (h'.storeLogs hrest)).processConfigurationLogEntries hrest
  · intro r' index term h'
    exact ⟨h'.committed, h'.latest, h'.logs, h'.snapshots⟩

theorem Configured.processLogs (h : Configured G r) (index : Nat) (futures : List LogFuture) :
    Configured G (r.processLogs index futures).1 := by
  rw [processLogs_eq]
  exact ⟨h.committed, h.latest, h.logs, h.snapshots⟩

theorem Configured.followCommit (h : Configured G r) (leaderCommitIndex : Nat) :
    Configured G (r.followCommit leaderCommitIndex).1 := by
  unfold Raft.followCommit
  split
  · dsimp only
    refine Configured.processLogs ?_ _ _
    split
    · exact ⟨h.latest, h.latest, h.logs, h.snapshots⟩
    · exact ⟨h.committed, h.latest, h.logs, h.snapshots⟩
  · exact h

theorem Configured.appendEntries (h : Configured G r) (a : AppendEntriesRequest) (env : Env)
    (he : Carries G a.entries) : Configured G (r.appendEntries a env).1 := by
  unfold Raft.appendEntries
  dsimp only
  split
  · exact h
  · have hfollow := h.sameData (sameData_followLeader r a env)
    split
    · exact hfollow
    · split
      · exact hfollow
      · have hstore := hfollow.storeEntries he env
        split
        · rename_i r' hs
          rw [hs] at hstore
          exact hstore
        · rename_i r' hs
          rw [hs] at hstore
          exact hstore
        · rename_i r' hs
          rw [hs] at hstore
          have hcommit := Configured.followCommit hstore a.leaderCommitIndex
          exact ⟨hcommit.committed, hcommit.latest, hcommit.logs, hcommit.snapshots⟩

theorem mem_addSnapshot {s t : Snapshot} {l : List Snapshot} (h : t ∈ addSnapshot s l) :
    t = s ∨ t ∈ l := by
  induction l with
  | nil => simpa [addSnapshot] using h
  | cons u rest ih =>
    unfold addSnapshot at h
    split at h
    · rcases List.mem_cons.mp h with rfl | h
      · exact .inr (by simp)
      · exact (ih h).imp id (List.mem_cons_of_mem _)
    · rcases List.mem_cons.mp h with rfl | h
      · exact .inl rfl
      · exact .inr h

theorem Configured.compactLogsWithTrailing (h : Configured G r) (i j k : Nat) (env : Env) :
    Configured G (r.compactLogsWithTrailing i j k env) := by
  unfold Raft.compactLogsWithTrailing
  dsimp only
  split
  · exact h
  · split
    · exact h
    · split
      · exact h
      · exact h.setLogs (h.deleteRange _ _)

theorem Configured.receiveSnapshot (h : Configured G r) (req : InstallSnapshotRequest) (env : Env)
    (he : ∀ c i, requestConfiguration req = some (c, i) → G c) :
    Configured G (r.receiveSnapshot req env).1 := by
  unfold Raft.receiveSnapshot
  split
  · split
    · exact ⟨h.committed, h.latest, h.logs, h.snapshots⟩
    · exact h
  · rename_i configuration index hreq
    have hgood := he _ _ hreq
    split
    · exact h
    · have hsnapshots : ∀ {s : Snapshot}, s.metadata.configuration = configuration →
          ∀ t ∈ addSnapshot s r.snapshots, G t.metadata.configuration := by
        intro s hs t ht
        rcases mem_addSnapshot ht with rfl | ht
        · rw [hs]
          exact hgood
        · exact h.snapshots t ht
      dsimp only
      split
      · exact ⟨h.committed, h.latest, h.logs, hsnapshots rfl⟩
      · have hrestored (r₁ : Raft) (h₁ : Configured G r₁) :
            Configured G (r₁.restored req configuration index env) := by
          have hset : ∀ r₂ : Raft, r₂.logs = r₁.logs → r₂.snapshots = r₁.snapshots →
              r₂.configurations = ⟨configuration, index, configuration, index⟩ → Configured G r₂ := by
            intro r₂ hlogs hsnap hconf
            refine ⟨?_, ?_, by rw [hlogs]; exact h₁.logs, by rw [hsnap]; exact h₁.snapshots⟩
            · rw [hconf]
              exact .inr hgood
            · rw [hconf]
              exact .inr hgood
          unfold restored
          dsimp only
          split
          · exact Configured.compactLogsWithTrailing (by exact hset _ rfl rfl rfl) _ _ _ _
          · exact Configured.compactLogsWithTrailing (by exact hset _ rfl rfl rfl) _ _ _ _
        have hcontact (r₁ : Raft) (h₁ : Configured G r₁) :
            Configured G { r₁.restored req configuration index env with lastContact := env.now } :=
          ⟨(hrestored r₁ h₁).committed, (hrestored r₁ h₁).latest, (hrestored r₁ h₁).logs,
            (hrestored r₁ h₁).snapshots⟩
        exact hcontact _ ⟨h.committed, h.latest, h.logs, hsnapshots rfl⟩

theorem Configured.installSnapshot (h : Configured G r) (req : InstallSnapshotRequest) (env : Env)
    (he : ∀ c i, requestConfiguration req = some (c, i) → G c) :
    Configured G (r.installSnapshot req env).1 := by
  unfold Raft.installSnapshot
  split
  · exact h
  split
  · exact h
  have hfollow := h.sameData (sameData_followSnapshot r req env)
  have hreceive := hfollow.receiveSnapshot req env he
  dsimp only
  split
  · exact hfollow
  · split
    · rename_i r' hr
      rw [hr] at hreceive
      exact hreceive
    · rename_i r' hr
      rw [hr] at hreceive
      exact hreceive

theorem stampLogs_configuration (term now lastIndex : Nat) (futures : List LogFuture) :
    ∀ f ∈ stampLogs term now lastIndex futures, ∃ f' ∈ futures,
      f.log.configuration? = f'.log.configuration? := by
  induction futures generalizing lastIndex with
  | nil => simp [stampLogs]
  | cons f rest ih =>
    intro g hg
    simp only [stampLogs, List.mem_cons] at hg
    rcases hg with rfl | hg
    · exact ⟨f, by simp, rfl⟩
    · obtain ⟨f', hmem, heq⟩ := ih (lastIndex + 1) g hg
      exact ⟨f', List.mem_cons_of_mem _ hmem, heq⟩

theorem Configured.dispatchLogs (h : Configured G r) (env : Env)
    (he : Carries G (futures.map LogFuture.log)) : Configured G (r.dispatchLogs futures env).1 := by
  unfold Raft.dispatchLogs
  dsimp only
  split
  · exact ⟨h.committed, h.latest, h.logs, h.snapshots⟩
  · have hstamped : Carries G
        ((stampLogs r.currentTerm env.now r.getLastIndex futures).map LogFuture.log) := by
      intro e hmem c hc
      obtain ⟨f, hf, rfl⟩ := List.mem_map.mp hmem
      obtain ⟨f', hf', heq⟩ := stampLogs_configuration _ _ _ _ f hf
      exact he f'.log (List.mem_map_of_mem hf') c (heq ▸ hc)
    exact ⟨h.committed, h.latest, h.storeLogs hstamped, h.snapshots⟩

theorem Configured.appendConfigurationEntry (h : Configured G r) (req : ConfigurationChangeRequest)
    (future : Nat) (env : Env)
    (he : ∀ c, nextConfiguration r.configurations.latest r.configurations.latestIndex req = .ok c →
      G c ∧ Carries G [r.configurationEntry c]) :
    Configured G (r.appendConfigurationEntry req future env).1 := by
  unfold Raft.appendConfigurationEntry
  split
  · exact h
  · rename_i configuration hnext
    obtain ⟨hgood, hentry⟩ := he configuration hnext
    have hentry' : Carries G
        ([⟨future, r.configurationEntry configuration⟩].map LogFuture.log) := hentry
    have hdispatch := h.dispatchLogs env hentry'
    cases hd : r.dispatchLogs [⟨future, r.configurationEntry configuration⟩] env with
    | mk r' events =>
      rw [hd] at hdispatch
      exact ⟨hdispatch.committed, .inr hgood, hdispatch.logs, hdispatch.snapshots⟩

theorem Configured.leaderCommit (h : Configured G r) (ls : LeaderState) (stepDown : Bool) :
    Configured G (r.leaderCommit ls stepDown).1 := by
  rw [leaderCommit_frame]
  unfold setLeaderCommit
  dsimp only
  split
  · exact ⟨h.latest, h.latest, h.logs, h.snapshots⟩
  · exact ⟨h.committed, h.latest, h.logs, h.snapshots⟩

theorem Configured.scanConfigurations (h : Configured G r)
    (hs : r.scanConfigurations indexes = some r') : Configured G r' := by
  induction indexes generalizing r with
  | nil =>
    simp only [Raft.scanConfigurations, Option.some.injEq] at hs
    exact hs ▸ h
  | cons index rest ih =>
    unfold Raft.scanConfigurations at hs
    split at hs
    · simp at hs
    · rename_i entry hget
      have hentry := h.processConfigurationLogEntry (h.logs entry (LogStore.mem_of_getLog hget))
      split at hs
      · simp at hs
      · rename_i r₁ hr₁
        rw [hr₁] at hentry
        exact ih hentry hs

theorem Configured.newRaft (h : Configured G r)
    (hr : Raft.newRaft r.conf r.stable r.logs r.snapshots env = some r') : Configured G r' := by
  unfold Raft.newRaft at hr
  split at hr
  · simp at hr
  split at hr
  · simp at hr
  split at hr
  · simp at hr
  split at hr
  · simp at hr
  dsimp only at hr
  split at hr
  · simp at hr
  rename_i r₁ hr₁
  refine Configured.scanConfigurations ?_ hr
  unfold restoreSnapshot at hr₁
  split at hr₁
  · cases hr₁
    exact ⟨.inl rfl, .inl rfl, h.logs, h.snapshots⟩
  · rename_i snapshot rest hsnap
    split at hr₁
    · simp at hr₁
    · have hgood : G snapshot.metadata.configuration := by
        refine h.snapshots snapshot ?_
        have hsnap' : r.snapshots = snapshot :: rest := hsnap
        simp [hsnap']
      cases hr₁
      exact ⟨.inr hgood, .inr hgood, h.logs, h.snapshots⟩

/-- Every configuration an input brings is good. -/
def Brings (G : Configuration → Prop) (r : Raft) : Input → Prop
  | .rpc (.appendEntries a) => Carries G a.entries
  | .heartbeat a => Carries G a.entries
  | .rpc (.installSnapshot req) => ∀ c i, requestConfiguration req = some (c, i) → G c
  | .configurationChange req _ =>
    ∀ c, nextConfiguration r.configurations.latest r.configurations.latestIndex req = .ok c →
      G c ∧ Carries G [r.configurationEntry c]
  | _ => True

theorem Configured.stepUp (h : Configured G r) (hup : r.down = false) (hb : Brings G r input)
    (hs : r.stepUp env input = some o) : Configured G o.raft := by
  have hplain : ∀ futures : List LogFuture,
      (∀ f ∈ futures, f.log.configuration? = none) → Carries G (futures.map LogFuture.log) := by
    intro futures hnone e hmem c hc
    obtain ⟨f, hf, rfl⟩ := List.mem_map.mp hmem
    simp [hnone f hf] at hc
  by_cases hkeep : r.writesData input = false
  · exact h.sameData (sameData_stepUp hs hup hkeep)
  · cases input with
    | rpc cmd =>
      obtain ⟨_, ho, _⟩ := stepUp_rpc hs
      have hrpc : Configured G (r.processRPC cmd env).1 := by
        unfold processRPC
        split
        · exact h
        · cases cmd with
          | appendEntries req => exact h.appendEntries req env hb
          | installSnapshot req => exact h.installSnapshot req env hb
          | requestVote req => simp [writesData] at hkeep
          | requestPreVote req => simp [writesData] at hkeep
          | timeoutNow req => simp [writesData] at hkeep
      rw [ho]
      exact ⟨hrpc.committed, hrpc.latest, hrpc.logs, hrpc.snapshots⟩
    | heartbeat req =>
      obtain ⟨_, ho, _⟩ := stepUp_heartbeat hs
      rw [ho]
      exact h.appendEntries req env hb
    | enter =>
      have hmain : r.main = .noop := by simpa [writesData] using hkeep
      simp only [Raft.stepUp, enter, hmain, Option.some.injEq] at hs
      have hd := h.dispatchLogs env
        (hplain [{ log := { index := 0, term := 0, type := .logNoop } }] (by simp [Log.configuration?]))
      rw [← hs]
      exact ⟨hd.committed, hd.latest, hd.logs, hd.snapshots⟩
    | apply futures =>
      obtain ⟨stepDown, _, haccept, rfl⟩ := stepUp_apply hs
      have hnone : ∀ f ∈ futures, f.log.configuration? = none := by
        intro f hf
        simp only [acceptsFutures, Bool.and_eq_true, List.all_eq_true, Bool.or_eq_true,
          beq_iff_eq] at haccept
        rcases haccept.2 f hf with ht | ht <;> simp [Log.configuration?, ht]
      have hd := h.dispatchLogs env (hplain futures hnone)
      cases stepDown with
      | true => exact ⟨h.committed, h.latest, h.logs, h.snapshots⟩
      | false => exact ⟨hd.committed, hd.latest, hd.logs, hd.snapshots⟩
    | configurationChange req future =>
      obtain ⟨stepDown, _, _, ho, _⟩ := stepUp_configurationChange hs
      have hd := h.appendConfigurationEntry req future env hb
      rw [ho]
      exact ⟨hd.committed, hd.latest, hd.logs, hd.snapshots⟩
    | commit =>
      obtain ⟨stepDown, ls, _, _, _, _, ho, _⟩ := stepUp_commit hs
      rw [ho]
      exact h.leaderCommit ls stepDown
    | restart => exact absurd hs stepUp_restart
    | _ => simp [writesData] at hkeep

theorem Configured.step (h : Configured G r) (hb : Brings G r input)
    (hs : r.step input env = some o) : Configured G o.raft :=
  step_cases (P := fun o => Configured G o.raft) hs (fun _ _ _ hr => h.newRaft hr)
    (fun hup hs' => h.stepUp hup hb hs')

end Raft

end PerfRaft
