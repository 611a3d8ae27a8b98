import PerfRaft.Proofs.Batches
import PerfRaft.Proofs.Writes

namespace PerfRaft

theorem flatten_cutBatches (n : Nat) (l batch : List Log) :
    (cutBatches n l batch).flatten = batch ++ l := by
  induction l generalizing batch with
  | nil =>
    unfold cutBatches
    split
    · rename_i hbatch
      rw [hbatch]
      rfl
    · simp
  | cons e rest ih =>
    unfold cutBatches
    split
    · rw [List.flatten_cons, ih []]
      simp
    · rw [ih (batch ++ [e])]
      simp

theorem ne_nil_of_mem_cutBatches {n : Nat} {l batch b : List Log} (h : b ∈ cutBatches n l batch) :
    b ≠ [] := by
  induction l generalizing batch with
  | nil =>
    unfold cutBatches at h
    split at h
    · simp at h
    · rename_i hbatch
      rw [List.mem_singleton.mp h]
      exact hbatch
  | cons e rest ih =>
    unfold cutBatches at h
    split at h
    · rcases List.mem_cons.mp h with rfl | h
      · simp
      · exact ih h
    · exact ih h

theorem appliedLogs_events (p : Processed) :
    appliedLogs p.events = p.batches.flatten.map CommitTuple.log := by
  unfold appliedLogs Processed.events
  rw [List.filterMap_map]
  exact congrFun (List.filterMap_eq_map (f := CommitTuple.log)) _

namespace Raft

variable {r r' r'' : Raft} {env : Env} {input : Input} {o : Outcome} {futures : List LogFuture}

/-- The entry that the loop of `processLogs` takes at an index. -/
def readAt (r : Raft) (futures : List LogFuture) (idx : Nat) : Option Log :=
  ((futureAt futures idx).map LogFuture.log).or (r.logs.getLog idx)

theorem readAt_index {idx : Nat} {l : Log} (h : r.readAt futures idx = some l) : l.index = idx := by
  unfold readAt at h
  cases hf : futureAt futures idx with
  | none =>
    rw [hf] at h
    exact LogStore.index_of_getLog h
  | some f =>
    simp only [hf, Option.map_some, Option.some_or, Option.some.injEq] at h
    rw [← h]
    simpa using List.find?_some hf

theorem readAt_congr (h : r'.logs = r.logs) : r'.readAt futures = r.readAt futures := by
  unfold readAt
  rw [h]

/-- The batches of the loop hold the entries it has taken and prepared. -/
theorem processLoop_logs {idxs : List Nat} {batch : List CommitTuple}
    (h : (r.processLoop futures idxs batch).panicked = false) :
    (r.processLoop futures idxs batch).batches.map (List.map CommitTuple.log) =
      cutBatches r.conf.maxAppendEntries
        ((idxs.filterMap (r.readAt futures)).filter r.conf.prepares)
        (batch.map CommitTuple.log) := by
  induction idxs generalizing batch with
  | nil =>
    unfold processLoop
    cases batch with
    | nil => rfl
    | cons t rest => rfl
  | cons idx rest ih =>
    unfold processLoop at h ⊢
    dsimp only at h ⊢
    cases hread : r.readAt futures idx with
    | none =>
      unfold readAt futureAt at hread
      simp [hread] at h
    | some l =>
      have hfilter : (idx :: rest).filterMap (r.readAt futures) =
          l :: rest.filterMap (r.readAt futures) := List.filterMap_cons_some hread
      rw [hfilter]
      unfold readAt futureAt at hread
      simp only [hread, prepareLog_eq] at h ⊢
      by_cases hprepares : r.conf.prepares l = true
      · simp only [hprepares, if_true] at h ⊢
        rw [List.filter_cons_of_pos hprepares]
        unfold cutBatches
        by_cases hfull : r.conf.maxAppendEntries ≤ batch.length + 1
        · simp only [List.length_append, List.length_singleton, hfull, if_true] at h ⊢
          rw [List.length_map, if_pos hfull, List.map_cons, ih h, List.map_append]
          rfl
        · simp only [List.length_append, List.length_singleton, hfull, if_false] at h ⊢
          rw [List.length_map, if_neg hfull, ih h, List.map_append]
          rfl
      · simp only [hprepares, Bool.false_eq_true, if_false] at h ⊢
        rw [List.filter_cons_of_neg hprepares]
        exact ih h

/-- A step moves `lastApplied` and sends the entries in between to the FSM, as far
as they are prepared for it. -/
structure Applies (r : Raft) (read : Nat → Option Log) (logs : List Log) (r' : Raft) : Prop where
  le : r.lastApplied ≤ r'.lastApplied
  found : ∀ idx ∈ FSMRun.indexes r.lastApplied r'.lastApplied, (read idx).isSome
  logs : logs =
    ((FSMRun.indexes r.lastApplied r'.lastApplied).filterMap read).filter r.conf.prepares

theorem Applies.nothing (h : r'.lastApplied = r.lastApplied) (read : Nat → Option Log) :
    Applies r read [] r' := by
  have hnone : FSMRun.indexes r.lastApplied r'.lastApplied = [] := by
    rw [h]
    simp [FSMRun.indexes]
  constructor
  case le => exact h.ge
  case found => simp [hnone]
  case logs => rw [hnone]; rfl

theorem Applies.congr {read : Nat → Option Log} {logs : List Log} (h : Applies r' read logs r'')
    (hlast : r'.lastApplied = r.lastApplied) (hconf : r'.conf = r.conf) : Applies r read logs r'' where
  le := hlast ▸ h.le
  found := hlast ▸ h.found
  logs := by
    rw [← hlast, ← hconf]
    exact h.logs

theorem Applies.sameApplied {read : Nat → Option Log} {logs : List Log} (h : Applies r read logs r')
    (hlast : r''.lastApplied = r'.lastApplied) : Applies r read logs r'' where
  le := hlast ▸ h.le
  found := hlast ▸ h.found
  logs := hlast ▸ h.logs

theorem applies_processLogs {index : Nat}
    (hup : (r.processLogs index futures).1.down = false) :
    Applies r (r.readAt futures) (appliedLogs (r.processLogs index futures).2.events)
      (r.processLogs index futures).1 := by
  unfold processLogs at hup ⊢
  split at hup
  · rename_i hle
    simp only [if_pos hle]
    exact .nothing rfl _
  rename_i hlt
  simp only [if_neg hlt]
  dsimp only at hup
  split at hup
  · simp at hup
  rename_i hpanicked
  rw [if_neg hpanicked]
  rw [Bool.not_eq_true] at hpanicked
  constructor
  case le => exact Nat.le_of_lt (Nat.not_le.mp hlt)
  case found => exact isSome_of_processLoop hpanicked
  case logs =>
    rw [appliedLogs_events, List.map_flatten, processLoop_logs hpanicked, flatten_cutBatches]
    rfl

theorem applies_followCommit {leaderCommitIndex : Nat}
    (hup : (r.followCommit leaderCommitIndex).1.down = false) :
    Applies r (r.readAt []) (appliedLogs (r.followCommit leaderCommitIndex).2)
      (r.followCommit leaderCommitIndex).1 := by
  unfold followCommit at hup ⊢
  split at hup
  · rename_i hmoves
    simp only [if_pos hmoves]
    dsimp only at hup
    split at hup
    · rename_i hcovered
      simp only [if_pos hcovered]
      exact (applies_processLogs hup).congr rfl rfl
    · rename_i hcovered
      simp only [if_neg hcovered]
      exact (applies_processLogs hup).congr rfl rfl
  · rename_i hkeeps
    simp only [if_neg hkeeps]
    exact .nothing rfl _

theorem lastApplied_storeEntries (r : Raft) (entries : List Log) (env : Env) :
    (r.storeEntries entries env).raft.lastApplied = r.lastApplied := by
  rw [storeEntries_eq]

theorem applies_appendEntries {a : AppendEntriesRequest}
    (hup : (r.appendEntries a env).1.down = false) :
    Applies r ((r.appendEntries a env).1.readAt []) (appliedLogs (r.appendEntries a env).2.2)
      (r.appendEntries a env).1 := by
  have hfollow := (sameData_followLeader r a env).lastApplied
  unfold appendEntries at hup ⊢
  dsimp only at hup ⊢
  split
  · exact .nothing rfl _
  rename_i hterm
  have hconf := (rpcEffect_followLeader r a env (Nat.not_lt.mp hterm)).1.conf
  rw [if_neg hterm] at hup
  generalize r.followLeader a env = r₁ at hfollow hconf hup ⊢
  split
  · exact .nothing hfollow _
  rename_i hdown
  rw [if_neg hdown] at hup
  split
  · exact .nothing hfollow _
  rename_i hprev
  rw [if_neg hprev] at hup
  have hstored := lastApplied_storeEntries r₁ a.entries env
  have hcontrol := (sameControl_storeEntries r₁ a.entries env).conf
  cases hs : r₁.storeEntries a.entries env with
  | gaveUp r₂ =>
    rw [hs] at hstored
    exact .nothing (hstored.trans hfollow) _
  | failed r₂ =>
    rw [hs] at hstored
    exact .nothing (hstored.trans hfollow) _
  | stored r₂ =>
    rw [hs] at hstored hcontrol hup
    have happlies := applies_followCommit (r := r₂) hup
    have hlogs : (r₂.followCommit a.leaderCommitIndex).1.logs = r₂.logs := by rw [followCommit_eq]
    rw [← readAt_congr hlogs] at happlies
    exact (happlies.congr (hstored.trans hfollow) (hcontrol.trans hconf)).sameApplied rfl

theorem applies_processGroup {group : List LogFuture}
    (hup : (r.processGroup group).1.down = false) :
    Applies r (r.readAt group) (appliedLogs (r.processGroup group).2.events)
      (r.processGroup group).1 := by
  unfold processGroup at hup ⊢
  cases hgroup : group.getLast? with
  | none => exact .nothing rfl _
  | some last =>
    rw [hgroup] at hup
    exact applies_processLogs hup

/-- The leader takes over the commit index, and applies the futures that are ready. -/
theorem leaderCommit_eq (r : Raft) (ls : LeaderState) (stepDown : Bool) :
    ∃ r₁ removed, SameStores r r₁ ∧ r₁.lastApplied = r.lastApplied ∧ r₁.conf = r.conf ∧
      (r.leaderCommit ls stepDown).1 =
        (r₁.processGroup (groupReady ls ls.commitment.commitIndex)).1.finishCommit removed ∧
      (r.leaderCommit ls stepDown).2 = .committed ls.term ls.commitment.commitIndex ::
        (r₁.processGroup (groupReady ls ls.commitment.commitIndex)).2.events := by
  have hset : SameStores r (r.setLeaderCommit ls.commitment.commitIndex).1 ∧
      (r.setLeaderCommit ls.commitment.commitIndex).1.lastApplied = r.lastApplied ∧
      (r.setLeaderCommit ls.commitment.commitIndex).1.conf = r.conf := by
    unfold setLeaderCommit
    dsimp only
    split <;> exact ⟨⟨rfl, rfl, rfl, rfl, rfl, rfl⟩, rfl, rfl⟩
  unfold leaderCommit
  dsimp only
  generalize (r.setLeaderCommit ls.commitment.commitIndex).1 = r₀ at hset ⊢
  obtain ⟨hstores, hlast, hconf⟩ := hset
  refine ⟨_, _, ?_, ?_, ?_, rfl, rfl⟩
  · exact hstores.trans ⟨rfl, rfl, rfl, rfl, rfl, rfl⟩
  · exact hlast
  · exact hconf

theorem applies_leaderCommit {ls : LeaderState} {stepDown : Bool}
    (hup : (r.leaderCommit ls stepDown).1.down = false) :
    Applies r ((r.leaderCommit ls stepDown).1.readAt (groupReady ls ls.commitment.commitIndex))
      (appliedLogs (r.leaderCommit ls stepDown).2) (r.leaderCommit ls stepDown).1 := by
  rw [readAt_congr (advances_leaderCommit r ls stepDown).stores.logs]
  obtain ⟨r₁, removed, hstores, hlast, hconf, hraft, hevents⟩ := leaderCommit_eq r ls stepDown
  rw [hraft, hevents]
  rw [hraft, (finishCommit_keeps _ _).1] at hup
  rw [← readAt_congr hstores.logs]
  have happlies := (applies_processGroup hup).congr hlast hconf
  exact happlies.sameApplied (finishCommit_keeps _ _).2

theorem appliedLogs_eq_nil {events : List Event} (h : ∀ e ∈ events, kind e ≠ .apply) :
    appliedLogs events = [] := by
  unfold appliedLogs
  rw [List.filterMap_eq_nil_iff]
  intro e he
  have := h e he
  cases e <;> simp_all [kind]

/-- The last snapshot and the snapshots in the store are the same. -/
structure SameSnapshots (r r' : Raft) : Prop where
  snapshots : r'.snapshots = r.snapshots
  lastSnapshotIndex : r'.lastSnapshotIndex = r.lastSnapshotIndex
  lastSnapshotTerm : r'.lastSnapshotTerm = r.lastSnapshotTerm

theorem SameData.sameSnapshots (h : SameData r r') : SameSnapshots r r' :=
  ⟨h.snapshots, h.lastSnapshotIndex, h.lastSnapshotTerm⟩

theorem SameControl.sameSnapshots (h : SameControl r r') : SameSnapshots r r' :=
  ⟨h.snapshots, h.lastSnapshotIndex, h.lastSnapshotTerm⟩

theorem SameSnapshots.trans (h : SameSnapshots r r') (h' : SameSnapshots r' r'') :
    SameSnapshots r r'' where
  snapshots := h'.snapshots.trans h.snapshots
  lastSnapshotIndex := h'.lastSnapshotIndex.trans h.lastSnapshotIndex
  lastSnapshotTerm := h'.lastSnapshotTerm.trans h.lastSnapshotTerm

theorem sameSnapshots_appendEntries (r : Raft) (a : AppendEntriesRequest) (env : Env) :
    SameSnapshots r (r.appendEntries a env).1 := by
  by_cases hterm : a.term < r.currentTerm
  · rw [(appendEntries_stale hterm env).1]
    exact ⟨rfl, rfl, rfl⟩
  · exact (sameData_followLeader r a env).sameSnapshots.trans
      (sameControl_appendEntries r a env (Nat.not_lt.mp hterm)).sameSnapshots

theorem dispatchLogs_keeps (r : Raft) (futures : List LogFuture) (env : Env) :
    SameSnapshots r (r.dispatchLogs futures env).1 ∧
      (r.dispatchLogs futures env).1.lastApplied = r.lastApplied := by
  unfold dispatchLogs
  dsimp only
  split <;> exact ⟨⟨rfl, rfl, rfl⟩, rfl⟩

theorem appendConfigurationEntry_keeps (r : Raft) (req : ConfigurationChangeRequest) (future : Nat)
    (env : Env) :
    SameSnapshots r (r.appendConfigurationEntry req future env).1 ∧
      (r.appendConfigurationEntry req future env).1.lastApplied = r.lastApplied := by
  unfold appendConfigurationEntry
  split
  · exact ⟨⟨rfl, rfl, rfl⟩, rfl⟩
  · rename_i configuration _
    have hkeeps := dispatchLogs_keeps r [⟨future, r.configurationEntry configuration⟩] env
    generalize r.dispatchLogs [⟨future, r.configurationEntry configuration⟩] env = result at hkeeps ⊢
    obtain ⟨r₁, events⟩ := result
    exact ⟨hkeeps.1.trans ⟨rfl, rfl, rfl⟩, hkeeps.2⟩

/-- Only `installSnapshot` writes a snapshot on the main thread. -/
theorem sameSnapshots_stepUp (h : r.stepUp env input = some o) (hup : r.down = false)
    (hinstall : ∀ req, input ≠ .rpc (.installSnapshot req)) : SameSnapshots r o.raft := by
  cases dataStep_stepUp h hup with
  | keep hs => exact hs.sameSnapshots
  | append _ hs => exact (sameSnapshots_appendEntries r _ env).trans hs.sameSnapshots
  | install => exact absurd rfl (hinstall _)
  | dispatch _ _ _ hs => exact (dispatchLogs_keeps r _ env).1.trans hs.sameSnapshots
  | configure _ hs => exact (appendConfigurationEntry_keeps r _ _ env).1.trans hs.sameSnapshots
  | @commit ls stepDown hs =>
    have hstores := (advances_leaderCommit r ls stepDown).stores
    exact SameSnapshots.trans
      ⟨hstores.snapshots, hstores.lastSnapshotIndex, hstores.lastSnapshotTerm⟩ hs.sameSnapshots

/-- What a step sends to the FSM. The futures of the leader are those that are
committed. -/
theorem applies_stepUp (h : r.stepUp env input = some o) (hup : r.down = false)
    (hup' : o.raft.down = false) (hinstall : ∀ req, input ≠ .rpc (.installSnapshot req)) :
    ∃ futures, Applies r (o.raft.readAt futures) (appliedLogs o.events) o.raft ∧
      (futures = [] ∨ ∃ stepDown ls rest, input = .commit ∧ r.main = .leader stepDown true ∧
        r.leaderships = ls :: rest ∧ futures = groupReady ls ls.commitment.commitIndex) := by
  by_cases happlies : input.append?.isSome ∨ input = .commit
  · cases input with
    | rpc cmd =>
      cases cmd with
      | appendEntries a =>
        obtain ⟨_, hraft, _, hevents, _⟩ := stepUp_rpc h
        refine ⟨[], ?_, .inl rfl⟩
        rw [hraft] at hup' ⊢
        rw [hevents]
        unfold processRPC at hup' ⊢
        split
        · apply Applies.nothing
          rfl
        · rename_i hheader
          rw [if_neg hheader] at hup'
          exact (applies_appendEntries hup').sameApplied rfl
      | _ => simp [Input.append?] at happlies
    | heartbeat a =>
      obtain ⟨_, hraft, _, hevents, _⟩ := stepUp_heartbeat h
      refine ⟨[], ?_, .inl rfl⟩
      rw [hraft] at hup' ⊢
      rw [hevents]
      exact applies_appendEntries hup'
    | commit =>
      obtain ⟨stepDown, ls, rest, hmain, hls, _, hraft, _, _, hevents⟩ := stepUp_commit h
      refine ⟨groupReady ls ls.commitment.commitIndex, ?_, .inr ⟨stepDown, ls, rest, rfl, hmain, hls, rfl⟩⟩
      rw [hraft] at hup' ⊢
      rw [hevents]
      exact applies_leaderCommit hup'
    | _ => simp [Input.append?] at happlies
  · have hnone : appliedLogs o.events = [] := by
      apply appliedLogs_eq_nil
      intro e he hkind
      cases emits_stepUp h hup he with
      | apply _ hinput => exact happlies hinput
      | _ => simp_all
    refine ⟨[], ?_, .inl rfl⟩
    rw [hnone]
    cases dataStep_stepUp h hup with
    | keep hs => exact .nothing hs.lastApplied _
    | append ha _ => exact absurd (.inl (by rw [ha]; rfl)) happlies
    | install => exact absurd rfl (hinstall _)
    | dispatch _ _ _ hs => exact .nothing (hs.lastApplied.trans (dispatchLogs_keeps r _ env).2) _
    | configure _ hs =>
      exact .nothing (hs.lastApplied.trans (appendConfigurationEntry_keeps r _ _ env).2) _
    | commit => exact absurd (.inr rfl) happlies

end Raft

end PerfRaft
