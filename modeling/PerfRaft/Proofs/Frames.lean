import PerfRaft.Node

namespace PerfRaft.Raft

/-- The term, the state and the threads of a server are the same. -/
structure SameThreads (r r' : Raft) : Prop where
  conf : r'.conf = r.conf
  stable : r'.stable = r.stable
  currentTerm : r'.currentTerm = r.currentTerm
  state : r'.state = r.state
  main : r'.main = r.main
  transfer : r'.candidateFromLeadershipTransfer = r.candidateFromLeadershipTransfer
  leaderships : r'.leaderships = r.leaderships

theorem SameThreads.refl (r : Raft) : SameThreads r r :=
  ⟨rfl, rfl, rfl, rfl, rfl, rfl, rfl⟩

theorem SameThreads.trans (h : SameThreads r r') (h' : SameThreads r' r'') : SameThreads r r'' where
  conf := h'.conf.trans h.conf
  stable := h'.stable.trans h.stable
  currentTerm := h'.currentTerm.trans h.currentTerm
  state := h'.state.trans h.state
  main := h'.main.trans h.main
  transfer := h'.transfer.trans h.transfer
  leaderships := h'.leaderships.trans h.leaderships

/-- Storing and committing entries touches neither the threads nor the snapshots
and the known leader. -/
structure SameControl (r r' : Raft) : Prop extends SameThreads r r' where
  snapshots : r'.snapshots = r.snapshots
  leaderAddr : r'.leaderAddr = r.leaderAddr
  leaderID : r'.leaderID = r.leaderID
  lastSnapshotIndex : r'.lastSnapshotIndex = r.lastSnapshotIndex
  lastSnapshotTerm : r'.lastSnapshotTerm = r.lastSnapshotTerm

theorem SameControl.refl (r : Raft) : SameControl r r :=
  { SameThreads.refl r with
    snapshots := rfl, leaderAddr := rfl, leaderID := rfl
    lastSnapshotIndex := rfl, lastSnapshotTerm := rfl }

theorem SameControl.trans (h : SameControl r r') (h' : SameControl r' r'') : SameControl r r'' where
  toSameThreads := h.toSameThreads.trans h'.toSameThreads
  snapshots := h'.snapshots.trans h.snapshots
  leaderAddr := h'.leaderAddr.trans h.leaderAddr
  leaderID := h'.leaderID.trans h.leaderID
  lastSnapshotIndex := h'.lastSnapshotIndex.trans h.lastSnapshotIndex
  lastSnapshotTerm := h'.lastSnapshotTerm.trans h.lastSnapshotTerm

theorem SameControl.setLogs (r : Raft) (logs : LogStore) : SameControl r { r with logs := logs } := by
  exact ⟨⟨rfl, rfl, rfl, rfl, rfl, rfl, rfl⟩, rfl, rfl, rfl, rfl, rfl⟩

theorem SameControl.setDown (r : Raft) (down : Bool) : SameControl r { r with down := down } := by
  exact ⟨⟨rfl, rfl, rfl, rfl, rfl, rfl, rfl⟩, rfl, rfl, rfl, rfl, rfl⟩

theorem processConfigurationLogEntry_eq (r : Raft) (entry : Log) :
    (r.processConfigurationLogEntry entry).1 =
      { r with
        configurations := (r.processConfigurationLogEntry entry).1.configurations
        down := (r.processConfigurationLogEntry entry).1.down } := by
  unfold processConfigurationLogEntry
  dsimp only
  split
  · split <;> rfl
  · split <;> rfl
  · split <;> rfl
  · rfl

variable {r : Raft}

/-- What each configuration entry keeps, the loop over the entries keeps. -/
theorem processConfigurationLogEntries_induct {P : Raft → Prop} {entries : List Log}
    (h : P r) (hone : ∀ r, ∀ entry ∈ entries, P r → P (r.processConfigurationLogEntry entry).1) :
    P (r.processConfigurationLogEntries entries).1 := by
  induction entries generalizing r with
  | nil => exact h
  | cons entry rest ih =>
    have hentry := hone r entry List.mem_cons_self h
    unfold processConfigurationLogEntries
    cases hp : r.processConfigurationLogEntry entry with
    | mk r' ok =>
      rw [hp] at hentry
      cases ok with
      | false => exact hentry
      | true => exact ih hentry (fun r e he => hone r e (List.mem_cons_of_mem _ he))

theorem processConfigurationLogEntries_eq (r : Raft) (entries : List Log) :
    (r.processConfigurationLogEntries entries).1 =
      { r with
        configurations := (r.processConfigurationLogEntries entries).1.configurations
        down := (r.processConfigurationLogEntries entries).1.down } := by
  refine processConfigurationLogEntries_induct
    (P := fun r' => r' = { r with configurations := r'.configurations, down := r'.down }) rfl ?_
  intro r' entry _ hr'
  rw [processConfigurationLogEntry_eq, hr']

/-- The log from `index` on is deleted, and with it the latest configuration if it
stood there. -/
def cut (r : Raft) (index : Nat) : Raft :=
  let r := { r with logs := r.logs.deleteRange index r.lastLogIndex }
  if index ≤ r.configurations.latestIndex then
    r.setLatestConfiguration r.configurations.committed r.configurations.committedIndex
  else r

theorem cut_eq (r : Raft) (index : Nat) :
    r.cut index =
      { r with
        logs := r.logs.deleteRange index r.lastLogIndex
        configurations := (r.cut index).configurations } := by
  unfold cut
  dsimp only
  split <;> rfl

variable {env : Env}

/-- Entries that are already there are skipped, and a conflict cuts the log. -/
theorem newEntries_inv {r r' : Raft} {entries rest : List Log}
    (h : r.newEntries r.lastLogIndex env entries = some (r', rest)) :
    (r' = r ∨ ∃ entry ∈ entries, r' = r.cut entry.index) ∧ ∀ e ∈ rest, e ∈ entries := by
  induction entries with
  | nil =>
    cases h
    exact ⟨.inl rfl, fun e he => he⟩
  | cons entry entries ih =>
    unfold newEntries at h
    split at h
    · cases h
      exact ⟨.inl rfl, fun e he => he⟩
    · split at h
      · cases h
      · split at h
        · split at h
          · cases h
          · cases h
            exact ⟨.inr ⟨entry, by simp, rfl⟩, fun e he => he⟩
        · obtain ⟨hr', hsub⟩ := ih h
          refine ⟨hr'.imp_right ?_, fun e he => List.mem_cons_of_mem _ (hsub e he)⟩
          rintro ⟨entry, hmem, rfl⟩
          exact ⟨entry, List.mem_cons_of_mem _ hmem, rfl⟩

/-- The server a `Stored` outcome leaves behind. -/
def Stored.raft : Stored → Raft
  | .gaveUp r => r
  | .failed r => r
  | .stored r => r

/-- What a cut, a write of entries of the request and their scan for configurations
keep, `storeEntries` keeps. -/
theorem storeEntries_induct {P : Raft → Prop} {entries : List Log} (h : P r)
    (hcut : ∀ entry ∈ entries, P (r.cut entry.index))
    (hstore : ∀ r' rest, (∀ e ∈ rest, e ∈ entries) → P r' →
      P (Raft.processConfigurationLogEntries { r' with logs := r'.logs.storeLogs rest } rest).1)
    (hlast : ∀ r' index term, P r' → P (r'.setLastLog index term)) :
    P (r.storeEntries entries env).raft := by
  unfold storeEntries
  cases hn : r.newEntries r.lastLogIndex env entries with
  | none => exact h
  | some result =>
    obtain ⟨r', rest⟩ := result
    obtain ⟨hr', hsub⟩ := newEntries_inv hn
    have hP : P r' := by
      rcases hr' with rfl | ⟨entry, hmem, rfl⟩
      · exact h
      · exact hcut entry hmem
    cases rest with
    | nil => exact hP
    | cons entry rest =>
      have hprocess := hstore r' (entry :: rest) hsub hP
      dsimp only
      split
      · exact hP
      · cases hp : Raft.processConfigurationLogEntries
            { r' with logs := r'.logs.storeLogs (entry :: rest) } (entry :: rest) with
        | mk r'' ok =>
          rw [hp] at hprocess
          cases ok with
          | false => exact hprocess
          | true => exact hlast _ _ _ hprocess

theorem storeEntries_eq (r : Raft) (entries : List Log) (env : Env) :
    (r.storeEntries entries env).raft =
      { r with
        logs := (r.storeEntries entries env).raft.logs
        configurations := (r.storeEntries entries env).raft.configurations
        lastLogIndex := (r.storeEntries entries env).raft.lastLogIndex
        lastLogTerm := (r.storeEntries entries env).raft.lastLogTerm
        down := (r.storeEntries entries env).raft.down } := by
  refine storeEntries_induct (P := fun r' => r' =
    { r with
      logs := r'.logs, configurations := r'.configurations, lastLogIndex := r'.lastLogIndex
      lastLogTerm := r'.lastLogTerm, down := r'.down }) rfl ?_ ?_ ?_
  · intro entry _
    rw [cut_eq]
  · intro r' rest _ hr'
    rw [processConfigurationLogEntries_eq, hr']
  · intro r' index term hr'
    rw [hr']
    rfl

theorem processConfigurationLogEntries_logs (r : Raft) (entries : List Log) :
    (r.processConfigurationLogEntries entries).1.logs = r.logs := by
  rw [processConfigurationLogEntries_eq]

/-- The contents of the store after `storeEntries`. -/
theorem storeEntries_logs (r : Raft) (entries : List Log) (env : Env) (hstore : env.storeLogs = true) :
    (r.storeEntries entries env).raft.logs =
      match r.newEntries r.lastLogIndex env entries with
      | none => r.logs
      | some (r', rest) => r'.logs.storeLogs rest := by
  unfold storeEntries
  cases hn : r.newEntries r.lastLogIndex env entries with
  | none => rfl
  | some result =>
    obtain ⟨r', rest⟩ := result
    cases rest with
    | nil => rfl
    | cons entry rest =>
      simp only [hstore, Bool.true_eq_false, if_false]
      have hlogs := processConfigurationLogEntries_logs
        { r' with logs := r'.logs.storeLogs (entry :: rest) } (entry :: rest)
      cases hc : processConfigurationLogEntries
          { r' with logs := r'.logs.storeLogs (entry :: rest) } (entry :: rest) with
      | mk r'' ok =>
        rw [hc] at hlogs
        cases ok <;> exact hlogs

theorem sameControl_storeEntries (r : Raft) (entries : List Log) (env : Env) :
    SameControl r (r.storeEntries entries env).raft := by
  rw [storeEntries_eq]
  exact ⟨⟨rfl, rfl, rfl, rfl, rfl, rfl, rfl⟩, rfl, rfl, rfl, rfl, rfl⟩

theorem sameControl_processLogs (r : Raft) (index : Nat) (futures : List LogFuture) :
    SameControl r (r.processLogs index futures).1 := by
  unfold processLogs
  split
  · exact .refl r
  · dsimp only
    split <;> exact ⟨⟨rfl, rfl, rfl, rfl, rfl, rfl, rfl⟩, rfl, rfl, rfl, rfl, rfl⟩

theorem sameControl_followCommit (r : Raft) (leaderCommitIndex : Nat) :
    SameControl r (r.followCommit leaderCommitIndex).1 := by
  unfold followCommit
  split
  · dsimp only
    refine SameControl.trans ?_ (sameControl_processLogs _ _ _)
    split <;> exact ⟨⟨rfl, rfl, rfl, rfl, rfl, rfl, rfl⟩, rfl, rfl, rfl, rfl, rfl⟩
  · exact .refl r

theorem sameThreads_compactLogsWithTrailing (r : Raft) (snapIdx lastLogIdx trailingLogs : Nat)
    (env : Env) : SameThreads r (r.compactLogsWithTrailing snapIdx lastLogIdx trailingLogs env) := by
  unfold compactLogsWithTrailing
  dsimp only
  split
  · exact .refl r
  · split
    · exact .refl r
    · split
      · exact .refl r
      · exact (SameControl.setLogs r _).toSameThreads

theorem sameThreads_restored (r : Raft) (req : InstallSnapshotRequest)
    (configuration : Configuration) (index : Nat) (env : Env) :
    SameThreads r (r.restored req configuration index env) := by
  have hcompact (r₁ : Raft) (h₁ : SameThreads r r₁) (i j k : Nat) :
      SameThreads r (r₁.compactLogsWithTrailing i j k env) :=
    h₁.trans (sameThreads_compactLogsWithTrailing r₁ i j k env)
  unfold restored
  dsimp only
  split
  · unfold removeOldLogs
    refine hcompact _ ?_ _ _ _
    exact ⟨rfl, rfl, rfl, rfl, rfl, rfl, rfl⟩
  · unfold compactLogs
    refine hcompact _ ?_ _ _ _
    exact ⟨rfl, rfl, rfl, rfl, rfl, rfl, rfl⟩

theorem sameThreads_receiveSnapshot (r : Raft) (req : InstallSnapshotRequest) (env : Env) :
    SameThreads r (r.receiveSnapshot req env).1 := by
  unfold receiveSnapshot
  split
  · split
    · exact (SameControl.setDown r true).toSameThreads
    · exact .refl r
  · rename_i configuration index _
    split
    · exact .refl r
    · dsimp only
      split
      · exact ⟨rfl, rfl, rfl, rfl, rfl, rfl, rfl⟩
      · have hrestored (r₁ : Raft) (h₁ : SameThreads r r₁) :
            SameThreads r { r₁.restored req configuration index env with lastContact := env.now } :=
          (h₁.trans (sameThreads_restored r₁ req configuration index env)).trans
            ⟨rfl, rfl, rfl, rfl, rfl, rfl, rfl⟩
        exact hrestored _ ⟨rfl, rfl, rfl, rfl, rfl, rfl, rfl⟩

/-- What `appendEntries` does after it has noted the leader. -/
theorem sameControl_appendEntries (r : Raft) (a : AppendEntriesRequest) (env : Env)
    (h : r.currentTerm ≤ a.term) : SameControl (r.followLeader a env) (r.appendEntries a env).1 := by
  unfold appendEntries
  dsimp only
  rw [if_neg (Nat.not_lt.mpr h)]
  split
  · exact .refl _
  · split
    · exact .refl _
    · have hstore := sameControl_storeEntries (r.followLeader a env) a.entries env
      split
      · rename_i r' hs
        rw [hs] at hstore
        exact hstore
      · rename_i r' hs
        rw [hs] at hstore
        exact hstore
      · rename_i r' hs
        rw [hs] at hstore
        exact (hstore.trans (sameControl_followCommit r' a.leaderCommitIndex)).trans
          ⟨⟨rfl, rfl, rfl, rfl, rfl, rfl, rfl⟩, rfl, rfl, rfl, rfl, rfl⟩

theorem appendEntries_stale {a : AppendEntriesRequest} (h : a.term < r.currentTerm)
    (env : Env) : (r.appendEntries a env).1 = r ∧ (r.appendEntries a env).2.2 = [] := by
  simp [appendEntries, h]

/-- All `appendEntries` records is what it applies. -/
theorem appendEntries_events {a : AppendEntriesRequest} {e : Event}
    (h : e ∈ (r.appendEntries a env).2.2) : ∃ l, e = .applied l := by
  unfold appendEntries at h
  dsimp only at h
  split at h
  · simp at h
  · split at h
    · simp at h
    · split at h
      · simp at h
      · split at h
        · simp at h
        · simp at h
        · unfold followCommit at h
          split at h
          · simp only [Processed.events, List.mem_map] at h
            obtain ⟨t, _, rfl⟩ := h
            exact ⟨t.log, rfl⟩
          · simp at h

/-- The work of a leader on its log leaves the term and the vote alone. -/
structure SameTerm (r r' : Raft) : Prop where
  conf : r'.conf = r.conf
  stable : r'.stable = r.stable
  currentTerm : r'.currentTerm = r.currentTerm

theorem SameTerm.refl (r : Raft) : SameTerm r r := ⟨rfl, rfl, rfl⟩

theorem SameTerm.trans (h : SameTerm r r') (h' : SameTerm r' r'') : SameTerm r r'' where
  conf := h'.conf.trans h.conf
  stable := h'.stable.trans h.stable
  currentTerm := h'.currentTerm.trans h.currentTerm

theorem SameThreads.sameTerm (h : SameThreads r r') : SameTerm r r' :=
  ⟨h.conf, h.stable, h.currentTerm⟩

theorem timeoutNow_eq (r : Raft) :
    r.timeoutNow =
      { r with
        leaderAddr := [], leaderID := [], state := .candidate
        candidateFromLeadershipTransfer := true } := rfl

/-- The server that has won its election. -/
theorem won_eq (r : Raft) (addr : ServerAddress) (id : ServerID) :
    ((r.setState .leader).setLeader addr id).leaveCandidate =
      { r with
        leaderAddr := addr, leaderID := id, state := .leader, main := .run
        candidateFromLeadershipTransfer := false } := rfl

theorem sameTerm_dispatchLogs (r : Raft) (futures : List LogFuture) (env : Env) :
    SameTerm r (r.dispatchLogs futures env).1 := by
  unfold dispatchLogs
  dsimp only
  split <;> exact ⟨rfl, rfl, rfl⟩

theorem sameTerm_enterLeader (r : Raft) : SameTerm r r.enterLeader :=
  ⟨rfl, rfl, rfl⟩

theorem sameTerm_appendConfigurationEntry (r : Raft) (req : ConfigurationChangeRequest)
    (future : Nat) (env : Env) : SameTerm r (r.appendConfigurationEntry req future env).1 := by
  unfold appendConfigurationEntry
  split
  · exact .refl r
  · rename_i configuration _
    have hdispatch := sameTerm_dispatchLogs r [⟨future, r.configurationEntry configuration⟩] env
    cases h : r.dispatchLogs [⟨future, r.configurationEntry configuration⟩] env with
    | mk r' events =>
      rw [h] at hdispatch
      exact hdispatch.trans ⟨rfl, rfl, rfl⟩

theorem processLogs_eq (r : Raft) (index : Nat) (futures : List LogFuture) :
    (r.processLogs index futures).1 =
      { r with
        lastApplied := (r.processLogs index futures).1.lastApplied
        down := (r.processLogs index futures).1.down } := by
  unfold processLogs
  split
  · rfl
  · dsimp only
    split <;> rfl

theorem processGroup_eq (r : Raft) (group : List LogFuture) :
    (r.processGroup group).1 =
      { r with
        lastApplied := (r.processGroup group).1.lastApplied
        down := (r.processGroup group).1.down } := by
  unfold processGroup
  split
  · rfl
  · exact processLogs_eq _ _ _

theorem finishCommit_keeps (r : Raft) (stepDown : Bool) :
    (r.finishCommit stepDown).down = r.down ∧
      (r.finishCommit stepDown).lastApplied = r.lastApplied := by
  cases stepDown <;> exact ⟨rfl, rfl⟩

/-- The `commitCh` case takes over the commit index and the futures that are ready;
the stores, the term and the last entry stay. -/
theorem leaderCommit_frame (r : Raft) (ls : LeaderState) (stepDown : Bool) :
    (r.leaderCommit ls stepDown).1 =
      { r with
        commitIndex := ls.commitment.commitIndex
        configurations := (r.setLeaderCommit ls.commitment.commitIndex).1.configurations
        leaderships := r.leaderships.modifyHead (fun head =>
          { head with
            commitment := { head.commitment with commitCh := false }
            inflight := head.inflight.drop (groupReady ls ls.commitment.commitIndex).length })
        lastApplied := (r.leaderCommit ls stepDown).1.lastApplied
        state := (r.leaderCommit ls stepDown).1.state
        leaderAddr := (r.leaderCommit ls stepDown).1.leaderAddr
        leaderID := (r.leaderCommit ls stepDown).1.leaderID
        main := (r.leaderCommit ls stepDown).1.main
        down := (r.leaderCommit ls stepDown).1.down } := by
  have hset : (r.setLeaderCommit ls.commitment.commitIndex).1 =
      { r with
        commitIndex := ls.commitment.commitIndex
        configurations := (r.setLeaderCommit ls.commitment.commitIndex).1.configurations } := by
    unfold setLeaderCommit
    dsimp only
    split <;> rfl
  have hfinish (r₁ : Raft) (b : Bool) : r₁.finishCommit b =
      { r₁ with
        state := (r₁.finishCommit b).state
        leaderAddr := (r₁.finishCommit b).leaderAddr
        leaderID := (r₁.finishCommit b).leaderID
        main := (r₁.finishCommit b).main } := by
    cases b <;> rfl
  unfold leaderCommit
  dsimp only
  rw [hfinish, processGroup_eq, hset]
  rfl

theorem sameTerm_leaderCommit (r : Raft) (ls : LeaderState) (stepDown : Bool) :
    SameTerm r (r.leaderCommit ls stepDown).1 := by
  rw [leaderCommit_frame]
  exact ⟨rfl, rfl, rfl⟩

theorem sameTerm_leaveLeader (r : Raft) (env : Env) : SameTerm r (r.leaveLeader env) := by
  unfold leaveLeader
  dsimp only
  split <;> exact ⟨rfl, rfl, rfl⟩

theorem sameTerm_loopTest {r r' : Raft} (h : r.loopTest env = some r') :
    SameTerm r r' := by
  unfold loopTest at h
  split at h
  · simp only [Option.some.injEq] at h
    exact h ▸ ⟨rfl, rfl, rfl⟩
  · simp only [Option.some.injEq] at h
    rw [← h]
    split <;> exact ⟨rfl, rfl, rfl⟩
  · simp only [Option.some.injEq] at h
    rw [← h]
    split
    · exact ⟨rfl, rfl, rfl⟩
    · exact sameTerm_leaveLeader r env
  · exact absurd h (by simp)

theorem sameTerm_heartbeatTimer (r : Raft) : SameTerm r r.heartbeatTimer := by
  unfold heartbeatTimer
  dsimp only
  split
  · exact ⟨rfl, rfl, rfl⟩
  · split
    · exact ⟨rfl, rfl, rfl⟩
    · split <;> exact ⟨rfl, rfl, rfl⟩

theorem sameTerm_replicate {r r' : Raft} {k j : Nat} {input : ReplicationInput}
    {sends : List (Server × Command)} (h : r.replicate k j input = some (r', sends)) :
    SameTerm r r' := by
  unfold replicate at h
  simp only [Option.bind_eq_bind, Option.bind_eq_some_iff, Option.some.injEq, Prod.mk.injEq] at h
  obtain ⟨ls, _, s, _, ⟨s', matched, _⟩, _, hr', _⟩ := h
  exact hr' ▸ ⟨rfl, rfl, rfl⟩

/-- How `runFollower`, `runCandidate` and `runLeader` begin, and the no-op of a leader. -/
inductive EnterStep (r : Raft) (env : Env) : Outcome → Prop where
  | follower (hmain : r.main = .call .follower) :
      EnterStep r env { raft := { r with main := .follower false } }
  | ask (hmain : r.main = .call .candidate)
      (hpre : r.conf.preVoteDisabled = false ∧ r.candidateFromLeadershipTransfer = false)
      (locals : Candidacy)
      (hlocals : locals = { term := r.currentTerm + 1
                            prevoteCh := some (r.preVoteRequest, r.configurations.latest.voters)
                            votesNeeded := r.configurations.latest.quorumSize })
      (sends : List (Server × Command))
      (hsends : ∀ send ∈ sends, send.2 = .requestPreVote r.preVoteRequest) :
      EnterStep r env { raft := { r with main := .candidate locals false }, sends := sends }
  | elect (hmain : r.main = .call .candidate) (locals : Candidacy)
      (hlocals : locals = { term := r.currentTerm + 1
                            voteCh := (r.electSelf env).2.1
                            votesNeeded := (r.electSelf env).1.configurations.latest.quorumSize }) :
      EnterStep r env { raft := { (r.electSelf env).1 with main := .candidate locals false }
                        sends := (r.electSelf env).2.2.1, events := (r.electSelf env).2.2.2 }
  | leader (hmain : r.main = .call .leader) : EnterStep r env { raft := r.enterLeader }
  | noop (hmain : r.main = .noop) : EnterStep r env (r.dispatchNoop env)

theorem enterStep {o : Outcome} (h : r.enter env = some o) :
    EnterStep r env o := by
  unfold enter at h
  split at h
  · rename_i hmain
    cases h
    exact .follower hmain
  · rename_i hmain
    cases h
    unfold enterCandidate
    split
    · rename_i hpre
      refine .ask hmain hpre _ rfl _ (fun send hsend => ?_)
      obtain ⟨server, -, rfl⟩ := List.mem_map.mp hsend
      rfl
    · exact .elect hmain _ rfl
  · rename_i hmain
    cases h
    exact .leader hmain
  · rename_i hmain
    cases h
    exact .noop hmain
  · cases h

/-- What `runCandidate` does with a pre-vote. -/
inductive PreVoteStep (r : Raft) (c : Candidacy) (voter : Server) (result : PreVoteResult)
    (env : Env) : Outcome → Prop where
  | follow (req : RequestPreVoteRequest) (pending : List Server)
      (hch : c.prevoteCh = some (req, pending))
      (hlt : c.term < (r.preVoteAnswer req voter result).1) :
      PreVoteStep r c voter result env
        { raft := ((r.setState .follower).setCurrentTerm (r.preVoteAnswer req voter result).1
            env.writes).leaveCandidate }
  | elect (req : RequestPreVoteRequest) (pending : List Server)
      (hch : c.prevoteCh = some (req, pending)) (hmem : voter ∈ pending) (c' : Candidacy)
      (hc' : c' = c.countPreVote req (pending.erase voter) (r.preVoteAnswer req voter result).2)
      (hwon : c'.votesNeeded ≤ c'.preVoteGrantedVotes) :
      PreVoteStep r c voter result env
        { raft := { (r.electSelf env).1 with
                    main := .candidate { c' with
                                         prevoteCh := none, voteCh := (r.electSelf env).2.1
                                         preVoteGrantedVotes := 0, preVoteRefusedVotes := 0 } false }
          sends := (r.electSelf env).2.2.1, events := (r.electSelf env).2.2.2 }
  | count (req : RequestPreVoteRequest) (pending : List Server)
      (hch : c.prevoteCh = some (req, pending)) (hmem : voter ∈ pending) :
      PreVoteStep r c voter result env
        { raft := { r with main := .candidate (c.countPreVote req (pending.erase voter)
            (r.preVoteAnswer req voter result).2) false } }

theorem preVoteStep {c : Candidacy} {voter : Server} {result : PreVoteResult}
    {o : Outcome} (h : r.preVote c voter result env = some o) : PreVoteStep r c voter result env o := by
  unfold preVote at h
  split at h
  · cases h
  · rename_i req pending hch
    split at h
    · rename_i hmem
      dsimp only at h
      split at h
      · rename_i hlt
        cases h
        exact .follow req pending hch hlt
      · split at h
        · rename_i hwon
          cases h
          exact .elect req pending hch hmem _ rfl hwon
        · cases h
          exact .count req pending hch hmem
    · cases h

/-- What `runCandidate` does with a vote. -/
inductive VoteStep (r : Raft) (c : Candidacy) (voter : Server) (result : CallResult RequestVoteResponse)
    (env : Env) : Outcome → Prop where
  | follow (ch : VoteChannel) (hlt : r.currentTerm < (r.voteAnswer ch.req voter result).1) :
      VoteStep r c voter result env
        { raft := ((r.setState .follower).setCurrentTerm (r.voteAnswer ch.req voter result).1
            env.writes).leaveCandidate }
  | win (ch : VoteChannel) (hch : c.voteCh = some ch) (hmem : voter ∈ ch.pending)
      (hterm : (r.voteAnswer ch.req voter result).1 ≤ r.currentTerm) (c' : Candidacy)
      (hc' : c' = c.countVote ch voter (r.voteAnswer ch.req voter result).2)
      (hwon : c'.votesNeeded ≤ c'.grantedVotes) :
      VoteStep r c voter result env
        { raft := ((r.setState .leader).setLeader r.localAddr r.localID).leaveCandidate
          events := [.becameLeader r.currentTerm ch.req c'.votes r.configurations.latest r.logs] }
  | count (ch : VoteChannel) (hch : c.voteCh = some ch) (hmem : voter ∈ ch.pending) :
      VoteStep r c voter result env
        { raft := { r with main := .candidate (c.countVote ch voter
            (r.voteAnswer ch.req voter result).2) false } }

theorem voteStep {c : Candidacy} {voter : Server} {result : CallResult RequestVoteResponse}
    {o : Outcome} (h : r.vote c voter result env = some o) :
    VoteStep r c voter result env o := by
  unfold vote at h
  split at h
  · cases h
  · rename_i ch hch
    split at h
    · rename_i hmem
      dsimp only at h
      split at h
      · rename_i hlt
        cases h
        exact .follow ch hlt
      · rename_i hterm
        split at h
        · rename_i hwon
          cases h
          exact .win ch hch hmem (Nat.not_lt.mp hterm) _ rfl hwon
        · cases h
          exact .count ch hch hmem
    · cases h

end PerfRaft.Raft
