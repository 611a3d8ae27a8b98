import PerfRaft.Proofs.Steps

namespace PerfRaft.Raft

variable {r r' r'' : Raft} {env : Env} {o : Outcome} {ws : List Write}

/-- The log, the snapshots, what is known of them, and the configurations are the
same. -/
structure SameData (r r' : Raft) : Prop where
  logs : r'.logs = r.logs
  snapshots : r'.snapshots = r.snapshots
  commitIndex : r'.commitIndex = r.commitIndex
  lastApplied : r'.lastApplied = r.lastApplied
  lastLogIndex : r'.lastLogIndex = r.lastLogIndex
  lastLogTerm : r'.lastLogTerm = r.lastLogTerm
  lastSnapshotIndex : r'.lastSnapshotIndex = r.lastSnapshotIndex
  lastSnapshotTerm : r'.lastSnapshotTerm = r.lastSnapshotTerm
  configurations : r'.configurations = r.configurations

theorem SameData.refl (r : Raft) : SameData r r :=
  ⟨rfl, rfl, rfl, rfl, rfl, rfl, rfl, rfl, rfl⟩

theorem SameData.symm (h : SameData r r') : SameData r' r :=
  ⟨h.logs.symm, h.snapshots.symm, h.commitIndex.symm, h.lastApplied.symm, h.lastLogIndex.symm,
    h.lastLogTerm.symm, h.lastSnapshotIndex.symm, h.lastSnapshotTerm.symm, h.configurations.symm⟩

theorem SameData.trans (h : SameData r r') (h' : SameData r' r'') : SameData r r'' where
  logs := h'.logs.trans h.logs
  snapshots := h'.snapshots.trans h.snapshots
  commitIndex := h'.commitIndex.trans h.commitIndex
  lastApplied := h'.lastApplied.trans h.lastApplied
  lastLogIndex := h'.lastLogIndex.trans h.lastLogIndex
  lastLogTerm := h'.lastLogTerm.trans h.lastLogTerm
  lastSnapshotIndex := h'.lastSnapshotIndex.trans h.lastSnapshotIndex
  lastSnapshotTerm := h'.lastSnapshotTerm.trans h.lastSnapshotTerm
  configurations := h'.configurations.trans h.configurations

theorem SameButStable.sameData (h : SameButStable r r') : SameData r r' := by
  rw [h]
  exact ⟨rfl, rfl, rfl, rfl, rfl, rfl, rfl, rfl, rfl⟩

theorem sameData_setState (r : Raft) (s : RaftState) : SameData r (r.setState s) :=
  ⟨rfl, rfl, rfl, rfl, rfl, rfl, rfl, rfl, rfl⟩

theorem sameData_timeoutNow (r : Raft) : SameData r r.timeoutNow := by
  rw [timeoutNow_eq]
  exact ⟨rfl, rfl, rfl, rfl, rfl, rfl, rfl, rfl, rfl⟩

theorem sameData_nextTerm (r : Raft) : SameData r r.nextTerm :=
  ⟨rfl, rfl, rfl, rfl, rfl, rfl, rfl, rfl, rfl⟩

theorem sameData_follow (r : Raft) (s : RaftState) (t : Nat) (ws : List Write) :
    SameData r ((r.setState s).setCurrentTerm t ws) := by
  rcases setCurrentTerm_cases (r.setState s) t ws with h | ⟨_, hsame, _⟩
  · rw [h]
    exact ⟨rfl, rfl, rfl, rfl, rfl, rfl, rfl, rfl, rfl⟩
  · exact (sameData_setState r s).trans hsame.sameData

theorem sameData_followLeader (r : Raft) (a : AppendEntriesRequest) (env : Env) :
    SameData r (r.followLeader a env) := by
  unfold followLeader
  dsimp only
  split
  · have h := sameData_follow r .follower a.term env.writes
    split
    · exact h
    · exact h.trans ⟨rfl, rfl, rfl, rfl, rfl, rfl, rfl, rfl, rfl⟩
  · split
    · exact .refl r
    · exact ⟨rfl, rfl, rfl, rfl, rfl, rfl, rfl, rfl, rfl⟩

theorem sameData_followSnapshot (r : Raft) (req : InstallSnapshotRequest) (env : Env) :
    SameData r (r.followSnapshot req env) := by
  unfold followSnapshot
  dsimp only
  split
  · have h := sameData_follow r .follower req.term env.writes
    split
    · exact h
    · exact h.trans ⟨rfl, rfl, rfl, rfl, rfl, rfl, rfl, rfl, rfl⟩
  · split
    · exact .refl r
    · exact ⟨rfl, rfl, rfl, rfl, rfl, rfl, rfl, rfl, rfl⟩

theorem sameData_castVote (r : Raft) (req : RequestVoteRequest) (resp : RequestVoteResponse)
    (env : Env) (ws : List Write) : SameData r (r.castVote req resp env ws).1 := by
  unfold castVote
  split
  · split <;> exact .refl r
  · split
    · exact .refl r
    · split
      · rename_i r' hp
        exact (persistVote_cases hp).1.sameData
      · rename_i r' hp
        exact (persistVote_cases hp).1.sameData.trans ⟨rfl, rfl, rfl, rfl, rfl, rfl, rfl, rfl, rfl⟩

theorem sameData_requestVote (r : Raft) (req : RequestVoteRequest) (env : Env) :
    SameData r (r.requestVote req env).1 := by
  have hfollow := sameData_follow r .follower req.term env.writes
  obtain ⟨_, hr | ⟨-, -, hr⟩ | ⟨_, -, rfl, hr | ⟨-, hr⟩⟩, -⟩ := requestVote_cases r req env <;> rw [hr]
  · exact .refl r
  · exact sameData_castVote _ _ _ _ _
  · exact hfollow
  · exact hfollow.trans (sameData_castVote _ _ _ _ _)

theorem sameData_electSelf (hup : r.down = false) (env : Env) : SameData r (r.electSelf env).1 := by
  rcases electSelf_cases r env hup with ⟨r', hsame, _, _, he⟩ | ⟨r', _, _, _, _, hsame, he⟩
  · rw [he]
    exact hsame.sameData
  · rw [he]
    exact (sameData_nextTerm r).trans hsame.sameData

theorem SameData.setMain (h : SameData r r') (main : MainThread) :
    SameData r { r' with main := main } :=
  h.trans ⟨rfl, rfl, rfl, rfl, rfl, rfl, rfl, rfl, rfl⟩

theorem SameData.leaveCandidate (h : SameData r r') : SameData r r'.leaveCandidate :=
  h.trans ⟨rfl, rfl, rfl, rfl, rfl, rfl, rfl, rfl, rfl⟩

theorem sameData_preVote (hup : r.down = false) (h : r.preVote c voter result env = some o) :
    SameData r o.raft := by
  cases preVoteStep h with
  | follow => exact (sameData_follow r .follower _ _).leaveCandidate
  | elect => exact (sameData_electSelf hup env).setMain _
  | count => exact (SameData.refl r).setMain _

theorem sameData_vote (h : r.vote c voter result env = some o) : SameData r o.raft := by
  cases voteStep h with
  | follow => exact (sameData_follow r .follower _ _).leaveCandidate
  | win =>
    rw [won_eq]
    exact ⟨rfl, rfl, rfl, rfl, rfl, rfl, rfl, rfl, rfl⟩
  | count => exact (SameData.refl r).setMain _

theorem sameData_enter (hup : r.down = false) (h : r.enter env = some o) (hnoop : r.main ≠ .noop) :
    SameData r o.raft := by
  cases enterStep h with
  | follower => exact (SameData.refl r).setMain _
  | ask => exact (SameData.refl r).setMain _
  | elect => exact (sameData_electSelf hup env).setMain _
  | leader => exact ⟨rfl, rfl, rfl, rfl, rfl, rfl, rfl, rfl, rfl⟩
  | noop hmain => exact absurd hmain hnoop

theorem sameData_loopTest (h : r.loopTest env = some r') : SameData r r' := by
  unfold loopTest at h
  split at h
  · cases h
    exact (SameData.refl r).setMain _
  · cases h
    split
    · exact (SameData.refl r).setMain _
    · exact (SameData.refl r).leaveCandidate
  · cases h
    split
    · exact (SameData.refl r).setMain _
    · unfold leaveLeader
      dsimp only
      split <;> exact ⟨rfl, rfl, rfl, rfl, rfl, rfl, rfl, rfl, rfl⟩
  · simp at h

theorem sameData_heartbeatTimer (r : Raft) : SameData r r.heartbeatTimer := by
  unfold heartbeatTimer
  dsimp only
  split
  · exact ⟨rfl, rfl, rfl, rfl, rfl, rfl, rfl, rfl, rfl⟩
  · split
    · exact ⟨rfl, rfl, rfl, rfl, rfl, rfl, rfl, rfl, rfl⟩
    · split <;> exact ⟨rfl, rfl, rfl, rfl, rfl, rfl, rfl, rfl, rfl⟩

/-- The inputs that may change the log or what is known of it. -/
def writesData (r : Raft) : Input → Bool
  | .rpc (.appendEntries _) | .rpc (.installSnapshot _) | .heartbeat _ | .apply _
  | .configurationChange _ _ | .commit | .restart => true
  | .enter => decide (r.main = .noop)
  | _ => false

theorem sameData_stepUp (h : r.stepUp env input = some o) (hup : r.down = false)
    (hkeep : r.writesData input = false) : SameData r o.raft := by
  cases input with
  | rpc cmd =>
    obtain ⟨_, ho, _⟩ := stepUp_rpc h
    rw [ho]
    refine SameData.setMain ?_ _
    unfold processRPC
    split
    · exact .refl r
    · cases cmd with
      | appendEntries req => simp [writesData] at hkeep
      | requestVote req => exact sameData_requestVote r req env
      | requestPreVote req => exact .refl r
      | installSnapshot req => simp [writesData] at hkeep
      | timeoutNow req => exact sameData_timeoutNow r
  | heartbeat req => simp [writesData] at hkeep
  | run =>
    obtain ⟨_, rfl⟩ := stepUp_run h
    exact (SameData.refl r).setMain _
  | enter => exact sameData_enter hup h (by simpa [writesData] using hkeep)
  | loopTest =>
    obtain ⟨r', hr, rfl⟩ := stepUp_loopTest h
    exact sameData_loopTest hr
  | heartbeatTimer =>
    obtain ⟨_, rfl⟩ := stepUp_heartbeatTimer h
    exact sameData_heartbeatTimer r
  | preVote voter result =>
    obtain ⟨c, _, ho⟩ := stepUp_preVote h
    exact sameData_preVote hup ho
  | vote voter result =>
    obtain ⟨c, _, ho⟩ := stepUp_vote h
    exact sameData_vote ho
  | electionTimer =>
    obtain ⟨_, rfl⟩ := stepUp_electionTimer h
    exact (SameData.refl r).leaveCandidate
  | stepDown =>
    obtain ⟨_, _, rfl⟩ := stepUp_stepDown h
    exact ⟨rfl, rfl, rfl, rfl, rfl, rfl, rfl, rfl, rfl⟩
  | apply futures => simp [writesData] at hkeep
  | configurationChange req future => simp [writesData] at hkeep
  | commit => simp [writesData] at hkeep
  | replication k j input =>
    obtain ⟨r', sends, hr, rfl⟩ := stepUp_replication h
    rw [replicate_eq hr]
    exact ⟨rfl, rfl, rfl, rfl, rfl, rfl, rfl, rfl, rfl⟩
  | crash =>
    rw [stepUp_crash h]
    exact ⟨rfl, rfl, rfl, rfl, rfl, rfl, rfl, rfl, rfl⟩
  | restart => simp [writesData] at hkeep

end PerfRaft.Raft
