import PerfRaft.Proofs.Stable

namespace PerfRaft

/-- The configurations after a configuration entry, which counts the one before it
as committed. -/
def Configurations.push (c : Configurations) (entry : Log) : Configurations :=
  match entry.configuration? with
  | none => c
  | some configuration =>
    { committed := c.latest, committedIndex := c.latestIndex
      latest := configuration, latestIndex := entry.index }

namespace Raft

/-- What a handler does to the control state: the threads stay where they are, a
newer term makes a follower, and nobody becomes leader. -/
structure RPCEffect (r r' : Raft) : Prop where
  conf : r'.conf = r.conf
  main : r'.main = r.main
  leaderships : r'.leaderships = r.leaderships
  term : r'.currentTerm = r.currentTerm ∨ (r.currentTerm < r'.currentTerm ∧ r'.state = .follower)
  leader : r'.state = .leader → r.state = .leader

theorem RPCEffect.refl (r : Raft) : RPCEffect r r :=
  ⟨rfl, rfl, rfl, .inl rfl, id⟩

theorem RPCEffect.sameThreads (h : RPCEffect r r') (h' : SameThreads r' r'') : RPCEffect r r'' where
  conf := h'.conf.trans h.conf
  main := h'.main.trans h.main
  leaderships := h'.leaderships.trans h.leaderships
  term := by rw [h'.currentTerm, h'.state]; exact h.term
  leader := by rw [h'.state]; exact h.leader

/-- Take over the term `t` as a follower. -/
theorem rpcEffect_follow (r : Raft) (ht : r.currentTerm ≤ t) (ws : List Write) :
    RPCEffect r ((r.setState .follower).setCurrentTerm t ws) ∧
      ((r.setState .follower).setCurrentTerm t ws).state = .follower := by
  rcases setCurrentTerm_cases (r.setState .follower) t ws with h | ⟨_, hsame, _⟩
  · rw [h]
    refine ⟨⟨rfl, rfl, rfl, ?_, fun hl => absurd hl (by simp [setState])⟩, rfl⟩
    rcases Nat.lt_or_ge r.currentTerm t with hlt | hge
    · exact .inr ⟨hlt, rfl⟩
    · exact .inl (by simp only; omega)
  · rw [hsame]
    exact ⟨⟨rfl, rfl, rfl, .inl rfl, fun hl => absurd hl (by simp [setState])⟩, rfl⟩

/-- The state after `followLeader` is the old one or follower. -/
theorem rpcEffect_followLeader (r : Raft) (a : AppendEntriesRequest) (env : Env)
    (h : r.currentTerm ≤ a.term) :
    RPCEffect r (r.followLeader a env) ∧
      ((r.followLeader a env).state = r.state ∨ (r.followLeader a env).state = .follower) := by
  unfold followLeader
  dsimp only
  split
  · obtain ⟨heffect, hstate⟩ := rpcEffect_follow r h env.writes
    split
    · exact ⟨heffect, .inr hstate⟩
    · exact ⟨heffect.sameThreads ⟨rfl, rfl, rfl, rfl, rfl, rfl, rfl⟩, .inr hstate⟩
  · split
    · exact ⟨.refl r, .inl rfl⟩
    · exact ⟨(RPCEffect.refl r).sameThreads ⟨rfl, rfl, rfl, rfl, rfl, rfl, rfl⟩, .inl rfl⟩

theorem rpcEffect_appendEntries (r : Raft) (a : AppendEntriesRequest) (env : Env) :
    RPCEffect r (r.appendEntries a env).1 ∧
      ((r.appendEntries a env).1.state = r.state ∨ (r.appendEntries a env).1.state = .follower) := by
  rcases Nat.lt_or_ge a.term r.currentTerm with hlt | hge
  · rw [(appendEntries_stale hlt env).1]
    exact ⟨.refl r, .inl rfl⟩
  · obtain ⟨heffect, hstate⟩ := rpcEffect_followLeader r a env hge
    have hsame := (sameControl_appendEntries r a env hge).toSameThreads
    refine ⟨heffect.sameThreads hsame, ?_⟩
    rw [hsame.state]
    exact hstate

theorem appendEntries_term (r : Raft) (a : AppendEntriesRequest) (env : Env) :
    (r.appendEntries a env).1.currentTerm = r.currentTerm ∨
      (r.appendEntries a env).1.currentTerm = a.term := by
  rcases Nat.lt_or_ge a.term r.currentTerm with hlt | hge
  · rw [(appendEntries_stale hlt env).1]
    exact .inl rfl
  · rw [(sameControl_appendEntries r a env hge).currentTerm]
    unfold followLeader
    dsimp only
    split
    · rcases setCurrentTerm_cases (r.setState .follower) a.term env.writes with h | ⟨hdown, hsame, _⟩
      · rw [h]
        split <;> exact .inr rfl
      · rw [if_pos hdown, hsame]
        exact .inl rfl
    · split <;> exact .inl rfl

/-- `castVote` touches the store, besides the time of contact. -/
theorem sameThreads_castVote (r : Raft) (req : RequestVoteRequest) (resp : RequestVoteResponse)
    (env : Env) (ws : List Write) :
    SameThreads { r with stable := (r.castVote req resp env ws).1.stable }
      (r.castVote req resp env ws).1 := by
  unfold castVote
  split
  · split <;> exact .refl r
  · split
    · exact .refl r
    · split
      · rename_i r' hp
        obtain ⟨hsame, _⟩ := persistVote_cases hp
        rw [hsame]
        exact ⟨rfl, rfl, rfl, rfl, rfl, rfl, rfl⟩
      · rename_i r' hp
        obtain ⟨hsame, _⟩ := persistVote_cases hp
        rw [hsame]
        exact ⟨rfl, rfl, rfl, rfl, rfl, rfl, rfl⟩

theorem RPCEffect.castVote (h : RPCEffect r r') :
    RPCEffect r (r'.castVote req resp env ws).1 := by
  have hsame := sameThreads_castVote r' req resp env ws
  have h' : RPCEffect r { r' with stable := (r'.castVote req resp env ws).1.stable } :=
    ⟨h.conf, h.main, h.leaderships, h.term, h.leader⟩
  exact h'.sameThreads hsame

theorem rpcEffect_requestVote (r : Raft) (req : RequestVoteRequest) (env : Env) :
    RPCEffect r (r.requestVote req env).1 := by
  obtain ⟨_, hr | ⟨-, -, hr⟩ | ⟨_, hlt, rfl, hr | ⟨-, hr⟩⟩, -⟩ := requestVote_cases r req env <;> rw [hr]
  · exact .refl r
  · exact (RPCEffect.refl r).castVote
  · exact (rpcEffect_follow r hlt.le env.writes).1
  · exact (rpcEffect_follow r hlt.le env.writes).1.castVote

theorem rpcEffect_followSnapshot (r : Raft) (req : InstallSnapshotRequest) (env : Env) :
    RPCEffect r (r.followSnapshot req env) := by
  unfold followSnapshot
  dsimp only
  split
  · rename_i hlt
    have hfollow := (rpcEffect_follow r hlt.le env.writes).1
    split
    · exact hfollow
    · exact hfollow.sameThreads ⟨rfl, rfl, rfl, rfl, rfl, rfl, rfl⟩
  · split
    · exact .refl r
    · exact (RPCEffect.refl r).sameThreads ⟨rfl, rfl, rfl, rfl, rfl, rfl, rfl⟩

theorem rpcEffect_installSnapshot (r : Raft) (req : InstallSnapshotRequest) (env : Env) :
    RPCEffect r (r.installSnapshot req env).1 := by
  unfold installSnapshot
  split
  · exact .refl r
  split
  · exact .refl r
  have hhead := rpcEffect_followSnapshot r req env
  have hsnap := sameThreads_receiveSnapshot (r.followSnapshot req env) req env
  dsimp only
  split
  · exact hhead
  · split
    · rename_i r' hr
      rw [hr] at hsnap
      exact hhead.sameThreads hsnap
    · rename_i r' hr
      rw [hr] at hsnap
      exact hhead.sameThreads hsnap

theorem rpcEffect_processRPC (r : Raft) (cmd : Command) (env : Env) :
    RPCEffect r (r.processRPC cmd env).1 := by
  unfold processRPC
  split
  · exact .refl r
  · cases cmd with
    | appendEntries req => exact (rpcEffect_appendEntries r req env).1
    | requestVote req => exact rpcEffect_requestVote r req env
    | requestPreVote req => exact .refl r
    | installSnapshot req => exact rpcEffect_installSnapshot r req env
    | timeoutNow req =>
      dsimp only
      rw [timeoutNow_eq]
      exact ⟨rfl, rfl, rfl, .inl rfl, fun hl => by simp at hl⟩

/-- The loop of `electSelf` touches the store only. -/
theorem sameButStable_askVoters (r : Raft) (req : RequestVoteRequest) (ws : List Write)
    (servers : List Server) : SameButStable r (r.askVoters req ws servers).1 := by
  induction servers generalizing r ws with
  | nil => exact .refl r
  | cons server rest ih =>
    unfold askVoters
    split
    · exact ih r ws
    · split
      · split
        · rename_i r' hp
          exact (persistVote_cases hp).1
        · rename_i r' hp
          exact (persistVote_cases hp).1.trans (ih r' (ws.drop 2))
      · exact ih r ws

/-- The server that `electSelf` has moved to the next term. -/
def nextTerm (r : Raft) : Raft :=
  { r with
    stable := { r.stable with currentTerm := r.currentTerm + 1 }
    currentTerm := r.currentTerm + 1 }

/-- `electSelf` dies with the write of the term, or asks the voters of the latest
configuration with a request of the new term. -/
theorem electSelf_cases (r : Raft) (env : Env) (hup : r.down = false) :
    (∃ r', SameButStable r r' ∧ r'.down = true ∧
        (r'.stable = r.stable ∨ r'.stable = { r.stable with currentTerm := r.currentTerm + 1 }) ∧
        r.electSelf env = (r', none, [], [])) ∨
      (∃ r' ok asked events,
        r.nextTerm.askVoters r.nextTerm.voteRequest env.writes.tail r.configurations.latest.servers =
            (r', ok, asked, events) ∧
          SameButStable r.nextTerm r' ∧
          r.electSelf env = (r',
            if ok then some ⟨r.nextTerm.voteRequest, r.configurations.latest.voters⟩ else none,
            asked.map (fun server => (server, .requestVote r.nextTerm.voteRequest)), events)) := by
  rcases setCurrentTerm_cases r (r.currentTerm + 1) env.writes with h | ⟨hdown, hsame, hstable⟩
  · right
    have hask := sameButStable_askVoters r.nextTerm r.nextTerm.voteRequest env.writes.tail
      r.configurations.latest.servers
    cases ha : r.nextTerm.askVoters r.nextTerm.voteRequest env.writes.tail
        r.configurations.latest.servers with
    | mk r' rest =>
      obtain ⟨ok, asked, events⟩ := rest
      rw [ha] at hask
      refine ⟨r', ok, asked, events, rfl, hask, ?_⟩
      have hnext : r.setCurrentTerm (r.currentTerm + 1) env.writes = r.nextTerm := h
      have hconf : r'.configurations = r.configurations := hask.configurations
      have hdown : r.nextTerm.down = false := hup
      have hlatest : r.nextTerm.configurations = r.configurations := rfl
      simp only [electSelf, hnext, hdown, hlatest, ha, hconf, Bool.false_eq_true, if_false]
  · left
    exact ⟨_, hsame, hdown, hstable, by simp [electSelf, hdown]⟩

/-- A replication goroutine changes the state of its leadership only. -/
theorem replicate_eq {r r' : Raft} {k j : Nat} {input : ReplicationInput}
    {sends : List (Server × Command)} (h : r.replicate k j input = some (r', sends)) :
    r' = { r with leaderships := r'.leaderships } := by
  unfold replicate at h
  simp only [Option.bind_eq_bind, Option.bind_eq_some_iff, Option.some.injEq, Prod.mk.injEq] at h
  obtain ⟨ls, _, s, _, ⟨s', matched, _⟩, _, hr', _⟩ := h
  rw [← hr']

theorem leaveLeader_control (r : Raft) (env : Env) :
    (r.leaveLeader env).state = r.state ∧ (r.leaveLeader env).main = .run := by
  unfold leaveLeader
  dsimp only
  split <;> exact ⟨rfl, rfl⟩

theorem finishCommit_main (r : Raft) (stepDown : Bool) :
    (r.finishCommit stepDown).main = .leader stepDown false := by
  cases stepDown <;> rfl

theorem leaderCommit_main (r : Raft) (ls : LeaderState) (stepDown : Bool) :
    ∃ stepDown' tested, (r.leaderCommit ls stepDown).1.main = .leader stepDown' tested := by
  unfold leaderCommit
  exact ⟨_, _, finishCommit_main _ _⟩

theorem processConfigurationLogEntry_push {r r' : Raft} {entry : Log}
    (h : r.processConfigurationLogEntry entry = (r', true)) :
    r' = { r with configurations := r.configurations.push entry } := by
  unfold processConfigurationLogEntry at h
  unfold Configurations.push Log.configuration?
  dsimp only at h
  cases htype : entry.type with
  | logConfiguration =>
    simp only [htype] at h ⊢
    cases hdata : decodeConfiguration entry.data with
    | none => simp [hdata] at h
    | some c =>
      simp only [hdata, Prod.mk.injEq, and_true] at h
      exact h.symm
  | logAddPeerDeprecated | logRemovePeerDeprecated =>
    simp only [htype] at h ⊢
    cases hdata : decodePeers entry.data with
    | none => simp [hdata] at h
    | some c =>
      simp only [hdata, Prod.mk.injEq, and_true] at h
      exact h.symm
  | logCommand | logNoop | logBarrier =>
    simp only [htype, Prod.mk.injEq, and_true] at h
    exact h.symm

theorem scanConfigurations_push {r r' : Raft} {indexes : List Nat}
    (h : r.scanConfigurations indexes = some r') :
    r' = { r with
      configurations := (indexes.filterMap r.logs.getLog).foldl Configurations.push r.configurations } := by
  induction indexes generalizing r with
  | nil =>
    cases h
    rfl
  | cons index rest ih =>
    unfold scanConfigurations at h
    split at h
    · cases h
    · rename_i entry hget
      rw [List.filterMap_cons_some hget]
      split at h
      · cases h
      · rename_i r₁ hp
        rw [ih h, processConfigurationLogEntry_push hp]
        rfl

/-- A started server: its stores, the term on disk, and a main thread about to
enter the follower loop. -/
structure Started (conf' : Config) (stable' : StableStore) (logs' : LogStore)
    (snapshots' : List Snapshot) (r : Raft) : Prop where
  valid : validateConfig conf' = true
  conf : r.conf = conf'
  stable : r.stable = stable'
  logs : r.logs = logs'
  snapshots : r.snapshots = snapshots'
  currentTerm : r.currentTerm = stable'.currentTerm
  commitIndex : r.commitIndex = 0
  lastLogIndex : r.lastLogIndex = logs'.lastIndex
  lastLogTerm : lastTermOf logs' = some r.lastLogTerm
  state : r.state = .follower
  main : r.main = .run
  transfer : r.candidateFromLeadershipTransfer = false
  leaderships : r.leaderships = []
  up : r.down = false

section

variable {conf : Config} {stable : StableStore} {logs : LogStore} {snapshots : List Snapshot}
  {env : Env} {r : Raft}

/-- `NewRaft` restores the newest snapshot and scans the entries after it. -/
theorem newRaft_some (h : newRaft conf stable logs snapshots env = some r) :
    validateConfig conf = true ∧ ∃ lastLogTerm r₁, lastTermOf logs = some lastLogTerm ∧
      restoreSnapshot
        { conf := conf, stable := stable, logs := logs, snapshots := snapshots
          currentTerm := stable.currentTerm, lastLogIndex := logs.lastIndex
          lastLogTerm := lastLogTerm } env = some r₁ ∧
      r₁.scanConfigurations
        (List.range' (r₁.lastSnapshotIndex + 1) (logs.lastIndex - r₁.lastSnapshotIndex)) = some r := by
  unfold newRaft at h
  split at h
  · simp at h
  rename_i hvalid
  split at h
  · simp at h
  split at h
  · simp at h
  split at h
  · simp at h
  rename_i term hterm
  dsimp only at h
  split at h
  · simp at h
  rename_i r₁ hr₁
  exact ⟨by simpa using hvalid, term, r₁, hterm, hr₁, h⟩

theorem started_newRaft (h : newRaft conf stable logs snapshots env = some r) :
    Started conf stable logs snapshots r := by
  obtain ⟨hvalid, term, r₁, hterm, hr₁, hscan⟩ := newRaft_some h
  rw [scanConfigurations_push hscan]
  unfold restoreSnapshot at hr₁
  split at hr₁
  · simp only [Option.some.injEq] at hr₁
    rw [← hr₁]
    exact ⟨hvalid, rfl, rfl, rfl, rfl, rfl, rfl, rfl, hterm, rfl, rfl, rfl, rfl, rfl⟩
  · split at hr₁
    · simp at hr₁
    · simp only [Option.some.injEq] at hr₁
      rw [← hr₁]
      exact ⟨hvalid, rfl, rfl, rfl, rfl, rfl, rfl, rfl, hterm, rfl, rfl, rfl, rfl, rfl⟩

end

end Raft

end PerfRaft
