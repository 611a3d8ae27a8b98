import PerfRaft.Proofs.Commitments
import PerfRaft.Proofs.Reign
import PerfRaft.Proofs.Replicas

namespace PerfRaft

/-- The indexes that the call of a goroutine is about. -/
def ReplicationPC.calls : ReplicationPC → List Nat
  | .call _ _ _ req => req.entries.map Log.index
  | .snapshot _ _ _ req => [req.lastLogIndex]
  | _ => []

/-- The indexes that the calls of a goroutine and its pipeline are about. -/
def FollowerReplication.outstanding (s : FollowerReplication) : List Nat :=
  s.pc.calls ++ s.inflight.flatMap (fun p => p.2.entries.map Log.index)

namespace FollowerReplication

variable {s s' : FollowerReplication} {k : Nat}

theorem outstanding_settles (h : s.Settles s') (hk : k ∈ s'.outstanding) : k ∈ s.outstanding := by
  rcases List.mem_append.mp hk with hk | hk
  · refine List.mem_append_left _ ?_
    rcases h.pc with hrests | hpc
    · unfold Rests at hrests
      split at hrests <;> simp_all [ReplicationPC.calls]
    · exact hpc ▸ hk
  · obtain ⟨p, hp, hk⟩ := List.mem_flatMap.mp hk
    exact List.mem_append_right _ (List.mem_flatMap.mpr ⟨p, h.inflight p hp, hk⟩)

theorem matched_updateLastAppended {req : AppendEntriesRequest}
    (hk : k ∈ (s.updateLastAppended req).2) : k ∈ req.entries.map Log.index := by
  rw [(updateLastAppended_eq s req).2, Option.mem_map] at hk
  obtain ⟨e, he, rfl⟩ := hk
  exact List.mem_map_of_mem (List.mem_of_getLast? he)

theorem matched_appendReply {lastIndex : Nat} {final : Bool} {req : AppendEntriesRequest}
    {result : CallResult AppendEntriesResponse}
    (hk : k ∈ (s.appendReply lastIndex final req result).2) : k ∈ req.entries.map Log.index := by
  cases result with
  | failed => cases hk
  | response resp =>
    simp only [appendReply] at hk
    split at hk
    · cases hk
    · split at hk
      · exact matched_updateLastAppended hk
      · cases hk

theorem matched_snapshotReply {lastIndex : Nat} {final : Bool} {req : InstallSnapshotRequest}
    {result : CallResult InstallSnapshotResponse}
    (hk : k ∈ (s.snapshotReply lastIndex final req result).2) : k = req.lastLogIndex := by
  cases result with
  | failed => cases hk
  | response resp =>
    simp only [snapshotReply] at hk
    split at hk
    · cases hk
    · split at hk <;> cases hk
      rfl

theorem matched_pipelineDecode {req : AppendEntriesRequest}
    {rest : List (Server × AppendEntriesRequest)} {resp : AppendEntriesResponse}
    (hk : k ∈ (s.pipelineDecode req rest resp).2) : k ∈ req.entries.map Log.index := by
  unfold pipelineDecode at hk
  split at hk
  · cases hk
  · exact matched_updateLastAppended hk

end FollowerReplication

namespace Raft

variable {r r' : Raft} {env : Env} {o : Outcome} {input : Input}

/-- A goroutine calls about what is in the log or in the newest snapshot, and an index is
matched only after a call about it. -/
theorem replicationStep_outstanding {s s' : FollowerReplication} {input : ReplicationInput}
    {matched : Option Nat} {sends : List (Server × Command)}
    (hstep : r.replicationStep s input = some (s', matched, sends)) :
    (∀ k ∈ s'.outstanding, k ∈ s.outstanding ∨ (∃ e ∈ r.logs, e.index = k) ∨
        k = snapshotIndex r.snapshots) ∧
      ∀ k ∈ matched, k ∈ s.outstanding := by
  have hread {currentTerm nextIndex lastIndex : Nat} {req : AppendEntriesRequest}
      (hreq : r.setupAppendEntries currentTerm nextIndex lastIndex = some req) :
      ∀ k ∈ req.entries.map Log.index, ∃ e ∈ r.logs, e.index = k := by
    intro k hk
    obtain ⟨e, he, rfl⟩ := List.mem_map.mp hk
    exact ⟨e, setNewLogs_mem (setupAppendEntries_cases hreq).2.1 e he, rfl⟩
  have hsettles (h : s.Settles s') :
      ∀ k ∈ s'.outstanding, k ∈ s.outstanding ∨ (∃ e ∈ r.logs, e.index = k) ∨
        k = snapshotIndex r.snapshots :=
    fun k hk => .inl (FollowerReplication.outstanding_settles h hk)
  cases replicating hstep with
  | settle _ _ h => exact ⟨hsettles h, by simp⟩
  | pipelined => exact ⟨fun k hk => .inl (List.mem_append_right _ hk), by simp⟩
  | call _ _ req hreq =>
    refine ⟨?_, by simp⟩
    intro k hk
    rcases List.mem_append.mp hk with hk | hk
    · exact .inr (.inl (hread hreq k hk))
    · exact .inl (List.mem_append_right _ hk)
  | snapshot _ _ snapshot _ hsnapshots =>
    refine ⟨?_, by simp⟩
    intro k hk
    rcases List.mem_append.mp hk with hk | hk
    · right
      right
      rw [List.mem_singleton.mp hk, hsnapshots]
      rfl
    · exact .inl (List.mem_append_right _ hk)
  | pipeline _ _ _ _ req _ hreq =>
    refine ⟨?_, by simp⟩
    intro k hk
    simp only [FollowerReplication.outstanding, ReplicationPC.calls, List.nil_append,
      List.flatMap_append, List.mem_append, List.flatMap_singleton] at hk
    rcases hk with hk | hk
    · exact .inl (List.mem_append_right _ hk)
    · exact .inr (.inl (hread hreq k hk))
  | reply _ lastIndex final req hpc result =>
    refine ⟨hsettles (s.settles_appendReply lastIndex final req result), ?_⟩
    intro k hk
    refine List.mem_append_left _ ?_
    rw [hpc]
    exact FollowerReplication.matched_appendReply hk
  | snapshotReply _ lastIndex final req hpc result =>
    refine ⟨hsettles (s.settles_snapshotReply lastIndex final req result), ?_⟩
    intro k hk
    refine List.mem_append_left _ ?_
    rw [hpc, FollowerReplication.matched_snapshotReply hk]
    exact List.mem_singleton.mpr rfl
  | decode p req rest hinflight resp =>
    refine ⟨hsettles (FollowerReplication.settles_pipelineDecode hinflight resp), ?_⟩
    intro k hk
    refine List.mem_append_right _ (List.mem_flatMap.mpr ⟨(p, req), ?_, ?_⟩)
    · rw [hinflight]
      exact List.mem_cons_self
    · exact FollowerReplication.matched_pipelineDecode hk
  | heartbeat => exact ⟨fun k hk => .inl hk, by simp⟩

end Raft

/-- The commitment of a leader whose last index is `n` and whose commit index is `m`:
nothing above the last index counts, and what is announced is above the commit index. -/
structure Commitment.Bounded (n m : Nat) (c : Commitment) : Prop where
  matched : ∀ p ∈ c.matchIndexes, p.2 ≤ n
  commit : c.commitIndex ≤ n
  notified : c.commitCh = true → c.startIndex ≤ c.commitIndex
  next : m < c.startIndex ∨ m ≤ c.commitIndex

namespace Commitment

variable {n n' m k : Nat} {c : Commitment}

theorem quorumMatchIndex_le (h : ∀ p ∈ c.matchIndexes, p.2 ≤ n) : c.quorumMatchIndex ≤ n := by
  unfold quorumMatchIndex
  dsimp only
  rw [List.getD_eq_getElem?_getD]
  cases hget : ((c.matchIndexes.map Prod.snd).insertionSort (· ≤ ·))[
      (((c.matchIndexes.map Prod.snd).insertionSort (· ≤ ·)).length - 1) / 2]? with
  | none => exact Nat.zero_le n
  | some v =>
    have hv := List.mem_of_getElem? hget
    rw [List.mem_insertionSort, List.mem_map] at hv
    obtain ⟨p, hp, rfl⟩ := hv
    exact h p hp

theorem Bounded.recalculate (h : c.Bounded n m) : c.recalculate.Bounded n m := by
  unfold Commitment.recalculate
  split
  · exact h
  split
  · rename_i hmore
    refine ⟨h.matched, quorumMatchIndex_le h.matched, fun _ => hmore.2, ?_⟩
    exact h.next.imp_right (fun hle => hle.trans hmore.1.le)
  · exact h

theorem Bounded.matchServer (h : c.Bounded n m) (server : ServerID) (hk : k ≤ n) :
    (c.matchServer server k).Bounded n m := by
  unfold Commitment.matchServer
  split
  · exact h
  split
  · refine Bounded.recalculate ⟨?_, h.commit, h.notified, h.next⟩
    intro p hp
    obtain ⟨q, hq, rfl⟩ := List.mem_map.mp hp
    split
    · exact hk
    · exact h.matched q hq
  · exact h

theorem Bounded.setConfiguration (h : c.Bounded n m) (configuration : Configuration) :
    (c.setConfiguration configuration).Bounded n m := by
  refine Bounded.recalculate ⟨?_, h.commit, h.notified, h.next⟩
  intro p hp
  obtain ⟨id, -, rfl⟩ := List.mem_map.mp hp
  cases hlookup : c.matchIndex id with
  | none => exact Nat.zero_le n
  | some k => exact h.matched _ (mem_of_matchIndex hlookup)

theorem Bounded.mono (h : c.Bounded n m) (hn : n ≤ n') : c.Bounded n' m :=
  ⟨fun p hp => (h.matched p hp).trans hn, h.commit.trans hn, h.notified, h.next⟩

theorem bounded_newCommitment (configuration : Configuration) (hm : m ≤ n) :
    (newCommitment configuration (n + 1)).Bounded n m := by
  refine ⟨?_, Nat.zero_le n, by simp [newCommitment], .inl (Nat.lt_succ_of_le hm)⟩
  intro p hp
  obtain ⟨id, -, rfl⟩ := List.mem_map.mp hp
  exact Nat.zero_le n

end Commitment

namespace Raft

variable {r r' : Raft} {env : Env} {o : Outcome} {input : Input} {ls ls' : LeaderState}

/-- The leadership in which the main thread acts: its goroutines and its commitment know
nothing above the last index, and its futures are ready. -/
structure Heading (r : Raft) (ls : LeaderState) : Prop where
  commitment : ls.commitment.Bounded r.getLastIndex r.commitIndex
  calls : ∀ s ∈ ls.replState, ∀ k ∈ s.outstanding, k ≤ r.getLastIndex
  ready : Ready r ls.inflight
  last : ∀ f ∈ ls.inflight, f.log.index ≤ r.getLastIndex

/-- The leadership set up last is in order as long as the main thread acts in it. -/
def Headed (r : Raft) : Prop := r.heads = true → ∀ ls ∈ r.leaderships.head?, Heading r ls

/-- The log loses nothing that has not been applied. -/
theorem Heading.congr (h : Heading r ls) (hlast : r.getLastIndex ≤ r'.getLastIndex)
    (hcommit : r'.commitIndex = r.commitIndex) (happlied : r'.lastApplied = r.lastApplied)
    (hlogs : ∀ i, r.lastApplied < i → r'.logs.getLog i = r.logs.getLog i) : Heading r' ls where
  commitment := by
    rw [hcommit]
    exact h.commitment.mono hlast
  calls := fun s hs k hk => (h.calls s hs k hk).trans hlast
  ready := by
    refine ⟨h.ready.sorted, ?_, ?_⟩
    · rw [happlied]
      exact h.ready.above
    · intro f hf
      rw [hlogs _ (h.ready.above f hf)]
      exact h.ready.stored f hf
  last := fun f hf => (h.last f hf).trans hlast

theorem getLastIndex_sameData (h : SameData r r') : r'.getLastIndex = r.getLastIndex := by
  unfold getLastIndex
  rw [h.lastLogIndex, h.lastSnapshotIndex]

theorem Heading.sameData (h : Heading r ls) (hs : SameData r r') : Heading r' ls :=
  h.congr (getLastIndex_sameData hs).ge hs.commitIndex hs.lastApplied (fun i _ => by rw [hs.logs])

/-- The main thread is inside `runLeader`, with its leadership set up. -/
def insideLeader : MainThread → Bool
  | .noop | .leader _ _ => true
  | _ => false

theorem insideLeader_of_heads (h : r.heads = true) : insideLeader r.main = true := by
  unfold heads at h
  split at h <;> simp_all [insideLeader]

theorem outside_preVote {c : Candidacy} {voter : Server} {result : PreVoteResult}
    (h : r.preVote c voter result env = some o) : insideLeader o.raft.main = false := by
  cases preVoteStep h <;> rfl

theorem outside_vote {c : Candidacy} {voter : Server} {result : CallResult RequestVoteResponse}
    (h : r.vote c voter result env = some o) : insideLeader o.raft.main = false := by
  cases voteStep h <;> rfl

theorem outside_heartbeatTimer (r : Raft) : insideLeader r.heartbeatTimer.main = false := by
  unfold heartbeatTimer
  dsimp only
  split
  · rfl
  split
  · rfl
  split <;> rfl

/-- A step leaves the main thread in a leadership only if it was there before, or has
just set it up. -/
theorem heads_back (h : r.stepUp env input = some o) (hheads : o.raft.heads = true) :
    r.heads = true ∨ (r.main = .call .leader ∧ o.raft = r.enterLeader) := by
  have hnever (hmain : insideLeader o.raft.main = false) : False := by
    simp [insideLeader_of_heads hheads] at hmain
  cases input with
  | rpc cmd =>
    obtain ⟨hsel, ho, -⟩ := stepUp_rpc h
    have hmain : o.raft.main = r.main.again := by rw [ho, (rpcEffect_processRPC r cmd env).main]
    cases hr : r.main with
    | leader stepDown tested =>
      simp only [hr, MainThread.selecting] at hsel
      exact .inl (by simp [heads, hr, hsel])
    | follower _ | candidate _ _ => exact (hnever (by rw [hmain, hr]; rfl)).elim
    | run | call _ | noop => simp [hr, MainThread.selecting] at hsel
  | heartbeat req =>
    obtain ⟨-, ho, -⟩ := stepUp_heartbeat h
    have heffect := (rpcEffect_appendEntries r req env).1
    rw [ho] at hheads
    left
    unfold heads at hheads ⊢
    rw [heffect.main] at hheads
    split at hheads
    · rfl
    · rfl
    · simpa using heffect.leader (by simpa using hheads)
    · cases hheads
  | run =>
    obtain ⟨-, rfl⟩ := stepUp_run h
    simp [heads] at hheads
  | enter =>
    cases enterStep h with
    | leader hmain => exact .inr ⟨hmain, rfl⟩
    | noop hmain => exact .inl (by simp [heads, hmain])
    | _ => exact (hnever rfl).elim
  | loopTest =>
    obtain ⟨r', hr, rfl⟩ := stepUp_loopTest h
    unfold loopTest at hr
    split at hr
    · cases hr
      split at hheads <;> simp [heads] at hheads
    · cases hr
      split at hheads <;> simp [heads, leaveCandidate] at hheads
    · rename_i stepDown hmain
      cases hr
      split at hheads
      · rename_i hstate
        exact .inl (by simp [heads, hmain, hstate])
      · simp [heads, (leaveLeader_control r env).2] at hheads
    · simp at hr
  | heartbeatTimer =>
    obtain ⟨hfollower, rfl⟩ := stepUp_heartbeatTimer h
    exact (hnever (outside_heartbeatTimer r)).elim
  | preVote voter result =>
    obtain ⟨c, -, ho⟩ := stepUp_preVote h
    exact (hnever (outside_preVote ho)).elim
  | vote voter result =>
    obtain ⟨c, -, ho⟩ := stepUp_vote h
    exact (hnever (outside_vote ho)).elim
  | electionTimer =>
    obtain ⟨-, rfl⟩ := stepUp_electionTimer h
    simp [heads, leaveCandidate] at hheads
  | stepDown =>
    obtain ⟨_, hmain, rfl⟩ := stepUp_stepDown h
    exact .inl (by simp [heads, hmain])
  | apply futures =>
    obtain ⟨stepDown, hmain, -⟩ := stepUp_apply h
    exact .inl (by simp [heads, hmain])
  | configurationChange req future =>
    obtain ⟨stepDown, hmain, -⟩ := stepUp_configurationChange h
    exact .inl (by simp [heads, hmain])
  | commit =>
    obtain ⟨stepDown, ls, _, hmain, -⟩ := stepUp_commit h
    exact .inl (by simp [heads, hmain])
  | replication k j input =>
    obtain ⟨r', sends, hr, rfl⟩ := stepUp_replication h
    left
    rw [replicate_eq hr] at hheads
    exact hheads
  | crash =>
    rw [stepUp_crash h] at hheads
    exact .inl hheads
  | restart => exact absurd h stepUp_restart

/-- A new goroutine has no calls, and the others keep theirs. -/
theorem outstanding_startStopReplication {repl : List FollowerReplication} {n : Nat}
    (h : ∀ s ∈ repl, ∀ k ∈ s.outstanding, k ≤ n) :
    ∀ s ∈ (r.configurations.latest.servers.foldl r.startReplication repl).map r.stopReplication,
      ∀ k ∈ s.outstanding, k ≤ n := by
  have hstart : ∀ (servers : List Server) (repl : List FollowerReplication),
      (∀ s ∈ repl, ∀ k ∈ s.outstanding, k ≤ n) →
      ∀ s ∈ servers.foldl r.startReplication repl, ∀ k ∈ s.outstanding, k ≤ n := by
    intro servers
    induction servers with
    | nil => exact fun _ hrepl => hrepl
    | cons server rest ih =>
      intro repl hrepl
      refine ih _ ?_
      intro s hs
      unfold startReplication at hs
      split at hs
      · exact hrepl s hs
      split at hs
      · obtain ⟨old, hold, rfl⟩ := List.mem_map.mp hs
        split
        · exact hrepl old hold
        · exact hrepl old hold
      · rcases List.mem_append.mp hs with hs | hs
        · exact hrepl s hs
        · rw [List.mem_singleton.mp hs]
          simp [FollowerReplication.outstanding, ReplicationPC.calls]
  intro s hs
  obtain ⟨old, hold, rfl⟩ := List.mem_map.mp hs
  unfold stopReplication
  split <;> exact hstart _ repl h old hold

theorem heading_startStopReplication (h : ∀ ls ∈ r.leaderships.head?, Heading r ls) :
    ∀ ls ∈ r.startStopReplication.leaderships.head?, Heading r.startStopReplication ls := by
  intro ls' hls'
  simp only [Raft.startStopReplication, modifyLeaderState, List.head?_modifyHead,
    Option.mem_def, Option.map_eq_some_iff] at hls'
  obtain ⟨ls, hls, rfl⟩ := hls'
  have hold := h ls hls
  have hcalls := outstanding_startStopReplication (r := r) hold.calls
  exact ⟨hold.commitment, hcalls, ⟨hold.ready.sorted, hold.ready.above, hold.ready.stored⟩, hold.last⟩

/-- A leadership that has just been set up. -/
theorem heading_enterLeader (hcommit : r.commitIndex ≤ r.getLastIndex) :
    ∀ ls ∈ r.enterLeader.leaderships.head?, Heading r.enterLeader ls := by
  have hfresh : Heading r.setupLeaderState
      { term := r.currentTerm
        commitment := newCommitment r.configurations.latest (r.getLastIndex + 1) } :=
    ⟨Commitment.bounded_newCommitment _ hcommit, by simp, ⟨by simp, by simp, by simp⟩, by simp⟩
  intro ls hls
  have hhead : ∀ ls ∈ r.setupLeaderState.leaderships.head?, Heading r.setupLeaderState ls := by
    intro ls₁ hls₁
    cases hls₁
    exact hfresh
  exact (heading_startStopReplication hhead ls hls).congr (Nat.le_refl _) rfl rfl (fun _ _ => rfl)

theorem Headed.replicate {k j : Nat} {inp : ReplicationInput} {sends : List (Server × Command)}
    (h : Headed r) (hlogs : ∀ e ∈ r.logs, e.index ≤ r.getLastIndex)
    (hsnapshot : snapshotIndex r.snapshots ≤ r.getLastIndex)
    (hr : r.replicate k j inp = some (r', sends)) : Headed r' := by
  obtain ⟨ls, s, s', matched, hls, hs, hstep, rfl⟩ := replicate_cases hr
  intro hheads ls' hls'
  have hheads : r.heads = true := hheads
  cases hlist : r.leaderships with
  | nil => simp [hlist] at hls
  | cons head rest =>
    have hhead := h hheads head (by rw [hlist]; rfl)
    cases k with
    | succ k =>
      rw [hlist] at hls'
      cases hls'
      exact hhead.congr (Nat.le_refl _) rfl rfl (fun _ _ => rfl)
    | zero =>
      simp only [hlist, List.getElem?_cons_zero, Option.some.injEq] at hls
      rw [hlist] at hls'
      cases hls'
      subst hls
      obtain ⟨hcalls, hmatched⟩ := replicationStep_outstanding hstep
      have hold := hhead.calls s (List.mem_of_getElem? hs)
      refine ⟨?_, ?_, ⟨hhead.ready.sorted, hhead.ready.above, hhead.ready.stored⟩, hhead.last⟩
      · dsimp only
        split
        · exact hhead.commitment
        · rename_i index
          exact hhead.commitment.matchServer _ (hold index (hmatched index rfl))
      · intro s₁ hs₁ k hk
        rcases List.mem_or_eq_of_mem_set hs₁ with hs₁ | rfl
        · exact hhead.calls s₁ hs₁ k hk
        · rcases hcalls k hk with hk | ⟨e, he, rfl⟩ | rfl
          · exact hold k hk
          · exact hlogs e he
          · exact hsnapshot

theorem dispatchLogs_head (henv : env.storeLogs = true) (futures : List LogFuture) :
    (r.dispatchLogs futures env).1.leaderships.head? = r.leaderships.head?.map (fun ls =>
      { ls with
        inflight := ls.inflight ++ stampLogs r.currentTerm env.now r.getLastIndex futures
        commitment := ls.commitment.matchServer r.localID (r.getLastIndex + futures.length) }) := by
  simp only [dispatchLogs, henv, Bool.true_eq_false, if_false, modifyLeaderState, setLastLog,
    List.head?_modifyHead, Option.map_map]
  rfl

theorem heading_dispatchLogs (h : ∀ ls ∈ r.leaderships.head?, Heading r ls)
    (henv : env.storeLogs = true) (happlied : r.lastApplied ≤ r.getLastIndex)
    (futures : List LogFuture) :
    ∀ ls ∈ (r.dispatchLogs futures env).1.leaderships.head?,
      Heading (r.dispatchLogs futures env).1 ls := by
  have hd := dispatches_dispatchLogs (r := r) henv futures
  intro ls' hls'
  rw [dispatchLogs_head henv futures] at hls'
  obtain ⟨ls, hls, rfl⟩ := Option.map_eq_some_iff.mp hls'
  have h := h ls hls
  have hlast : (r.dispatchLogs futures env).1.getLastIndex = r.getLastIndex + futures.length := by
    rw [((queues_dispatchLogs hls futures).stored henv).2.2, stampLogs_length]
  constructor
  case commitment =>
    rw [hlast, hd.commitIndex]
    exact (h.commitment.mono (Nat.le_add_right _ _)).matchServer _ (Nat.le_refl _)
  case calls =>
    intro s hs k hk
    rw [hlast]
    exact (h.calls s hs k hk).trans (Nat.le_add_right _ _)
  case ready => exact h.ready.dispatch happlied h.last hd.lastApplied hd.logs
  case last =>
    intro f hf
    rw [hlast]
    rcases List.mem_append.mp hf with hf | hf
    · exact (h.last f hf).trans (Nat.le_add_right _ _)
    · exact ((sorted_stampLogs _ _ _ _).2 f hf).2

theorem heading_appendConfigurationEntry (h : ∀ ls ∈ r.leaderships.head?, Heading r ls)
    (henv : env.storeLogs = true) (happlied : r.lastApplied ≤ r.getLastIndex)
    (req : ConfigurationChangeRequest) (future : Nat) :
    ∀ ls ∈ (r.appendConfigurationEntry req future env).1.leaderships.head?,
      Heading (r.appendConfigurationEntry req future env).1 ls := by
  unfold Raft.appendConfigurationEntry
  split
  · exact h
  · rename_i configuration _
    have hnew := heading_dispatchLogs h henv happlied [⟨future, r.configurationEntry configuration⟩]
    generalize r.dispatchLogs [⟨future, r.configurationEntry configuration⟩] env = dispatched
      at hnew ⊢
    dsimp only
    apply heading_startStopReplication
    intro ls₁ hls₁
    simp only [modifyLeaderState, setLatestConfiguration, List.head?_modifyHead, Option.mem_def,
      Option.map_eq_some_iff] at hls₁
    obtain ⟨ls, hls, rfl⟩ := hls₁
    have hold := hnew ls hls
    exact ⟨hold.commitment.setConfiguration configuration, hold.calls,
      ⟨hold.ready.sorted, hold.ready.above, hold.ready.stored⟩, hold.last⟩

/-- A leader has come out of `runCandidate`, which takes back the flag of a leadership
transfer. -/
def Unflagged (r : Raft) : Prop := r.state = .leader → r.candidateFromLeadershipTransfer = false

theorem Unflagged.same (h : Unflagged r) (hstate : r'.state = .leader → r.state = .leader)
    (hflag : r'.candidateFromLeadershipTransfer = r.candidateFromLeadershipTransfer) : Unflagged r' :=
  fun hleader => hflag.trans (h (hstate hleader))

theorem Unflagged.appendEntries (h : Unflagged r) (a : AppendEntriesRequest) (env : Env) :
    Unflagged (r.appendEntries a env).1 := by
  intro hleader
  have hother : (r.appendEntries a env).1.state ≠ .follower := by
    rw [hleader]
    simp
  obtain ⟨hstate, hsame | ⟨hflag, -⟩⟩ := appendEntries_stays hother
  · rw [hsame] at hleader ⊢
    exact h hleader
  · rw [hstate] at hleader
    simp [h hleader] at hflag

theorem Unflagged.requestVote (h : Unflagged r) (req : RequestVoteRequest) (env : Env) :
    Unflagged (r.requestVote req env).1 := by
  have hcast {r₁ : Raft} {resp : RequestVoteResponse} {ws : List Write} (h₁ : Unflagged r₁) :
      Unflagged (r₁.castVote req resp env ws).1 := by
    have hsame := sameThreads_castVote r₁ req resp env ws
    exact h₁.same (fun hs => hsame.state ▸ hs) hsame.transfer
  have hfollow : Unflagged ((r.setState .follower).setCurrentTerm req.term env.writes) := by
    intro hleader
    rw [(setCurrentTerm_state _ _ _).1] at hleader
    cases hleader
  obtain ⟨_, hr | ⟨-, -, hr⟩ | ⟨_, -, rfl, hr | ⟨-, hr⟩⟩, -⟩ := requestVote_cases r req env <;> rw [hr]
  · exact h
  · exact hcast h
  · exact hfollow
  · exact hcast hfollow

theorem Unflagged.electSelf (h : Unflagged r) (hup : r.down = false) (env : Env) :
    Unflagged (r.electSelf env).1 := by
  rcases electSelf_cases r env hup with ⟨r', hsame, -, -, heq⟩ | ⟨r', ok, asked, events, -, hsame, heq⟩
  · rw [heq, hsame]
    exact h
  · rw [heq, hsame]
    exact h

theorem Unflagged.dispatchLogs (h : Unflagged r) (futures : List LogFuture) (env : Env) :
    Unflagged (r.dispatchLogs futures env).1 := by
  unfold Raft.dispatchLogs
  dsimp only
  split
  · intro hleader
    cases hleader
  · exact h

theorem Unflagged.appendConfigurationEntry (h : Unflagged r) (req : ConfigurationChangeRequest)
    (future : Nat) (env : Env) : Unflagged (r.appendConfigurationEntry req future env).1 := by
  unfold Raft.appendConfigurationEntry
  split
  · exact h
  · rename_i configuration _
    have hd := h.dispatchLogs [⟨future, r.configurationEntry configuration⟩] env
    generalize r.dispatchLogs [⟨future, r.configurationEntry configuration⟩] env = dispatched at hd ⊢
    exact hd

theorem Unflagged.leaderCommit (h : Unflagged r) (ls : LeaderState) (stepDown : Bool) :
    Unflagged (r.leaderCommit ls stepDown).1 := by
  refine h.same (leaderCommit_state r ls stepDown) ?_
  rw [leaderCommit_frame]

theorem Unflagged.preVote {c : Candidacy} {voter : Server} {result : PreVoteResult} (h : Unflagged r)
    (hup : r.down = false) (ho : r.preVote c voter result env = some o) : Unflagged o.raft := by
  cases preVoteStep ho with
  | follow => exact fun _ => rfl
  | elect => exact h.electSelf hup env
  | count => exact h

theorem Unflagged.vote {c : Candidacy} {voter : Server} {result : CallResult RequestVoteResponse}
    (h : Unflagged r) (ho : r.vote c voter result env = some o) : Unflagged o.raft := by
  cases voteStep ho with
  | follow => exact fun _ => rfl
  | win => exact fun _ => rfl
  | count => exact h

theorem Unflagged.installSnapshot (h : Unflagged r) (req : InstallSnapshotRequest) (env : Env) :
    Unflagged (r.installSnapshot req env).1 := by
  have hfollow : Unflagged (r.followSnapshot req env) := by
    unfold followSnapshot
    dsimp only
    by_cases hlt : r.currentTerm < req.term
    · have hfollower : ((r.setState .follower).setCurrentTerm req.term env.writes).state = .follower :=
        (setCurrentTerm_state _ _ _).1
      rw [if_pos hlt]
      intro hleader
      split at hleader
      · simp [hfollower] at hleader
      · have hleader : ((r.setState .follower).setCurrentTerm req.term env.writes).state = .leader :=
          hleader
        simp [hfollower] at hleader
    · rw [if_neg hlt]
      split <;> exact h
  have hsame := sameThreads_receiveSnapshot (r.followSnapshot req env) req env
  rcases installSnapshot_raft r req env with heq | heq | heq
  · rw [heq]
    exact h
  · rw [heq]
    exact hfollow
  · rw [heq]
    exact hfollow.same (fun hs => hsame.state ▸ hs) hsame.transfer

theorem Unflagged.stepUp (h : Unflagged r) (hup : r.down = false) (ho : r.stepUp env input = some o) :
    Unflagged o.raft := by
  cases input with
  | rpc cmd =>
    rw [(stepUp_rpc ho).2.1]
    unfold processRPC
    split
    · exact h
    cases cmd with
    | appendEntries a => exact h.appendEntries a env
    | requestVote req => exact h.requestVote req env
    | requestPreVote req => exact h
    | installSnapshot req => exact h.installSnapshot req env
    | timeoutNow req =>
      intro hleader
      cases hleader
  | heartbeat req =>
    rw [(stepUp_heartbeat ho).2.1]
    exact h.appendEntries req env
  | run =>
    obtain ⟨-, rfl⟩ := stepUp_run ho
    exact h
  | enter =>
    cases enterStep ho with
    | elect => exact h.electSelf hup env
    | noop => exact h.dispatchLogs _ env
    | _ => exact h
  | loopTest =>
    obtain ⟨r', hr, rfl⟩ := stepUp_loopTest ho
    unfold loopTest at hr
    split at hr
    · cases hr
      exact h
    · cases hr
      split
      · exact h
      · exact fun _ => rfl
    · cases hr
      split
      · exact h
      · rename_i hstate
        intro hleader
        rw [(leaveLeader_control r env).1] at hleader
        exact absurd hleader hstate
    · cases hr
  | heartbeatTimer =>
    obtain ⟨-, rfl⟩ := stepUp_heartbeatTimer ho
    unfold heartbeatTimer
    dsimp only
    split
    · exact h
    split
    · exact h
    split
    · intro hleader
      cases hleader
    · exact h
  | preVote voter result =>
    obtain ⟨c, -, ho⟩ := stepUp_preVote ho
    exact h.preVote hup ho
  | vote voter result =>
    obtain ⟨c, -, ho⟩ := stepUp_vote ho
    exact h.vote ho
  | electionTimer =>
    obtain ⟨-, rfl⟩ := stepUp_electionTimer ho
    exact fun _ => rfl
  | stepDown =>
    obtain ⟨_, hmain, rfl⟩ := stepUp_stepDown ho
    intro hleader
    cases hleader
  | apply futures =>
    obtain ⟨stepDown, -, -, rfl⟩ := stepUp_apply ho
    cases stepDown with
    | true => exact h
    | false => exact h.dispatchLogs futures env
  | configurationChange req future =>
    obtain ⟨stepDown, -, -, ho, -⟩ := stepUp_configurationChange ho
    rw [ho]
    exact h.appendConfigurationEntry req future env
  | commit =>
    obtain ⟨stepDown, ls, _, -, -, -, ho, -⟩ := stepUp_commit ho
    rw [ho]
    exact h.leaderCommit ls stepDown
  | replication k j input =>
    obtain ⟨r', sends, hr, rfl⟩ := stepUp_replication ho
    rw [replicate_eq hr]
    exact h
  | crash =>
    rw [stepUp_crash ho]
    exact h
  | restart => exact absurd ho stepUp_restart

/-- `processLogs` moves the last applied index up to the given one, or not at all. -/
theorem lastApplied_processLogs (r : Raft) (index : Nat) (futures : List LogFuture) :
    (r.processLogs index futures).1.lastApplied = r.lastApplied ∨
      (r.lastApplied < index ∧ (r.processLogs index futures).1.lastApplied = index) := by
  unfold processLogs
  split
  · exact .inl rfl
  · rename_i hlt
    dsimp only
    split
    · exact .inl rfl
    · exact .inr ⟨Nat.not_le.mp hlt, rfl⟩

theorem leaderCommit_applied (r : Raft) (ls : LeaderState) (stepDown : Bool) :
    (r.leaderCommit ls stepDown).1.commitIndex = ls.commitment.commitIndex ∧
      ((r.leaderCommit ls stepDown).1.lastApplied = r.lastApplied ∨
        ∃ f ∈ groupReady ls ls.commitment.commitIndex, r.lastApplied < f.log.index ∧
          (r.leaderCommit ls stepDown).1.lastApplied = f.log.index) := by
  refine ⟨by rw [leaderCommit_frame], ?_⟩
  have happlied : (r.takeGroup ls).lastApplied = r.lastApplied := (setLeaderCommit_fields r _).1
  have hfinish : (r.leaderCommit ls stepDown).1.lastApplied =
      ((r.takeGroup ls).processGroup (groupReady ls ls.commitment.commitIndex)).1.lastApplied :=
    (finishCommit_keeps _ _).2
  rw [hfinish, ← happlied]
  unfold processGroup
  split
  · exact .inl rfl
  · rename_i last hlast
    refine (lastApplied_processLogs _ last.log.index _).imp_right ?_
    exact fun hmoved => ⟨last, List.mem_of_getLast? hlast, hmoved⟩

theorem Heading.leaderCommit {rest : List LeaderState} (h : Heading r ls)
    (hls : r.leaderships = ls :: rest) (stepDown : Bool) :
    ∀ ls' ∈ (r.leaderCommit ls stepDown).1.leaderships.head?,
      Heading (r.leaderCommit ls stepDown).1 ls' := by
  obtain ⟨hcommit, happlied⟩ := leaderCommit_applied r ls stepDown
  have hstores := (advances_leaderCommit r ls stepDown).stores
  have hlast : (r.leaderCommit ls stepDown).1.getLastIndex = r.getLastIndex := by
    unfold getLastIndex
    rw [hstores.lastLogIndex, hstores.lastSnapshotIndex]
  intro ls' hls'
  rw [leaderships_leaderCommit, hls] at hls'
  cases hls'
  have hsplit : ls.inflight = groupReady ls ls.commitment.commitIndex ++
      ls.inflight.drop (groupReady ls ls.commitment.commitIndex).length :=
    (List.prefix_iff_eq_append.mp (List.takeWhile_prefix _)).symm
  have hsorted := h.ready.sorted
  rw [hsplit, List.pairwise_append] at hsorted
  constructor
  case commitment =>
    rw [hlast, hcommit]
    exact ⟨h.commitment.matched, h.commitment.commit, by simp, .inr (Nat.le_refl _)⟩
  case calls =>
    rw [hlast]
    exact h.calls
  case ready =>
    refine ⟨hsorted.2.1, ?_, ?_⟩
    · intro f hf
      rcases happlied with hsame | ⟨g, hg, -, hmoved⟩
      · rw [hsame]
        exact h.ready.above f (List.mem_of_mem_drop hf)
      · rw [hmoved]
        exact hsorted.2.2 g hg f hf
    · intro f hf
      rw [hstores.logs]
      exact h.ready.stored f (List.mem_of_mem_drop hf)
  case last =>
    rw [hlast]
    exact fun f hf => h.last f (List.mem_of_mem_drop hf)

/-- Nothing that the server knows of is above its last index. -/
structure BelowLast (r : Raft) : Prop where
  commit : r.commitIndex ≤ r.getLastIndex
  applied : r.lastApplied ≤ r.getLastIndex
  logs : ∀ e ∈ r.logs, e.index ≤ r.getLastIndex
  snapshot : snapshotIndex r.snapshots ≤ r.getLastIndex

theorem Headed.same (h : Headed r) (hheads : r'.heads = true → r.heads = true)
    (hdata : SameData r r') (hleaderships : r'.leaderships = r.leaderships) : Headed r' := by
  intro hh ls hls
  rw [hleaderships] at hls
  exact (h (hheads hh) ls hls).sameData hdata

/-- The main thread answers from its select. -/
theorem heads_again (hselecting : r.main.selecting = true)
    (h : ({ r with main := r.main.again } : Raft).heads = true) : r.heads = true := by
  unfold heads at h ⊢
  cases hmain : r.main with
  | leader stepDown tested => simp_all [MainThread.selecting]
  | noop => rfl
  | _ => simp [hmain, MainThread.again] at h

theorem Headed.compactLogs (h : Headed r) {index : Nat} (hindex : index ≤ r.lastApplied) (env : Env) :
    Headed (r.compactLogs index env) := by
  have hlogs : ∀ i, r.lastApplied < i → (r.compactLogs index env).logs.getLog i = r.logs.getLog i :=
    fun i hi => compactLogs_getLog r (Nat.lt_of_le_of_lt hindex hi)
  obtain ⟨logs, hcompacted⟩ : ∃ logs, r.compactLogs index env = { r with logs := logs } :=
    ⟨_, (compactLogs_frame r index env).1⟩
  rw [hcompacted] at hlogs ⊢
  intro hheads ls hls
  exact (h hheads ls hls).congr (Nat.le_refl _) rfl rfl hlogs

theorem Headed.setLastSnapshot (h : Headed r) {index : Nat} (hindex : r.lastSnapshotIndex ≤ index)
    (term : Nat) : Headed (r.setLastSnapshot index term) := by
  intro hheads ls hls
  refine (h hheads ls hls).congr ?_ rfl rfl (fun _ _ => rfl)
  show max r.lastLogIndex r.lastSnapshotIndex ≤ max r.lastLogIndex index
  omega

/-- A heartbeat beside the main thread touches neither the log nor the commit index. -/
theorem sameData_heartbeat {a : AppendEntriesRequest} (hbeat : a.isHeartbeat = true) (env : Env) :
    SameData r (r.appendEntries a env).1 := by
  simp only [AppendEntriesRequest.isHeartbeat, Bool.and_eq_true, decide_eq_true_eq,
    List.isEmpty_iff] at hbeat
  obtain ⟨⟨⟨-, -⟩, hentries⟩, hcommit⟩ := hbeat
  have hfollow := sameData_followLeader r a env
  unfold Raft.appendEntries
  dsimp only
  split
  · exact .refl r
  split
  · exact hfollow
  split
  · exact hfollow
  rw [hentries]
  simp only [storeEntries, newEntries, followCommit, hcommit, Nat.lt_irrefl, false_and, if_false]
  exact hfollow.trans ⟨rfl, rfl, rfl, rfl, rfl, rfl, rfl, rfl, rfl⟩

/-- What a step does to the leadership of a server that heads it afterwards. -/
inductive HeadStep (r : Raft) (env : Env) (r' : Raft) : Prop where
  | enter (h : r' = r.enterLeader)
  | keep (hdata : SameData r r') (hleaderships : r'.leaderships = r.leaderships)
  | dispatch (futures : List LogFuture) (main : MainThread)
      (h : r' = { (r.dispatchLogs futures env).1 with main := main })
  | configure (req : ConfigurationChangeRequest) (future : Nat) (main : MainThread)
      (h : r' = { (r.appendConfigurationEntry req future env).1 with main := main })
  | commit {ls : LeaderState} {rest : List LeaderState} (stepDown : Bool)
      (hls : r.leaderships = ls :: rest) (h : r' = (r.leaderCommit ls stepDown).1)
  | replicate {k j : Nat} {inp : ReplicationInput} {sends : List (Server × Command)}
      (h : r.replicate k j inp = some (r', sends))

/-- A request leaves a leader in office only if it changes nothing. -/
theorem headStep_appendEntries {a : AppendEntriesRequest} (hflag : Unflagged r)
    (ho : r.stepUp env (.rpc (.appendEntries a)) = some o) (hheads : o.raft.heads = true)
    (hraft : o.raft =
      { (r.appendEntries a env).1 with main := (r.appendEntries a env).1.main.again }) :
    HeadStep r env o.raft := by
  have hsel := (stepUp_rpc ho).1
  have hmain := (rpcEffect_appendEntries r a env).1.main
  have hleader : (r.appendEntries a env).1.state = .leader := by
    rw [hraft] at hheads
    unfold heads at hheads
    cases hr : r.main with
    | leader stepDown tested => simpa [hmain, hr, MainThread.again] using hheads
    | follower _ | candidate _ _ => simp [hmain, hr, MainThread.again] at hheads
    | run | call _ | noop => simp [hr, MainThread.selecting] at hsel
  have hother : (r.appendEntries a env).1.state ≠ .follower := by
    rw [hleader]
    simp
  obtain ⟨hstate, hsame | ⟨hflagged, -⟩⟩ := appendEntries_stays hother
  · rw [hraft, hsame]
    exact .keep ((SameData.refl r).setMain _) rfl
  · rw [hstate] at hleader
    simp [hflag hleader] at hflagged

theorem headStep_stepUp (hflag : Unflagged r) (hup : r.down = false)
    (hinstall : ∀ req, input ≠ .rpc (.installSnapshot req))
    (hbeat : ∀ a, input = .heartbeat a → a.isHeartbeat = true) (ho : r.stepUp env input = some o)
    (hheads : o.raft.heads = true) : HeadStep r env o.raft := by
  by_cases hheartbeat : ∃ a, input = .heartbeat a
  · obtain ⟨a, rfl⟩ := hheartbeat
    rw [(stepUp_heartbeat ho).2.1]
    exact .keep (sameData_heartbeat (hbeat a rfl) env) (rpcEffect_appendEntries r a env).1.leaderships
  cases effect_stepUp ho (fun a ha => hheartbeat ⟨a, ha⟩) hinstall with
  | restart hdown => simp [hup] at hdown
  | idle hdata _ hleaderships => exact .keep hdata hleaderships
  | requestVote req hinput hraft =>
    rw [hraft]
    exact .keep ((sameData_requestVote r req env).setMain _)
      (rpcEffect_requestVote r req env).leaderships
  | appendEntries req hinput hraft =>
    subst hinput
    refine headStep_appendEntries hflag ho hheads ?_
    rw [hraft, (rpcEffect_appendEntries r req env).1.main]
  | elect main hraft =>
    rw [hraft]
    exact .keep ((sameData_electSelf hup env).setMain main) (leaderships_electSelf hup env)
  | follow t hraft =>
    rw [hraft] at hheads
    simp [heads, leaveCandidate] at hheads
  | win locals ch votes _ _ _ hraft =>
    rw [hraft] at hheads
    simp [heads, leaveCandidate] at hheads
  | setup hmain hraft => exact .enter hraft
  | dispatch futures stepDown _ _ _ hraft => exact .dispatch futures _ hraft
  | configure req future configuration stepDown _ _ _ hraft => exact .configure req future _ hraft
  | commit ls₁ rest stepDown _ hleaderships hraft => exact .commit stepDown hleaderships hraft
  | leave stepDown _ hstate hraft =>
    rw [hraft] at hheads
    simp [heads, (leaveLeader_control r env).2] at hheads
  | replicate k j inp _ hstep => exact .replicate hstep

theorem Headed.stepUp (h : Headed r) (hflag : Unflagged r) (hlow : BelowLast r) (hup : r.down = false)
    (henv : env.storeLogs = true) (hinstall : ∀ req, input ≠ .rpc (.installSnapshot req))
    (hbeat : ∀ a, input = .heartbeat a → a.isHeartbeat = true) (ho : r.stepUp env input = some o) :
    Headed o.raft := by
  intro hheads
  rcases heads_back ho hheads with hback | ⟨-, hraft⟩
  case inr =>
    rw [hraft]
    exact heading_enterLeader hlow.commit
  have hhead := h hback
  cases headStep_stepUp hflag hup hinstall hbeat ho hheads with
  | enter hraft =>
    rw [hraft]
    exact heading_enterLeader hlow.commit
  | keep hdata hleaderships => exact h.same (fun _ => hback) hdata hleaderships hheads
  | dispatch futures main hraft =>
    rw [hraft]
    intro ls hls
    exact (heading_dispatchLogs hhead henv hlow.applied futures ls hls).sameData
      ((SameData.refl _).setMain _)
  | configure req future main hraft =>
    rw [hraft]
    intro ls hls
    exact (heading_appendConfigurationEntry hhead henv hlow.applied req future ls hls).sameData
      ((SameData.refl _).setMain _)
  | @commit ls rest stepDown hls hraft =>
    rw [hraft]
    exact (hhead ls (by rw [hls]; rfl)).leaderCommit hls stepDown
  | replicate hstep => exact h.replicate hlow.logs hlow.snapshot hstep hheads

end Raft

end PerfRaft
