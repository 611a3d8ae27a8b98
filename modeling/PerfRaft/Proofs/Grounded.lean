import PerfRaft.Proofs.Effects
import PerfRaft.Proofs.Headship
import PerfRaft.Proofs.Replicas

namespace PerfRaft

open Lib

variable {d : Deployment} {c : Cluster} {input : Input} {env : Env} {o : Outcome}

/-- The vote on disk was given. -/
def Recalled (s : ServerRun) : Prop :=
  ∀ b, s.raft.stable.lastVoteCand = some b → .voteGranted s.raft.stable.lastVoteTerm b ∈ s.history

/-- The vote of a store is the old one, or one that is given now. -/
def Recalls (stable stable' : StableStore) (events : List Event) : Prop :=
  ∀ b, stable'.lastVoteCand = some b →
    (stable.lastVoteCand = some b ∧ stable'.lastVoteTerm = stable.lastVoteTerm) ∨
      .voteGranted stable'.lastVoteTerm b ∈ events

theorem recalls_of_same {stable stable' : StableStore} {events : List Event}
    (hterm : stable'.lastVoteTerm = stable.lastVoteTerm)
    (hcand : stable'.lastVoteCand = stable.lastVoteCand) : Recalls stable stable' events :=
  fun _ hb => .inl ⟨hcand ▸ hb, hterm⟩

theorem recalls_vote {stable stable' : StableStore} {events : List Event} {T : Nat} {b : Bytes}
    (hmem : .voteGranted T b ∈ events) : Recalls stable (stable'.vote T b) events := by
  intro b' hb'
  simp only [StableStore.vote] at hb'
  split at hb'
  · simp at hb'
  · cases hb'
    exact .inr hmem

namespace Raft

variable {r : Raft}

theorem recalls_followLeader (r : Raft) (req : AppendEntriesRequest) (henv : env.writes = []) :
    Recalls r.stable (r.followLeader req env).stable [] := by
  unfold followLeader
  rw [henv, setCurrentTerm_nil]
  dsimp only
  split
  · split <;> exact recalls_of_same rfl rfl
  · split <;> exact recalls_of_same rfl rfl

theorem recalls_requestVote (r : Raft) (henv : env.writes = []) (req : RequestVoteRequest) :
    Recalls r.stable (r.requestVote req env).1.stable (r.requestVote req env).2.2 := by
  have hvotes := votes_requestVote r henv req
  generalize (r.requestVote req env).1 = r', (r.requestVote req env).2.2 = events at hvotes
  cases hvotes with
  | ignore => exact recalls_of_same rfl rfl
  | refuse hlt => exact recalls_of_same rfl rfl
  | again r₁ hterm hr₁ hvote hcand =>
    rcases hr₁ with rfl | ⟨_, rfl⟩
    · exact recalls_of_same rfl rfl
    · exact recalls_of_same rfl rfl
  | grant r₁ hterm hr₁ hnew hlog => exact recalls_vote (by simp)

theorem recalls_electSelf (hup : r.down = false) (henv : env.writes = []) :
    Recalls r.stable (r.electSelf env).1.stable (r.electSelf env).2.2.2 := by
  obtain ⟨r', asked, events, he, hall, hr'⟩ := electSelf_nil hup henv
  rw [he]
  rcases hr' with ⟨_, rfl⟩ | ⟨hne, rfl⟩
  · exact recalls_of_same rfl rfl
  · obtain ⟨e, hmem⟩ := List.exists_mem_of_ne_nil _ hne
    exact recalls_vote (hall e hmem ▸ hmem)

theorem recalls_effect (h : Effect r env input o) (hup : r.down = false) (henv : env.writes = []) :
    Recalls r.stable o.raft.stable o.events := by
  have hsame : SameTerm r o.raft → Recalls r.stable o.raft.stable o.events := fun hs =>
    recalls_of_same (by rw [hs.stable]) (by rw [hs.stable])
  cases h with
  | restart hdown hraft hevents hsends hsilent => simp [hup] at hdown
  | idle hdata hterm hleaderships hevents hsends hsilent => exact hsame hterm
  | requestVote req hinput hraft hevents hsends hsilent =>
    rw [hraft, hevents]
    exact recalls_requestVote _ henv req
  | appendEntries req hinput hraft hevents hsends hresponse =>
    rw [hraft, hevents]
    rcases Nat.lt_or_ge req.term r.currentTerm with hlt | hge
    · rw [(appendEntries_stale hlt env).1]
      exact recalls_of_same rfl rfl
    · intro b hb
      dsimp only at hb ⊢
      rw [(sameControl_appendEntries r req env hge).stable] at hb ⊢
      exact .inl ((recalls_followLeader r req henv b hb).resolve_right (by simp))
  | elect main hraft hevents hsends hsilent =>
    rw [hraft, hevents]
    exact recalls_electSelf hup henv
  | follow t hraft hevents hsends hsilent =>
    rw [hraft, henv, setCurrentTerm_nil]
    exact recalls_of_same rfl rfl
  | win locals ch votes hmain hch hpending hraft hevents hsends hsilent =>
    rw [hraft]
    exact recalls_of_same rfl rfl
  | setup hmain hraft hevents hsends hsilent => exact hsame (hraft ▸ sameTerm_enterLeader r)
  | dispatch futures stepDown hmain hne hdecodes hraft hevents hsends hsilent =>
    exact hsame (hraft ▸ (sameTerm_dispatchLogs r futures env).trans ⟨rfl, rfl, rfl⟩)
  | configure req future configuration stepDown hinput hmain hnext hraft hevents hsends hsilent =>
    exact hsame (hraft ▸ (sameTerm_appendConfigurationEntry r req future env).trans ⟨rfl, rfl, rfl⟩)
  | commit ls rest stepDown hmain hleaderships hraft hevents hsends hsilent =>
    exact hsame (hraft ▸ sameTerm_leaderCommit r ls stepDown)
  | leave stepDown hmain hstate hraft hevents hsends hsilent =>
    exact hsame (hraft ▸ sameTerm_leaveLeader r env)
  | replicate k j inp hinput hstep hevents hsilent => exact hsame (sameTerm_replicate hstep)

end Raft

theorem Recalled.step {s : ServerRun} (h : Recalled s) (henv : env.writes = [])
    (hmain : ∀ req, input ≠ .heartbeat req)
    (hsnapshot : ∀ req, input ≠ .rpc (.installSnapshot req))
    (ho : s.raft.step input env = some o) : Recalled ⟨o.raft, o.events ++ s.history⟩ := by
  have hrecalls : Recalls s.raft.stable o.raft.stable o.events := by
    cases hdown : s.raft.down with
    | true =>
      obtain ⟨_, r', hr, rfl⟩ := Raft.step_down ho hdown
      exact recalls_of_same (by rw [(Raft.started_newRaft hr).stable])
        (by rw [(Raft.started_newRaft hr).stable])
    | false =>
      exact Raft.recalls_effect (Raft.effect_stepUp (Raft.step_up ho hdown) hmain hsnapshot) hdown henv
  intro b hb
  rcases hrecalls b hb with ⟨hold, hterm⟩ | hnew
  · refine List.mem_append_right _ ?_
    dsimp only
    rw [hterm]
    exact h b hold
  · exact List.mem_append_left _ hnew

/-- What is known of a cluster without the protocol. -/
structure Grounded (d : Deployment) (c : Cluster) : Prop where
  conf : ∀ id, (c.nodes id).conf = d.conf id
  named : ∀ id, (c.nodes id).down = false → id ≠ []
  recorded : ∀ id, Recorded (c.view id)
  leading : ∀ id, Leading (c.view id)
  headship : ∀ id, Headship (c.view id)
  recalled : ∀ id, Recalled (c.view id)

theorem Grounded.localID (h : Grounded d c) (id : ServerID) : (c.nodes id).localID = id :=
  Deployment.localID_of_conf (h.conf id)

theorem Grounded.localAddr (h : Grounded d c) (id : ServerID) :
    (c.nodes id).localAddr = (d.conf id).localAddr :=
  Deployment.localAddr_of_conf (h.conf id)

/-- Every RPC goes to the main thread, no store fails, and there are no snapshots. -/
structure Action.Plain (a : Action) : Prop where
  onMainThread : a.OnMainThread
  faultless : a.env.Faultless
  noSnapshot : ∀ req, a.input ≠ .rpc (.installSnapshot req)

/-- Every RPC goes to the main thread, no store fails, there are no snapshots, and the
voters stay the same. -/
structure Deployment.Steady (d : Deployment) (c : Cluster) (a : Action) : Prop extends a.Plain where
  fixedVoters : d.FixedVoters c a

theorem Action.OnMainThread.unchallenged {a : Action} (h : a.OnMainThread) (r : Raft) :
    r.Unchallenged a.input := by
  intro hnewer
  unfold Input.newerHeartbeat at hnewer
  split at hnewer
  · rename_i req hinput
    exact absurd hinput (h req)
  · simp at hnewer

/-- What a step preserves for the server that takes it holds of every server after it. -/
theorem Cluster.view_record {P : ServerRun → Prop} {id : ServerID}
    (hself : P ⟨o.raft, o.events ++ (c.view id).history⟩) (hothers : ∀ id', P (c.view id'))
    (id' : ServerID) : P ((c.record id input o).view id') := by
  by_cases hid : id' = id
  · subst hid
    rw [view_record_self]
    exact hself
  · rw [view_record_ne _ _ _ hid]
    exact hothers id'

theorem Grounded.step (h : Grounded d c) {a : Action} (hok : a.Plain)
    (ho : (c.nodes a.node).step a.input a.env = some o) :
    Grounded d (c.record a.node a.input o) where
  conf := Cluster.record_nodes (P := fun id r => r.conf = d.conf id)
    ((Raft.conf_step ho).trans (h.conf a.node)) h.conf
  named := Cluster.record_nodes (P := fun id r => r.down = false → id ≠ [])
    (fun _ => d.named_step (h.conf _) (h.named _) ho) h.named
  recorded := by
    refine Cluster.view_record (P := Recorded) ?_ h.recorded
    refine (h.recorded a.node).step (a := (a.input, a.env)) (hok.onMainThread.calm true _) ?_
    have ho' : (c.view a.node).raft.step a.input a.env = some o := ho
    simp [serverSystem, ServerRun.step, ho']
  leading := Cluster.view_record (P := Leading)
    ((h.leading _).step (hok.onMainThread.unchallenged _) ho) h.leading
  headship := Cluster.view_record (P := Headship)
    ((h.headship _).step (h.leading _) hok.onMainThread ho) h.headship
  recalled := Cluster.view_record (P := Recalled)
    ((h.recalled _).step hok.faultless.1 hok.onMainThread hok.noSnapshot ho) h.recalled

theorem grounded_start (d : Deployment) : Grounded d d.start := by
  have hinit : ∀ id, serverSystem.init (d.start.view id) := by
    intro id
    simp only [serverSystem, Cluster.view, Deployment.start, Deployment.server, List.filterMap_nil]
    split
    · exact ⟨d.conf id, 1, [d.entry], [], rfl⟩
    · exact ⟨d.conf id, 0, [], [], rfl⟩
  have hnode : ∀ id, (d.start.nodes id).conf = d.conf id ∧ (d.start.nodes id).down = true := by
    intro id
    unfold Deployment.start Deployment.server
    dsimp only
    split <;> exact ⟨rfl, rfl⟩
  refine ⟨fun id => (hnode id).1, ?_, fun id => .init (hinit id), fun id => .init (hinit id),
    fun id => .init (hinit id), ?_⟩
  · intro id hup
    simp [(hnode id).2] at hup
  · intro id b hb
    obtain ⟨conf, currentTerm, logs, snapshots, heq⟩ := hinit id
    simp [heq] at hb

end PerfRaft
