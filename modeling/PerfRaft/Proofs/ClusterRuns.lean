import PerfRaft.Proofs.Configured
import PerfRaft.Proofs.Replication
import PerfRaft.Cluster

namespace PerfRaft

open Lib

namespace Cluster

variable {c c' : Cluster} {a : Action} {o : Outcome}

/-- A step of the cluster is a step of one server that the network allows. -/
theorem step_cases (h : c.step a = some c') :
    ∃ o, c.deliverable (c.nodes a.node) a.input = true ∧
      (c.nodes a.node).step a.input a.env = some o ∧ c' = c.record a.node a.input o := by
  unfold step at h
  split at h
  · rename_i hdeliver
    simp only [Option.map_eq_some_iff] at h
    obtain ⟨o, ho, hc⟩ := h
    exact ⟨o, hdeliver, ho, hc.symm⟩
  · simp at h

theorem record_nodes_self (c : Cluster) (id : ServerID) (input : Input) (o : Outcome) :
    (c.record id input o).nodes id = o.raft := by
  simp [record]

theorem record_nodes_ne (c : Cluster) (input : Input) (o : Outcome) {id id' : ServerID}
    (h : id' ≠ id) : (c.record id input o).nodes id' = c.nodes id' := by
  simp [record, h]

/-- To prove something of every server after a step, prove it of the one that took
the step. -/
theorem record_nodes {P : ServerID → Raft → Prop} {id : ServerID} {input : Input}
    (hself : P id o.raft) (hothers : ∀ id', P id' (c.nodes id')) (id' : ServerID) :
    P id' ((c.record id input o).nodes id') := by
  by_cases hid : id' = id
  · subst hid
    rw [record_nodes_self]
    exact hself
  · rw [record_nodes_ne _ _ _ hid]
    exact hothers id'

theorem mem_record_history {id id' : ServerID} {input : Input} {e : Event} :
    (id', e) ∈ (c.record id input o).history ↔
      (id' = id ∧ e ∈ o.events) ∨ (id', e) ∈ c.history := by
  simp only [record, List.mem_append, List.mem_map, Prod.mk.injEq]
  constructor
  · rintro (⟨e', hmem, rfl, rfl⟩ | hmem)
    · exact .inl ⟨rfl, hmem⟩
    · exact .inr hmem
  · rintro (⟨rfl, hmem⟩ | hmem)
    · exact .inl ⟨e, hmem, rfl, rfl⟩
    · exact .inr hmem

/-- One server of the cluster with what has happened at it. -/
def view (c : Cluster) (id : ServerID) : ServerRun :=
  ⟨c.nodes id, c.history.filterMap (fun p => if p.1 = id then some p.2 else none)⟩

theorem mem_view {id : ServerID} {e : Event} : e ∈ (c.view id).history ↔ (id, e) ∈ c.history := by
  simp only [view, List.mem_filterMap, Option.ite_none_right_eq_some, Option.some.injEq, Prod.exists]
  constructor
  · rintro ⟨id', e', hmem, rfl, rfl⟩
    exact hmem
  · intro hmem
    exact ⟨id, e, hmem, rfl, rfl⟩

theorem view_record_self (c : Cluster) (id : ServerID) (input : Input) (o : Outcome) :
    (c.record id input o).view id = ⟨o.raft, o.events ++ (c.view id).history⟩ := by
  have hmap : (o.events.map (fun e => (id, e))).filterMap
      (fun p => if p.1 = id then some p.2 else none) = o.events := by
    rw [List.filterMap_map]
    simp
  simp only [view, record_nodes_self, ServerRun.mk.injEq, true_and]
  simp only [record, List.filterMap_append, hmap]

theorem view_record_ne (c : Cluster) (input : Input) (o : Outcome) {id id' : ServerID}
    (h : id' ≠ id) : (c.record id input o).view id' = c.view id' := by
  have hmap : (o.events.map (fun e => (id, e))).filterMap
      (fun p => if p.1 = id' then some p.2 else none) = [] := by
    rw [List.filterMap_map]
    simp [Ne.symm h]
  simp only [view, record_nodes_ne c input o h, ServerRun.mk.injEq, true_and]
  simp only [record, List.filterMap_append, hmap, List.nil_append]

end Cluster

namespace Deployment

variable {d : Deployment} {c : Cluster} {ok : Cluster → Action → Prop}

/-- The run rule for a cluster. -/
theorem invariant {P : Cluster → Prop} (hinit : P d.start)
    (hstep : ∀ c a o, P c → ok c a → c.deliverable (c.nodes a.node) a.input = true →
      (c.nodes a.node).step a.input a.env = some o → P (c.record a.node a.input o))
    (h : d.system.Reachable ok c) : P c := by
  refine System.Reachable.invariant (fun s hs => ?_) (fun s a s' hP hok hs => ?_) h
  · exact hs ▸ hinit
  · obtain ⟨o, hdeliver, ho, rfl⟩ := Cluster.step_cases hs
    exact hstep s a o hP hok hdeliver ho

/-- What one server does in a run of a cluster is a run of that server. -/
theorem view_reachable {ok' : ServerRun → Input × Env → Prop}
    (hok : ∀ c a, ok c a → ok' (c.view a.node) (a.input, a.env))
    (h : d.system.Reachable ok c) (id : ServerID) : serverSystem.Reachable ok' (c.view id) := by
  refine invariant (P := fun c => serverSystem.Reachable ok' (c.view id)) ?_ ?_ h
  · refine ⟨_, ?_, .refl⟩
    simp only [serverSystem, Cluster.view, start, server, List.filterMap_nil]
    split
    · exact ⟨d.conf id, 1, [d.entry], [], rfl⟩
    · exact ⟨d.conf id, 0, [], [], rfl⟩
  · intro c a o hreach hac _ ho
    by_cases hid : id = a.node
    · subst hid
      rw [Cluster.view_record_self]
      refine hreach.trans (.tail .refl (hok c a hac) ?_)
      have ho' : (c.view a.node).raft.step a.input a.env = some o := ho
      simp [serverSystem, ServerRun.step, ho']
    · rw [Cluster.view_record_ne _ _ _ hid]
      exact hreach

end Deployment

namespace Raft

variable {r : Raft} {env : Env} {o : Outcome} {G : Configuration → Prop}

theorem replicate_cases {k j : Nat} {input : ReplicationInput} {r' : Raft}
    {sends : List (Server × Command)} (h : r.replicate k j input = some (r', sends)) :
    ∃ ls s s' matched, r.leaderships[k]? = some ls ∧ ls.replState[j]? = some s ∧
      r.replicationStep s input = some (s', matched, sends) ∧
      r' = { r with
        leaderships := r.leaderships.set k
          { ls with
            replState := ls.replState.set j s'
            commitment := match matched with
              | none => ls.commitment
              | some index => ls.commitment.matchServer s.peer.id index } } := by
  unfold replicate at h
  simp only [Option.bind_eq_bind, Option.bind_eq_some_iff, Option.some.injEq, Prod.mk.injEq] at h
  obtain ⟨ls, hls, s, hs, ⟨s', matched, sends'⟩, hstep, hr', rfl⟩ := h
  exact ⟨ls, s, s', matched, hls, hs, hstep, hr'.symm⟩

/-- The peers `electSelf` asks get the request of the new term. -/
theorem electSelf_sends (hup : r.down = false) (hmem : (peer, cmd) ∈ (r.electSelf env).2.2.1) :
    cmd = .requestVote r.nextTerm.voteRequest := by
  rcases electSelf_cases r env hup with ⟨r', _, _, _, he⟩ | ⟨r', ok, asked, events, _, _, he⟩
  · simp [he] at hmem
  · rw [he] at hmem
    simp only [List.mem_map, Prod.mk.injEq] at hmem
    obtain ⟨_, _, _, rfl⟩ := hmem
    rfl

/-- What a server sends: vote requests, pre-vote requests, and what its
replication goroutines send. -/
theorem sends_stepUp (hup : r.down = false) (h : r.stepUp env input = some o)
    (hmem : (peer, cmd) ∈ o.sends) :
    cmd = .requestVote r.nextTerm.voteRequest ∨ cmd = .requestPreVote r.preVoteRequest ∨
      ∃ k j inp, input = .replication k j inp ∧ r.replicate k j inp = some (o.raft, o.sends) := by
  cases input with
  | rpc cmd => simp [(stepUp_rpc h).2.2.1] at hmem
  | heartbeat req => simp [(stepUp_heartbeat h).2.2.1] at hmem
  | run =>
    obtain ⟨_, rfl⟩ := stepUp_run h
    simp at hmem
  | enter =>
    cases enterStep h with
    | ask _ _ _ _ _ hsends => exact .inr (.inl (hsends _ hmem))
    | elect => exact .inl (electSelf_sends hup hmem)
    | _ => simp [dispatchNoop] at hmem
  | loopTest =>
    obtain ⟨r', _, rfl⟩ := stepUp_loopTest h
    simp at hmem
  | heartbeatTimer =>
    obtain ⟨_, rfl⟩ := stepUp_heartbeatTimer h
    simp at hmem
  | preVote voter result =>
    obtain ⟨c, _, ho⟩ := stepUp_preVote h
    cases preVoteStep ho with
    | elect => exact .inl (electSelf_sends hup hmem)
    | _ => simp at hmem
  | vote voter result =>
    obtain ⟨c, _, ho⟩ := stepUp_vote h
    cases voteStep ho <;> simp at hmem
  | electionTimer =>
    obtain ⟨_, rfl⟩ := stepUp_electionTimer h
    simp at hmem
  | stepDown =>
    obtain ⟨_, _, rfl⟩ := stepUp_stepDown h
    simp at hmem
  | apply futures =>
    obtain ⟨stepDown, _, _, rfl⟩ := stepUp_apply h
    cases stepDown <;> simp [apply] at hmem
  | configurationChange req future => simp [(stepUp_configurationChange h).choose_spec.2.2.2.1] at hmem
  | commit =>
    obtain ⟨_, _, _, _, _, _, _, hsends, _⟩ := stepUp_commit h
    simp [hsends] at hmem
  | replication k j input =>
    obtain ⟨r', sends, hr, rfl⟩ := stepUp_replication h
    exact .inr (.inr ⟨k, j, input, rfl, hr⟩)
  | crash =>
    rw [stepUp_crash h] at hmem
    simp at hmem
  | restart => exact absurd h stepUp_restart

theorem sends_step (h : r.step input env = some o) (hmem : (peer, cmd) ∈ o.sends) :
    r.down = false ∧ (cmd = .requestVote r.nextTerm.voteRequest ∨
      cmd = .requestPreVote r.preVoteRequest ∨
      ∃ k j inp, input = .replication k j inp ∧ r.replicate k j inp = some (o.raft, o.sends)) := by
  cases hdown : r.down with
  | true =>
    obtain ⟨_, r', _, rfl⟩ := step_down h hdown
    simp at hmem
  | false => exact ⟨rfl, sends_stepUp hdown (step_up h hdown) hmem⟩

theorem setNewLogs_mem {nextIndex lastIndex : Nat} {entries : List Log}
    (h : r.setNewLogs nextIndex lastIndex = some entries) : ∀ e ∈ entries, e ∈ r.logs := by
  intro e he
  obtain ⟨i, -, hget⟩ := (LogStore.mapM_read h).2 e he
  exact LogStore.mem_of_getLog hget

theorem setupAppendEntries_cases {currentTerm nextIndex lastIndex : Nat}
    {req : AppendEntriesRequest} (h : r.setupAppendEntries currentTerm nextIndex lastIndex = some req) :
    r.setPreviousLog nextIndex = some (req.prevLogEntry, req.prevLogTerm) ∧
      r.setNewLogs nextIndex lastIndex = some req.entries ∧ req.header = r.getRPCHeader ∧
      req.term = currentTerm ∧ req.leader = r.localAddr ∧ req.leaderCommitIndex = r.commitIndex := by
  unfold setupAppendEntries setupAppendEntriesFrom at h
  split at h
  · rename_i prev prevTerm entries hprev hentries
    cases h
    exact ⟨hprev, hentries, rfl, rfl, rfl, rfl⟩
  · simp at h

/-- The entries a server sends are in its log. -/
theorem entries_sent (h : r.step input env = some o)
    (hmem : (peer, .appendEntries req) ∈ o.sends) : ∀ e ∈ req.entries, e ∈ r.logs := by
  obtain ⟨_, hcases⟩ := sends_step h hmem
  rcases hcases with hv | hv | ⟨k, j, inp, _, hr⟩
  · simp at hv
  · simp at hv
  · obtain ⟨ls, s, s', matched, _, _, hstep, _⟩ := replicate_cases hr
    rcases replicationStep_sends hstep hmem with ⟨_, _, req', hreq, heq⟩ | heq | ⟨_, heq⟩
    · cases heq
      exact setNewLogs_mem (setupAppendEntries_cases hreq).2.1
    · cases heq
      simp [heartbeatRequest]
    · simp at heq

end Raft

namespace Cluster

variable {c : Cluster} {G : Configuration → Prop}

theorem mem_record_network {id : ServerID} {input : Input} {o : Outcome} {e : Envelope}
    (h : e ∈ (c.record id input o).network) :
    (∃ peer, (peer, e.command) ∈ o.sends ∧ e.dest = peer.address ∧
      e.leading = leads (c.nodes id) e.command) ∨ e ∈ c.network := by
  simp only [record, List.mem_append, List.mem_map] at h
  rcases h with ⟨⟨peer, cmd⟩, hmem, rfl⟩ | h
  · exact .inl ⟨peer, hmem, rfl, rfl⟩
  · exact .inr h

/-- Every configuration in the cluster is good: at the servers and on the way. -/
structure Configured (G : Configuration → Prop) (c : Cluster) : Prop where
  nodes : ∀ id, (c.nodes id).Configured G
  network : ∀ e ∈ c.network, ∀ req, e.command = .appendEntries req → Raft.Carries G req.entries

/-- A configuration that does not come from another server's log is good. -/
def Introduces (G : Configuration → Prop) (r : Raft) : Input → Prop
  | .rpc (.installSnapshot req) => ∀ c i, Raft.requestConfiguration req = some (c, i) → G c
  | .configurationChange req _ =>
    ∀ c, nextConfiguration r.configurations.latest r.configurations.latestIndex req = .ok c →
      G c ∧ Raft.Carries G [r.configurationEntry c]
  | _ => True

theorem sent_iff {dest : ServerAddress} {cmd : Command} :
    c.sent dest cmd = true ↔ ∃ e ∈ c.network, e.dest = dest ∧ e.command = cmd := by
  simp [sent]

theorem Configured.brings (h : Configured G c) {r : Raft} {input : Input}
    (hdeliver : c.deliverable r input = true) (hin : Introduces G r input) :
    Raft.Brings G r input := by
  cases input with
  | rpc cmd =>
    cases cmd with
    | appendEntries req =>
      obtain ⟨e, he, _, hcmd⟩ := sent_iff.mp hdeliver
      exact h.network e he req hcmd
    | installSnapshot req => exact hin
    | _ => trivial
  | heartbeat req =>
    simp only [deliverable, Bool.and_eq_true] at hdeliver
    obtain ⟨e, he, _, hcmd⟩ := sent_iff.mp hdeliver.2
    exact h.network e he req hcmd
  | configurationChange req future => exact hin
  | _ => trivial

theorem Configured.step (h : Configured G c) {a : Action} {o : Outcome}
    (hdeliver : c.deliverable (c.nodes a.node) a.input = true)
    (hin : Introduces G (c.nodes a.node) a.input)
    (ho : (c.nodes a.node).step a.input a.env = some o) :
    Configured G (c.record a.node a.input o) where
  nodes := record_nodes (P := fun _ r => r.Configured G)
    ((h.nodes a.node).step (h.brings hdeliver hin) ho) h.nodes
  network := by
    intro e he req hcmd
    rcases mem_record_network he with ⟨peer, hmem, _⟩ | hold
    · rw [hcmd] at hmem
      exact fun e he => (h.nodes a.node).logs e (Raft.entries_sent ho hmem e he)
    · exact h.network e hold req hcmd

end Cluster

theorem Deployment.configured_start (d : Deployment) {G : Configuration → Prop}
    (h : G d.configuration) : d.start.Configured G := by
  refine ⟨?_, by simp [start]⟩
  intro id
  unfold start server
  dsimp only
  split
  · refine ⟨.inl rfl, .inl rfl, ?_, by simp⟩
    intro e he c hc
    simp only [List.mem_singleton] at he
    rw [he, d.entry_configuration] at hc
    cases hc
    exact h
  · exact ⟨.inl rfl, .inl rfl, by simp, by simp⟩

end PerfRaft
