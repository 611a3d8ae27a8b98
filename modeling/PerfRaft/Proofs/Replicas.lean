import PerfRaft.Proofs.Elections

namespace PerfRaft

open Lib

/-- A voter is listed with its address. -/
def Deployment.Addressed (d : Deployment) (s : Server) : Prop :=
  s.id ∈ d.configuration.voterIDs → s.address = (d.conf s.id).localAddr

/-- A configuration has the voters of the deployment, at their addresses. -/
def Deployment.Fits (d : Deployment) (c : Configuration) : Prop :=
  c.voters = d.configuration.voters ∧ ∀ s ∈ c.servers, d.Addressed s

namespace Deployment

variable {d : Deployment} {c : Configuration}

theorem addressed_of_voter {s : Server} (h : s ∈ d.configuration.voters) : d.Addressed s :=
  fun _ => d.address_of_voter h

theorem fits_of_checked (h : c.Checked) (hV : c.voters = d.configuration.voters) : d.Fits c := by
  refine ⟨hV, ?_⟩
  intro s hs hid
  obtain ⟨v, hv, hvid⟩ := List.mem_map.mp hid
  have hvs : v ∈ c.servers := by
    rw [← hV] at hv
    exact List.mem_of_mem_filter hv
  have heq : s = v := List.inj_on_of_nodup_map h.ids hs hvs hvid.symm
  rw [heq]
  exact d.address_of_voter hv

theorem fits_configuration (d : Deployment) : d.Fits d.configuration :=
  fits_of_checked d.checked_configuration rfl

/-- The old format lists voters only. -/
theorem fits_of_peers {data : Data} (h : decodePeers data = some c)
    (hV : c.voters = d.configuration.voters) : d.Fits c := by
  refine ⟨hV, ?_⟩
  intro s hs
  refine addressed_of_voter ?_
  rw [← hV]
  cases data with
  | peers peers =>
    simp only [decodePeers, Option.some.injEq] at h
    rw [← h] at hs ⊢
    simp only [List.mem_map] at hs
    obtain ⟨p, hp, rfl⟩ := hs
    simp only [Configuration.voters, List.mem_filter, List.mem_map]
    exact ⟨⟨p, hp, rfl⟩, rfl⟩
  | _ => simp [decodePeers] at h

/-- A configuration change that keeps the voters keeps their addresses. -/
theorem FixedVoters.introduces {c : Cluster} {a : Action} (h : d.FixedVoters c a)
    (hsnapshot : ∀ req, a.input ≠ .rpc (.installSnapshot req)) :
    Cluster.Introduces d.Fits (c.nodes a.node) a.input := by
  unfold FixedVoters at h
  cases hinput : a.input with
  | rpc cmd =>
    cases cmd with
    | installSnapshot req => exact absurd hinput (hsnapshot req)
    | _ => trivial
  | configurationChange req future =>
    rw [hinput] at h
    intro configuration hnext
    obtain ⟨hV, hcarries⟩ := h configuration hnext
    have hchecked : configuration.Checked := by
      unfold nextConfiguration at hnext
      split at hnext
      · simp at hnext
      · dsimp only at hnext
        split at hnext
        · simp at hnext
        · rename_i hcheck
          cases hnext
          exact checked_of_checkConfiguration hcheck
    refine ⟨fits_of_checked hchecked hV, ?_⟩
    intro e he configuration' hc'
    have hV' := hcarries e he configuration' hc'
    simp only [List.mem_singleton] at he
    subst he
    unfold Raft.configurationEntry at hc'
    split at hc'
    · have hpeers : decodePeers (encodePeers configuration) = some configuration' := hc'
      exact fits_of_peers hpeers hV'
    · simp only [Log.configuration?, encodeConfiguration, decodeConfiguration,
        Option.some.injEq] at hc'
      rw [← hc']
      exact fits_of_checked hchecked hV
  | _ => trivial

end Deployment

/-- A replication goroutine of a leadership of the term `T`: its calls are of this
term and go to its peer, of which `A` is known. -/
structure FollowerReplication.Replicates (A : Server → Prop) (T : Nat) (s : FollowerReplication) :
    Prop where
  term : s.currentTerm = T
  peer : A s.peer
  call : ∀ p i final req, s.pc = .call p i final req →
    req.term = T ∧ p.id = s.peer.id ∧ A p
  snapshot : ∀ p i final req, s.pc ≠ .snapshot p i final req
  pipeline : ∀ p n, s.pc = .pipeline p n → p.id = s.peer.id ∧ A p
  pipelineSend : ∀ p n i, s.pc = .pipelineSend p n i → p.id = s.peer.id ∧ A p
  inflight : ∀ p req, (p, req) ∈ s.inflight → req.term = T ∧ p.id = s.peer.id ∧ A p

namespace FollowerReplication

variable {A : Server → Prop} {T : Nat} {s s' : FollowerReplication}

theorem Replicates.settle (h : s.Replicates A T) (hs : s.Settles s') : s'.Replicates A T := by
  refine ⟨hs.currentTerm.trans h.term, by rw [hs.peer]; exact h.peer, ?_, ?_, ?_, ?_, ?_⟩
  · rw [hs.peer]
    intro p i final req heq
    rcases hs.pc with hpc | hpc
    · simp [heq, Rests] at hpc
    · exact h.call p i final req (hpc ▸ heq)
  · intro p i final req heq
    rcases hs.pc with hpc | hpc
    · simp [heq, Rests] at hpc
    · exact h.snapshot p i final req (hpc ▸ heq)
  · rw [hs.peer]
    intro p n heq
    rcases hs.pc with hpc | hpc
    · simp only [heq, Rests] at hpc
      rw [hpc]
      exact ⟨rfl, h.peer⟩
    · exact h.pipeline p n (hpc ▸ heq)
  · rw [hs.peer]
    intro p n i heq
    rcases hs.pc with hpc | hpc
    · simp [heq, Rests] at hpc
    · exact h.pipelineSend p n i (hpc ▸ heq)
  · rw [hs.peer]
    exact fun p req hmem => h.inflight p req (hs.inflight _ hmem)

end FollowerReplication

namespace Raft

variable {A : Server → Prop} {T : Nat} {r : Raft} {s s' : FollowerReplication}
  {input : ReplicationInput} {matched : Option Nat} {sends : List (Server × Command)}

theorem replicates_replicationStep (h : s.Replicates A T) (hsnapshots : r.snapshots = [])
    (hstep : r.replicationStep s input = some (s', matched, sends)) : s'.Replicates A T := by
  cases replicating hstep with
  | settle _ _ hsettles => exact h.settle hsettles
  | pipelined _ peer n _ _ hpc =>
    have hp := h.pipeline peer n hpc
    exact ⟨h.term, h.peer, by simp, by simp, by simp, by simpa using hp, h.inflight⟩
  | call lastIndex final req hreq =>
    have hterm := (setupAppendEntries_cases hreq).2.2.2.1
    refine ⟨h.term, h.peer, ?_, by simp, by simp, by simp, h.inflight⟩
    intro p i final' req' heq
    simp only [ReplicationPC.call.injEq] at heq
    obtain ⟨rfl, _, _, rfl⟩ := heq
    exact ⟨hterm.trans h.term, rfl, h.peer⟩
  | snapshot _ _ _ _ hsnapshot => simp [hsnapshots] at hsnapshot
  | pipeline peer n lastIndex next req hpc hreq =>
    have hp := h.pipelineSend peer n lastIndex hpc
    have hterm := (setupAppendEntries_cases hreq).2.2.2.1
    refine ⟨h.term, h.peer, by simp, by simp, ?_, by simp, ?_⟩
    · intro p' n' heq
      simp only [ReplicationPC.pipeline.injEq] at heq
      rw [← heq.1]
      exact hp
    · intro p' req' hmem
      simp only [List.mem_append, List.mem_singleton, Prod.mk.injEq] at hmem
      rcases hmem with hmem | ⟨rfl, rfl⟩
      · exact h.inflight p' req' hmem
      · exact ⟨hterm.trans h.term, hp⟩
  | reply _ lastIndex final req _ result => exact h.settle (s.settles_appendReply lastIndex final req result)
  | snapshotReply peer lastIndex final req hpc => exact absurd hpc (h.snapshot peer lastIndex final req)
  | decode _ _ _ hinflight resp => exact h.settle (FollowerReplication.settles_pipelineDecode hinflight resp)
  | heartbeat => exact h

/-- An index is recorded as matched when the peer has answered with success. -/
theorem replicationStep_matched {k : Nat} (h : s.Replicates A T)
    (hstep : r.replicationStep s input = some (s', some k, sends)) :
    ∃ p req resp e,
      ((∃ i final, s.pc = .call p i final req ∧ input = .reply (.response resp)) ∨
        (∃ rest, s.inflight = (p, req) :: rest ∧ input = .decode resp)) ∧
      resp.success = true ∧ req.entries.getLast? = some e ∧ e.index = k ∧
      req.term = T ∧ p.id = s.peer.id ∧ A p := by
  generalize hk : some k = matched at hstep
  cases replicating hstep with
  | reply p i final req hpc result =>
    cases result with
    | failed => cases hk
    | response resp =>
      simp only [FollowerReplication.appendReply] at hk
      split at hk
      · cases hk
      · split at hk
        · rename_i hsuccess
          rw [(FollowerReplication.updateLastAppended_eq s req).2] at hk
          obtain ⟨e, he, hindex⟩ := Option.map_eq_some_iff.mp hk.symm
          exact ⟨p, req, resp, e, .inl ⟨i, final, hpc, rfl⟩, hsuccess, he, hindex, h.call p i final req hpc⟩
        · cases hk
  | snapshotReply p i final req hpc => exact absurd hpc (h.snapshot p i final req)
  | decode p req rest hinflight resp =>
    simp only [FollowerReplication.pipelineDecode] at hk
    split at hk
    · cases hk
    · rename_i hok
      rw [(FollowerReplication.updateLastAppended_eq _ req).2] at hk
      obtain ⟨e, he, hindex⟩ := Option.map_eq_some_iff.mp hk.symm
      refine ⟨p, req, resp, e, .inr ⟨rest, hinflight, rfl⟩, ?_, he, hindex, ?_⟩
      · simpa using fun hf => hok (.inr hf)
      · exact h.inflight p req (by simp [hinflight])
  | _ => cases hk

variable {repl : List FollowerReplication}

/-- The goroutines of a leadership are started in its term. -/
theorem stamped_startStop
    (h : ∀ s ∈ repl, s.currentTerm = r.currentTerm) :
    ∀ s ∈ (r.configurations.latest.servers.foldl r.startReplication repl).map r.stopReplication,
      s.currentTerm = r.currentTerm := by
  have hfold : ∀ (servers : List Server) (repl : List FollowerReplication),
      (∀ s ∈ repl, s.currentTerm = r.currentTerm) →
      ∀ s ∈ servers.foldl r.startReplication repl, s.currentTerm = r.currentTerm := by
    intro servers
    induction servers with
    | nil => exact fun _ h => h
    | cons server rest ih =>
      intro repl h
      refine ih _ ?_
      unfold startReplication
      grind
  intro s hs
  obtain ⟨s₀, hs₀, rfl⟩ := List.mem_map.mp hs
  have h₀ := hfold _ repl h s₀ hs₀
  unfold stopReplication
  split <;> exact h₀

/-- `startStopReplication` keeps the goroutines to their peers. -/
theorem replicates_startReplication {server : Server} (hserver : A server)
    (h : ∀ s ∈ repl, s.Replicates A r.currentTerm) :
    ∀ s ∈ r.startReplication repl server, s.Replicates A r.currentTerm := by
  unfold startReplication
  split
  · exact h
  · split
    · intro s hs
      simp only [List.mem_map] at hs
      obtain ⟨s₀, hs₀, rfl⟩ := hs
      have h₀ := h s₀ hs₀
      split
      · rename_i hsame
        have hid : server.id = s₀.peer.id := hsame.2.1.symm
        refine ⟨h₀.term, hserver, ?_, h₀.snapshot, ?_, ?_, ?_⟩
        · intro p i final req hpc
          rw [hid]
          exact h₀.call p i final req hpc
        · intro p n hpc
          rw [hid]
          exact h₀.pipeline p n hpc
        · intro p n i hpc
          rw [hid]
          exact h₀.pipelineSend p n i hpc
        · intro p req hmem
          rw [hid]
          exact h₀.inflight p req hmem
      · exact h₀
    · intro s hs
      rcases List.mem_append.mp hs with hs | hs
      · exact h s hs
      · simp only [List.mem_singleton] at hs
        rw [hs]
        exact ⟨rfl, hserver, by simp, by simp, by simp, by simp, by simp⟩

theorem replicates_startStop (hlatest : ∀ server ∈ r.configurations.latest.servers, A server)
    (h : ∀ s ∈ repl, s.Replicates A r.currentTerm) :
    ∀ s ∈ (r.configurations.latest.servers.foldl r.startReplication repl).map r.stopReplication,
      s.Replicates A r.currentTerm := by
  have hfold : ∀ (servers : List Server) (repl : List FollowerReplication),
      (∀ server ∈ servers, A server) → (∀ s ∈ repl, s.Replicates A r.currentTerm) →
      ∀ s ∈ servers.foldl r.startReplication repl, s.Replicates A r.currentTerm := by
    intro servers
    induction servers with
    | nil => exact fun _ _ h => h
    | cons server rest ih =>
      intro repl hservers h
      refine ih _ (fun s hs => hservers s (List.mem_cons_of_mem _ hs)) ?_
      exact replicates_startReplication (hservers server (by simp)) h
  intro s hs
  simp only [List.mem_map] at hs
  obtain ⟨s₀, hs₀, rfl⟩ := hs
  have h₀ := hfold _ repl hlatest h s₀ hs₀
  unfold stopReplication
  split
  · exact ⟨h₀.term, h₀.peer, h₀.call, h₀.snapshot, h₀.pipeline, h₀.pipelineSend, h₀.inflight⟩
  · exact h₀

end Raft

end PerfRaft
