import PerfRaft.Replication

namespace PerfRaft

namespace FollowerReplication

variable {s s' : FollowerReplication} {lastIndex : Nat} {final : Bool}

/-- Where the goroutine has no call outstanding. -/
def Rests (s : FollowerReplication) : ReplicationPC → Prop
  | .select | .start _ _ | .done => True
  | .pipeline p _ => p = s.peer
  | _ => False

/-- The goroutine makes no new call: it rests, or stays where it is. -/
structure Settles (s s' : FollowerReplication) : Prop where
  peer : s'.peer = s.peer
  currentTerm : s'.currentTerm = s.currentTerm
  inflight : ∀ p ∈ s'.inflight, p ∈ s.inflight
  pc : s.Rests s'.pc ∨ s'.pc = s.pc

theorem Settles.refl (s : FollowerReplication) : Settles s s :=
  ⟨rfl, rfl, fun _ hp => hp, .inr rfl⟩

theorem nextIndex_replicated (s : FollowerReplication) (final : Bool) :
    (s.replicated final).nextIndex = s.nextIndex := by
  unfold replicated
  split
  · rfl
  · split <;> rfl

theorem Settles.replicated (h : Settles s s') (final : Bool) : Settles s (s'.replicated final) := by
  unfold FollowerReplication.replicated
  split
  · exact { h with pc := .inl trivial }
  · split
    · exact { h with pc := .inl h.peer }
    · exact { h with pc := .inl trivial }

theorem nextIndex_checkMore (s : FollowerReplication) (lastIndex : Nat) (final : Bool) :
    (s.checkMore lastIndex final).nextIndex = s.nextIndex := by
  unfold checkMore
  split
  · rfl
  · split
    · rfl
    · exact nextIndex_replicated s final

theorem Settles.checkMore (h : Settles s s') (lastIndex : Nat) (final : Bool) :
    Settles s (s'.checkMore lastIndex final) := by
  unfold FollowerReplication.checkMore
  split
  · exact { h with pc := .inl trivial }
  · split
    · exact { h with pc := .inl trivial }
    · exact h.replicated final

theorem updateLastAppended_eq (s : FollowerReplication) (req : AppendEntriesRequest) :
    (s.updateLastAppended req).1 =
      { s with nextIndex := (s.updateLastAppended req).1.nextIndex } ∧
      (s.updateLastAppended req).2 = req.entries.getLast?.map Log.index := by
  unfold updateLastAppended
  cases req.entries.getLast? with
  | none => exact ⟨rfl, rfl⟩
  | some last => exact ⟨rfl, rfl⟩

theorem Settles.updateLastAppended (h : Settles s s') (req : AppendEntriesRequest) :
    Settles s (s'.updateLastAppended req).1 := by
  rw [(updateLastAppended_eq s' req).1]
  exact { h with }

theorem settles_appendReply (s : FollowerReplication) (lastIndex : Nat) (final : Bool)
    (req : AppendEntriesRequest) (result : CallResult AppendEntriesResponse) :
    Settles s (s.appendReply lastIndex final req result).1 := by
  have h := Settles.refl s
  cases result with
  | failed => exact h.replicated final
  | response resp =>
    simp only [appendReply]
    split
    · exact { h with pc := .inl trivial }
    · split
      · have h' := h.updateLastAppended req
        refine Settles.checkMore ?_ lastIndex final
        exact ⟨h'.peer, h'.currentTerm, h'.inflight, h'.pc⟩
      · refine Settles.checkMore ?_ lastIndex final
        exact ⟨rfl, rfl, h.inflight, .inr rfl⟩

theorem settles_snapshotReply (s : FollowerReplication) (lastIndex : Nat) (final : Bool)
    (req : InstallSnapshotRequest) (result : CallResult InstallSnapshotResponse) :
    Settles s (s.snapshotReply lastIndex final req result).1 := by
  have h := Settles.refl s
  cases result with
  | failed => exact h.replicated final
  | response resp =>
    simp only [snapshotReply]
    split
    · exact { h with pc := .inl trivial }
    · split
      · refine Settles.checkMore ?_ lastIndex final
        exact ⟨rfl, rfl, h.inflight, .inr rfl⟩
      · exact h.checkMore lastIndex final

theorem settles_pipelineDecode {p : Server} {req : AppendEntriesRequest}
    {rest : List (Server × AppendEntriesRequest)} (hinflight : s.inflight = (p, req) :: rest)
    (resp : AppendEntriesResponse) : Settles s (s.pipelineDecode req rest resp).1 := by
  unfold pipelineDecode
  split
  · exact { Settles.refl s with inflight := nofun }
  · have h : Settles s { s with inflight := rest } :=
      ⟨rfl, rfl, fun p hp => hinflight ▸ List.mem_cons_of_mem _ hp, .inr rfl⟩
    exact h.updateLastAppended req

end FollowerReplication

namespace Raft

variable {r : Raft} {s s' : FollowerReplication} {input : ReplicationInput} {matched : Option Nat}
  {sends : List (Server × Command)}

/-- The steps of a replication goroutine. -/
inductive Replicating (r : Raft) (s : FollowerReplication) :
    ReplicationInput → FollowerReplication → Option Nat → List (Server × Command) → Prop where
  | settle (input : ReplicationInput) (s' : FollowerReplication) (hsettles : s.Settles s')
      (hnext : s'.nextIndex = s.nextIndex) : Replicating r s input s' none []
  | pipelined (input : ReplicationInput) (peer : Server) (nextIndex lastIndex : Nat)
      (stopCh : Option Nat) (hpc : s.pc = .pipeline peer nextIndex) :
      Replicating r s input { s with pc := .pipelineSend peer nextIndex lastIndex, stopCh := stopCh } none []
  | call (lastIndex : Nat) (final : Bool) (req : AppendEntriesRequest)
      (hreq : r.setupAppendEntries s.currentTerm s.nextIndex lastIndex = some req) :
      Replicating r s .send { s with pc := .call s.peer lastIndex final req } none
        [(s.peer, .appendEntries req)]
  | snapshot (lastIndex : Nat) (final : Bool) (snapshot : Snapshot) (rest : List Snapshot)
      (hsnapshots : r.snapshots = snapshot :: rest) :
      Replicating r s .send
        { s with pc := .snapshot s.peer lastIndex final (r.snapshotRequest s snapshot) } none
        [(s.peer, .installSnapshot (r.snapshotRequest s snapshot))]
  | pipeline (peer : Server) (nextIndex lastIndex next : Nat) (req : AppendEntriesRequest)
      (hpc : s.pc = .pipelineSend peer nextIndex lastIndex)
      (hreq : r.setupAppendEntries s.currentTerm nextIndex lastIndex = some req) :
      Replicating r s .send
        { s with pc := .pipeline peer next, inflight := s.inflight ++ [(peer, req)] } none
        [(peer, .appendEntries req)]
  | reply (peer : Server) (lastIndex : Nat) (final : Bool) (req : AppendEntriesRequest)
      (hpc : s.pc = .call peer lastIndex final req) (result : CallResult AppendEntriesResponse) :
      Replicating r s (.reply result) (s.appendReply lastIndex final req result).1
        (s.appendReply lastIndex final req result).2 []
  | snapshotReply (peer : Server) (lastIndex : Nat) (final : Bool) (req : InstallSnapshotRequest)
      (hpc : s.pc = .snapshot peer lastIndex final req)
      (result : CallResult InstallSnapshotResponse) :
      Replicating r s (.snapshotReply result) (s.snapshotReply lastIndex final req result).1
        (s.snapshotReply lastIndex final req result).2 []
  | decode (peer : Server) (req : AppendEntriesRequest) (rest : List (Server × AppendEntriesRequest))
      (hinflight : s.inflight = (peer, req) :: rest) (resp : AppendEntriesResponse) :
      Replicating r s (.decode resp) (s.pipelineDecode req rest resp).1
        (s.pipelineDecode req rest resp).2 []
  | heartbeat : Replicating r s .heartbeat s none [(s.peer, .appendEntries (r.heartbeatRequest s))]

theorem replicating (h : r.replicationStep s input = some (s', matched, sends)) :
    Replicating r s input s' matched sends := by
  have hrefl := FollowerReplication.Settles.refl s
  cases input with
  | trigger =>
    simp only [replicationStep] at h
    split at h <;> cases h
    · exact .settle _ _ { hrefl with pc := .inl trivial } rfl
    · rename_i hpc
      exact .pipelined _ _ _ _ _ hpc
  | stop =>
    simp only [replicationStep] at h
    split at h
    · split at h <;> cases h <;> exact .settle _ _ { hrefl with pc := .inl trivial } rfl
    · rename_i hpc _
      split at h <;> cases h
      · exact .pipelined _ _ _ _ _ hpc
      · exact .settle _ _ { hrefl with pc := .inl trivial, inflight := nofun } rfl
    · cases h
  | send =>
    simp only [replicationStep] at h
    split at h
    · split at h
      · rename_i req hreq
        cases h
        exact .call _ _ req hreq
      · split at h <;> cases h
        · exact .settle _ _ (hrefl.replicated _) (FollowerReplication.nextIndex_replicated s _)
        · rename_i hsnapshots
          exact .snapshot _ _ _ _ hsnapshots
    · rename_i hpc
      split at h <;> cases h
      · rename_i hreq
        exact .pipeline _ _ _ _ _ hpc hreq
      · exact .settle _ _ { hrefl with pc := .inl trivial, inflight := nofun } rfl
    · cases h
  | reply result =>
    simp only [replicationStep] at h
    split at h <;> cases h
    rename_i hpc
    exact .reply _ _ _ _ hpc result
  | snapshotReply result =>
    simp only [replicationStep] at h
    split at h <;> cases h
    rename_i hpc
    exact .snapshotReply _ _ _ _ hpc result
  | decode resp =>
    simp only [replicationStep] at h
    split at h <;> cases h
    rename_i hinflight
    exact .decode _ _ _ hinflight resp
  | pipelineEnd =>
    simp only [replicationStep] at h
    split at h <;> cases h <;>
      exact .settle _ _ { hrefl with pc := .inl trivial, inflight := nofun } rfl
  | heartbeat =>
    cases h
    exact .heartbeat

/-- A goroutine keeps the term it was started in. -/
theorem replicationStep_currentTerm (h : r.replicationStep s input = some (s', matched, sends)) :
    s'.currentTerm = s.currentTerm := by
  cases replicating h with
  | settle _ _ hsettles => exact hsettles.currentTerm
  | reply _ lastIndex final req _ result => exact (s.settles_appendReply lastIndex final req result).currentTerm
  | snapshotReply _ lastIndex final req _ result =>
    exact (s.settles_snapshotReply lastIndex final req result).currentTerm
  | decode _ _ _ hinflight resp => exact (FollowerReplication.settles_pipelineDecode hinflight resp).currentTerm
  | _ => rfl

/-- A replication goroutine sends a piece of the log, a heartbeat or a snapshot. -/
theorem replicationStep_sends (h : r.replicationStep s input = some (s', matched, sends))
    (hmem : (peer, cmd) ∈ sends) :
    (∃ nextIndex lastIndex req, r.setupAppendEntries s.currentTerm nextIndex lastIndex = some req ∧
        cmd = .appendEntries req) ∨
      cmd = .appendEntries (r.heartbeatRequest s) ∨
      ∃ snapshot, cmd = .installSnapshot (r.snapshotRequest s snapshot) := by
  cases replicating h with
  | call _ _ req hreq => exact .inl ⟨_, _, req, hreq, (Prod.mk.inj (List.mem_singleton.mp hmem)).2⟩
  | pipeline _ _ _ _ req _ hreq =>
    exact .inl ⟨_, _, req, hreq, (Prod.mk.inj (List.mem_singleton.mp hmem)).2⟩
  | snapshot _ _ snapshot => exact .inr (.inr ⟨snapshot, (Prod.mk.inj (List.mem_singleton.mp hmem)).2⟩)
  | heartbeat => exact .inr (.inl (Prod.mk.inj (List.mem_singleton.mp hmem)).2)
  | _ => simp at hmem

/-- A goroutine sends one request at a time. -/
theorem replicationStep_one (h : r.replicationStep s input = some (s', matched, sends)) :
    ∀ p ∈ sends, sends = [p] := by
  intro p hp
  cases replicating h with
  | call | snapshot | pipeline | heartbeat => rw [List.mem_singleton.mp hp]
  | _ => simp at hp

end Raft

end PerfRaft
