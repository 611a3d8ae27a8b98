import PerfRaft.Transfer
import PerfRaft.Proofs.Repair
import PerfRaft.Proofs.Headship

namespace PerfRaft

namespace FollowerReplication

variable {s s' : FollowerReplication}

/-- The peer stays, and the next index moves past what is heard of the peer's log, if
it moves forward at all. -/
def Learns (heard : Option Nat) (s s' : FollowerReplication) : Prop :=
  s'.peer = s.peer ∧
    (s'.nextIndex ≤ max s.nextIndex 1 ∨ ∃ index, heard = some index ∧ s'.nextIndex ≤ index + 1)

theorem Learns.still {heard : Option Nat} (hpeer : s'.peer = s.peer)
    (hnext : s'.nextIndex = s.nextIndex) : Learns heard s s' :=
  ⟨hpeer, .inl (by omega)⟩

theorem learns_updateLastAppended (s : FollowerReplication) (req : AppendEntriesRequest) :
    Learns (some req.lastIndex) s (s.updateLastAppended req).1 := by
  unfold updateLastAppended
  split
  · exact .still rfl rfl
  · rename_i last hlast
    have hindex : req.lastIndex = last.index := by simp [AppendEntriesRequest.lastIndex, hlast]
    exact ⟨rfl, .inr ⟨req.lastIndex, rfl, by rw [hindex]⟩⟩

theorem learns_appendReply {peer : Server} {lastIndex : Nat} {final : Bool}
    {req : AppendEntriesRequest} (hpc : s.pc = .call peer lastIndex final req)
    (result : CallResult AppendEntriesResponse) :
    Learns (s.acknowledges (.reply result)) s (s.appendReply lastIndex final req result).1 := by
  refine ⟨(s.settles_appendReply lastIndex final req result).peer, ?_⟩
  cases result with
  | failed => exact .inl ((nextIndex_replicated s final).le.trans (Nat.le_max_left _ _))
  | response resp =>
    simp only [acknowledges, hpc, appendReply]
    by_cases hterm : req.term < resp.term
    · simp only [hterm, if_true]
      exact .inl (Nat.le_max_left _ _)
    · cases hsuccess : resp.success with
      | true =>
        simp only [hterm, if_false, false_or, Bool.true_eq_false, if_true, nextIndex_checkMore]
        exact (learns_updateLastAppended s req).2
      | false =>
        simp only [hterm, if_false, or_true, if_true, Bool.false_eq_true, nextIndex_checkMore]
        exact .inl (by omega)

theorem learns_snapshotReply {peer : Server} {lastIndex : Nat} {final : Bool}
    {req : InstallSnapshotRequest} (hpc : s.pc = .snapshot peer lastIndex final req)
    (result : CallResult InstallSnapshotResponse) :
    Learns (s.acknowledges (.snapshotReply result)) s
      (s.snapshotReply lastIndex final req result).1 := by
  refine ⟨(s.settles_snapshotReply lastIndex final req result).peer, ?_⟩
  cases result with
  | failed => exact .inl ((nextIndex_replicated s final).le.trans (Nat.le_max_left _ _))
  | response resp =>
    simp only [acknowledges, hpc, snapshotReply]
    by_cases hterm : req.term < resp.term
    · simp only [hterm, if_true]
      exact .inl (Nat.le_max_left _ _)
    · cases hsuccess : resp.success with
      | true =>
        simp only [hterm, if_false, false_or, Bool.true_eq_false, if_true, nextIndex_checkMore]
        exact .inr ⟨req.lastLogIndex, rfl, Nat.le_refl _⟩
      | false =>
        simp only [hterm, if_false, or_true, if_true, Bool.false_eq_true, nextIndex_checkMore]
        exact .inl (Nat.le_max_left _ _)

theorem learns_pipelineDecode {peer : Server} {req : AppendEntriesRequest}
    {rest : List (Server × AppendEntriesRequest)} (hinflight : s.inflight = (peer, req) :: rest)
    (resp : AppendEntriesResponse) :
    Learns (s.acknowledges (.decode resp)) s (s.pipelineDecode req rest resp).1 := by
  simp only [acknowledges, hinflight, pipelineDecode]
  split
  · exact .still rfl rfl
  · have h := learns_updateLastAppended { s with inflight := rest } req
    exact ⟨h.1, h.2⟩

theorem learns_replicationStep {r : Raft} {input : ReplicationInput} {matched : Option Nat}
    {sends : List (Server × Command)} (h : r.replicationStep s input = some (s', matched, sends)) :
    Learns (s.acknowledges input) s s' := by
  cases Raft.replicating h with
  | settle _ _ hsettles hnext => exact .still hsettles.peer hnext
  | reply _ _ _ _ hpc result => exact learns_appendReply hpc result
  | snapshotReply _ _ _ _ hpc result => exact learns_snapshotReply hpc result
  | decode _ _ _ hinflight resp => exact learns_pipelineDecode hinflight resp
  | _ => exact .still rfl rfl

end FollowerReplication

/-- What becomes of the replication states of a leadership while `heard` is heard: one
that is there keeps its place, its peer's ID and a next index that is accounted for, and
a new one starts behind the last index. -/
structure Continues (last : Nat) (heard : List (ServerID × Nat))
    (old new : List FollowerReplication) : Prop where
  length : old.length ≤ new.length
  cases : ∀ j f', new[j]? = some f' →
    (∃ f, old[j]? = some f ∧ f'.peer.id = f.peer.id ∧
      (f'.nextIndex ≤ max f.nextIndex 1 ∨
        ∃ index, (f.peer.id, index) ∈ heard ∧ f'.nextIndex ≤ index + 1)) ∨
    (old.length ≤ j ∧ f'.nextIndex = last + 1)

namespace Continues

variable {last : Nat} {heard : List (ServerID × Nat)} {old new : List FollowerReplication}

theorem refl (last : Nat) (heard : List (ServerID × Nat)) (old : List FollowerReplication) :
    Continues last heard old old where
  length := Nat.le_refl _
  cases _ f hf := .inl ⟨f, hf, rfl, .inl (Nat.le_max_left _ _)⟩

theorem map (h : Continues last heard old new) {g : FollowerReplication → FollowerReplication}
    (hid : ∀ f, (g f).peer.id = f.peer.id) (hnext : ∀ f, (g f).nextIndex = f.nextIndex) :
    Continues last heard old (new.map g) where
  length := by rw [List.length_map]; exact h.length
  cases := by
    intro j f' hf'
    rw [List.getElem?_map, Option.map_eq_some_iff] at hf'
    obtain ⟨f, hf, rfl⟩ := hf'
    rw [hid, hnext]
    exact h.cases j f hf

theorem push (h : Continues last heard old new) {f : FollowerReplication}
    (hnext : f.nextIndex = last + 1) : Continues last heard old (new ++ [f]) where
  length := by rw [List.length_append]; exact Nat.le_add_right_of_le h.length
  cases := by
    intro j f' hf'
    rw [List.getElem?_append] at hf'
    split at hf'
    · exact h.cases j f' hf'
    · rename_i hj
      obtain ⟨-, rfl⟩ := List.getElem?_eq_some_iff.mp hf'
      refine .inr ⟨Nat.le_trans h.length (Nat.not_lt.mp hj), ?_⟩
      simp [hnext]

theorem set {j : Nat} {f f' : FollowerReplication} {acknowledged : Option Nat}
    (hf : old[j]? = some f) (hlearns : FollowerReplication.Learns acknowledged f f') :
    Continues last (acknowledged.toList.map (fun index => (f.peer.id, index))) old
      (old.set j f') where
  length := by rw [List.length_set]
  cases := by
    intro i g hg
    obtain ⟨hlt, -⟩ := List.getElem?_eq_some_iff.mp hf
    rcases eq_or_ne j i with rfl | hne
    · rw [List.getElem?_set_self hlt] at hg
      cases hg
      refine .inl ⟨f, hf, by rw [hlearns.1], hlearns.2.imp id ?_⟩
      rintro ⟨index, hindex, hle⟩
      exact ⟨index, by simp [hindex], hle⟩
    · rw [List.getElem?_set_ne hne] at hg
      exact (refl last _ old).cases i g hg

end Continues

namespace Raft

variable {r : Raft} {env : Env} {o : Outcome} {input : Input}

theorem replications_modifyLeaderState (r : Raft) {f : LeaderState → LeaderState}
    (hf : ∀ ls, (f ls).replState = ls.replState) :
    (r.modifyLeaderState f).replications = r.replications := by
  unfold replications modifyLeaderState
  cases r.leaderships with
  | nil => rfl
  | cons ls rest => simp [hf]

theorem replications_dispatchLogs (r : Raft) (futures : List LogFuture) (env : Env) :
    (r.dispatchLogs futures env).1.replications = r.replications := by
  unfold dispatchLogs
  dsimp only
  split
  · exact replications_modifyLeaderState r (fun _ => rfl)
  · simp only [replications, modifyLeaderState, setLastLog]
    cases r.leaderships <;> rfl

theorem replications_leaderCommit (r : Raft) (ls : LeaderState) (stepDown : Bool) :
    (r.leaderCommit ls stepDown).1.replications = r.replications := by
  unfold replications
  rw [leaderships_leaderCommit]
  cases r.leaderships <;> rfl

theorem continues_startReplication {heard : List (ServerID × Nat)}
    {old new : List FollowerReplication} (h : Continues r.getLastIndex heard old new)
    (server : Server) : Continues r.getLastIndex heard old (r.startReplication new server) := by
  unfold startReplication
  split
  · exact h
  · split
    · apply h.map
      · intro f
        split
        · rename_i hsame
          exact hsame.2.1.symm
        · rfl
      · intro f
        split <;> rfl
    · exact h.push rfl

theorem continues_foldl_startReplication {heard : List (ServerID × Nat)}
    {old new : List FollowerReplication} (servers : List Server)
    (h : Continues r.getLastIndex heard old new) :
    Continues r.getLastIndex heard old (servers.foldl r.startReplication new) := by
  induction servers generalizing new with
  | nil => exact h
  | cons server rest ih => exact ih (continues_startReplication h server)

theorem continues_startStopReplication (r : Raft) (heard : List (ServerID × Nat)) :
    Continues r.getLastIndex heard r.replications r.startStopReplication.replications := by
  unfold startStopReplication replications modifyLeaderState
  cases r.leaderships with
  | nil => exact Continues.refl _ _ _
  | cons ls rest =>
    have hstart := continues_foldl_startReplication (r := r) r.configurations.latest.servers
      (Continues.refl r.getLastIndex heard ls.replState)
    apply hstart.map
    · intro f
      unfold stopReplication
      split <;> rfl
    · intro f
      unfold stopReplication
      split <;> rfl

theorem continues_appendConfigurationEntry (r : Raft) (req : ConfigurationChangeRequest)
    (future : Nat) (env : Env) (heard : List (ServerID × Nat)) :
    Continues (r.appendConfigurationEntry req future env).1.getLastIndex heard r.replications
      (r.appendConfigurationEntry req future env).1.replications := by
  unfold appendConfigurationEntry
  split
  · exact Continues.refl _ _ _
  · rename_i configuration _
    have hdispatch := replications_dispatchLogs r [⟨future, r.configurationEntry configuration⟩] env
    generalize r.dispatchLogs [⟨future, r.configurationEntry configuration⟩] env = result
      at hdispatch
    obtain ⟨r₁, events⟩ := result
    dsimp only at hdispatch ⊢
    have hstart := continues_startStopReplication
      ((r₁.setLatestConfiguration configuration (r.getLastIndex + 1)).modifyLeaderState (fun ls =>
        { ls with commitment := ls.commitment.setConfiguration configuration })) heard
    have hsame := replications_modifyLeaderState
      (r₁.setLatestConfiguration configuration (r.getLastIndex + 1))
      (f := fun ls => { ls with commitment := ls.commitment.setConfiguration configuration })
      (fun _ => rfl)
    rw [hsame] at hstart
    rw [← hdispatch]
    exact hstart

theorem replications_set {ls ls' : LeaderState} (hls : r.leaderships[0]? = some ls) :
    ({ r with leaderships := r.leaderships.set 0 ls' } : Raft).replications = ls'.replState := by
  unfold replications
  cases hl : r.leaderships with
  | nil => simp [hl] at hls
  | cons head rest => rfl

theorem replications_of_getElem? {ls : LeaderState} (hls : r.leaderships[0]? = some ls) :
    r.replications = ls.replState := by
  unfold replications
  rw [List.head?_eq_getElem?, hls]
  rfl

end Raft

end PerfRaft
