import PerfRaft.Proofs.LastSnapshot

namespace PerfRaft

namespace Raft

variable {r : Raft} {env : Env}

/-- Where an installation clears the log of what the sender's log does not have: the
store is emptied whole, or each entry up to the snapshot is at least TrailingLogs
behind the last log or has the sender's term, and there is none above the snapshot
unless the log has the snapshot's last entry. -/
def Discards (r : Raft) (req : InstallSnapshotRequest) (leader : LogStore) : Prop :=
  r.conf.monotonicLogs = true ∨
    (∀ e ∈ r.logs, e.index ≤ req.lastLogIndex →
      e.index + r.conf.trailingLogs ≤ r.lastLogIndex ∨ ∀ l, leader.getLog e.index = some l → e.term = l.term) ∧
    ((∀ e ∈ r.logs, e.index ≤ req.lastLogIndex) ∨
      ∃ e ∈ r.logs, e.index = req.lastLogIndex ∧ e.term = req.lastLogTerm)

/-- Compaction deletes everything up to the snapshot, but for the trailing entries. -/
theorem mem_compactLogs (henv : env.deleteRange = true) {index : Nat} {e : Log} (hpos : 0 < e.index) :
    e ∈ (r.compactLogs index env).logs ↔
      e ∈ r.logs ∧ (e.index ≤ index → r.lastLogIndex < e.index + r.conf.trailingLogs) := by
  unfold compactLogs compactLogsWithTrailing
  dsimp only
  split
  · exact ⟨fun he => ⟨he, by omega⟩, fun he => he.1⟩
  split
  · constructor
    · intro he
      have := LogStore.firstIndex_le he
      exact ⟨he, by omega⟩
    · exact fun he => he.1
  rw [if_neg (by simp [henv]), LogStore.mem_deleteRange]
  apply and_congr_right
  intro he
  have := LogStore.firstIndex_le he
  omega

/-- What is left of the log after a snapshot was installed does not conflict with the
log of the leader that sent it, if it is cleared, and only then. -/
theorem install_discards_conflicts (r : Raft) (req : InstallSnapshotRequest) (env : Env)
    (leader : LogStore) (resp : InstallSnapshotResponse)
    (hresp : (r.installSnapshot req env).2 = .installSnapshot resp) (hsuccess : resp.success = true)
    (henv : env.deleteRange = true) (hpos : ∀ e ∈ r.logs, 0 < e.index) :
    ((∀ e ∈ (r.installSnapshot req env).1.logs, e.index ≤ req.lastLogIndex →
        ∀ l, leader.getLog e.index = some l → e.term = l.term) ∧
      ((∃ e ∈ (r.installSnapshot req env).1.logs, req.lastLogIndex < e.index) →
        ∃ e ∈ r.logs, e.index = req.lastLogIndex ∧ e.term = req.lastLogTerm)) ↔
    r.Discards req leader := by
  obtain ⟨-, c, index, hinstalls⟩ := installs_of_success hresp hsuccess
  have hsub := logsAfter_sublist r req.lastLogIndex env
  rw [hinstalls.logs]
  unfold logsAfter at hsub ⊢
  by_cases hmonotonic : r.conf.monotonicLogs = true
  · have hnone : (r.removeOldLogs env).logs = [] := by
      rcases removeOldLogs_cases env hpos with hnil | ⟨hfails, -⟩
      · exact hnil
      · rw [henv] at hfails
        cases hfails
    rw [if_pos hmonotonic, hnone]
    exact ⟨fun _ => .inl hmonotonic, fun _ => by simp⟩
  rw [if_neg hmonotonic] at hsub ⊢
  have hleft (e : Log) (he : e ∈ r.logs) : e ∈ (r.compactLogs req.lastLogIndex env).logs ↔
      (e.index ≤ req.lastLogIndex → r.lastLogIndex < e.index + r.conf.trailingLogs) := by
    rw [mem_compactLogs henv (hpos e he)]
    exact and_iff_right he
  unfold Discards
  rw [or_iff_right hmonotonic]
  refine and_congr ⟨?_, ?_⟩ ⟨?_, ?_⟩
  · intro hsame e he hindex
    rcases Nat.lt_or_ge r.lastLogIndex (e.index + r.conf.trailingLogs) with hkept | hdeleted
    · exact .inr (hsame e ((hleft e he).mpr fun _ => hkept) hindex)
    · exact .inl hdeleted
  · intro hbelow e he hindex
    have hkept := (hleft e (hsub e he)).mp he hindex
    exact (hbelow e (hsub e he) hindex).resolve_left (by omega)
  · -- no entry above the snapshot is deleted
    intro hheld
    by_cases hall : ∀ e ∈ r.logs, e.index ≤ req.lastLogIndex
    · exact .inl hall
    · push Not at hall
      obtain ⟨e, he, hlt⟩ := hall
      exact .inr (hheld ⟨e, (hleft e he).mpr fun hle => by omega, hlt⟩)
  · rintro habove ⟨e, he, hlt⟩
    apply habove.resolve_left
    intro hall
    have := hall e (hsub e he)
    omega

/-- A follower with three entries of term 1, of which a leader of term 2 has only the
first. -/
def stale (monotonicLogs : Bool) : Raft :=
  { conf := { localID := [65], localAddr := [65], monotonicLogs := monotonicLogs }
    stable := { currentTerm := 1 }
    logs := [{ index := 1, term := 1, type := .logConfiguration
               data := encodeConfiguration ⟨[voterNamed 65, voterNamed 66]⟩ },
             { index := 2, term := 1, type := .logCommand }, { index := 3, term := 1, type := .logCommand }]
    currentTerm := 1, lastLogIndex := 3, lastLogTerm := 1 }

/-- The snapshot of this leader, up to its entry of term 2. -/
def snapshotAtTwo : InstallSnapshotRequest :=
  { header := { id := [66], addr := [66] }, term := 2, lastLogIndex := 2, lastLogTerm := 2
    configuration := encodeConfiguration ⟨[voterNamed 65, voterNamed 66]⟩, configurationIndex := 1 }

def leaderOfTwo : LogStore :=
  [{ index := 1, term := 1, type := .logConfiguration
     data := encodeConfiguration ⟨[voterNamed 65, voterNamed 66]⟩ },
   { index := 2, term := 2, type := .logCommand }]

/-- With a monotonic store nothing is left that conflicts. -/
theorem install_discards_conflicts_monotonic :
    ((stale true).installSnapshot snapshotAtTwo {}).2 =
        .installSnapshot { term := 2, success := true } ∧
      (∀ e ∈ ((stale true).installSnapshot snapshotAtTwo {}).1.logs, e.index ≤ 2 →
        ∀ l, leaderOfTwo.getLog e.index = some l → e.term = l.term) :=
  ⟨by decide, ((install_discards_conflicts (stale true) snapshotAtTwo {} leaderOfTwo
    { term := 2, success := true } (by decide) rfl rfl (by decide)).mpr (.inl rfl)).1⟩

variable {req : InstallSnapshotRequest}

end Raft

namespace Process

variable {σ ρ : Type} {fsm : FSM σ ρ} {initial : σ} {s s' : Process σ ρ} {work : Work} {env : Env}

/-- The FSM thread and the batches on their way to it are not ahead of the last
applied index. -/
def Behind (s : Process σ ρ) : Prop := Queued 0 s.raft.lastApplied s.thread s.fsmMutateCh

theorem Behind.main (h : Behind s) (hup : s.raft.down = false) (hs : MainStep fsm s work env s')
    (hup' : s'.raft.down = false) : Behind s' := by
  unfold Behind at h ⊢
  cases hs with
  | proceed hwork ho =>
    obtain ⟨-, futures, happlies⟩ := perform_applies hup hwork ho hup'
    exact h.append (Nat.zero_le _) happlies.le happlies.sorted.1 happlies.sorted.2 _
  | refused hwork ho hsame =>
    have hkept := sameData_of_not_grown hup hwork ho hsame
    exact hkept.lastApplied ▸ h
  | @install o snapshot ok thread thread' acknowledged hwork hdrained hrestore ho hgrown _ =>
    have hqueued := (h.drained hdrained).1
    rcases lastIndex_restore hrestore with ⟨rfl, hthread⟩ | ⟨rfl, hthread⟩
    · rcases perform_snapshot hup hwork ho with hkept | ⟨-, hdone⟩ | ⟨hfailed, -⟩
      · exact absurd hgrown (not_grown_of_sameData hkept)
      · have happlied : o.raft.lastApplied = snapshot.metadata.index := by
          rcases hdone with ⟨req, c, index, -, rfl, hi⟩ | ⟨user, -, rfl, hr⟩
          · exact hi.lastApplied
          · exact hr.lastApplied
        exact ⟨(hthread.trans happlied.symm).le, .inr (Nat.zero_le _), by simp, by simp, by simp⟩
      · cases hfailed
    · rcases perform_snapshot hup hwork ho with hkept | ⟨hrestored, -⟩ | ⟨-, hwritten⟩
      · exact absurd hgrown (not_grown_of_sameData hkept)
      · cases hrestored
      · have happlied : o.raft.lastApplied = s.raft.lastApplied := hwritten.lastApplied
        refine ⟨?_, .inr (Nat.zero_le _), by simp, by simp, by simp⟩
        show thread'.lastIndex ≤ o.raft.lastApplied
        rw [hthread, happlied]
        exact hqueued.le
  | panicked => simp at hup'

theorem Behind.beside (h : Behind s) {a : ProcessAction} (hs : BesideStep fsm s a s') : Behind s' := by
  unfold Behind at h ⊢
  cases hs with
  | applied hch hbatch =>
    rw [hch] at h
    exact (h.applyBatch hbatch).1
  | persist =>
    unfold Process.persist
    split <;> exact h
  | @compact env index =>
    have hkept : (s.raft.compactLogs index env).lastApplied = s.raft.lastApplied := by
      rw [(Raft.compactLogs_frame s.raft index env).1]
    exact hkept ▸ h
  | panicked | snapped | configurations | setLastSnapshot => exact h

theorem Behind.step {a : ProcessAction} (h : s.raft.down = false → Behind s)
    (hs : s.step fsm initial a = some s') : s'.raft.down = false → Behind s' := by
  refine step_cases (P := fun s' => s'.raft.down = false → Behind s') hs ?_ ?_ ?_ ?_
  · intro env r _ _ _ _
    exact ⟨Nat.zero_le _, .inl rfl, by simp, by simp, by simp⟩
  · intro work env s' _ hup hmain hup'
    exact (h hup).main hup hmain hup'
  · intro work env o _ _ _ hup'
    simp at hup'
  · intro s' hup hbeside _
    exact (h hup).beside hbeside

/-- Such a follower before it is started; by default it keeps many trailing logs. -/
def staleStart : Process Nat Nat where
  raft := { Raft.stale false with currentTerm := 0, lastLogIndex := 0, lastLogTerm := 0, down := true }
  thread := { state := 0 }

/-- It installs a snapshot up to the leader's entry 2 of term 2, and acknowledges it.
Its own entries 2 and 3 of term 1 stay in the log. -/
theorem install_keeps_conflicts :
    ∃ s s' : Process Nat Nat,
      (system counter 0).Reachable (fun _ a => Calm a) s ∧ s.raft.state = .follower ∧
      s.step counter 0 (given (.rpc (.installSnapshot Raft.snapshotAtTwo))) = some s' ∧
      s'.acknowledged = [2] ∧
      Raft.leaderOfTwo.map (fun l => (l.index, l.term)) = [(1, 1), (2, 2)] ∧
      s.raft.logs.map (fun l => (l.index, l.term)) = [(1, 1), (2, 1), (3, 1)] ∧
      s'.raft.logs.map (fun l => (l.index, l.term)) = [(1, 1), (2, 1), (3, 1)] := by
  simp only [exists_and_left]
  exact Lib.System.exists_reachable (s := staleStart) ⟨_, _, _, _, rfl⟩ (booted.map (fun a _ => a)) (by decide +kernel)

end Process

end PerfRaft
