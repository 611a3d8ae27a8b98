import PerfRaft.Proofs.Coherence
import PerfRaft.Proofs.LogCache
import PerfRaft.Proofs.Reign

namespace PerfRaft

namespace Raft

variable {r r' : Raft} {n : Nat} {env : Env}

/-- The last index is that of everything there is in the two stores. -/
structure KnowsLast (r : Raft) : Prop where
  logs : ∀ e ∈ r.logs, e.index ≤ r.getLastIndex
  snapshots : ∀ t ∈ r.snapshots, t.metadata.index ≤ r.getLastIndex

variable {read : Nat → Option Log}

/-- A log cache answers as the store does. -/
theorem ReadsLog.getLog (h : r.ReadsLog read) (index : Nat) :
    read index = r.logs.getLog index := by
  cases h with
  | store => rfl
  | cached hb hnew requests hsame =>
    rw [((LogCache.agrees_new hnew).calls hb requests).getLog, hsame]

/-- The log has no entry at `n`, and goes on above it. -/
structure Hole (n : Nat) (r : Raft) : Prop where
  last : n ≤ r.lastLogIndex
  empty : ∀ e ∈ r.logs, e.index ≠ n

theorem Hole.extends (h : Hole n r) (hext : Extends r r') : Hole n r' where
  last := h.last.trans hext.last
  empty := by
    intro e he
    rcases hext.logs e he with hold | hnew
    · exact h.empty e hold
    · have hlast := h.last
      omega

theorem Hole.getLog (h : Hole n r) : r.logs.getLog n = none := by
  rw [Option.eq_none_iff_forall_ne_some]
  intro e he
  exact h.empty e (LogStore.mem_of_getLog he) (LogStore.index_of_getLog he)

/-- Reading a range of entries in one go does not get over the hole. -/
theorem Hole.setNewLogsFrom (h : Hole n r) (hread : r.ReadsLog read)
    {nextIndex lastIndex : Nat} (hnext : nextIndex ≤ n) {entries : List Log}
    (hentries : r.setNewLogsFrom read nextIndex lastIndex = some entries) :
    ∀ e ∈ entries, e.index < n := by
  unfold Raft.setNewLogsFrom at hentries
  have hshort : n ∉ r.newLogsRange nextIndex lastIndex := by
    intro hmem
    have hfound := (LogStore.mapM_read hentries).1 n hmem
    rw [hread.getLog, h.getLog] at hfound
    cases hfound
  intro e he
  obtain ⟨i, hi, hget⟩ := (LogStore.mapM_read hentries).2 e he
  rw [hread.getLog] at hget
  rw [LogStore.index_of_getLog hget]
  unfold newLogsRange at hi hshort
  simp only [List.mem_range'_1, not_and, Nat.not_lt] at hi hshort
  exact hi.2.trans_le (hshort hnext)

theorem Hole.setupAppendEntriesFrom (h : Hole n r) (hread : r.ReadsLog read)
    {term nextIndex lastIndex : Nat} (hnext : nextIndex ≤ n) {req : AppendEntriesRequest}
    (hreq : r.setupAppendEntriesFrom read term nextIndex lastIndex = some req) :
    ∀ e ∈ req.entries, e.index < n := by
  unfold Raft.setupAppendEntriesFrom at hreq
  split at hreq
  · rename_i entries _ hentries
    rw [← Option.some.inj hreq]
    exact h.setNewLogsFrom hread hnext hentries
  · cases hreq

theorem RestoresUser.mem_logs {user : UserSnapshot} (hr : RestoresUser r user env r') {e : Log}
    (he : e ∈ r'.logs) : e ∈ r.logs := by
  rw [hr.logs] at he
  split at he
  · exact mem_compactLogsWithTrailing he
  · exact he

/-- A restore leaves a hole at the index of its snapshot. -/
theorem hole_of_restore {user : UserSnapshot} (hlast : r.KnowsLast)
    (hr : RestoresUser r user env r') :
    Hole (r.userSnapshot user).metadata.index r' where
  last := hr.lastLogIndex.ge
  empty := by
    intro e he heq
    have hold : e ∈ r.logs := hr.mem_logs he
    have hbelow := hlast.logs e hold
    have hindex : e.index = max r.getLastIndex user.index + 1 := heq
    have hmax := Nat.le_max_left r.getLastIndex user.index
    omega

end Raft

variable {σ ρ : Type}

/-- No snapshot in the store has a higher index than the newest one. -/
def Topped (snapshots : List Snapshot) : Prop :=
  ∀ t ∈ snapshots, t.metadata.index ≤ snapshotIndex snapshots

theorem Topped.addSnapshot {snapshots : List Snapshot} {snapshot : Snapshot} (h : Topped snapshots)
    (hnew : NotOlder snapshots snapshot.metadata.index snapshot.metadata.term)
    (habove : snapshotIndex snapshots ≤ snapshot.metadata.index) :
    Topped (addSnapshot snapshot snapshots) := by
  have hindex : snapshotIndex (PerfRaft.addSnapshot snapshot snapshots) = snapshot.metadata.index := by
    unfold snapshotIndex
    rw [head?_addSnapshot hnew]
    rfl
  intro t ht
  rw [hindex]
  rcases Raft.mem_addSnapshot ht with rfl | hold
  · exact Nat.le_refl _
  · exact (h t hold).trans habove

namespace Process

variable {fsm : FSM σ ρ} {initial : σ} {s s₁ s' : Process σ ρ} {user : UserSnapshot}
  {work : Work} {env : Env}

/-- What a step must keep to if the last index is to cover the two stores: that of the
last entry to stay the one on disk, so that above all no snapshot arrives while another is
being taken; and a process is started on stores whose newest snapshot is the highest. -/
def KeepsIndex (fsm : FSM σ ρ) (s : Process σ ρ) (a : ProcessAction) : Prop :=
  KeepsLast fsm s a ∧ (s.raft.down = true → Topped s.raft.snapshots)

/-- The newest snapshot is the last one, or `takeSnapshot` is about to set it. -/
theorem LastKnown.snapshotIndex_le (h : LastKnown s) :
    snapshotIndex s.raft.snapshots ≤ s.raft.getLastIndex := by
  have htaking := h.taking
  have hlast (hnew : s.raft.Newest s.raft.lastSnapshotIndex s.raft.lastSnapshotTerm) :
      snapshotIndex s.raft.snapshots ≤ s.raft.getLastIndex := by
    rw [hnew.1]
    exact Nat.le_max_right _ _
  cases ht : s.taking with
  | closed index term =>
    rw [ht] at htaking
    rw [htaking.1.1]
    exact htaking.2.le_getLastIndex
  | compacting index =>
    rw [ht] at htaking
    exact hlast htaking.1
  | _ =>
    rw [ht] at htaking
    exact hlast htaking

theorem LastKnown.knowsLast (h : LastKnown s) (htop : Topped s.raft.snapshots) : s.raft.KnowsLast where
  logs := fun e he => (h.coherent.below e he).trans (Nat.le_max_left _ _)
  snapshots := fun t ht => (htop t ht).trans h.snapshotIndex_le

theorem LastKnown.topped_main (h : LastKnown s) (htop : Topped s.raft.snapshots)
    (hup : s.raft.down = false) (hok : KeepsLast fsm s (.main work env))
    (hs : MainStep fsm s work env s') (hup' : s'.raft.down = false) : Topped s'.raft.snapshots := by
  obtain ⟨henv, hinstallable, happend⟩ := hok
  cases hs with
  | proceed hwork ho =>
    dsimp only
    rw [(h.perform hup henv happend hwork ho).snapshots]
    exact htop
  | refused hwork ho hsame =>
    dsimp only
    rw [(sameData_of_not_grown hup hwork ho hsame).snapshots]
    exact htop
  | @install o snapshot ok thread thread' acknowledged hwork hdrained hrestore ho hgrown _ =>
    have hinst := hinstallable snapshot hwork
    have hwritten : o.raft.snapshots = addSnapshot snapshot s.raft.snapshots := by
      rcases perform_snapshot hup hwork ho with
        hkept | ⟨-, ⟨req, c, index, -, rfl, hi⟩ | ⟨user, -, rfl, hr⟩⟩ | ⟨-, hwritten⟩
      · exact absurd hgrown (not_grown_of_sameData hkept)
      · exact hi.snapshots
      · exact hr.snapshots
      · exact hwritten.snapshots
    have htaking := h.taking
    rw [hinst.taking_idle] at htaking
    dsimp only
    rw [hwritten]
    exact htop.addSnapshot hinst.newest (htaking.1.le.trans hinst.above)
  | panicked => simp at hup'

theorem LastKnown.topped_beside (h : LastKnown s) (htop : Topped s.raft.snapshots)
    {a : ProcessAction} (hok : KeepsLast fsm s a) (hs : BesideStep fsm s a s') :
    Topped s'.raft.snapshots := by
  cases hs with
  | @persist env index term state committed committedIndex hconfigured =>
    have htaking := h.taking
    rw [hconfigured] at htaking
    obtain ⟨hnew, hfits⟩ := hok (index, term) (by rw [hconfigured]; rfl)
    unfold Process.persist
    split
    · exact htop
    · exact htop.addSnapshot hnew (htaking.1.le.trans hfits.1)
  | @compact env index _ =>
    dsimp only
    unfold Raft.compactLogs
    rcases Raft.compactLogsWithTrailing_eq s.raft index s.raft.lastLogIndex
      s.raft.conf.trailingLogs env with hsame | ⟨maxLog, -, -, -, hsame⟩
    · rw [hsame]
      exact htop
    · rw [hsame]
      exact htop
  | _ => exact htop

theorem knowsLast_reachable (h : (system fsm initial).Reachable (KeepsIndex fsm) s)
    (hup : s.raft.down = false) : s.raft.KnowsLast := by
  have hinv : s.raft.down = false → LastKnown s ∧ Topped s.raft.snapshots := by
    refine Lib.System.Reachable.invariant
      (P := fun s => s.raft.down = false → LastKnown s ∧ Topped s.raft.snapshots) ?_ ?_ h
    · rintro s ⟨conf, currentTerm, logs, snapshots, rfl⟩ hup
      simp at hup
    · intro s a s' hs ⟨hok, hstart⟩ hstep hup'
      refine ⟨LastKnown.step (fun hup => (hs hup).1) hok hstep hup', ?_⟩
      refine step_cases (P := fun s' => s'.raft.down = false → Topped s'.raft.snapshots) hstep
        ?_ ?_ ?_ ?_ hup'
      · intro env r _ hdown hr _
        dsimp only
        rw [(Raft.started_newRaft hr).snapshots]
        exact hstart hdown
      · rintro work env s' rfl hup hmain hup'
        exact (hs hup).1.topped_main (hs hup).2 hup hok hmain hup'
      · intro work env o _ _ _ hup'
        simp at hup'
      · intro s' hup hbeside _
        exact (hs hup).1.topped_beside (hs hup).2 hok hbeside
  exact (hinv hup).1.knowsLast (hinv hup).2

/-- A restore that the leader survives with one more snapshot has succeeded. -/
theorem restored_of_reign (h : s.reign fsm initial (.main (.restore user) env) = some s₁)
    (hgrown : s.raft.snapshots.length < s₁.raft.snapshots.length) :
    s.raft.down = false ∧ ∃ env', Raft.RestoresUser s.raft user env' s₁.raft := by
  obtain ⟨hstep, hup', hleader⟩ := reign_eq h
  revert hgrown hup' hleader
  refine step_cases (P := fun s₁ => s.raft.snapshots.length < s₁.raft.snapshots.length →
    s₁.raft.down = false → s₁.raft.state = .leader →
    s.raft.down = false ∧ ∃ env', Raft.RestoresUser s.raft user env' s₁.raft) hstep ?_ ?_ ?_ ?_
  · intro env r heq
    cases heq
  · rintro work env s₁ ⟨⟩ hup hmain hgrown hup' hleader
    have hrival : s.Unrivalled (.main (.restore user) env) := trivial
    cases hmain with
    | proceed hwork _ => cases hwork
    | refused _ _ hsame => exact absurd hgrown hsame
    | install acknowledged hwork _ _ ho _ =>
      obtain ⟨user', heq, hr⟩ := restore_of_grown hup hrival hwork ho hup' hleader hgrown
      cases heq
      exact ⟨hup, _, hr⟩
    | panicked => simp at hup'
  · intro work env o heq
    cases heq
  · intro s₁ _ hbeside
    cases hbeside

/-- A leader, after a run in which no snapshot was overtaken by another, restores a snapshot
of its user. The index of the new snapshot lies above all there was, and as long as the
reign lasts no AppendEntries request goes over it: with a next index up to it, the request
cannot be built because an entry is not found, or all its entries lie below. -/
theorem hole_not_jumped (hreach : (system fsm initial).Reachable (KeepsIndex fsm) s)
    (hrestore : s.reign fsm initial (.main (.restore user) env) = some s₁)
    (hgrown : s.raft.snapshots.length < s₁.raft.snapshots.length) :
    user.index < (s.raft.userSnapshot user).metadata.index ∧
      (∀ e ∈ s.raft.logs, e.index < (s.raft.userSnapshot user).metadata.index) ∧
      (∀ t ∈ s.raft.snapshots, t.metadata.index < (s.raft.userSnapshot user).metadata.index) ∧
      ∀ s', (reigning fsm initial).Reaches Unrivalled s₁ s' → ∀ read, s'.raft.ReadsLog read →
        ∀ term nextIndex lastIndex, nextIndex ≤ (s.raft.userSnapshot user).metadata.index →
          s'.raft.setupAppendEntriesFrom read term nextIndex lastIndex = none ∨
            ∃ req, s'.raft.setupAppendEntriesFrom read term nextIndex lastIndex = some req ∧
              ∀ e ∈ req.entries, e.index < (s.raft.userSnapshot user).metadata.index := by
  obtain ⟨hup, env', hr⟩ := restored_of_reign hrestore hgrown
  have hlast := knowsLast_reachable hreach hup
  have hindex : (s.raft.userSnapshot user).metadata.index = max s.raft.getLastIndex user.index + 1 :=
    rfl
  have hbelow (i : Nat) (hi : i ≤ s.raft.getLastIndex) :
      i < (s.raft.userSnapshot user).metadata.index := by
    have hmax := Nat.le_max_left s.raft.getLastIndex user.index
    omega
  refine ⟨?_, fun e he => hbelow _ (hlast.logs e he), fun t ht => hbelow _ (hlast.snapshots t ht), ?_⟩
  · rw [hindex]
    exact Nat.lt_succ_of_le (Nat.le_max_right _ _)
  intro s' hrun read hread term nextIndex lastIndex hnext
  have hhole : s'.raft.down = false ∧ Raft.Hole (s.raft.userSnapshot user).metadata.index s'.raft := by
    refine hrun.invariant (P := fun s' => s'.raft.down = false ∧ Raft.Hole _ s'.raft) ?_ ?_
    · rintro t a t' ⟨hup, hhole⟩ hrival hstep
      exact ⟨(reign_eq hstep).2.1, hhole.extends (extends_reign hup hrival hstep)⟩
    · exact ⟨(reign_eq hrestore).2.1, Raft.hole_of_restore hlast hr⟩
  cases hreq : s'.raft.setupAppendEntriesFrom read term nextIndex lastIndex with
  | none => exact .inl rfl
  | some req => exact .inr ⟨req, rfl, hhole.2.setupAppendEntriesFrom hread hnext hreq⟩

instance (fsm : FSM σ ρ) (s : Process σ ρ) : DecidablePred (KeepsIndex fsm s) :=
  fun a => inferInstanceAs (Decidable (KeepsLast fsm s a ∧ (_ → ∀ t ∈ s.raft.snapshots, _)))

/-- The leader `B` is gone, and `C` votes for the server. -/
def electedByC : List ProcessAction :=
  [given .heartbeatTimer, given .run, given .enter, given .loopTest,
    given (.vote (voterNamed 65) .failed), given .loopTest,
    given (.vote (voterNamed 67) (.response { header := {}, term := 3, granted := true })),
    given .run, given .enter, given .enter, given .loopTest]

/-- A server that has taken a snapshot at 5 is elected with the last index 7. It restores
one that its user took at 9: nothing up to the hole at 10 is sent across it. -/
theorem hole_not_jumped_elected :
    ∃ s s₁ : Process Nat Nat, (system counter 0).Reachable (KeepsIndex counter) s ∧
      s.raft.snapshots.map (·.metadata.index) = [5] ∧ s.raft.getLastIndex = 7 ∧
      s.reign counter 0 (.main (.restore { index := 9, size := 0, contents := [] }) {}) = some s₁ ∧
      s.raft.snapshots.length < s₁.raft.snapshots.length ∧
      ∀ s', (reigning counter 0).Reaches Unrivalled s₁ s' →
        ∀ read, s'.raft.ReadsLog read → ∀ term nextIndex lastIndex, nextIndex ≤ 10 →
          s'.raft.setupAppendEntriesFrom read term nextIndex lastIndex = none ∨
            ∃ req, s'.raft.setupAppendEntriesFrom read term nextIndex lastIndex = some req ∧
              ∀ e ∈ req.entries, e.index < 10 := by
  obtain ⟨s, hreach, hsnapshots, hlast, s₁, hs₁, hgrown⟩ : ∃ s : Process Nat Nat,
      (system counter 0).Reachable (KeepsIndex counter) s ∧
      s.raft.snapshots.map (·.metadata.index) = [5] ∧ s.raft.getLastIndex = 7 ∧ ∃ s₁,
      s.reign counter 0 (.main (.restore { index := 9, size := 0, contents := [] }) {}) = some s₁ ∧
      s.raft.snapshots.length < s₁.raft.snapshots.length :=
    Lib.System.exists_reachable init_thirdStart
      ((booted ++ commandsFrom 1 1 4 5 ++ commandsFrom 5 2 1 5 ++ [ProcessAction.apply] ++
        takeSnapshot ++ electedByC).map (fun a _ => a)) (by decide +kernel)
  have hhole := (hole_not_jumped hreach hs₁ hgrown).2.2.2
  have hindex : (s.raft.userSnapshot { index := 9, size := 0, contents := [] }).metadata.index = 10 := by
    show max s.raft.getLastIndex 9 + 1 = 10
    rw [hlast]
    rfl
  rw [hindex] at hhole
  exact ⟨s, s₁, hreach, hsnapshots, hlast, hs₁, hgrown, hhole⟩

/-- While the server takes a snapshot at 5, its leader `B` sends it the snapshot at 101
that a user has restored there. Then the server is elected. -/
def setBack : List ProcessAction :=
  booted ++ commandsFrom 1 1 4 5 ++ commandsFrom 5 2 1 5 ++
    [.apply, .snapshot, .configurations, given .loopTest,
      given (.rpc (.installSnapshot
        { header := { id := [66], addr := [66] }, term := 2, lastLogIndex := 101, lastLogTerm := 2
          configuration :=
            encodeConfiguration ⟨[voterNamed 65, voterNamed 66, voterNamed 67]⟩
          configurationIndex := 1 })),
      given .loopTest, .persist {}, .setLastSnapshot, .compact {}] ++ electedByC

/-- No store fails. The new leader chooses the index 8 for the snapshot of its user, and
has one at 101. -/
theorem hole_below_snapshot :
    ∃ s s₁ : Process Nat Nat, (system counter 0).Reachable (fun _ a => Calm a) s ∧
      s.reign counter 0 (.main (.restore { index := 0, size := 0, contents := [] }) {}) = some s₁ ∧
      s.raft.snapshots.length < s₁.raft.snapshots.length ∧
      ∃ t ∈ s.raft.snapshots,
        (s.raft.userSnapshot { index := 0, size := 0, contents := [] }).metadata.index = 8 ∧
          t.metadata.index = 101 := by
  simp only [exists_and_left]
  exact Lib.System.exists_reachable init_thirdStart (setBack.map (fun a _ => a)) (by decide +kernel)

end Process

end PerfRaft
