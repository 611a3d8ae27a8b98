import PerfRaft.Proofs.Tracking

namespace PerfRaft

namespace Raft

variable {r r' : Raft} {env : Env} {o : Outcome} {input : Input}

/-- What a step must not bring, besides a failing store, if the configurations are to
stay those on disk. -/
def Tracking (r : Raft) : Input → Prop
  | .rpc (.appendEntries a) | .heartbeat a => Orderly r a
  | .rpc (.installSnapshot req) => Supersedes r req
  | .configurationChange _ _ => 2 ≤ r.conf.protocolVersion
  | .restart => (snapshotConfiguration r.snapshots).2 ≤ snapshotIndex r.snapshots
  | _ => True

theorem Tracking.append {a : AppendEntriesRequest} (h : Tracking r input)
    (ha : input.append? = some a) : Orderly r a := by
  cases input with
  | rpc cmd =>
    cases cmd with
    | appendEntries a' =>
      cases ha
      exact h
    | _ => simp [Input.append?] at ha
  | heartbeat a' =>
    cases ha
    exact h
  | _ => simp [Input.append?] at ha

theorem Tracked.stepUp (h : Tracked r) (hup : r.down = false) (henv : env.Faultless)
    (hrestore : env.restoreFSM = true) (hin : Tracking r input)
    (ho : r.stepUp env input = some o) : Tracked o.raft := by
  cases dataStep_stepUp ho hup with
  | keep hsame => exact h.sameData hsame
  | append ha hsame => exact (h.appendEntries henv (hin.append ha)).sameData hsame
  | @install req hsame =>
    rcases installSnapshot_cases r req env with hkept | ⟨-, c, index, hinstalls⟩ | ⟨hfailed, -⟩
    · exact h.sameData (hkept.trans hsame)
    · exact h.installs henv hin (hinstalls.sameData hsame)
    · simp [hrestore] at hfailed
  | dispatch _ _ hplain hsame => exact (h.dispatchLogs henv hplain).sameData hsame
  | configure hstable hsame => exact (h.appendConfigurationEntry henv hin hstable).sameData hsame
  | @commit ls stepDown hsame => exact (h.advances (advances_leaderCommit r ls stepDown)).sameData hsame

instance : Decidable (Orderly r a) :=
  decidable_of_iff
    (a.entries.Pairwise (fun e e' => e.index < e'.index) ∧
      (∀ e ∈ r.added a.entries, e.decodes = true) ∧
      (∀ e ∈ r.added a.entries, e.configuration?.isSome = true → r.lastSnapshotIndex < e.index) ∧
      ∀ e ∈ (r.added a.entries).head?, e.index ≤ r.lastLogIndex →
        e.index ≤ r.configurations.latestIndex →
          r.configurations.committedIndex < e.index ∨
            r.configurations.latestIndex ≤ r.lastSnapshotIndex)
    ⟨fun ⟨h₁, h₂, h₃, h₄⟩ => ⟨h₁, h₂, h₃, h₄⟩, fun h => ⟨h.sorted, h.decodes, h.above, h.cuts⟩⟩

instance : Decidable (Supersedes r req) :=
  decidable_of_iff
    (NotOlder r.snapshots req.lastLogIndex req.lastLogTerm ∧
      req.configurationIndex ≤ req.lastLogIndex ∧
      (r.conf.monotonicLogs = true ∨
        ∀ e ∈ r.logs, req.lastLogIndex < e.index → e.configuration? = none))
    ⟨fun ⟨h₁, h₂, h₃⟩ => ⟨h₁, h₂, h₃⟩, fun h => ⟨h.newest, h.covered, h.above⟩⟩

instance : DecidablePred (Tracking r) := fun input => by
  cases input with
  | rpc cmd =>
    cases cmd with
    | appendEntries a => exact inferInstanceAs (Decidable (Orderly r a))
    | installSnapshot req => exact inferInstanceAs (Decidable (Supersedes r req))
    | _ => exact inferInstanceAs (Decidable True)
  | heartbeat a => exact inferInstanceAs (Decidable (Orderly r a))
  | configurationChange _ _ => exact inferInstanceAs (Decidable (_ ≤ _))
  | restart => exact inferInstanceAs (Decidable (_ ≤ _))
  | _ => exact inferInstanceAs (Decidable True)

end Raft

/-- No store fails, the FSM can be restored, and the input keeps the configurations
those on disk. -/
def KeepsTrack (s : ServerRun) (a : Input × Env) : Prop :=
  a.2.Faultless ∧ a.2.restoreFSM = true ∧ s.raft.Tracking a.1

instance (s : ServerRun) (a : Input × Env) : Decidable (KeepsTrack s a) :=
  inferInstanceAs (Decidable (_ ∧ _ ∧ _))

theorem tracked_of_reachable {s : ServerRun} (h : serverSystem.Reachable KeepsTrack s) :
    s.raft.down = false → s.raft.Tracked := by
  refine (server_invariant (P := fun r => r.down = false → r.Tracked) (Q := fun _ => True)
    ?_ ?_ h).1
  · intro conf currentTerm logs snapshots hup
    simp at hup
  · intro s a o htracked hok ho
    refine ⟨fun _ => ?_, fun _ _ => trivial⟩
    obtain ⟨henv, hrestore, hin⟩ := hok
    refine Raft.step_cases (P := fun o => o.raft.Tracked) ho ?_ ?_
    · intro r' _ hinput hr
      rw [hinput] at hin
      exact Raft.tracked_newRaft hin hr
    · intro hup hs
      exact (htracked hup).stepUp hup henv hrestore hin hs

/-- In every run whose steps all keep track, the latest configuration of a running
server is the last one on disk, and a restart would find the same. -/
theorem latest_on_disk {s : ServerRun} (h : serverSystem.Reachable KeepsTrack s)
    (hup : s.raft.down = false) :
    (s.raft.configurations.latest, s.raft.configurations.latestIndex) =
        diskConfiguration s.raft.snapshots s.raft.logs ∧
      ∀ env r, Raft.newRaft s.raft.conf s.raft.stable s.raft.logs s.raft.snapshots env = some r →
        r.configurations.latest = s.raft.configurations.latest ∧
          r.configurations.latestIndex = s.raft.configurations.latestIndex := by
  have htracked := tracked_of_reachable h hup
  refine ⟨htracked.disk, ?_⟩
  intro env r hr
  have hdisk := (Raft.tracked_newRaft htracked.below.base hr).disk
  have hstarted := Raft.started_newRaft hr
  rw [hstarted.snapshots, hstarted.logs, ← htracked.disk, Prod.mk.injEq] at hdisk
  exact hdisk

/-- A server of a bootstrapped cluster, before its first start. -/
def followerStart : ServerRun :=
  ⟨{ conf := { localID := [65], localAddr := [65] }
     stable := { currentTerm := 1 }
     logs := [{ index := 1, term := 1, type := .logConfiguration
                data := encodeConfiguration ⟨[voterNamed 65, voterNamed 66]⟩ }]
     down := true }, []⟩

/-- The configuration with a third voter, written at `index`. -/
def grownEntry (index term : Nat) : Log :=
  { index := index, term := term, type := .logConfiguration
    data := encodeConfiguration ⟨[voterNamed 65, voterNamed 66, voterNamed 67]⟩ }

/-- Entries from the leader `B`, after the entry at `prev`. -/
def entriesFrom (term prev prevTerm : Nat) (entries : List Log) (commit : Nat) : Input :=
  .rpc (.appendEntries
    { header := { id := [66], addr := [66] }, term := term, prevLogEntry := prev
      prevLogTerm := prevTerm, entries := entries, leaderCommitIndex := commit })

/-- A snapshot at `index` from the leader `B`, taken with the first configuration. -/
def snapshotFrom (term index lastTerm : Nat) : Input :=
  .rpc (.installSnapshot
    { header := { id := [66], addr := [66] }, term := term, lastLogIndex := index
      lastLogTerm := lastTerm
      configuration := encodeConfiguration ⟨[voterNamed 65, voterNamed 66]⟩, configurationIndex := 1 })

/-- A configuration entry arrives, a later leader overwrites it, and then sends a
snapshot. -/
theorem latest_on_disk_overwritten :
    ∃ s, serverSystem.Reachable KeepsTrack s ∧ s.raft.down = false ∧
      s.raft.configurations.latestIndex = 1 ∧ s.raft.lastSnapshotIndex = 3 ∧
      (s.raft.configurations.latest, s.raft.configurations.latestIndex) =
        diskConfiguration s.raft.snapshots s.raft.logs := by
  obtain ⟨s, hreach, hup, hlatest, hsnapshot⟩ : ∃ s, serverSystem.Reachable KeepsTrack s ∧
      s.raft.down = false ∧ s.raft.configurations.latestIndex = 1 ∧ s.raft.lastSnapshotIndex = 3 :=
    Lib.System.exists_reachable (s := followerStart) ⟨_, _, _, _, rfl⟩
      ([.restart, .run, .enter, .loopTest, entriesFrom 2 1 1 [grownEntry 2 2] 1, .loopTest,
        entriesFrom 3 1 1 [{ index := 2, term := 3, type := .logNoop }] 2, .loopTest,
        snapshotFrom 3 3 3].map (fun input _ => (input, {}))) (by decide +kernel)
  exact ⟨s, hreach, hup, hlatest, hsnapshot, (latest_on_disk hreach hup).1⟩

/-- A snapshot that was sent before the configuration entry at 5, and arrives after
it. The entry stays in the log, but the server forgets its configuration. -/
theorem latest_forgotten :
    ∃ s r, serverSystem.Reachable (fun _ a => a.2 = {}) s ∧ s.raft.down = false ∧
      s.raft.configurations.latestIndex = 1 ∧
      (diskConfiguration s.raft.snapshots s.raft.logs).2 = 5 ∧
      Raft.newRaft s.raft.conf s.raft.stable s.raft.logs s.raft.snapshots {} = some r ∧
      r.configurations.latestIndex = 5 ∧ r.configurations.latest ≠ s.raft.configurations.latest := by
  simp only [exists_and_left]
  exact Lib.System.exists_reachable (s := followerStart) ⟨_, _, _, _, rfl⟩
    ([.restart, .run, .enter, .loopTest,
      entriesFrom 2 1 1 [{ index := 2, term := 2, type := .logNoop },
        { index := 3, term := 2, type := .logCommand }, { index := 4, term := 2, type := .logCommand },
        grownEntry 5 2] 5, .loopTest, snapshotFrom 2 3 2].map (fun input _ => (input, {})))
    (by decide +kernel)

end PerfRaft
