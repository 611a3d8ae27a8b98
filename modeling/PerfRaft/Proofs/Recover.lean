import PerfRaft.Recover
import PerfRaft.Proofs.LastEntry

namespace PerfRaft

theorem bind_eq_ok {ε α β : Type} {x : Except ε α} {f : α → Except ε β} {b : β}
    (h : (x >>= f) = .ok b) : ∃ a, x = .ok a ∧ f a = .ok b := by
  cases x with
  | error err => cases h
  | ok a => exact ⟨a, rfl, h⟩

/-- `RecoverCluster` comes to its DeleteRange, and that is done. -/
def RecoverEnv.deletes (env : RecoverEnv) : Bool :=
  decide (env.close = .ok) && decide (env.firstIndex = .ok) && env.deleteRange.applied

/-- The log goes on from the newest snapshot: past it the last term is not lower. Where
the log ends at the snapshot's index, the one of the two that is left has the higher
term. -/
structure Storage.Continues (s : Storage) (env : RecoverEnv) : Prop where
  past : snapshotIndex s.snapshots < s.logs.lastIndex →
    snapshotTerm s.snapshots ≤ (Raft.lastTermOf s.logs).getD 0
  deleted : env.deletes = true → snapshotIndex s.snapshots = s.logs.lastIndex →
    (Raft.lastTermOf s.logs).getD 0 ≤ snapshotTerm s.snapshots
  kept : env.deletes = false → snapshotIndex s.snapshots = s.logs.lastIndex →
    snapshotTerm s.snapshots ≤ (Raft.lastTermOf s.logs).getD 0

/-- The index and term that `RecoverCluster` comes to. -/
def Storage.recoveredEntry (s : Storage) : Nat × Nat :=
  if snapshotIndex s.snapshots < s.logs.lastIndex then
    (s.logs.lastIndex, (Raft.lastTermOf s.logs).getD 0)
  else (snapshotIndex s.snapshots, snapshotTerm s.snapshots)

section

variable {σ ρ : Type} {fsm : FSM σ ρ} {conf : Config} {initial : σ} {s : Storage}
  {configuration : Configuration} {env : RecoverEnv}

theorem replayLogs_ok {logs : LogStore} {reads : List Read} {state state' : σ} {last last' : Nat × Nat}
    {indexes : List Nat} (h : replayLogs fsm logs reads state last indexes = .ok (state', last')) :
    state' = ((indexes.filterMap logs.getLog).filter
        (fun entry => decide (entry.type = .logCommand))).foldl
          (fun state entry => (fsm.apply state entry).1) state ∧
      last' = ((indexes.filterMap logs.getLog).getLast?.map
        (fun entry => (entry.index, entry.term))).getD last := by
  induction indexes generalizing reads state last with
  | nil =>
    cases h
    exact ⟨rfl, rfl⟩
  | cons index rest ih =>
    unfold replayLogs at h
    split at h
    · cases h
    · cases h
    · rename_i entry _ hget
      obtain ⟨hstate, hlast⟩ := ih h
      rw [List.filterMap_cons, hget]
      constructor
      · rw [hstate]
        by_cases htype : entry.type = .logCommand
        · simp [htype]
        · simp [htype]
      · rw [hlast, List.getLast?_cons]
        cases (rest.filterMap logs.getLog).getLast? <;> rfl

/-- The last entry of the log is read last. -/
theorem getLast?_range {logs : LogStore} {n : Nat} (hn : n < logs.lastIndex) :
    ((List.range' (n + 1) (logs.lastIndex - n)).filterMap logs.getLog).getLast?.map
        (fun entry => (entry.index, entry.term)) =
      some (logs.lastIndex, (Raft.lastTermOf logs).getD 0) := by
  obtain ⟨e, he⟩ := LogStore.exists_getLog_lastIndex (Nat.zero_lt_of_lt hn)
  have hsplit : List.range' (n + 1) (logs.lastIndex - n) =
      List.range' (n + 1) (logs.lastIndex - n - 1) ++ [logs.lastIndex] := by
    have hlength : logs.lastIndex - n = logs.lastIndex - n - 1 + 1 := by omega
    rw [hlength, List.range'_1_concat]
    congr 2
    omega
  rw [hsplit, List.filterMap_append, List.filterMap_cons, he, List.filterMap_nil,
    List.getLast?_append, List.getLast?_singleton, Option.some_or, Option.map_some,
    LogStore.index_of_getLog he, Raft.lastTermOf_eq (Nat.zero_lt_of_lt hn) he]

theorem restoreSnapshots_newest {opens : List Bool} {snapshots : List Snapshot}
    (hopen : opens.headD true = true) (hok : (Process.startFSM fsm initial snapshots).2 = true) :
    restoreSnapshots fsm opens initial snapshots =
      ((Process.startFSM fsm initial snapshots).1, snapshots) := by
  cases snapshots with
  | nil => rfl
  | cons snapshot rest =>
    simp only [Process.startFSM] at hok ⊢
    unfold restoreSnapshots
    rw [hopen, if_neg Bool.noConfusion]
    split
    · rename_i hrestore
      rw [hrestore]
    · rename_i hrestore
      rw [hrestore] at hok
      cases hok

/-- What `RecoverCluster` has come to before it writes anything. -/
theorem recoveredState_ok {state : σ} {last : Nat × Nat}
    (hopen : env.opens.headD true = true) (hok : (Process.startFSM fsm initial s.snapshots).2 = true)
    (h : recoveredState fsm initial s env = .ok (state, last)) :
    state = s.state fsm initial ∧ last = s.recoveredEntry ∧
      (snapshotIndex s.snapshots = 0 → snapshotTerm s.snapshots = 0) := by
  unfold recoveredState at h
  rw [restoreSnapshots_newest hopen hok] at h
  obtain ⟨-, -, h⟩ := bind_eq_ok h
  dsimp only at h
  split at h
  · cases h
  rename_i hrestored
  obtain ⟨-, -, h⟩ := bind_eq_ok h
  obtain ⟨hstate, hlast⟩ := replayLogs_ok h
  refine ⟨hstate, ?_, ?_⟩
  · rw [hlast]
    unfold Storage.recoveredEntry
    split
    · rename_i hlt
      rw [getLast?_range hlt]
      rfl
    · rename_i hge
      rw [Nat.sub_eq_zero_of_le (Nat.not_lt.mp hge)]
      rfl
  · intro hzero
    by_cases hnone : s.snapshots = []
    · rw [hnone]
      rfl
    · exact absurd ⟨hnone, .inl hzero⟩ hrestored

theorem recoverySink_ok {snapshot : Snapshot}
    (hopen : env.opens.headD true = true) (hok : (Process.startFSM fsm initial s.snapshots).2 = true)
    (h : recoverySink fsm conf initial s configuration env = .ok snapshot) :
    Raft.validateConfig conf = true ∧
      snapshot = recoveredSnapshot fsm configuration (s.state fsm initial) s.recoveredEntry ∧
      (snapshotIndex s.snapshots = 0 → snapshotTerm s.snapshots = 0) := by
  unfold recoverySink at h
  obtain ⟨_, hcheck, h⟩ := bind_eq_ok h
  obtain ⟨⟨state, last⟩, hstate, h⟩ := bind_eq_ok h
  obtain ⟨-, -, h⟩ := bind_eq_ok h
  obtain ⟨-, -, h⟩ := bind_eq_ok h
  obtain ⟨-, -, h⟩ := bind_eq_ok h
  obtain ⟨rfl, rfl, hnone⟩ := recoveredState_ok hopen hok hstate
  refine ⟨?_, (Except.ok.inj h).symm, hnone⟩
  unfold checkRecovery at hcheck
  split at hcheck
  · cases hcheck
  · rename_i hvalid
    simpa using hvalid

/-- What is in the stores once the sink is closed: the new snapshot, and the log as it was
or no log any more. -/
theorem recoverCluster_closed
    (hdone : (recoverCluster fsm conf initial s configuration env).2 = .ok () ∨
      s.snapshots.length < (recoverCluster fsm conf initial s configuration env).1.snapshots.length) :
    ∃ snapshot, recoverySink fsm conf initial s configuration env = .ok snapshot ∧
      (recoverCluster fsm conf initial s configuration env).1 =
        { s with
          snapshots := addSnapshot snapshot s.snapshots
          logs := if env.deletes then [] else s.logs } := by
  unfold recoverCluster at hdone ⊢
  split at hdone
  · simp at hdone
  · rename_i snapshot hsink
    rw [hsink]
    refine ⟨snapshot, rfl, ?_⟩
    dsimp only at hdone ⊢
    by_cases hclosed : env.close.applied = true
    · simp only [if_pos hclosed]
      unfold RecoverEnv.deletes
      cases env.close with
      | fail applied | crash applied => rfl
      | ok =>
        cases env.firstIndex with
        | fail | crash => rfl
        | ok =>
          cases env.deleteRange.applied with
          | false => rfl
          | true =>
            have hnil := LogStore.deleteRange_all (Nat.le_refl s.logs.lastIndex)
            simp [Write.outcome, Read.outcome, hnil]
    · -- the sink has not reached the store, so `RecoverCluster` has not come past its Close
      exfalso
      rw [Bool.not_eq_true] at hclosed
      simp only [hclosed, Bool.false_eq_true, if_false] at hdone
      cases hw : env.close with
      | ok => simp [hw, Write.applied] at hclosed
      | fail applied => simp [hw, Write.outcome] at hdone
      | crash applied => simp [hw, Write.outcome] at hdone

theorem addSnapshot_newest {snapshot : Snapshot} {snapshots : List Snapshot}
    (hindex : snapshotIndex snapshots ≤ snapshot.metadata.index)
    (hterm : snapshotTerm snapshots ≤ snapshot.metadata.term) :
    addSnapshot snapshot snapshots = snapshot :: snapshots := by
  cases snapshots with
  | nil => rfl
  | cons t rest =>
    have hindex' : t.metadata.index ≤ snapshot.metadata.index := hindex
    have hterm' : t.metadata.term ≤ snapshot.metadata.term := hterm
    unfold addSnapshot
    rw [if_neg (by omega)]

/-- A snapshot of a lower term sorts behind the newest one. -/
theorem addSnapshot_behind {snapshot : Snapshot} {snapshots : List Snapshot}
    (hterm : snapshot.metadata.term < snapshotTerm snapshots) :
    ∃ newest rest rest', snapshots = newest :: rest ∧ addSnapshot snapshot snapshots = newest :: rest' := by
  cases snapshots with
  | nil => exact absurd hterm (Nat.not_lt_zero _)
  | cons t rest =>
    have hterm' : snapshot.metadata.term < t.metadata.term := hterm
    refine ⟨t, rest, addSnapshot snapshot rest, rfl, ?_⟩
    rw [addSnapshot, if_pos (.inl hterm')]

theorem Storage.recoveredEntry_fst (s : Storage) : s.recoveredEntry.1 = s.lastEntry.1 := by
  unfold Storage.recoveredEntry Storage.lastEntry
  dsimp only
  split <;> split <;> dsimp only <;> omega

theorem Storage.lastIndex_le_recoveredEntry (s : Storage) : s.logs.lastIndex ≤ s.recoveredEntry.1 := by
  unfold Storage.recoveredEntry
  split <;> dsimp only <;> omega

theorem Storage.le_recoveredEntry
    (h : snapshotIndex s.snapshots < s.logs.lastIndex →
      snapshotTerm s.snapshots ≤ (Raft.lastTermOf s.logs).getD 0) :
    snapshotIndex s.snapshots ≤ s.recoveredEntry.1 ∧
      snapshotTerm s.snapshots ≤ s.recoveredEntry.2 := by
  unfold Storage.recoveredEntry
  split
  · rename_i hlt
    exact ⟨hlt.le, h hlt⟩
  · exact ⟨Nat.le_refl _, Nat.le_refl _⟩

/-- The last entry of a server that has restored the new snapshot, beside the log that
is left, is the one there was just if the log goes on from the old snapshot. -/
theorem Storage.last_iff (hnone : snapshotIndex s.snapshots = 0 → snapshotTerm s.snapshots = 0)
    (hpast : snapshotIndex s.snapshots < s.logs.lastIndex →
      snapshotTerm s.snapshots ≤ (Raft.lastTermOf s.logs).getD 0)
    {logs : LogStore} (hlogs : logs = if env.deletes then [] else s.logs) :
    (if s.recoveredEntry.1 ≤ logs.lastIndex then (logs.lastIndex, (Raft.lastTermOf logs).getD 0)
      else s.recoveredEntry) = s.lastEntry ↔ s.Continues env := by
  have hzero : s.logs.lastIndex = 0 → (Raft.lastTermOf s.logs).getD 0 = 0 := Raft.lastTermOf_zero
  have hempty : LogStore.lastIndex [] = 0 ∧ (Raft.lastTermOf []).getD 0 = 0 := ⟨rfl, rfl⟩
  have hcontinues : s.Continues env ↔
      (env.deletes = true → snapshotIndex s.snapshots = s.logs.lastIndex →
        (Raft.lastTermOf s.logs).getD 0 ≤ snapshotTerm s.snapshots) ∧
      (env.deletes = false → snapshotIndex s.snapshots = s.logs.lastIndex →
        snapshotTerm s.snapshots ≤ (Raft.lastTermOf s.logs).getD 0) :=
    ⟨fun h => ⟨h.deleted, h.kept⟩, fun h => ⟨hpast, h.1, h.2⟩⟩
  rw [hcontinues, hlogs]
  unfold Storage.recoveredEntry Storage.lastEntry
  cases env.deletes with
  | true =>
    simp only [if_true, hempty]
    generalize (Raft.lastTermOf s.logs).getD 0 = last at *
    grind
  | false =>
    simp only [Bool.false_eq_true, if_false]
    generalize (Raft.lastTermOf s.logs).getD 0 = last at *
    grind

namespace Raft

theorem version_of_newRaft {stable : StableStore} {logs : LogStore} {snapshots : List Snapshot}
    {env : Env} {r : Raft} (h : newRaft conf stable logs snapshots env = some r) :
    conf.protocolVersion < 3 → conf.localID = conf.localAddr := by
  intro hversion
  by_contra hne
  unfold newRaft at h
  split at h
  · cases h
  · rw [if_pos ⟨hversion, hne⟩] at h
    cases h

theorem exists_lastTermOf (logs : LogStore) :
    lastTermOf logs = some ((lastTermOf logs).getD 0) := by
  unfold lastTermOf
  split
  · rename_i hpos
    obtain ⟨e, he⟩ := LogStore.exists_getLog_lastIndex hpos
    rw [he]
    rfl
  · rfl

/-- `NewRaft` on stores whose log does not go past the newest snapshot. -/
theorem newRaft_covered (stable : StableStore) (snapshot : Snapshot) (rest : List Snapshot)
    {logs : LogStore} (hvalid : validateConfig conf = true)
    (hversion : conf.protocolVersion < 3 → conf.localID = conf.localAddr)
    (hcovered : logs.lastIndex ≤ snapshot.metadata.index) :
    ∃ r, newRaft conf stable logs (snapshot :: rest) {} = some r ∧
      r.lastLogIndex = logs.lastIndex ∧ r.lastLogTerm = (lastTermOf logs).getD 0 ∧
      r.lastSnapshotIndex = snapshot.metadata.index ∧ r.lastSnapshotTerm = snapshot.metadata.term ∧
      r.lastApplied = snapshot.metadata.index ∧
      r.configurations.latest = snapshot.metadata.configuration ∧
      r.configurations.committed = snapshot.metadata.configuration := by
  have hlocal : ¬ (conf.protocolVersion < 3 ∧ conf.localID ≠ conf.localAddr) :=
    fun h => h.2 (hversion h.1)
  unfold newRaft
  rw [hvalid, if_neg Bool.noConfusion, if_neg hlocal, if_neg (by simp), exists_lastTermOf logs]
  simp only [restoreSnapshot, Bool.true_eq_false, if_false, setLastSnapshot,
    setCommittedConfiguration, setLatestConfiguration, Nat.sub_eq_zero_of_le hcovered,
    List.range'_zero, scanConfigurations]
  exact ⟨_, rfl, rfl, rfl, rfl, rfl, rfl, rfl, rfl⟩

end Raft

/-- `NewRaft` begins with the newest snapshot, if it can be restored. -/
theorem Storage.newRaft_newest {state : σ} {newest : Snapshot} {rest : List Snapshot}
    (h : s.snapshots = newest :: rest) (hrestore : fsm.restore initial newest.contents = (state, true)) :
    s.newRaft fsm conf initial [] {} =
      (Raft.newRaft conf s.stable s.logs s.snapshots {}).map (fun r =>
        ({ r with snapshots := s.snapshots }, state)) := by
  have hfirst : restoreSnapshots fsm [] initial s.snapshots = (state, s.snapshots) := by
    rw [h]
    simp [restoreSnapshots, hrestore]
  unfold Storage.newRaft
  rw [hfirst]
  have hsome : ¬ (s.snapshots ≠ [] ∧ s.snapshots = []) := fun hboth => hboth.1 hboth.2
  simp only [if_neg hsome]

/-- The stores hold a restorable newest snapshot or none, and a complete log past it.
Whether `RecoverCluster` has returned without an error or the process has died once the
sink was closed: `NewRaft` succeeds with a fresh FSM, with the last entry that there was,
with the state of the snapshot followed by all the later commands, and with the given
configuration, just if it accepts the server's own settings and the log goes on from the
snapshot. -/
theorem recoverCluster_forces (hfsm : ∀ state, fsm.restore initial (fsm.persist state) = (state, true))
    (hopen : env.opens.headD true = true) (hok : (Process.startFSM fsm initial s.snapshots).2 = true)
    (hdone : (recoverCluster fsm conf initial s configuration env).2 = .ok () ∨
      s.snapshots.length < (recoverCluster fsm conf initial s configuration env).1.snapshots.length) :
    (∃ r, (recoverCluster fsm conf initial s configuration env).1.newRaft fsm conf initial [] {} =
        some (r, s.state fsm initial) ∧
      r.getLastEntry = s.lastEntry ∧ r.lastApplied = s.lastEntry.1 ∧
      r.configurations.latest = configuration ∧ r.configurations.committed = configuration) ↔
    (conf.protocolVersion < 3 → conf.localID = conf.localAddr) ∧ s.Continues env := by
  obtain ⟨snapshot, hsink, hstores⟩ := recoverCluster_closed hdone
  obtain ⟨hvalid, rfl, hnone⟩ := recoverySink_ok hopen hok hsink
  rw [hstores]
  generalize hnew : recoveredSnapshot fsm configuration (s.state fsm initial) s.recoveredEntry = snapshot
  have hmeta : snapshot.metadata.index = s.recoveredEntry.1 ∧
      snapshot.metadata.term = s.recoveredEntry.2 ∧
      snapshot.metadata.configuration = configuration ∧
      snapshot.contents = fsm.persist (s.state fsm initial) := by
    rw [← hnew]
    exact ⟨rfl, rfl, rfl, rfl⟩
  obtain ⟨hmindex, hmterm, hmconf, hcontents⟩ := hmeta
  generalize hlogs : (if env.deletes = true then [] else s.logs : LogStore) = logs
  by_cases hpast : snapshotIndex s.snapshots < s.logs.lastIndex →
      snapshotTerm s.snapshots ≤ (Raft.lastTermOf s.logs).getD 0
  · -- the new snapshot is the newest
    obtain ⟨hleindex, hleterm⟩ := Storage.le_recoveredEntry hpast
    rw [addSnapshot_newest (hmindex ▸ hleindex) (hmterm ▸ hleterm)]
    have hcovered : LogStore.lastIndex logs ≤ snapshot.metadata.index := by
      rw [hmindex, ← hlogs]
      split
      · exact Nat.zero_le _
      · exact s.lastIndex_le_recoveredEntry
    rw [Storage.newRaft_newest rfl (hcontents ▸ hfsm _)]
    dsimp only
    have hlast := Storage.last_iff hnone hpast hlogs.symm
    constructor
    · rintro ⟨r', hr', hentry, -⟩
      obtain ⟨r₀, hr₀, heq⟩ := Option.map_eq_some_iff.mp hr'
      have hversion := Raft.version_of_newRaft hr₀
      obtain ⟨r, hr, hindex, hterm, hsindex, hsterm, -⟩ :=
        Raft.newRaft_covered s.stable snapshot s.snapshots hvalid hversion hcovered
      cases hr₀.symm.trans hr
      cases heq
      refine ⟨hversion, hlast.mp (Eq.trans ?_ hentry)⟩
      simp only [Raft.getLastEntry, hindex, hterm, hsindex, hsterm, hmindex, hmterm]
    · rintro ⟨hversion, hcontinues⟩
      obtain ⟨r, hr, hindex, hterm, hsindex, hsterm, happlied, hlatest, hcommitted⟩ :=
        Raft.newRaft_covered s.stable snapshot s.snapshots hvalid hversion hcovered
      refine ⟨{ r with snapshots := snapshot :: s.snapshots }, by rw [hr]; rfl,
        Eq.trans ?_ (hlast.mpr hcontinues), ?_, hlatest.trans hmconf, hcommitted.trans hmconf⟩
      · simp only [Raft.getLastEntry, hindex, hterm, hsindex, hsterm, hmindex, hmterm]
      · exact happlied.trans (hmindex.trans s.recoveredEntry_fst)
  · -- the old one still is, and `NewRaft` starts from it
    refine iff_of_false ?_ (fun h => hpast h.2.past)
    push Not at hpast
    obtain ⟨hlt, hterm⟩ := hpast
    rintro ⟨r, hr, -, happlied, -⟩
    have hbehind : snapshot.metadata.term < snapshotTerm s.snapshots := by
      rw [hmterm, Storage.recoveredEntry, if_pos hlt]
      exact hterm
    obtain ⟨newest, rest, rest', hold, hadded⟩ := addSnapshot_behind hbehind
    have hrestore : fsm.restore initial newest.contents =
        ((fsm.restore initial newest.contents).1, true) := by
      rw [hold] at hok
      exact Prod.ext rfl hok
    rw [hadded, Storage.newRaft_newest rfl hrestore] at hr
    obtain ⟨r₀, hr₀, heq⟩ := Option.map_eq_some_iff.mp hr
    obtain ⟨hsindex, -, happlied₀⟩ := Raft.newRaft_lastSnapshot hr₀
    have hindex : r.lastApplied = snapshotIndex s.snapshots := by
      rw [← (Prod.mk.inj heq).1, hold]
      exact happlied₀.trans hsindex
    rw [hindex, ← s.recoveredEntry_fst, Storage.recoveredEntry, if_pos hlt] at happlied
    exact absurd happlied hlt.ne

end

theorem restore_counter (state : Nat) : counter.restore 0 (counter.persist state) = (state, true) := by
  simp [counter]

/-- A snapshot at 2 of two commands, a third one after it, and a configuration with a
server that is lost. -/
def lostServer : Storage where
  stable := { currentTerm := 2 }
  logs := [{ index := 3, term := 1, type := .logCommand },
    { index := 4, term := 2, type := .logConfiguration
      data := encodeConfiguration ⟨[voterNamed 65, voterNamed 66]⟩ }]
  snapshots := [
    { metadata :=
        { index := 2, term := 1, configuration := ⟨[voterNamed 65]⟩, configurationIndex := 1, size := 2 }
      contents := [0, 0] }]

/-- The stores that `RecoverCluster` leaves when the server is to go on alone. -/
def recoveredAlone (env : RecoverEnv) : Storage × Except (Halt RecoverError) Unit :=
  recoverCluster counter { localID := [65], localAddr := [65] } 0 lostServer ⟨[voterNamed 65]⟩ env

/-- It completes, or the process dies when the log is to be deleted. -/
theorem recoverCluster_forces_lone :
    (∃ r, (recoveredAlone {}).1.newRaft counter { localID := [65], localAddr := [65] } 0 [] {} =
        some (r, lostServer.state counter 0) ∧
      r.getLastEntry = lostServer.lastEntry ∧ r.lastApplied = lostServer.lastEntry.1 ∧
      r.configurations.latest = ⟨[voterNamed 65]⟩ ∧ r.configurations.committed = ⟨[voterNamed 65]⟩) ∧
    ∃ r, (recoveredAlone { deleteRange := .crash false }).1.newRaft counter
          { localID := [65], localAddr := [65] } 0 [] {} =
        some (r, lostServer.state counter 0) ∧
      r.getLastEntry = lostServer.lastEntry ∧ r.lastApplied = lostServer.lastEntry.1 ∧
      r.configurations.latest = ⟨[voterNamed 65]⟩ ∧ r.configurations.committed = ⟨[voterNamed 65]⟩ := by
  have hcontinues (env : RecoverEnv) : lostServer.Continues env :=
    ⟨by decide, fun _ => by decide, fun _ => by decide⟩
  have hreturns : (recoveredAlone {}).2 = .ok () := by decide +kernel
  have hdies : lostServer.snapshots.length <
      (recoveredAlone { deleteRange := .crash false }).1.snapshots.length := by
    decide +kernel
  exact ⟨(recoverCluster_forces restore_counter rfl rfl (.inl hreturns)).mpr
      ⟨fun _ => rfl, hcontinues _⟩,
    (recoverCluster_forces restore_counter rfl rfl (.inr hdies)).mpr ⟨fun _ => rfl, hcontinues _⟩⟩

namespace Process

/-- The server has two commands of `B` that are not committed. In term 3 `C` sends it a
snapshot at the first of them, and it dies before the second one is replaced. -/
def overtaken : List ProcessAction :=
  booted ++ commandsFrom 1 1 2 1 ++
    [given (.rpc (.installSnapshot
        { header := { id := [67], addr := [67] }, term := 3, lastLogIndex := 2, lastLogTerm := 3
          configuration := encodeConfiguration ⟨[voterNamed 65, voterNamed 66, voterNamed 67]⟩
          configurationIndex := 1 })),
      given .crash]

end Process

/-- `RecoverCluster` returns nil, but its snapshot has the lower term of the log and sorts
behind the one that was there: `NewRaft` takes the old snapshot with its configuration, and
the log is gone. -/
theorem recoverCluster_overtaken :
    ∃ (s : Process Nat Nat) (stores : Storage) (r : Raft),
      (Process.system counter 0).Reachable (fun _ a => Process.Calm a) s ∧
      s.raft.down = true ∧ s.raft.storage.logs.map Log.index = [1, 2, 3] ∧
      s.raft.storage.snapshots.map (fun t => t.metadata.index) = [2] ∧
      recoverCluster counter s.raft.conf 0 s.raft.storage ⟨[voterNamed 65]⟩ {} = (stores, .ok ()) ∧
      stores.newRaft counter s.raft.conf 0 [] {} = some (r, 0) ∧
      s.raft.storage.state counter 0 = 1 ∧ s.raft.storage.lastEntry = (3, 2) ∧
      r.getLastEntry = (2, 3) ∧ r.configurations.latest = ⟨[voterNamed 65, voterNamed 66, voterNamed 67]⟩ := by
  obtain ⟨s, hreach, hdown, hlogs, hsnapshots, hok, hstate, hlast, ⟨r, n⟩, hr, rfl, hentry⟩ :
      ∃ s : Process Nat Nat, (Process.system counter 0).Reachable (fun _ a => Process.Calm a) s ∧
        s.raft.down = true ∧ s.raft.storage.logs.map Log.index = [1, 2, 3] ∧
        s.raft.storage.snapshots.map (fun t => t.metadata.index) = [2] ∧
        (recoverCluster counter s.raft.conf 0 s.raft.storage ⟨[voterNamed 65]⟩ {}).2 = .ok () ∧
        s.raft.storage.state counter 0 = 1 ∧ s.raft.storage.lastEntry = (3, 2) ∧ ∃ p,
        (recoverCluster counter s.raft.conf 0 s.raft.storage ⟨[voterNamed 65]⟩ {}).1.newRaft counter
          s.raft.conf 0 [] {} = some p ∧ p.2 = 0 ∧ p.1.getLastEntry = (2, 3) ∧
        p.1.configurations.latest = ⟨[voterNamed 65, voterNamed 66, voterNamed 67]⟩ :=
    Lib.System.exists_reachable Process.init_thirdStart (Process.overtaken.map (fun a _ => a))
      (by decide +kernel)
  exact ⟨s, _, r, hreach, hdown, hlogs, hsnapshots, Prod.ext rfl hok, hr, hstate, hlast, hentry⟩

end PerfRaft
