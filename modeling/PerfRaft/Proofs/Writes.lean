import PerfRaft.Proofs.Entries

namespace PerfRaft

/-- The latest configuration counts as committed. -/
def Configurations.settle (c : Configurations) : Configurations :=
  { c with committed := c.latest, committedIndex := c.latestIndex }

/-- The newest snapshot is not newer than this. -/
def NotOlder (snapshots : List Snapshot) (index term : Nat) : Prop :=
  ∀ s ∈ snapshots.head?, ¬ (term < s.metadata.term ∨ (term = s.metadata.term ∧ index < s.metadata.index))

instance (snapshots : List Snapshot) (index term : Nat) : Decidable (NotOlder snapshots index term) :=
  inferInstanceAs (Decidable (∀ s ∈ snapshots.head?, _))

theorem head?_addSnapshot {s : Snapshot} {snapshots : List Snapshot}
    (h : NotOlder snapshots s.metadata.index s.metadata.term) :
    (addSnapshot s snapshots).head? = some s := by
  cases snapshots with
  | nil => rfl
  | cons t rest =>
    unfold addSnapshot
    rw [if_neg (h t rfl)]
    rfl

namespace Raft

variable {r r' r'' : Raft} {env : Env}

/-- The stores and what is cached of them are the same. -/
structure SameStores (r r' : Raft) : Prop where
  logs : r'.logs = r.logs
  snapshots : r'.snapshots = r.snapshots
  lastLogIndex : r'.lastLogIndex = r.lastLogIndex
  lastLogTerm : r'.lastLogTerm = r.lastLogTerm
  lastSnapshotIndex : r'.lastSnapshotIndex = r.lastSnapshotIndex
  lastSnapshotTerm : r'.lastSnapshotTerm = r.lastSnapshotTerm

theorem SameData.sameStores (h : SameData r r') : SameStores r r' :=
  ⟨h.logs, h.snapshots, h.lastLogIndex, h.lastLogTerm, h.lastSnapshotIndex, h.lastSnapshotTerm⟩

theorem SameStores.trans (h : SameStores r r') (h' : SameStores r' r'') : SameStores r r'' where
  logs := h'.logs.trans h.logs
  snapshots := h'.snapshots.trans h.snapshots
  lastLogIndex := h'.lastLogIndex.trans h.lastLogIndex
  lastLogTerm := h'.lastLogTerm.trans h.lastLogTerm
  lastSnapshotIndex := h'.lastSnapshotIndex.trans h.lastSnapshotIndex
  lastSnapshotTerm := h'.lastSnapshotTerm.trans h.lastSnapshotTerm

/-- The commit index moves. The latest configuration becomes the committed one only
if the commit index covers it. -/
structure Advances (r r' : Raft) : Prop where
  stores : SameStores r r'
  configurations : r'.configurations = r.configurations ∨
    (r.configurations.latestIndex ≤ r'.commitIndex ∧ r'.configurations = r.configurations.settle)

theorem advances_followCommit (r : Raft) (leaderCommitIndex : Nat) :
    Advances r (r.followCommit leaderCommitIndex).1 := by
  constructor
  case stores =>
    rw [followCommit_eq]
    exact ⟨rfl, rfl, rfl, rfl, rfl, rfl⟩
  case configurations =>
    unfold followCommit
    split
    · dsimp only
      rw [processLogs_eq]
      split
      · rename_i hcovered
        exact .inr ⟨hcovered, rfl⟩
      · exact .inl rfl
    · exact .inl rfl

theorem advances_leaderCommit (r : Raft) (ls : LeaderState) (stepDown : Bool) :
    Advances r (r.leaderCommit ls stepDown).1 := by
  rw [leaderCommit_frame]
  refine ⟨⟨rfl, rfl, rfl, rfl, rfl, rfl⟩, ?_⟩
  unfold setLeaderCommit
  dsimp only
  split
  · rename_i hcovered
    exact .inr ⟨hcovered.2, rfl⟩
  · exact .inl rfl

theorem stampedLogs_getElem? {futures : List LogFuture} {i : Nat} {e : Log}
    (h : (r.stampedLogs futures env)[i]? = some e) :
    e.index = r.getLastIndex + i + 1 ∧ e.term = r.currentTerm ∧
      ∃ f ∈ futures, e.configuration? = f.log.configuration? := by
  simp only [stampedLogs, List.getElem?_map, Option.map_eq_some_iff] at h
  obtain ⟨f, hf, rfl⟩ := h
  obtain ⟨hindex, hterm, f₀, hmem, htype, hdata⟩ := stampLogs_getElem? _ _ futures hf
  refine ⟨hindex, hterm, f₀, hmem, ?_⟩
  unfold Log.configuration?
  rw [htype, hdata]

/-- Some entries numbered after the last index have been stored. -/
structure Dispatches (r : Raft) (entries : List Log) (r' : Raft) : Prop where
  index : ∀ i e, entries[i]? = some e → e.index = r.getLastIndex + i + 1
  term : ∀ e ∈ entries, e.term = r.currentTerm
  logs : r'.logs = r.logs.storeLogs entries
  snapshots : r'.snapshots = r.snapshots
  lastLogIndex : r'.lastLogIndex = r.getLastIndex + entries.length
  lastLogTerm : r'.lastLogTerm = r.currentTerm
  lastSnapshotIndex : r'.lastSnapshotIndex = r.lastSnapshotIndex
  lastSnapshotTerm : r'.lastSnapshotTerm = r.lastSnapshotTerm
  commitIndex : r'.commitIndex = r.commitIndex
  lastApplied : r'.lastApplied = r.lastApplied
  configurations : r'.configurations = r.configurations

theorem Dispatches.sameData {entries : List Log} (h : Dispatches r entries r')
    (hs : SameData r' r'') : Dispatches r entries r'' where
  index := h.index
  term := h.term
  logs := hs.logs.trans h.logs
  snapshots := hs.snapshots.trans h.snapshots
  lastLogIndex := hs.lastLogIndex.trans h.lastLogIndex
  lastLogTerm := hs.lastLogTerm.trans h.lastLogTerm
  lastSnapshotIndex := hs.lastSnapshotIndex.trans h.lastSnapshotIndex
  lastSnapshotTerm := hs.lastSnapshotTerm.trans h.lastSnapshotTerm
  commitIndex := hs.commitIndex.trans h.commitIndex
  lastApplied := hs.lastApplied.trans h.lastApplied
  configurations := hs.configurations.trans h.configurations

theorem Dispatches.nodup {entries : List Log} (hd : Dispatches r entries r') :
    (entries.map Log.index).Nodup := by
  apply nodup_of_sorted
  rw [List.pairwise_iff_getElem]
  intro i j hi hj hij
  rw [hd.index i _ (List.getElem?_eq_getElem hi), hd.index j _ (List.getElem?_eq_getElem hj)]
  omega

theorem dispatches_dispatchLogs (henv : env.storeLogs = true) (futures : List LogFuture) :
    Dispatches r (r.stampedLogs futures env) (r.dispatchLogs futures env).1 := by
  have hraft : SameData
      { r with
        logs := r.logs.storeLogs (r.stampedLogs futures env)
        lastLogIndex := r.getLastIndex + futures.length, lastLogTerm := r.currentTerm }
      (r.dispatchLogs futures env).1 := by
    simp only [dispatchLogs, henv, Bool.true_eq_false, if_false]
    exact ⟨rfl, rfl, rfl, rfl, rfl, rfl, rfl, rfl, rfl⟩
  have hlength : (r.stampedLogs futures env).length = futures.length := by
    simp [stampedLogs, stampLogs_length]
  refine Dispatches.sameData ?_ hraft
  constructor
  case index => exact fun i e he => (stampedLogs_getElem? he).1
  case term =>
    intro e he
    obtain ⟨i, hi⟩ := List.getElem?_of_mem he
    exact (stampedLogs_getElem? hi).2.1
  case lastLogIndex => rw [hlength]
  all_goals rfl

/-- `appendConfigurationEntry`: the change is refused, or its entry is stored and
taken over. -/
theorem appendConfigurationEntry_cases (henv : env.storeLogs = true)
    (req : ConfigurationChangeRequest) (future : Nat) :
    SameData r (r.appendConfigurationEntry req future env).1 ∨
      ∃ configuration entry r₁,
        nextConfiguration r.configurations.latest r.configurations.latestIndex req =
          .ok configuration ∧
        entry.configuration? = (r.configurationEntry configuration).configuration? ∧
        Dispatches r [entry] r₁ ∧
        SameData (r₁.setLatestConfiguration configuration (r.getLastIndex + 1))
          (r.appendConfigurationEntry req future env).1 := by
  unfold appendConfigurationEntry
  split
  · exact .inl (.refl r)
  · rename_i configuration hnext
    right
    obtain ⟨entry, hentry⟩ : ∃ entry,
        r.stampedLogs [⟨future, r.configurationEntry configuration⟩] env = [entry] := ⟨_, rfl⟩
    have hdispatch := dispatches_dispatchLogs (r := r) henv
      [⟨future, r.configurationEntry configuration⟩]
    have hget : (r.stampedLogs [⟨future, r.configurationEntry configuration⟩] env)[0]? =
        some entry := by rw [hentry]; rfl
    obtain ⟨-, -, f, hf, hconf⟩ := stampedLogs_getElem? hget
    rw [List.mem_singleton.mp hf] at hconf
    rw [hentry] at hdispatch
    exact ⟨configuration, entry, _, hnext, hconf, hdispatch,
      ⟨rfl, rfl, rfl, rfl, rfl, rfl, rfl, rfl, rfl⟩⟩

theorem compactLogsWithTrailing_eq (r : Raft) (snapIdx lastLogIdx trailingLogs : Nat) (env : Env) :
    r.compactLogsWithTrailing snapIdx lastLogIdx trailingLogs env = r ∨
      ∃ maxLog ≤ snapIdx, r.logs.firstIndex ≤ maxLog ∧ maxLog + trailingLogs ≤ lastLogIdx ∧
        r.compactLogsWithTrailing snapIdx lastLogIdx trailingLogs env =
          { r with logs := r.logs.deleteRange r.logs.firstIndex maxLog } := by
  unfold compactLogsWithTrailing
  dsimp only
  split
  · exact .inl rfl
  split
  · exact .inl rfl
  split
  · exact .inl rfl
  · exact .inr ⟨min snapIdx (lastLogIdx - trailingLogs), by omega, by omega, by omega, rfl⟩

theorem compactLogs_frame (r : Raft) (index : Nat) (env : Env) :
    r.compactLogs index env = { r with logs := (r.compactLogs index env).logs } ∧
      ∀ e ∈ r.logs, e ∉ (r.compactLogs index env).logs → e.index ≤ index := by
  unfold compactLogs
  rcases compactLogsWithTrailing_eq r index r.lastLogIndex r.conf.trailingLogs env with
    hsame | ⟨maxLog, hmax, -, -, hsame⟩
  · rw [hsame]
    exact ⟨rfl, fun e he hgone => absurd he hgone⟩
  · rw [hsame]
    refine ⟨rfl, ?_⟩
    intro e he hgone
    rw [LogStore.mem_deleteRange] at hgone
    by_contra hlt
    exact hgone ⟨he, fun hrange => by omega⟩

/-- With a log store that does not fail, `removeOldLogs` leaves nothing. -/
theorem removeOldLogs_eq (henv : env.deleteRange = true) (h : 0 < r.logs.lastIndex) :
    r.removeOldLogs env = { r with logs := [] } := by
  have hfirst : ∀ e ∈ r.logs, r.logs.firstIndex ≤ e.index ∧ e.index ≤ r.logs.lastIndex :=
    fun e he => ⟨LogStore.firstIndex_le he, LogStore.index_le_lastIndex he⟩
  have hne : r.logs ≠ [] := by
    intro hnil
    rw [hnil] at h
    exact absurd h (Nat.lt_irrefl 0)
  obtain ⟨e, he⟩ := List.exists_mem_of_ne_nil _ hne
  have hdelete : r.logs.deleteRange r.logs.firstIndex r.logs.lastIndex = [] := by
    unfold LogStore.deleteRange
    rw [List.filter_eq_nil_iff]
    intro e he
    simp [hfirst e he]
  unfold removeOldLogs compactLogsWithTrailing
  dsimp only
  have hbounds := hfirst e he
  rw [if_neg (by omega), if_neg (by omega), if_neg (by simp [henv]), Nat.sub_zero, Nat.min_self, hdelete]

theorem compactLogsWithTrailing_congr (h : r'.logs = r.logs)
    (snapIdx lastLogIdx trailingLogs : Nat) :
    (r'.compactLogsWithTrailing snapIdx lastLogIdx trailingLogs env).logs =
      (r.compactLogsWithTrailing snapIdx lastLogIdx trailingLogs env).logs := by
  unfold compactLogsWithTrailing
  dsimp only
  rw [h]
  split
  · exact h
  split
  · exact h
  split
  · exact h
  · rfl

/-- `removeOldLogs` leaves nothing, unless DeleteRange fails. -/
theorem removeOldLogs_cases (env : Env) (h : ∀ e ∈ r.logs, 0 < e.index) :
    (r.removeOldLogs env).logs = [] ∨
      (env.deleteRange = false ∧ (r.removeOldLogs env).logs = r.logs) := by
  by_cases hnil : r.logs = []
  · left
    unfold removeOldLogs
    rcases compactLogsWithTrailing_eq r r.logs.lastIndex r.logs.lastIndex 0 env with
      hsame | ⟨maxLog, -, -, -, hsame⟩
    · rw [hsame, hnil]
    · rw [hsame, hnil]
      rfl
  · cases henv : env.deleteRange with
    | true =>
      obtain ⟨e, he⟩ := List.exists_mem_of_ne_nil _ hnil
      have hle := LogStore.index_le_lastIndex he
      rw [removeOldLogs_eq henv (Nat.lt_of_lt_of_le (h e he) hle)]
      exact .inl rfl
    | false =>
      refine .inr ⟨rfl, ?_⟩
      unfold removeOldLogs compactLogsWithTrailing
      simp only [henv, if_true]
      split
      · rfl
      · split <;> rfl

/-- Compaction keeps what is above the snapshot. -/
theorem compactLogs_getLog (r : Raft) {index i : Nat} (hi : index < i) :
    (r.compactLogs index env).logs.getLog i = r.logs.getLog i := by
  unfold compactLogs
  rcases compactLogsWithTrailing_eq r index r.lastLogIndex r.conf.trailingLogs env with
    hsame | ⟨maxLog, hmax, -, -, hsame⟩
  · rw [hsame]
  · rw [hsame]
    exact LogStore.getLog_deleteRange (by omega)

/-- The log once a snapshot at `index` has been installed. -/
def logsAfter (r : Raft) (index : Nat) (env : Env) : LogStore :=
  if r.conf.monotonicLogs then (r.removeOldLogs env).logs else (r.compactLogs index env).logs

theorem logsAfter_sublist (r : Raft) (index : Nat) (env : Env) :
    ∀ e ∈ r.logsAfter index env, e ∈ r.logs := by
  intro e he
  have hcompact (i j k : Nat) : e ∈ (r.compactLogsWithTrailing i j k env).logs → e ∈ r.logs := by
    rcases compactLogsWithTrailing_eq r i j k env with hsame | ⟨maxLog, -, -, -, hsame⟩
    · rw [hsame]
      exact id
    · rw [hsame]
      exact LogStore.mem_of_mem_deleteRange
  unfold logsAfter at he
  split at he
  · exact hcompact _ _ _ he
  · exact hcompact _ _ _ he

theorem logsAfter_congr (hlogs : r'.logs = r.logs) (hlast : r'.lastLogIndex = r.lastLogIndex)
    (hconf : r'.conf = r.conf) (index : Nat) : r'.logsAfter index env = r.logsAfter index env := by
  unfold logsAfter removeOldLogs compactLogs
  rw [hconf, hlogs, hlast]
  split <;> exact compactLogsWithTrailing_congr hlogs _ _ _

/-- A server has taken over the snapshot of a request. -/
structure Installs (r : Raft) (req : InstallSnapshotRequest) (c : Configuration) (index : Nat)
    (env : Env) (r' : Raft) : Prop where
  request : requestConfiguration req = some (c, index)
  snapshots : r'.snapshots = addSnapshot (receivedSnapshot req c index) r.snapshots
  lastSnapshotIndex : r'.lastSnapshotIndex = req.lastLogIndex
  lastSnapshotTerm : r'.lastSnapshotTerm = req.lastLogTerm
  lastLogIndex : r'.lastLogIndex = r.lastLogIndex
  lastLogTerm : r'.lastLogTerm = r.lastLogTerm
  lastApplied : r'.lastApplied = req.lastLogIndex
  commitIndex : r'.commitIndex = r.commitIndex
  configurations : r'.configurations = ⟨c, index, c, index⟩
  logs : r'.logs = r.logsAfter req.lastLogIndex env

section

variable {req : InstallSnapshotRequest} {c : Configuration} {index : Nat}

theorem Installs.sameData (h : Installs r req c index env r') (hs : SameData r' r'') :
    Installs r req c index env r'' where
  request := h.request
  snapshots := hs.snapshots.trans h.snapshots
  lastSnapshotIndex := hs.lastSnapshotIndex.trans h.lastSnapshotIndex
  lastSnapshotTerm := hs.lastSnapshotTerm.trans h.lastSnapshotTerm
  lastLogIndex := hs.lastLogIndex.trans h.lastLogIndex
  lastLogTerm := hs.lastLogTerm.trans h.lastLogTerm
  lastApplied := hs.lastApplied.trans h.lastApplied
  commitIndex := hs.commitIndex.trans h.commitIndex
  configurations := hs.configurations.trans h.configurations
  logs := hs.logs.trans h.logs

theorem Installs.after (h : Installs r' req c index env r'') (hs : SameData r r')
    (hconf : r'.conf = r.conf) : Installs r req c index env r'' where
  request := h.request
  snapshots := by rw [h.snapshots, hs.snapshots]
  lastSnapshotIndex := h.lastSnapshotIndex
  lastSnapshotTerm := h.lastSnapshotTerm
  lastLogIndex := h.lastLogIndex.trans hs.lastLogIndex
  lastLogTerm := h.lastLogTerm.trans hs.lastLogTerm
  lastApplied := h.lastApplied
  commitIndex := h.commitIndex.trans hs.commitIndex
  configurations := h.configurations
  logs := h.logs.trans (logsAfter_congr hs.logs hs.lastLogIndex hconf _)

theorem logsAfter_eq (r : Raft) (index : Nat) (env : Env) :
    (if r.conf.monotonicLogs then r.removeOldLogs env else r.compactLogs index env) =
      { r with logs := r.logsAfter index env } := by
  have hcompact (i j k : Nat) :
      r.compactLogsWithTrailing i j k env =
        { r with logs := (r.compactLogsWithTrailing i j k env).logs } := by
    rcases compactLogsWithTrailing_eq r i j k env with h | ⟨maxLog, -, -, -, h⟩ <;> rw [h]
  unfold logsAfter removeOldLogs compactLogs
  split
  · exact hcompact _ _ _
  · exact hcompact _ _ _

theorem restored_eq (r : Raft) (req : InstallSnapshotRequest) (c : Configuration) (index : Nat)
    (env : Env) :
    r.restored req c index env =
      { r with
        lastApplied := req.lastLogIndex, lastSnapshotIndex := req.lastLogIndex
        lastSnapshotTerm := req.lastLogTerm, configurations := ⟨c, index, c, index⟩
        logs := r.logsAfter req.lastLogIndex env } := by
  have hlogs : Raft.logsAfter
      { r with
        lastApplied := req.lastLogIndex, lastSnapshotIndex := req.lastLogIndex
        lastSnapshotTerm := req.lastLogTerm, configurations := ⟨c, index, c, index⟩ }
      req.lastLogIndex env = r.logsAfter req.lastLogIndex env := by
    apply logsAfter_congr <;> rfl
  rw [← hlogs]
  exact logsAfter_eq _ _ env

theorem installs_of_received (r : Raft) (req : InstallSnapshotRequest) (env : Env)
    (h : (r.receiveSnapshot req env).2 = true) :
    env.restoreFSM = true ∧ ∃ c index, Installs r req c index env (r.receiveSnapshot req env).1 := by
  unfold receiveSnapshot at h ⊢
  split at h
  · split at h <;> cases h
  · rename_i c index hreq
    split at h
    · cases h
    · rename_i hwritten
      rw [if_neg hwritten]
      cases hrestore : env.restoreFSM with
      | false => simp [hrestore] at h
      | true =>
        refine ⟨rfl, c, index, ?_⟩
        simp only [Bool.true_eq_false, if_false, restored_eq]
        constructor
        case request => exact hreq
        case logs => apply logsAfter_congr <;> rfl
        all_goals rfl

theorem receiveSnapshot_cases (r : Raft) (req : InstallSnapshotRequest) (env : Env) :
    SameData r (r.receiveSnapshot req env).1 ∨
      (env.restoreFSM = true ∧ ∃ c index, Installs r req c index env (r.receiveSnapshot req env).1) ∨
      (env.restoreFSM = false ∧ ∃ c index, requestConfiguration req = some (c, index) ∧
        (r.receiveSnapshot req env).1 =
          { r with snapshots := addSnapshot (receivedSnapshot req c index) r.snapshots }) := by
  cases hdone : (r.receiveSnapshot req env).2 with
  | true => exact .inr (.inl (installs_of_received r req env hdone))
  | false =>
    unfold receiveSnapshot at hdone ⊢
    split at hdone
    · left
      split
      · exact ⟨rfl, rfl, rfl, rfl, rfl, rfl, rfl, rfl, rfl⟩
      · exact .refl r
    · rename_i c index hreq
      split at hdone
      · rename_i hfails
        rw [if_pos hfails]
        exact .inl (.refl r)
      · rename_i hwritten
        rw [if_neg hwritten]
        cases hrestore : env.restoreFSM with
        | false => exact .inr (.inr ⟨rfl, c, index, hreq, rfl⟩)
        | true => simp [hrestore] at hdone

/-- How far `installSnapshot` gets. -/
theorem installSnapshot_raft (r : Raft) (req : InstallSnapshotRequest) (env : Env) :
    (r.installSnapshot req env).1 = r ∨
      (r.installSnapshot req env).1 = r.followSnapshot req env ∨
      (r.installSnapshot req env).1 = ((r.followSnapshot req env).receiveSnapshot req env).1 := by
  unfold installSnapshot
  split
  · exact .inl rfl
  split
  · exact .inl rfl
  dsimp only
  split
  · exact .inr (.inl rfl)
  · right
    right
    split
    · rename_i hr
      rw [hr]
    · rename_i hr
      rw [hr]

/-- `installSnapshot`: the request is refused, or the snapshot is taken over, or the
FSM could not be restored and the snapshot stays in the store. -/
theorem installSnapshot_cases (r : Raft) (req : InstallSnapshotRequest) (env : Env) :
    SameData r (r.installSnapshot req env).1 ∨
      (env.restoreFSM = true ∧ ∃ c index, Installs r req c index env (r.installSnapshot req env).1) ∨
      (env.restoreFSM = false ∧ ∃ c index, requestConfiguration req = some (c, index) ∧
        SameData { r with snapshots := addSnapshot (receivedSnapshot req c index) r.snapshots }
          (r.installSnapshot req env).1) := by
  have hfollow := sameData_followSnapshot r req env
  have hconf := (rpcEffect_followSnapshot r req env).conf
  rcases installSnapshot_raft r req env with hraft | hraft | hraft
  · rw [hraft]
    exact .inl (.refl r)
  · rw [hraft]
    exact .inl hfollow
  · rw [hraft]
    rcases receiveSnapshot_cases (r.followSnapshot req env) req env with
      hsame | ⟨hrestore, c, index, hinstalls⟩ | ⟨hrestore, c, index, hreq, hkept⟩
    · exact .inl (hfollow.trans hsame)
    · exact .inr (.inl ⟨hrestore, c, index, hinstalls.after hfollow hconf⟩)
    · refine .inr (.inr ⟨hrestore, c, index, hreq, ?_⟩)
      rw [hkept, ← hfollow.snapshots]
      exact ⟨hfollow.logs, rfl, hfollow.commitIndex, hfollow.lastApplied, hfollow.lastLogIndex,
        hfollow.lastLogTerm, hfollow.lastSnapshotIndex, hfollow.lastSnapshotTerm, hfollow.configurations⟩

/-- A snapshot is acknowledged only if the FSM has taken it and the rest has been
taken over. -/
theorem installs_of_success {r : Raft} {req : InstallSnapshotRequest} {env : Env}
    {resp : InstallSnapshotResponse} (h : (r.installSnapshot req env).2 = .installSnapshot resp)
    (hsuccess : resp.success = true) :
    env.restoreFSM = true ∧ ∃ c index, Installs r req c index env (r.installSnapshot req env).1 := by
  unfold installSnapshot at h ⊢
  split at h
  · cases h
  rename_i hversion
  split at h
  · cases h
    simp at hsuccess
  rename_i hterm
  dsimp only at h
  split at h
  · cases h
  rename_i hup
  rw [if_neg hversion, if_neg hterm]
  dsimp only
  rw [if_neg hup]
  have hfollow := sameData_followSnapshot r req env
  have hconf := (rpcEffect_followSnapshot r req env).conf
  have hreceived := installs_of_received (r.followSnapshot req env) req env
  split at h
  · cases h
  · rename_i r' heq
    rw [heq] at hreceived
    obtain ⟨hrestore, c, index, hinstalls⟩ := hreceived rfl
    exact ⟨hrestore, c, index, hinstalls.after hfollow hconf⟩

end

end Raft

end PerfRaft
