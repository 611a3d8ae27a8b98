import PerfRaft.Proofs.Disk
import PerfRaft.Proofs.Writes

namespace PerfRaft

namespace Raft

variable {r r' : Raft} {env : Env} {o : Outcome} {input : Input}

/-- The configurations are those of the stores, and the cached indexes are not below
them. -/
structure Tracked (r : Raft) : Prop where
  below : TracksBelow r (r.lastLogIndex + 1)
  snapshot : r.lastSnapshotIndex = snapshotIndex r.snapshots
  within : ∀ e ∈ r.logs, e.index ≤ r.lastLogIndex

theorem Tracked.getLog_none (h : Tracked r) {i : Nat} (hi : r.lastLogIndex < i) :
    r.logs.getLog i = none := by
  cases hget : r.logs.getLog i with
  | none => rfl
  | some e =>
    have hle := h.within e (LogStore.mem_of_getLog hget)
    rw [LogStore.index_of_getLog hget] at hle
    omega

theorem Tracked.disk (h : Tracked r) :
    (r.configurations.latest, r.configurations.latestIndex) = diskConfiguration r.snapshots r.logs := by
  rw [h.below.latest]
  have hle : r.logs.lastIndex ≤ r.lastLogIndex := LogStore.lastIndex_le.mpr h.within
  apply inForce_skip (Nat.succ_le_succ hle)
  intro i _ hi _
  rw [LogStore.getLog_eq_none_of_lt hi]
  rfl

theorem TracksBelow.congr {n : Nat} (h : TracksBelow r n)
    (hconf : r'.configurations = r.configurations) (hsnap : r'.snapshots = r.snapshots)
    (hlogs : ∀ i < n, r'.logs.getLog i = r.logs.getLog i) : TracksBelow r' n := by
  constructor
  case base =>
    rw [hsnap]
    exact h.base
  case latest =>
    rw [hconf, hsnap, h.latest]
    exact (inForce_congr (fun i _ hi => hlogs i hi)).symm
  case committed =>
    rw [hconf, hsnap]
    refine h.committed.imp id ?_
    rintro ⟨hlt, hcommitted⟩
    refine ⟨hlt, hcommitted.trans (inForce_congr ?_).symm⟩
    -- below the latest configuration there are only indexes below `n`
    intro i hi hilt
    have hindex : r.configurations.latestIndex = (inForce r.snapshots r.logs n).2 :=
      congrArg Prod.snd h.latest
    apply hlogs
    rcases inForce_index r.snapshots r.logs n with hbase | ⟨-, hn⟩
    · rw [hbase] at hindex
      have := h.base
      omega
    · omega

theorem Tracked.sameData (h : Tracked r) (hs : SameData r r') : Tracked r' where
  below := by
    rw [hs.lastLogIndex]
    exact h.below.congr hs.configurations hs.snapshots (fun i _ => by rw [hs.logs])
  snapshot := by rw [hs.lastSnapshotIndex, hs.snapshots, h.snapshot]
  within := by
    rw [hs.logs, hs.lastLogIndex]
    exact h.within

theorem TracksBelow.settle {n : Nat} (h : TracksBelow r n) :
    TracksBelow { r with configurations := r.configurations.settle } n :=
  ⟨h.base, h.latest, .inl rfl⟩

theorem Tracked.advances (h : Tracked r) (ha : Advances r r') : Tracked r' where
  below := by
    rw [ha.stores.lastLogIndex]
    have hlogs : ∀ i < r.lastLogIndex + 1, r'.logs.getLog i = r.logs.getLog i :=
      fun i _ => by rw [ha.stores.logs]
    rcases ha.configurations with hconf | ⟨-, hconf⟩
    · exact h.below.congr hconf ha.stores.snapshots hlogs
    · exact h.below.settle.congr hconf ha.stores.snapshots hlogs
  snapshot := by rw [ha.stores.lastSnapshotIndex, ha.stores.snapshots, h.snapshot]
  within := by
    rw [ha.stores.logs, ha.stores.lastLogIndex]
    exact h.within

theorem cut_configurations (r : Raft) (index : Nat) :
    (r.cut index).configurations =
      if index ≤ r.configurations.latestIndex then
        { r.configurations with
          latest := r.configurations.committed, latestIndex := r.configurations.committedIndex }
      else r.configurations := by
  unfold cut
  dsimp only
  split <;> rfl

/-- When the log is cut below its latest configuration, the committed one is in
force again, unless it has been cut away too. -/
theorem Tracked.committed_at (h : Tracked r) {k : Nat} (hk : k ≤ r.configurations.latestIndex)
    (hcut : r.configurations.committedIndex < k ∨
      r.configurations.latestIndex ≤ r.lastSnapshotIndex) :
    (r.configurations.committed, r.configurations.committedIndex) = inForce r.snapshots r.logs k := by
  rw [h.snapshot] at hcut
  rcases hcut with hlt | hsnap
  · rcases h.below.committed with heq | ⟨-, heq⟩
    · have : r.configurations.committedIndex = r.configurations.latestIndex := congrArg Prod.snd heq
      omega
    · rcases inForce_or_le hk with hsame | hle
      · exact heq.trans hsame
      · have : r.configurations.committedIndex =
            (inForce r.snapshots r.logs r.configurations.latestIndex).2 := congrArg Prod.snd heq
        omega
  · rw [inForce_of_le (by omega)]
    rcases h.below.committed with heq | ⟨-, heq⟩
    · rw [heq, h.below.latest]
      have hindex : r.configurations.latestIndex =
          (inForce r.snapshots r.logs (r.lastLogIndex + 1)).2 := congrArg Prod.snd h.below.latest
      rcases inForce_index r.snapshots r.logs (r.lastLogIndex + 1) with hbase | ⟨hlow, -⟩
      · exact hbase
      · omega
    · rw [heq, inForce_of_le (by omega)]

theorem Tracked.cut (h : Tracked r) {k : Nat} (hk : k ≤ r.lastLogIndex)
    (hcut : k ≤ r.configurations.latestIndex → r.configurations.committedIndex < k ∨
      r.configurations.latestIndex ≤ r.lastSnapshotIndex) :
    TracksBelow (r.cut k) k := by
  have hlogs : ∀ i < k, (r.logs.deleteRange k r.lastLogIndex).getLog i = r.logs.getLog i :=
    fun i hi => LogStore.getLog_deleteRange (by omega)
  by_cases hlatest : k ≤ r.configurations.latestIndex
  · have hforce := h.committed_at hlatest (hcut hlatest)
    have hbelow : TracksBelow
        { r with
          configurations :=
            { r.configurations with
              latest := r.configurations.committed
              latestIndex := r.configurations.committedIndex } } k :=
      ⟨h.below.base, hforce, .inl rfl⟩
    refine hbelow.congr ?_ (by rw [cut_eq]) (by rw [cut_eq]; exact hlogs)
    rw [cut_configurations, if_pos hlatest]
  · have hbelow : TracksBelow r k := by
      refine ⟨h.below.base, ?_, h.below.committed⟩
      rw [h.below.latest]
      have hindex : r.configurations.latestIndex =
          (inForce r.snapshots r.logs (r.lastLogIndex + 1)).2 := congrArg Prod.snd h.below.latest
      rcases inForce_or_le (k := k) (m := r.lastLogIndex + 1) (by omega) with hsame | hle
      · exact hsame
      · omega
    refine hbelow.congr ?_ (by rw [cut_eq]) (by rw [cut_eq]; exact hlogs)
    rw [cut_configurations, if_neg hlatest]

/-- The entries of a request come in the order of their indexes. Those new to the
server can be decoded, and their configurations are above its snapshot. If its log
has to be cut, then not below the committed configuration. -/
structure Orderly (r : Raft) (a : AppendEntriesRequest) : Prop where
  sorted : a.entries.Pairwise (fun e e' => e.index < e'.index)
  decodes : ∀ e ∈ r.added a.entries, e.decodes = true
  above : ∀ e ∈ r.added a.entries, e.configuration?.isSome = true → r.lastSnapshotIndex < e.index
  cuts : ∀ e ∈ (r.added a.entries).head?, e.index ≤ r.lastLogIndex →
    e.index ≤ r.configurations.latestIndex →
      r.configurations.committedIndex < e.index ∨ r.configurations.latestIndex ≤ r.lastSnapshotIndex

theorem Orderly.sameData {a : AppendEntriesRequest} (h : Orderly r a) (hs : SameData r r') :
    Orderly r' a where
  sorted := h.sorted
  decodes := by
    rw [added_sameData hs]
    exact h.decodes
  above := by
    rw [added_sameData hs, hs.lastSnapshotIndex]
    exact h.above
  cuts := by
    rw [added_sameData hs, hs.lastLogIndex, hs.lastSnapshotIndex, hs.configurations]
    exact h.cuts

/-- Before new entries are stored the configurations are those below the first of
them, and so is the log. -/
theorem Tracked.opens (h : Tracked r) {entry : Log} (ho : Opens r entry r')
    (hcut : entry.index ≤ r.lastLogIndex → entry.index ≤ r.configurations.latestIndex →
      r.configurations.committedIndex < entry.index ∨
        r.configurations.latestIndex ≤ r.lastSnapshotIndex) :
    TracksBelow r' entry.index ∧ r'.snapshots = r.snapshots ∧
      r'.lastSnapshotIndex = r.lastSnapshotIndex ∧ ∀ e ∈ r'.logs, e.index < entry.index := by
  have hbelow := ho.below h.within
  cases ho with
  | after hafter =>
    refine ⟨?_, rfl, rfl, hbelow⟩
    apply h.below.skip hafter
    intro i _ hi _
    rw [h.getLog_none hi]
    rfl
  | conflict hle _ _ =>
    exact ⟨h.cut hle (hcut hle), by rw [cut_eq], by rw [cut_eq], hbelow⟩

/-- The new entries are stored and scanned. -/
theorem tracked_stores {entry : Log} {rest : List Log} (h : TracksBelow r entry.index)
    (hsnap : r.lastSnapshotIndex = snapshotIndex r.snapshots)
    (hlow : ∀ e ∈ r.logs, e.index < entry.index)
    (hsorted : (entry :: rest).Pairwise (fun e e' => e.index < e'.index))
    (hdecodes : ∀ e ∈ entry :: rest, e.decodes = true)
    (habove : ∀ e ∈ entry :: rest, e.configuration?.isSome = true → r.lastSnapshotIndex < e.index) :
    Tracked (r.stores entry rest) := by
  have hfirst := index_ge_head hsorted
  have hstored : TracksBelow { r with logs := r.logs.storeLogs (entry :: rest) } entry.index := by
    refine h.congr rfl rfl ?_
    intro i hi
    apply LogStore.getLog_storeLogs_ne
    intro e he heq
    have := hfirst e he
    omega
  have hbelow := hstored.processConfigurationLogEntries hsorted hfirst
    (fun e he => LogStore.getLog_storeLogs_mem (nodup_of_sorted hsorted) he) (by
      intro i hi hother
      refine (LogStore.getLog_storeLogs_ne hother).trans ?_
      cases hget : r.logs.getLog i with
      | none => rfl
      | some e =>
        have := hlow e (LogStore.mem_of_getLog hget)
        rw [LogStore.index_of_getLog hget] at this
        omega) hdecodes (by rw [← hsnap]; exact habove) (by simp)
  have hprocess := processConfigurationLogEntries_push hdecodes
    { r with logs := r.logs.storeLogs (entry :: rest) }
  unfold stores
  rw [hprocess] at hbelow ⊢
  constructor
  case below => exact ⟨hbelow.base, hbelow.latest, hbelow.committed⟩
  case snapshot => exact hsnap
  case within =>
    intro e he
    have hlast := index_le_getLast hsorted (by simp)
    rcases LogStore.mem_of_mem_storeLogs he with hold | hnew
    · have := hlow e hold
      exact Nat.le_trans (Nat.le_of_lt this) (hlast entry (by simp))
    · exact hlast e hnew

theorem Tracked.appendEntries (h : Tracked r) {a : AppendEntriesRequest} (henv : env.Faultless)
    (ha : Orderly r a) : Tracked (r.appendEntries a env).1 := by
  rcases appendEntries_cases henv.2.1 ha.decodes with hsame | ⟨r₁, r₂, hsame, -, htakes, hcommit⟩
  · exact h.sameData hsame
  · have h₁ := h.sameData hsame
    have ha₁ := ha.sameData hsame
    have h₂ : Tracked r₂ := by
      cases htakes with
      | held _ => exact h₁
      | @stored entry rest r₃ hadded hopens =>
        obtain ⟨hbelow, hsnapshots, hlast, hlow⟩ := h₁.opens hopens (fun hle hlatest =>
          ha₁.cuts entry (by rw [hadded]; rfl) hle hlatest)
        have hsorted := ha₁.sorted.sublist (added_sublist r₁ a.entries)
        have hdecodes := ha₁.decodes
        have habove := ha₁.above
        rw [hadded] at hsorted hdecodes habove
        refine tracked_stores hbelow ?_ hlow hsorted hdecodes ?_
        · rw [hlast, hsnapshots, h₁.snapshot]
        · rw [hlast]
          exact habove
    exact (h₂.advances (advances_followCommit r₂ _)).sameData hcommit

/-- Entries the leader appends come after everything, so the configurations below
them stay in force. -/
theorem Tracked.dispatched (h : Tracked r) {entries : List Log} (hd : Dispatches r entries r') :
    TracksBelow r' (r.getLastIndex + 1) ∧ r'.lastSnapshotIndex = snapshotIndex r'.snapshots ∧
      ∀ e ∈ r'.logs, e.index ≤ r'.lastLogIndex := by
  have hlater : ∀ e ∈ entries, r.getLastIndex < e.index ∧ e.index ≤ r'.lastLogIndex := by
    intro e he
    obtain ⟨i, hi⟩ := List.getElem?_of_mem he
    have hlt := (List.getElem?_eq_some_iff.mp hi).1
    rw [hd.index i e hi, hd.lastLogIndex]
    omega
  have hlast : r.lastLogIndex ≤ r.getLastIndex := Nat.le_max_left _ _
  refine ⟨?_, ?_, ?_⟩
  · have hfar : TracksBelow r (r.getLastIndex + 1) := by
      apply h.below.skip (by omega)
      intro i _ hi _
      rw [h.getLog_none hi]
      rfl
    refine hfar.congr hd.configurations hd.snapshots ?_
    intro i hi
    rw [hd.logs]
    apply LogStore.getLog_storeLogs_ne
    intro e he heq
    have := (hlater e he).1
    omega
  · rw [hd.lastSnapshotIndex, hd.snapshots, h.snapshot]
  · intro e he
    rw [hd.logs] at he
    rcases LogStore.mem_of_mem_storeLogs he with hold | hnew
    · have := h.within e hold
      rw [hd.lastLogIndex]
      omega
    · exact (hlater e hnew).2

theorem Tracked.plain (h : Tracked r) {entries : List Log} (hd : Dispatches r entries r')
    (hplain : ∀ e ∈ entries, e.configuration? = none) : Tracked r' := by
  obtain ⟨hbelow, hsnap, hwithin⟩ := h.dispatched hd
  refine ⟨?_, hsnap, hwithin⟩
  rw [hd.lastLogIndex]
  apply hbelow.skip (by omega)
  intro i _ hi _
  rw [hd.logs]
  by_cases hnew : ∃ e ∈ entries, e.index = i
  · obtain ⟨e, he, rfl⟩ := hnew
    rw [LogStore.getLog_storeLogs_mem hd.nodup he]
    exact hplain e he
  · rw [LogStore.getLog_storeLogs_ne (fun e he heq => hnew ⟨e, he, heq⟩), h.getLog_none]
    · rfl
    · have : r.lastLogIndex ≤ r.getLastIndex := Nat.le_max_left _ _
      omega

theorem stampedLogs_plain {futures : List LogFuture}
    (hplain : ∀ f ∈ futures, f.log.configuration? = none) :
    ∀ e ∈ r.stampedLogs futures env, e.configuration? = none := by
  intro e he
  obtain ⟨j, hj⟩ := List.getElem?_of_mem he
  obtain ⟨-, -, f, hf, hconf⟩ := stampedLogs_getElem? hj
  exact hconf.trans (hplain f hf)

theorem Tracked.dispatchLogs (h : Tracked r) {futures : List LogFuture} (henv : env.Faultless)
    (hplain : ∀ f ∈ futures, f.log.configuration? = none) :
    Tracked (r.dispatchLogs futures env).1 :=
  h.plain (dispatches_dispatchLogs henv.2.1 futures) (stampedLogs_plain hplain)

theorem configurationEntry_configuration? (hversion : 2 ≤ r.conf.protocolVersion)
    (c : Configuration) : (r.configurationEntry c).configuration? = some c := by
  unfold configurationEntry
  rw [if_neg (by omega)]
  rfl

theorem Tracked.stable (h : Tracked r) (hstable : r.configurationChangeChIfStable = true) :
    (r.configurations.committed, r.configurations.committedIndex) =
      (r.configurations.latest, r.configurations.latestIndex) := by
  have hindex := latestIndex_of_stable hstable
  rcases h.below.committed with heq | ⟨hlt, -⟩
  · exact heq
  · omega

/-- The leader's own configuration entry goes above everything in its log. -/
theorem Tracked.configured (h : Tracked r) {c : Configuration} {entry : Log}
    (hd : Dispatches r [entry] r') (hconf : entry.configuration? = some c)
    (hstable : r.configurationChangeChIfStable = true) :
    Tracked (r'.setLatestConfiguration c (r.getLastIndex + 1)) := by
  obtain ⟨hbelow, hsnap, hwithin⟩ := h.dispatched hd
  have hindex : entry.index = r.getLastIndex + 1 := hd.index 0 entry rfl
  have hget : r'.logs.getLog entry.index = some entry := by
    rw [hd.logs]
    exact LogStore.getLog_storeLogs_mem hd.nodup (by simp)
  have habove : snapshotIndex r'.snapshots < entry.index := by
    rw [← hsnap, hd.lastSnapshotIndex, hindex]
    exact Nat.lt_succ_of_le (Nat.le_max_right _ _)
  rw [← hindex] at hbelow ⊢
  have hentry := hbelow.entry hget hconf rfl habove
  have hpush : r'.configurations.push entry =
      { r'.configurations with latest := c, latestIndex := entry.index } := by
    have hcommitted := h.stable hstable
    rw [← hd.configurations] at hcommitted
    simp only [Prod.mk.injEq] at hcommitted
    simp only [Configurations.push, hconf, hcommitted.1, hcommitted.2]
  rw [hpush] at hentry
  refine ⟨?_, hsnap, hwithin⟩
  have hlast : r'.lastLogIndex = entry.index := by rw [hd.lastLogIndex, hindex]; rfl
  have hlast' : (r'.setLatestConfiguration c entry.index).lastLogIndex = entry.index := hlast
  rw [hlast']
  exact ⟨hentry.base, hentry.latest, hentry.committed⟩

theorem Tracked.appendConfigurationEntry (h : Tracked r) {req : ConfigurationChangeRequest}
    {future : Nat} (henv : env.Faultless) (hversion : 2 ≤ r.conf.protocolVersion)
    (hstable : r.configurationChangeChIfStable = true) :
    Tracked (r.appendConfigurationEntry req future env).1 := by
  rcases appendConfigurationEntry_cases (r := r) henv.2.1 req future with
    hsame | ⟨c, entry, r₁, -, hconf, hd, hsame⟩
  · exact h.sameData hsame
  · rw [configurationEntry_configuration? hversion] at hconf
    exact (h.configured hd hconf hstable).sameData hsame

/-- The snapshot of a request is not older than the newest one, it covers its own
configuration, and no configuration above it survives in the log. -/
structure Supersedes (r : Raft) (req : InstallSnapshotRequest) : Prop where
  newest : NotOlder r.snapshots req.lastLogIndex req.lastLogTerm
  covered : req.configurationIndex ≤ req.lastLogIndex
  above : r.conf.monotonicLogs = true ∨
    ∀ e ∈ r.logs, req.lastLogIndex < e.index → e.configuration? = none

theorem logsAfter_getLog (r : Raft) (index : Nat) {i : Nat} (henv : env.deleteRange = true)
    (hi : index < i) :
    (r.logsAfter index env).getLog i = if r.conf.monotonicLogs then none else r.logs.getLog i := by
  unfold logsAfter
  split
  · by_cases hlast : 0 < r.logs.lastIndex
    · rw [removeOldLogs_eq henv hlast]
      rfl
    · have hsame : (r.removeOldLogs env).logs = r.logs := by
        unfold removeOldLogs compactLogsWithTrailing
        dsimp only
        rw [if_pos (by omega)]
      rw [hsame]
      exact LogStore.getLog_eq_none_of_lt (by omega)
  · exact compactLogs_getLog r hi

theorem requestConfiguration_index {req : InstallSnapshotRequest} {c : Configuration} {index : Nat}
    (h : requestConfiguration req = some (c, index)) (hle : req.configurationIndex ≤ req.lastLogIndex) :
    index ≤ req.lastLogIndex := by
  unfold requestConfiguration at h
  split at h
  · simp only [Option.map_eq_some_iff, Prod.mk.injEq] at h
    obtain ⟨_, _, _, rfl⟩ := h
    exact hle
  · simp only [Option.map_eq_some_iff, Prod.mk.injEq] at h
    obtain ⟨_, _, _, rfl⟩ := h
    exact Nat.le_refl _

theorem Tracked.installs (h : Tracked r) {req : InstallSnapshotRequest} {c : Configuration}
    {index : Nat} (henv : env.Faultless) (hreq : Supersedes r req)
    (hi : Installs r req c index env r') : Tracked r' := by
  have hhead : r'.snapshots.head? = some (receivedSnapshot req c index) := by
    rw [hi.snapshots]
    exact head?_addSnapshot (s := receivedSnapshot req c index) hreq.newest
  have hindex : snapshotIndex r'.snapshots = req.lastLogIndex := by
    unfold snapshotIndex
    rw [hhead]
    rfl
  have hconf : snapshotConfiguration r'.snapshots = (c, index) := by
    unfold snapshotConfiguration
    rw [hhead]
    rfl
  have hplain : inForce r'.snapshots r'.logs (r'.lastLogIndex + 1) = (c, index) := by
    have hzero : inForce r'.snapshots r'.logs 0 = (c, index) := by
      rw [← hconf]
      exact inForce_of_le (Nat.zero_le _)
    rw [← hzero]
    apply inForce_skip (Nat.zero_le _)
    intro i hi' _ _
    rw [hindex] at hi'
    rw [hi.logs, logsAfter_getLog r _ henv.2.2 hi']
    split
    · rfl
    · rename_i hmono
      cases hget : r.logs.getLog i with
      | none => rfl
      | some e =>
        have habove := hreq.above.resolve_left hmono e (LogStore.mem_of_getLog hget)
        rw [LogStore.index_of_getLog hget] at habove
        exact habove hi'
  constructor
  case below =>
    refine ⟨?_, ?_, .inl ?_⟩
    · rw [hconf, hindex]
      exact requestConfiguration_index hi.request hreq.covered
    · rw [hplain, hi.configurations]
    · rw [hi.configurations]
  case snapshot => rw [hi.lastSnapshotIndex, hindex]
  case within =>
    intro e he
    rw [hi.logs] at he
    rw [hi.lastLogIndex]
    exact h.within e (logsAfter_sublist r _ env e he)

theorem tracked_newRaft {conf : Config} {stable : StableStore} {logs : LogStore}
    {snapshots : List Snapshot} (hbase : (snapshotConfiguration snapshots).2 ≤ snapshotIndex snapshots)
    (h : newRaft conf stable logs snapshots env = some r) : Tracked r := by
  have hstarted := started_newRaft h
  obtain ⟨-, lastLogTerm, r₁, -, hr₁, h⟩ := newRaft_some h
  obtain ⟨hsnapshots, -, -⟩ := restoreSnapshot_applied hr₁ rfl
  dsimp only at hsnapshots
  obtain ⟨hindex, -, hlatest, hcommitted⟩ := restoreSnapshot_newest hr₁ rfl rfl rfl
  dsimp only at hindex hlatest hcommitted
  rw [hindex] at h
  have hstart : TracksBelow r₁ (snapshotIndex snapshots + 1) := by
    refine ⟨by rw [hsnapshots]; exact hbase, ?_, .inl (hcommitted.trans hlatest.symm)⟩
    rw [hlatest, hsnapshots, inForce_of_le (Nat.le_refl _)]
  have hscanned := hstart.scanConfigurations (by rw [hsnapshots]; omega) h
  constructor
  case below =>
    rw [hstarted.lastLogIndex]
    by_cases hle : snapshotIndex snapshots ≤ logs.lastIndex
    · rw [show logs.lastIndex + 1 =
        snapshotIndex snapshots + 1 + (logs.lastIndex - snapshotIndex snapshots) by omega]
      exact hscanned
    · refine ⟨hscanned.base, ?_, hscanned.committed⟩
      rw [hscanned.latest, hstarted.snapshots, inForce_of_le (by omega), inForce_of_le (by omega)]
  case snapshot =>
    have hkept : r.lastSnapshotIndex = r₁.lastSnapshotIndex := by rw [scanConfigurations_push h]
    rw [hkept, hindex, hstarted.snapshots]
  case within =>
    rw [hstarted.logs, hstarted.lastLogIndex]
    exact fun e he => LogStore.index_le_lastIndex he

end Raft

end PerfRaft
