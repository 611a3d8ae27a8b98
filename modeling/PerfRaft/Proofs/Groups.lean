import PerfRaft.Proofs.Replies

namespace PerfRaft

namespace Raft

variable {r : Raft} {ls : LeaderState} {group : List LogFuture}

/-- The futures of a leadership that can still commit them: in the order of their
indexes, above what is applied, and in the log store. -/
structure Ready (r : Raft) (inflight : List LogFuture) : Prop where
  sorted : inflight.Pairwise (fun f g => f.log.index < g.log.index)
  above : ∀ f ∈ inflight, r.lastApplied < f.log.index
  stored : ∀ f ∈ inflight, r.logs.getLog f.log.index = some f.log

theorem Ready.of_isPrefix {inflight : List LogFuture} (h : Ready r inflight) (hp : group <+: inflight) :
    Ready r group where
  sorted := h.sorted.sublist hp.sublist
  above := fun f hf => h.above f (hp.subset hf)
  stored := fun f hf => h.stored f (hp.subset hf)

theorem Ready.nodup (h : Ready r group) : (group.map (fun f => f.log.index)).Nodup :=
  (List.pairwise_map.mpr h.sorted).imp (fun hlt => Nat.ne_of_lt hlt)

theorem Ready.le_last (h : Ready r group) {last : LogFuture} (hlast : group.getLast? = some last) :
    ∀ f ∈ group, f.log.index ≤ last.log.index := by
  obtain ⟨init, rfl⟩ := List.getLast?_eq_some_iff.mp hlast
  intro f hf
  rcases List.mem_append.mp hf with hf | hf
  · exact ((List.pairwise_append.mp h.sorted).2.2 f hf last (by simp)).le
  · rw [List.mem_singleton.mp hf]

theorem index_groupLogs {l : Log} {idx : Nat}
    (hl : ((group.find? (fun f => f.log.index == idx)).map LogFuture.log).or (r.logs.getLog idx) =
      some l) : l.index = idx := by
  cases hf : group.find? (fun f => f.log.index == idx) with
  | none =>
    rw [hf] at hl
    exact LogStore.index_of_getLog hl
  | some f =>
    rw [hf] at hl
    cases hl
    simpa using List.find?_some hf

/-- The futures of a group are passed on to the FSM thread or answered at once. -/
theorem perm_group (h : Ready r group) {last : LogFuture} (hlast : group.getLast? = some last)
    (hholds : Holds r.logs group (FSMRun.indexes r.lastApplied last.log.index)) :
    (((FSMRun.indexes r.lastApplied last.log.index).filterMap (r.preparedAt group)).filterMap
        CommitTuple.future ++
      ((FSMRun.indexes r.lastApplied last.log.index).filterMap (r.respondedAt group)).map
        LogFuture.id).Perm (group.map LogFuture.id) := by
  have hpairs := (perm_owners hholds).map Prod.fst
  have hall : group.filter (fun f =>
      decide (r.lastApplied < f.log.index) && decide (f.log.index ≤ last.log.index)) = group := by
    rw [List.filter_eq_self]
    intro f hf
    simp [h.above f hf, h.le_last hlast f hf]
  have hfutures : ((FSMRun.indexes r.lastApplied last.log.index).filterMap (futureAt group)).Perm
      (group.filter (fun f =>
        decide (r.lastApplied < f.log.index) && decide (f.log.index ≤ last.log.index))) :=
    perm_futuresAt h.nodup
  rw [hall] at hfutures
  have htuples : ∀ l : List CommitTuple,
      (l.filterMap (fun t => t.future.map (fun id => (id, t.log)))).map Prod.fst =
        l.filterMap CommitTuple.future := by
    intro l
    rw [List.map_filterMap]
    simp [Function.comp_def]
  rw [List.map_append, htuples, List.map_map, List.map_map] at hpairs
  exact hpairs.trans (hfutures.map LogFuture.id)

/-- Everything about a group that has been processed without a panic. -/
structure Delivers (r : Raft) (group : List LogFuture) (r' : Raft) (p : Processed) : Prop where
  owners : (p.batches.flatten.filterMap CommitTuple.future ++ p.responded).Perm (group.map LogFuture.id)
  applied : r.lastApplied ≤ r'.lastApplied
  logs : ∀ f ∈ group, f.log ∈ r.groupLogs group
  sorted : (r.groupLogs group).Pairwise (fun l m => l.index < m.index)
  bounds : ∀ l ∈ r.groupLogs group, r.lastApplied < l.index ∧ l.index ≤ r'.lastApplied
  rest : ∀ n, (∀ f ∈ group, f.log.index < n) → r.lastApplied < n → r'.lastApplied < n

theorem delivers_processGroup (h : Ready r group) (hpanic : (r.processGroup group).2.panicked = false) :
    Delivers r group (r.processGroup group).1 (r.processGroup group).2 := by
  unfold processGroup at hpanic ⊢
  cases hlast : group.getLast? with
  | none =>
    rw [List.getLast?_eq_none_iff] at hlast
    subst hlast
    exact ⟨.refl _, Nat.le_refl _, by simp, by simp [groupLogs], by simp [groupLogs], fun n _ hn => hn⟩
  | some last =>
    have hmem : last ∈ group := List.mem_of_getLast? hlast
    have hlt := h.above last hmem
    simp only [hlast, processLogs, if_neg (Nat.not_le_of_lt hlt)] at hpanic ⊢
    split at hpanic
    · rename_i hpan
      rw [hpan] at hpanic
      simp at hpanic
    · rename_i hpan
      rw [if_neg hpan]
      have hfound := isSome_of_processLoop hpanic
      have hholds : Holds r.logs group
          (List.range' (r.lastApplied + 1) (last.log.index - r.lastApplied)) := by
        intro idx hidx
        cases hf : futureAt group idx with
        | none =>
          have hsome := hfound idx hidx
          rw [hf] at hsome
          obtain ⟨l, hl⟩ := Option.isSome_iff_exists.mp hsome
          exact ⟨l, hl, by simp⟩
        | some f =>
          obtain ⟨hfmem, rfl⟩ := (futureAt_eq_some h.nodup).mp hf
          refine ⟨f.log, h.stored f hfmem, ?_⟩
          intro g hg
          cases hg
          rfl
      obtain ⟨-, hflat, hresp⟩ := processLoop_flatten hholds []
      have hbounds : ∀ l ∈ r.groupLogs group, r.lastApplied < l.index ∧ l.index ≤ last.log.index := by
        intro l hl
        simp only [groupLogs, hlast, List.mem_filterMap, List.mem_range'_1] at hl
        obtain ⟨idx, hidx, hsource⟩ := hl
        have := index_groupLogs hsource
        omega
      refine ⟨?_, hlt.le, ?_, ?_, hbounds, fun n hn _ => hn last hmem⟩
      · rw [hflat, hresp, List.nil_append]
        exact perm_group h hlast hholds
      · intro f hf
        have hle := h.le_last hlast f hf
        have habove := h.above f hf
        have hfind := (futureAt_eq_some h.nodup).mpr ⟨hf, rfl⟩
        simp only [groupLogs, hlast, List.mem_filterMap, List.mem_range'_1]
        refine ⟨f.log.index, by omega, ?_⟩
        rw [futureAt] at hfind
        rw [hfind]
        rfl
      · simp only [groupLogs, hlast]
        rw [List.pairwise_filterMap]
        refine (List.pairwise_lt_range' 1).imp ?_
        intro i j hij l hl m hm
        rw [index_groupLogs hl, index_groupLogs hm]
        exact hij

/-- The commit leaves the rest of the queue with the leadership. -/
structure Commits (r : Raft) (ls : LeaderState) (r' : Raft) : Prop where
  delivers : Delivers r (groupReady ls ls.commitment.commitIndex) r' (r.committedGroup ls)
  logs : r'.logs = r.logs
  last : r'.getLastIndex = r.getLastIndex
  head : ∃ ls', r'.leaderships.head? = some ls' ∧
    ls'.inflight = ls.inflight.drop (groupReady ls ls.commitment.commitIndex).length ∧
    ls'.commitment.commitIndex = ls.commitment.commitIndex

theorem setLeaderCommit_fields (r : Raft) (n : Nat) :
    (r.setLeaderCommit n).1.lastApplied = r.lastApplied ∧ (r.setLeaderCommit n).1.logs = r.logs := by
  unfold setLeaderCommit
  dsimp only
  split <;> exact ⟨rfl, rfl⟩

theorem groupLogs_congr {r' : Raft} (happlied : r'.lastApplied = r.lastApplied)
    (hlogs : r'.logs = r.logs) (group : List LogFuture) : r'.groupLogs group = r.groupLogs group := by
  unfold groupLogs
  rw [happlied, hlogs]

theorem commits_leaderCommit {rest : List LeaderState} (hls : r.leaderships = ls :: rest)
    (hready : Ready r ls.inflight) (hpanic : (r.committedGroup ls).panicked = false) (stepDown : Bool) :
    Commits r ls (r.leaderCommit ls stepDown).1 := by
  obtain ⟨happlied, hlogs⟩ := setLeaderCommit_fields r ls.commitment.commitIndex
  have hprefix : groupReady ls ls.commitment.commitIndex <+: ls.inflight := List.takeWhile_prefix _
  have hgroup : Ready (r.takeGroup ls) (groupReady ls ls.commitment.commitIndex) := by
    obtain ⟨hsorted, habove, hstored⟩ := hready.of_isPrefix hprefix
    refine ⟨hsorted, ?_, ?_⟩
    · intro f hf
      exact lt_of_eq_of_lt happlied (habove f hf)
    · intro f hf
      exact (congrArg (fun logs => LogStore.getLog logs f.log.index) hlogs).trans (hstored f hf)
  have hlogs' : (r.takeGroup ls).groupLogs (groupReady ls ls.commitment.commitIndex) =
      r.groupLogs (groupReady ls ls.commitment.commitIndex) := groupLogs_congr happlied hlogs _
  have happlied' : (r.takeGroup ls).lastApplied = r.lastApplied := happlied
  have hfinish : ((r.takeGroup ls).processGroup (groupReady ls ls.commitment.commitIndex)).1.lastApplied =
      (r.leaderCommit ls stepDown).1.lastApplied := (finishCommit_keeps _ _).2.symm
  constructor
  case delivers =>
    obtain ⟨howners, hle, hmem, hsorted, hbounds, hrest⟩ := delivers_processGroup hgroup hpanic
    rw [hlogs'] at hmem hsorted hbounds
    rw [happlied', hfinish] at hle hbounds hrest
    exact ⟨howners, hle, hmem, hsorted, hbounds, hrest⟩
  case logs => rw [leaderCommit_frame]
  case last =>
    rw [leaderCommit_frame]
    rfl
  case head =>
    rw [leaderCommit_frame, hls]
    exact ⟨_, rfl, rfl, rfl⟩

theorem id_stampLogs (term now lastIndex : Nat) (futures : List LogFuture) :
    (stampLogs term now lastIndex futures).map LogFuture.id = futures.map LogFuture.id := by
  induction futures generalizing lastIndex with
  | nil => rfl
  | cons f rest ih => simp [stampLogs, ih]

theorem sorted_stampLogs (term now lastIndex : Nat) (futures : List LogFuture) :
    (stampLogs term now lastIndex futures).Pairwise (fun f g => f.log.index < g.log.index) ∧
      ∀ f ∈ stampLogs term now lastIndex futures, lastIndex < f.log.index ∧
        f.log.index ≤ lastIndex + futures.length := by
  induction futures generalizing lastIndex with
  | nil => simp [stampLogs]
  | cons f rest ih =>
    obtain ⟨hsorted, hbounds⟩ := ih (lastIndex + 1)
    refine ⟨List.pairwise_cons.mpr ⟨?_, hsorted⟩, ?_⟩
    · intro g hg
      have := (hbounds g hg).1
      simpa using this
    · intro g hg
      rcases List.mem_cons.mp hg with rfl | hg
      · simp only [List.length_cons]
        omega
      · have := hbounds g hg
        simp only [List.length_cons]
        omega

/-- What has been stored is ready to be committed. -/
theorem Ready.dispatch {r' : Raft} {inflight futures : List LogFuture} {term now : Nat}
    (h : Ready r inflight) (hle : r.lastApplied ≤ r.getLastIndex)
    (hlast : ∀ f ∈ inflight, f.log.index ≤ r.getLastIndex) (happlied : r'.lastApplied = r.lastApplied)
    (hlogs : r'.logs = r.logs.storeLogs
      ((stampLogs term now r.getLastIndex futures).map LogFuture.log)) :
    Ready r' (inflight ++ stampLogs term now r.getLastIndex futures) := by
  obtain ⟨hsorted, hbounds⟩ := sorted_stampLogs term now r.getLastIndex futures
  have hnodup : ((stampLogs term now r.getLastIndex futures).map LogFuture.log |>.map Log.index).Nodup := by
    rw [List.map_map]
    exact (List.pairwise_map.mpr hsorted).imp (fun hlt => Nat.ne_of_lt hlt)
  constructor
  case sorted =>
    refine List.pairwise_append.mpr ⟨h.sorted, hsorted, ?_⟩
    intro f hf g hg
    exact (hlast f hf).trans_lt (hbounds g hg).1
  case above =>
    intro f hf
    rw [happlied]
    rcases List.mem_append.mp hf with hf | hf
    · exact h.above f hf
    · exact hle.trans_lt (hbounds f hf).1
  case stored =>
    intro f hf
    rw [hlogs]
    rcases List.mem_append.mp hf with hf | hf
    · rw [LogStore.getLog_storeLogs_ne]
      · exact h.stored f hf
      · intro e he
        obtain ⟨g, hg, rfl⟩ := List.mem_map.mp he
        have := (hbounds g hg).1
        have := hlast f hf
        omega
    · exact LogStore.getLog_storeLogs_mem hnodup (List.mem_map_of_mem hf)

end Raft

end PerfRaft
