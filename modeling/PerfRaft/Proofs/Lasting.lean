import Mathlib.Data.List.TakeWhile
import PerfRaft.Lifetime
import PerfRaft.Proofs.Contiguous
import PerfRaft.Proofs.Heading
import PerfRaft.Proofs.Tracking

namespace PerfRaft

namespace LogStore

variable {archive logs : LogStore} {entries : List Log} {lo hi : Nat}

/-- Entries with other indexes stay where they are. -/
theorem storeLogs_append (h : ∀ old ∈ archive, ∀ e ∈ entries, old.index ≠ e.index) :
    LogStore.storeLogs (archive ++ logs) entries = archive ++ logs.storeLogs entries := by
  induction entries generalizing logs with
  | nil => rfl
  | cons e rest ih =>
    have hone : LogStore.storeLog (archive ++ logs) e = archive ++ logs.storeLog e := by
      unfold storeLog
      rw [List.filter_append, List.append_assoc, List.filter_eq_self.mpr]
      intro old hold
      simpa using h old hold e (by simp)
    have hrest : LogStore.storeLogs (archive ++ logs.storeLog e) rest =
        archive ++ (logs.storeLog e).storeLogs rest :=
      ih (fun old hold e' he' => h old hold e' (List.mem_cons_of_mem _ he'))
    unfold storeLogs at hrest ⊢
    rw [List.foldl_cons, List.foldl_cons, hone, hrest]

theorem deleteRange_append (h : ∀ old ∈ archive, old.index < lo) :
    LogStore.deleteRange (archive ++ logs) lo hi = archive ++ logs.deleteRange lo hi := by
  unfold deleteRange
  rw [List.filter_append, List.filter_eq_self.mpr]
  intro old hold
  have := h old hold
  simp
  omega

/-- What is deleted and what is kept make up the log. -/
theorem getLog_parted (logs : LogStore) (lo hi i : Nat) :
    getLog (logs.filter (fun e => decide (e ∉ logs.deleteRange lo hi)) ++ logs.deleteRange lo hi) i =
      logs.getLog i := by
  rw [getLog_append]
  by_cases hrange : lo ≤ i ∧ i ≤ hi
  · rw [getLog_deleteRange_of_mem hrange, Option.or_none]
    apply getLog_filter
    intro e he
    rw [decide_eq_true_eq, mem_deleteRange, he]
    exact fun hkept => hkept.2 hrange
  · have hnone : getLog (logs.filter (fun e => decide (e ∉ logs.deleteRange lo hi))) i = none := by
      apply List.find?_eq_none.mpr
      intro e he
      obtain ⟨hmem, hgone⟩ := List.mem_filter.mp he
      rw [decide_eq_true_eq, mem_deleteRange] at hgone
      rw [beq_iff_eq]
      rintro rfl
      exact hgone ⟨hmem, hrange⟩
    rw [hnone, Option.none_or, getLog_deleteRange hrange]

end LogStore

variable {entries : List Log}

theorem Configurations.push_foldl {c : Configurations}
    (hsorted : entries.Pairwise (fun e e' => e.index < e'.index))
    (hlater : ∀ e ∈ entries, c.latestIndex < e.index) :
    entries.foldl push c = c ∨
      ((∃ e ∈ entries, (entries.foldl push c).latestIndex = e.index) ∧
        (entries.foldl push c).committedIndex < (entries.foldl push c).latestIndex) := by
  induction entries generalizing c with
  | nil => exact .inl rfl
  | cons e rest ih =>
    rw [List.pairwise_cons] at hsorted
    rw [List.foldl_cons]
    cases hc : e.configuration? with
    | none =>
      have hsame : c.push e = c := by simp only [push, hc]
      rw [hsame]
      refine (ih hsorted.2 (fun e' he' => hlater e' (List.mem_cons_of_mem _ he'))).imp_right ?_
      rintro ⟨⟨e', he', hindex⟩, hlt⟩
      exact ⟨⟨e', List.mem_cons_of_mem _ he', hindex⟩, hlt⟩
    | some configuration =>
      right
      have hpush : (c.push e).latestIndex = e.index ∧ (c.push e).committedIndex = c.latestIndex := by
        simp only [push, hc, and_self]
      rcases ih hsorted.2 (fun e' he' => hpush.1 ▸ hsorted.1 e' he') with hsame | ⟨⟨e', he', hindex⟩, hlt⟩
      · rw [hsame, hpush.1, hpush.2]
        exact ⟨⟨e, by simp, rfl⟩, hlater e (by simp)⟩
      · exact ⟨⟨e', List.mem_cons_of_mem _ he', hindex⟩, hlt⟩

/-- A configuration in force that is not the snapshot's is that of an entry. -/
theorem inForce_entry_mem (snapshots : List Snapshot) (logs : LogStore) (n : Nat) :
    inForce snapshots logs n = snapshotConfiguration snapshots ∨
      ∃ e ∈ logs, e.configuration?.isSome = true ∧ e.index = (inForce snapshots logs n).2 := by
  induction n with
  | zero => exact .inl (inForce_of_le (by omega))
  | succ n ih =>
    by_cases hn : snapshotIndex snapshots < n
    · rw [inForce_succ hn]
      unfold LogStore.configurationAt
      cases hget : (logs.getLog n).bind Log.configuration? with
      | none => exact ih
      | some c =>
        obtain ⟨e, he, hc⟩ := Option.bind_eq_some_iff.mp hget
        exact .inr ⟨e, LogStore.mem_of_getLog he, by rw [hc]; rfl, LogStore.index_of_getLog he⟩
    · exact .inl (inForce_of_le (by omega))

theorem LogStore.mem_followed {logs : LogStore} {e e' : Log} (he : e ∈ logs) (he' : e' ∈ logs)
    (hc : e.configuration?.isSome = true) (hc' : e'.configuration?.isSome = true)
    (hlt : e.index < e'.index) : e.index ∈ logs.followed := by
  unfold followed
  refine List.mem_map.mpr ⟨e, List.mem_filter.mpr ⟨he, ?_⟩, rfl⟩
  simp only [hc, Bool.true_and, List.any_eq_true, Bool.and_eq_true, decide_eq_true_eq]
  exact ⟨e', he', hc', hlt⟩

namespace Raft

variable {r r' r'' : Raft} {base : List Snapshot} {archive : LogStore} {followed : List Nat}
  {entry : Log} {rest : List Log} {env : Env}

theorem Tracked.latest_mem (h : Tracked r) :
    r.configurations.latestIndex ≤ snapshotIndex r.snapshots ∨
      ∃ e ∈ r.logs, e.configuration?.isSome = true ∧ e.index = r.configurations.latestIndex := by
  have hindex : r.configurations.latestIndex =
      (inForce r.snapshots r.logs (r.lastLogIndex + 1)).2 := congrArg Prod.snd h.below.latest
  rw [hindex]
  refine (inForce_entry_mem r.snapshots r.logs (r.lastLogIndex + 1)).imp_left ?_
  intro hbase
  rw [hbase]
  exact h.below.base

theorem Tracked.committed_mem (h : Tracked r) :
    r.configurations.committedIndex ≤ snapshotIndex r.snapshots ∨
      ∃ e ∈ r.logs, e.configuration?.isSome = true ∧ e.index = r.configurations.committedIndex := by
  rcases h.below.committed with heq | ⟨-, heq⟩
  · have hsame : r.configurations.committedIndex = r.configurations.latestIndex :=
      congrArg Prod.snd heq
    rw [hsame]
    exact h.latest_mem
  · have hindex : r.configurations.committedIndex =
        (inForce r.snapshots r.logs r.configurations.latestIndex).2 := congrArg Prod.snd heq
    rw [hindex]
    refine (inForce_entry_mem r.snapshots r.logs r.configurations.latestIndex).imp_left ?_
    intro hbase
    rw [hbase]
    exact h.below.base

/-- A committed configuration that is not the latest one has been followed. -/
theorem Tracked.committed_followed (h : Tracked r)
    (hlt : r.configurations.committedIndex < r.configurations.latestIndex) :
    r.configurations.committedIndex ≤ snapshotIndex r.snapshots ∨
      r.configurations.committedIndex ∈ r.logs.followed := by
  rcases h.committed_mem with hle | ⟨e, he, hc, hindex⟩
  · exact .inl hle
  rcases h.latest_mem with hle | ⟨e', he', hc', hindex'⟩
  · exact .inl (by omega)
  · right
    rw [← hindex]
    exact LogStore.mem_followed he he' hc hc' (by omega)

/-- The server as it would be if it had never compacted its log. -/
def whole (r : Raft) (base : List Snapshot) (archive : LogStore) : Raft :=
  { r with logs := archive ++ r.logs, snapshots := base, lastSnapshotIndex := snapshotIndex base }

theorem Opens.whole (h : Opens r entry r') (hlow : ∀ e ∈ archive, e.index < entry.index) :
    Opens (r.whole base archive) entry (r'.whole base archive) := by
  cases h with
  | after hafter => exact .after hafter
  | @conflict old hle hold hne =>
    have hcut : (r.cut entry.index).whole base archive = (r.whole base archive).cut entry.index := by
      rw [cut_eq, cut_eq (r.whole base archive), cut_configurations, cut_configurations]
      unfold Raft.whole
      dsimp only
      rw [LogStore.deleteRange_append hlow]
    rw [hcut]
    have hnone : archive.getLog entry.index = none := by
      cases hget : archive.getLog entry.index with
      | none => rfl
      | some e =>
        have := hlow e (LogStore.mem_of_getLog hget)
        rw [LogStore.index_of_getLog hget] at this
        omega
    have hwhole : LogStore.getLog (archive ++ r.logs) entry.index = some old := by
      rw [LogStore.getLog_append, hnone]
      exact hold
    exact .conflict hle hwhole hne

theorem stores_whole (hdecodes : ∀ e ∈ entry :: rest, e.decodes = true)
    (hlow : ∀ old ∈ archive, ∀ e ∈ entry :: rest, old.index ≠ e.index) :
    (r.whole base archive).stores entry rest = (r.stores entry rest).whole base archive := by
  rw [stores_push hdecodes, stores_push hdecodes]
  unfold whole
  dsimp only
  rw [LogStore.storeLogs_append hlow]

/-- A server since it was started on the snapshots `base`. The configurations are those of
its whole log. What has been compacted is applied, what is applied is committed, and what
is committed is in the log. A committed configuration that is above the commit index has
been followed by another one. -/
structure Lasting (base : List Snapshot) (archive : LogStore) (followed : List Nat) (r : Raft) :
    Prop where
  tracked : Tracked (r.whole base archive)
  archived : ∀ e ∈ archive, e.index ≤ r.lastApplied
  first : snapshotIndex base ≤ r.lastSnapshotIndex
  last : r.lastSnapshotIndex ≤ r.lastApplied
  newest : snapshotIndex r.snapshots ≤ r.lastApplied
  applied : r.lastApplied ≤ max r.commitIndex (snapshotIndex base)
  committed : r.commitIndex ≤ max r.lastLogIndex (snapshotIndex base)
  settled : r.configurations.latestIndex ≤ max r.commitIndex (snapshotIndex base) →
    (r.configurations.committed, r.configurations.committedIndex) =
      (r.configurations.latest, r.configurations.latestIndex)
  followed : r.configurations.committedIndex ≤ max r.commitIndex (snapshotIndex base) ∨
    r.configurations.committedIndex ∈ followed

theorem Lasting.mono (h : Lasting base archive followed r) {followed' : List Nat}
    (hsub : followed ⊆ followed') : Lasting base archive followed' r :=
  { h with followed := h.followed.imp_right (fun hmem => hsub hmem) }

theorem Lasting.sameData (h : Lasting base archive followed r) (hs : SameData r r') :
    Lasting base archive followed r' where
  tracked := by
    refine h.tracked.sameData ⟨?_, rfl, hs.commitIndex, hs.lastApplied, hs.lastLogIndex,
      hs.lastLogTerm, rfl, hs.lastSnapshotTerm, hs.configurations⟩
    show archive ++ r'.logs = archive ++ r.logs
    rw [hs.logs]
  archived := by
    rw [hs.lastApplied]
    exact h.archived
  first := by
    rw [hs.lastSnapshotIndex]
    exact h.first
  last := by
    rw [hs.lastSnapshotIndex, hs.lastApplied]
    exact h.last
  newest := by
    rw [hs.snapshots, hs.lastApplied]
    exact h.newest
  applied := by
    rw [hs.lastApplied, hs.commitIndex]
    exact h.applied
  committed := by
    rw [hs.commitIndex, hs.lastLogIndex]
    exact h.committed
  settled := by
    rw [hs.configurations, hs.commitIndex]
    exact h.settled
  followed := by
    rw [hs.configurations, hs.commitIndex]
    exact h.followed

theorem Lasting.applied_le (h : Lasting base archive followed r) :
    r.lastApplied ≤ max r.lastLogIndex (snapshotIndex base) := by
  have happlied := h.applied
  have hcommitted := h.committed
  omega

/-- A snapshot of this run does not move the last index. -/
theorem Lasting.getLastIndex (h : Lasting base archive followed r) :
    r.getLastIndex = (r.whole base archive).getLastIndex := by
  have hfirst := h.first
  have hlast := h.last
  have happlied := h.applied_le
  show max r.lastLogIndex r.lastSnapshotIndex = max r.lastLogIndex (snapshotIndex base)
  omega

theorem Lasting.belowLast (h : Lasting base archive followed r) : BelowLast r := by
  have hlast : r.getLastIndex = max r.lastLogIndex (snapshotIndex base) := h.getLastIndex
  have happlied := h.applied_le
  constructor
  case commit => exact hlast ▸ h.committed
  case applied => exact hlast ▸ happlied
  case logs =>
    intro e he
    have hle := h.tracked.within e (List.mem_append_right _ he)
    exact Nat.le_trans hle (Nat.le_max_left _ _)
  case snapshot =>
    rw [hlast]
    exact h.newest.trans happlied

/-- A committed configuration at or below an applied index is the one in force there. One
that is not the latest has the latest above everything that is committed. -/
theorem Lasting.inForce_committed (h : Lasting base archive followed r) {i : Nat}
    (hi : i ≤ r.lastApplied) (hle : r.configurations.committedIndex ≤ i) :
    (r.configurations.committed, r.configurations.committedIndex) =
      inForce base (archive ++ r.logs) (i + 1) := by
  have happlied := h.applied
  have hmax := h.applied_le
  -- no configuration lies between `i` and `n`
  have hbelow {n : Nat} (hn : i + 1 ≤ n)
      (heq : (r.configurations.committed, r.configurations.committedIndex) =
        inForce base (archive ++ r.logs) n) :
      (r.configurations.committed, r.configurations.committedIndex) =
        inForce base (archive ++ r.logs) (i + 1) := by
    rcases @inForce_or_le base (archive ++ r.logs) (i + 1) n hn with hsame | habove
    · rw [heq, hsame]
    · rw [← heq] at habove
      exact absurd hle (Nat.not_le.mpr habove)
  rcases h.tracked.below.committed with heq | ⟨hlt, heq⟩
  · have hlatest := heq.trans h.tracked.below.latest
    by_cases hlog : i ≤ r.lastLogIndex
    · exact hbelow (Nat.succ_le_succ hlog) hlatest
    · rw [inForce_of_le (by omega)]
      refine hlatest.trans (inForce_of_le ?_)
      show r.lastLogIndex + 1 ≤ snapshotIndex base + 1
      omega
  · refine hbelow ?_ heq
    show i + 1 ≤ r.configurations.latestIndex
    have hlt : r.configurations.committedIndex < r.configurations.latestIndex := hlt
    by_contra hlow
    have hsettled := h.settled (by omega)
    rw [Prod.mk.injEq] at hsettled
    omega

/-- What is in the log above the last applied index has not been compacted. -/
theorem Lasting.getLog_archive (h : Lasting base archive followed r) {i : Nat}
    (hi : r.lastApplied < i) : LogStore.getLog (archive ++ r'.logs) i = r'.logs.getLog i := by
  rw [LogStore.getLog_append]
  cases hget : archive.getLog i with
  | none => rfl
  | some e =>
    have hle := h.archived e (LogStore.mem_of_getLog hget)
    rw [LogStore.index_of_getLog hget] at hle
    omega

theorem Opens.frame (h : Opens r entry r') :
    ∃ logs configurations, r' = { r with logs := logs, configurations := configurations } := by
  cases h with
  | after => exact ⟨r.logs, r.configurations, rfl⟩
  | conflict => exact ⟨_, _, cut_eq r entry.index⟩

/-- What is deleted for the entries of a request. -/
theorem Opens.deleted (h : Opens r entry r') {e : Log} (hle : e.index ≤ r.lastLogIndex)
    (hindex : entry.index ≤ e.index) : e ∉ r'.logs := by
  cases h with
  | after hafter => omega
  | conflict =>
    rw [cut_eq]
    intro hmem
    exact (LogStore.mem_deleteRange.mp hmem).2 ⟨hindex, hle⟩

/-- The configurations once the log is ready for the entries of a request. -/
theorem Opens.configurations (h : Opens r entry r') :
    r'.configurations = r.configurations ∨
      (r'.configurations.committedIndex = r.configurations.committedIndex ∧
        (r'.configurations.committed, r'.configurations.committedIndex) =
          (r'.configurations.latest, r'.configurations.latestIndex)) := by
  cases h with
  | after => exact .inl rfl
  | conflict =>
    rw [cut_configurations]
    split
    · exact .inr ⟨rfl, rfl⟩
    · exact .inl rfl

section Stores

-- a request may delete neither what is committed nor a configuration that has been followed
variable (h : Lasting base archive followed r) (ho : Opens r entry r')
  (habove : snapshotIndex base < entry.index)
  (hkept : ∀ e ∈ r.logs, e ∉ r'.logs → r.commitIndex < e.index ∧ e.index ∉ followed)

include h ho habove hkept

theorem Lasting.opens_above : max r.commitIndex (snapshotIndex base) < entry.index := by
  have hcommitted := h.committed
  cases ho with
  | after hafter => omega
  | @conflict old hle hold hne =>
    have hindex := LogStore.index_of_getLog hold
    have hgone := Opens.deleted (.conflict hle hold hne) (by omega) hindex.ge
    have := (hkept old (LogStore.mem_of_getLog hold) hgone).1
    omega

theorem Lasting.opens_archive : ∀ e ∈ archive, e.index < entry.index := by
  intro e he
  have hafter := h.opens_above ho habove hkept
  have harchived := h.archived e he
  have happlied := h.applied
  omega

theorem Lasting.opens_committed : r.configurations.committedIndex < entry.index := by
  by_contra hle
  have hafter := h.opens_above ho habove hkept
  rcases h.followed with hcovered | hfollowed
  · omega
  rcases h.tracked.committed_mem with hbase | ⟨e, he, -, hindex⟩
  · have hbase : r.configurations.committedIndex ≤ snapshotIndex base := hbase
    omega
  have hindex : e.index = r.configurations.committedIndex := hindex
  rcases List.mem_append.mp he with harchived | hlogs
  · have := h.opens_archive ho habove hkept e harchived
    omega
  · have hgone := ho.deleted (h.tracked.within e he) (by omega)
    exact (hkept e hlogs hgone).2 (hindex ▸ hfollowed)

variable (hsorted : (entry :: rest).Pairwise (fun e e' => e.index < e'.index))
  (hdecodes : ∀ e ∈ entry :: rest, e.decodes = true)

include hsorted hdecodes

theorem Lasting.stores_tracked :
    Tracked ((r'.stores entry rest).whole base archive) ∧
      ∀ e ∈ entry :: rest, r'.configurations.latestIndex < e.index := by
  have hlow := h.opens_archive ho habove hkept
  have hfirst := index_ge_head hsorted
  obtain ⟨hbelow, hsnapshots, hlast, hlower⟩ := h.tracked.opens (ho.whole hlow)
    (fun _ _ => .inl (h.opens_committed ho habove hkept))
  have htracked := tracked_stores hbelow (by rw [hlast, hsnapshots]; rfl) hlower hsorted hdecodes (by
    intro e he _
    rw [hlast]
    exact Nat.lt_of_lt_of_le habove (hfirst e he))
  rw [stores_whole hdecodes (by
    intro old hold e he
    exact Nat.ne_of_lt (Nat.lt_of_lt_of_le (hlow old hold) (hfirst e he)))] at htracked
  refine ⟨htracked, ?_⟩
  intro e he
  have hlater := hbelow.latestIndex_lt (Nat.le_refl _) (by rw [hsnapshots]; exact habove)
  exact Nat.lt_of_lt_of_le hlater (hfirst e he)

theorem Lasting.stores :
    Lasting base archive (LogStore.followed (archive ++ (r'.stores entry rest).logs) ++ followed)
      (r'.stores entry rest) := by
  have hafter := h.opens_above ho habove hkept
  obtain ⟨htracked, hlater⟩ := h.stores_tracked ho habove hkept hsorted hdecodes
  have hpush := Configurations.push_foldl hsorted hlater
  have hlast := index_le_getLast hsorted (by simp) entry (by simp)
  have hfirst := index_ge_head hsorted
  have hconfigurations := ho.configurations
  have hfollowed := htracked.committed_followed
  obtain ⟨logs, configurations, hframe⟩ := ho.frame
  rw [stores_push hdecodes] at htracked hfollowed ⊢
  rw [hframe] at htracked hfollowed hconfigurations hpush ⊢
  unfold whole at hfollowed
  dsimp only at hfollowed hconfigurations hpush ⊢
  generalize (entry :: rest).foldl Configurations.push configurations = c at htracked hfollowed hpush ⊢
  constructor
  case tracked => exact htracked
  case archived => exact h.archived
  case first => exact h.first
  case last => exact h.last
  case newest => exact h.newest
  case applied => exact h.applied
  case committed =>
    dsimp only
    omega
  case settled =>
    intro hle
    dsimp only at hle ⊢
    rcases hpush with hsame | ⟨⟨e, he, hindex⟩, -⟩
    · rw [hsame] at hle ⊢
      rcases hconfigurations with hkeeps | ⟨-, hcut⟩
      · rw [hkeeps] at hle ⊢
        exact h.settled hle
      · exact hcut
    · have := hfirst e he
      omega
  case followed =>
    dsimp only
    rcases hpush with hsame | ⟨-, hlt⟩
    · have hindex : c.committedIndex = r.configurations.committedIndex := by
        rw [hsame]
        rcases hconfigurations with hkeeps | ⟨hcut, -⟩
        · rw [hkeeps]
        · exact hcut
      rw [hindex]
      exact h.followed.imp_right (List.mem_append_right _)
    · refine (hfollowed hlt).imp ?_ (List.mem_append_left _)
      intro hle
      omega

/-- What is applied stays in the log. -/
theorem Lasting.stores_getLog {i : Nat} (hi : i ≤ r.lastApplied) :
    LogStore.getLog (archive ++ (r'.stores entry rest).logs) i =
      LogStore.getLog (archive ++ r.logs) i := by
  have hafter := h.opens_above ho habove hkept
  have happlied := h.applied
  have hfirst := index_ge_head hsorted
  have hstored : (r'.stores entry rest).logs.getLog i = r'.logs.getLog i := by
    rw [stores_push hdecodes]
    apply LogStore.getLog_storeLogs_ne
    intro e he heq
    have := hfirst e he
    omega
  have hopened : r'.logs.getLog i = r.logs.getLog i := by
    cases ho with
    | after => rfl
    | conflict =>
      rw [cut_eq]
      exact LogStore.getLog_deleteRange (by omega)
  rw [LogStore.getLog_append, LogStore.getLog_append, hstored, hopened]

end Stores

/-- The commit index and the last applied index move up. -/
theorem Lasting.advances (h : Lasting base archive followed r) (ha : Advances r r')
    (hcommit : r.commitIndex ≤ r'.commitIndex)
    (hcommitted : r'.commitIndex ≤ max r.lastLogIndex (snapshotIndex base))
    (happlied : r.lastApplied ≤ r'.lastApplied)
    (happlied' : r'.lastApplied ≤ max r'.commitIndex (snapshotIndex base))
    (hsettles : r.configurations.latestIndex ≤ r'.commitIndex →
      r.configurations.latestIndex ≤ r.commitIndex ∨ r'.configurations = r.configurations.settle) :
    Lasting base archive followed r' where
  tracked := by
    refine h.tracked.advances ⟨⟨?_, rfl, ha.stores.lastLogIndex, ha.stores.lastLogTerm, rfl,
      ha.stores.lastSnapshotTerm⟩, ha.configurations⟩
    show archive ++ r'.logs = archive ++ r.logs
    rw [ha.stores.logs]
  archived e he := (h.archived e he).trans happlied
  first := by
    rw [ha.stores.lastSnapshotIndex]
    exact h.first
  last := by
    rw [ha.stores.lastSnapshotIndex]
    exact h.last.trans happlied
  newest := by
    rw [ha.stores.snapshots]
    exact h.newest.trans happlied
  applied := happlied'
  committed := by
    rw [ha.stores.lastLogIndex]
    exact hcommitted
  settled := by
    intro hle
    rcases ha.configurations with hsame | ⟨-, hsettled⟩
    · rw [hsame] at hle ⊢
      by_cases hcovered : r.configurations.latestIndex ≤ max r.commitIndex (snapshotIndex base)
      · exact h.settled hcovered
      · have hnew := (hsettles (by omega)).resolve_left (by omega)
        rw [hsame] at hnew
        rw [hnew]
        rfl
    · rw [hsettled]
      rfl
  followed := by
    rcases ha.configurations with hsame | ⟨hcovered, hsettled⟩
    · rw [hsame]
      refine h.followed.imp_left ?_
      intro hle
      omega
    · left
      rw [hsettled]
      exact hcovered.trans (Nat.le_max_left _ _)

theorem followCommit_moves (r : Raft) (leaderCommitIndex : Nat) :
    (r.followCommit leaderCommitIndex).1 = r ∨
      (r.commitIndex < leaderCommitIndex ∧
        (r.followCommit leaderCommitIndex).1.commitIndex = min leaderCommitIndex r.getLastIndex ∧
        (r.configurations.latestIndex ≤ min leaderCommitIndex r.getLastIndex →
          (r.followCommit leaderCommitIndex).1.configurations = r.configurations.settle) ∧
        ((r.followCommit leaderCommitIndex).1.lastApplied = r.lastApplied ∨
          (r.lastApplied < min leaderCommitIndex r.getLastIndex ∧
            (r.followCommit leaderCommitIndex).1.lastApplied =
              min leaderCommitIndex r.getLastIndex))) := by
  unfold followCommit
  split
  case isFalse => exact .inl rfl
  case isTrue hmoves =>
    right
    refine ⟨hmoves.2, ?_⟩
    dsimp only
    split
    · rename_i hcovered
      refine ⟨by rw [processLogs_eq]; rfl, ?_, lastApplied_processLogs _ _ _⟩
      intro _
      rw [processLogs_eq]
      rfl
    · rename_i hcovered
      refine ⟨by rw [processLogs_eq], ?_, lastApplied_processLogs _ _ _⟩
      intro hle
      exact absurd hle hcovered

theorem Lasting.followCommit (h : Lasting base archive followed r) (leaderCommitIndex : Nat) :
    Lasting base archive followed (r.followCommit leaderCommitIndex).1 := by
  have hadvances := advances_followCommit r leaderCommitIndex
  have hlast : r.getLastIndex = max r.lastLogIndex (snapshotIndex base) := h.getLastIndex
  have hcommitted := h.committed
  have happlied := h.applied
  rcases followCommit_moves r leaderCommitIndex with hsame | ⟨hlt, hcommit, hsettles, hmoved⟩
  · rw [hsame]
    exact h
  · refine h.advances hadvances ?_ ?_ ?_ ?_ ?_
    · omega
    · omega
    · omega
    · omega
    · rw [hcommit]
      exact fun hle => .inr (hsettles hle)

theorem leaderCommit_settles {ls : LeaderState} {stepDown : Bool}
    (h : r.configurations.latestIndex ≤ ls.commitment.commitIndex) :
    r.configurations.latestIndex ≤ r.commitIndex ∨
      (r.leaderCommit ls stepDown).1.configurations = r.configurations.settle := by
  by_cases hold : r.configurations.latestIndex ≤ r.commitIndex
  · exact .inl hold
  right
  rw [leaderCommit_frame]
  unfold setLeaderCommit
  dsimp only
  rw [if_pos ⟨by omega, h⟩]
  rfl

theorem Lasting.leaderCommit (h : Lasting base archive followed r) {ls : LeaderState}
    (hhead : Heading r ls) (hch : ls.commitment.commitCh = true) (stepDown : Bool) :
    Lasting base archive followed (r.leaderCommit ls stepDown).1 := by
  obtain ⟨hcommit, happlied⟩ := leaderCommit_applied r ls stepDown
  have hlast : r.getLastIndex = max r.lastLogIndex (snapshotIndex base) := h.getLastIndex
  have hbound := hhead.commitment.commit
  -- the leader was told of entries of its own term, which are above its commit index
  have hmono : r.commitIndex ≤ ls.commitment.commitIndex := by
    have hstart := hhead.commitment.notified hch
    rcases hhead.commitment.next with hlt | hle <;> omega
  have hkeeps := h.applied
  have hmoved : (r.leaderCommit ls stepDown).1.lastApplied = r.lastApplied ∨
      (r.lastApplied < (r.leaderCommit ls stepDown).1.lastApplied ∧
        (r.leaderCommit ls stepDown).1.lastApplied ≤ ls.commitment.commitIndex) := by
    refine happlied.imp_right ?_
    rintro ⟨f, hf, hlt, hindex⟩
    rw [hindex]
    refine ⟨hlt, ?_⟩
    simpa using List.mem_takeWhile_imp hf
  refine h.advances (advances_leaderCommit r ls stepDown) ?_ ?_ ?_ ?_ ?_
  · omega
  · omega
  · omega
  · omega
  · rw [hcommit]
    exact leaderCommit_settles

theorem Dispatches.whole (h : Lasting base archive followed r)
    (hd : Dispatches r entries r') : Dispatches (r.whole base archive) entries (r'.whole base archive) where
  index := by
    rw [← h.getLastIndex]
    exact hd.index
  term := hd.term
  logs := by
    show archive ++ r'.logs = LogStore.storeLogs (archive ++ r.logs) entries
    rw [hd.logs, LogStore.storeLogs_append]
    intro old hold e he
    obtain ⟨i, hi⟩ := List.getElem?_of_mem he
    have hindex := hd.index i e hi
    have harchived := h.archived old hold
    have happlied := h.belowLast.applied
    omega
  snapshots := rfl
  lastLogIndex := by
    rw [← h.getLastIndex]
    exact hd.lastLogIndex
  lastLogTerm := hd.lastLogTerm
  lastSnapshotIndex := rfl
  lastSnapshotTerm := hd.lastSnapshotTerm
  commitIndex := hd.commitIndex
  lastApplied := hd.lastApplied
  configurations := hd.configurations

/-- The leader appends to its log, and may take over a configuration. -/
theorem Lasting.appended (h : Lasting base archive followed r)
    (hd : Dispatches r entries r') {c : Configurations}
    (htracked : Tracked ({ r' with configurations := c }.whole base archive))
    (hc : c = r.configurations ∨
      (max r.commitIndex (snapshotIndex base) < c.latestIndex ∧
        c.committedIndex = r.configurations.committedIndex)) :
    Lasting base archive followed { r' with configurations := c } := by
  have hcommitted := h.committed
  have hlast : r.getLastIndex = max r.lastLogIndex (snapshotIndex base) := h.getLastIndex
  constructor
  case tracked => exact htracked
  case archived =>
    show ∀ e ∈ archive, e.index ≤ r'.lastApplied
    rw [hd.lastApplied]
    exact h.archived
  case first =>
    show _ ≤ r'.lastSnapshotIndex
    rw [hd.lastSnapshotIndex]
    exact h.first
  case last =>
    show r'.lastSnapshotIndex ≤ r'.lastApplied
    rw [hd.lastSnapshotIndex, hd.lastApplied]
    exact h.last
  case newest =>
    show snapshotIndex r'.snapshots ≤ r'.lastApplied
    rw [hd.snapshots, hd.lastApplied]
    exact h.newest
  case applied =>
    show r'.lastApplied ≤ max r'.commitIndex _
    rw [hd.lastApplied, hd.commitIndex]
    exact h.applied
  case committed =>
    show r'.commitIndex ≤ max r'.lastLogIndex _
    rw [hd.commitIndex, hd.lastLogIndex]
    omega
  case settled =>
    show c.latestIndex ≤ max r'.commitIndex _ → _
    rw [hd.commitIndex]
    intro hle
    rcases hc with rfl | ⟨hlt, -⟩
    · exact h.settled hle
    · omega
  case followed =>
    show c.committedIndex ≤ max r'.commitIndex _ ∨ c.committedIndex ∈ followed
    rw [hd.commitIndex]
    rcases hc with rfl | ⟨-, hsame⟩
    · exact h.followed
    · rw [hsame]
      exact h.followed

theorem Lasting.dispatchLogs (h : Lasting base archive followed r) {futures : List LogFuture}
    (henv : env.Faultless) (hplain : ∀ f ∈ futures, f.log.configuration? = none) :
    Lasting base archive followed (r.dispatchLogs futures env).1 := by
  have hd := dispatches_dispatchLogs (r := r) henv.2.1 futures
  have htracked := h.tracked.plain (hd.whole h) (stampedLogs_plain hplain)
  exact h.appended hd (c := (r.dispatchLogs futures env).1.configurations) htracked
    (.inl hd.configurations)

theorem Lasting.appendConfigurationEntry (h : Lasting base archive followed r)
    {req : ConfigurationChangeRequest} {future : Nat} (henv : env.Faultless)
    (hversion : 2 ≤ r.conf.protocolVersion) (hstable : r.configurationChangeChIfStable = true) :
    Lasting base archive followed (r.appendConfigurationEntry req future env).1 := by
  rcases appendConfigurationEntry_cases (r := r) henv.2.1 req future with
    hsame | ⟨c, entry, r₁, -, hconf, hd, hsame⟩
  · exact h.sameData hsame
  · rw [configurationEntry_configuration? hversion] at hconf
    have htracked := h.tracked.configured (hd.whole h) hconf hstable
    rw [← h.getLastIndex] at htracked
    refine Lasting.sameData ?_ hsame
    have hlast : r.getLastIndex = max r.lastLogIndex (snapshotIndex base) := h.getLastIndex
    have hcommitted := h.committed
    refine h.appended hd htracked (.inr ⟨?_, ?_⟩)
    · show _ < r.getLastIndex + 1
      omega
    · show r₁.configurations.committedIndex = _
      rw [hd.configurations]

theorem Lasting.dispatches_getLog (h : Lasting base archive followed r)
    (hd : Dispatches r entries r') {i : Nat} (hi : i ≤ r.lastApplied) :
    LogStore.getLog (archive ++ r'.logs) i = LogStore.getLog (archive ++ r.logs) i := by
  rw [LogStore.getLog_append, LogStore.getLog_append, hd.logs, LogStore.getLog_storeLogs_ne]
  intro e he heq
  obtain ⟨j, hj⟩ := List.getElem?_of_mem he
  have hindex := hd.index j e hj
  have happlied := h.belowLast.applied
  omega

theorem Lasting.appendEntries (h : Lasting base archive followed r) {a : AppendEntriesRequest}
    (henv : env.Faultless)
    (hkept : ∀ call ∈ r.appendCall a env, ∀ e ∈ r.logs, e ∉ call.1 →
      r.commitIndex < e.index ∧ e.index ∉ followed)
    (horder : ∀ call ∈ r.appendCall a env, InOrder r call) :
    Lasting base archive (LogStore.followed (archive ++ (r.appendEntries a env).1.logs) ++ followed)
        (r.appendEntries a env).1 ∧
      ∀ i ≤ r.lastApplied, LogStore.getLog (archive ++ (r.appendEntries a env).1.logs) i =
        LogStore.getLog (archive ++ r.logs) i := by
  rcases appendEntries_call (r := r) (a := a) henv.2.1 with
    (hsame | ⟨r₁, hsame, hcommit⟩) | ⟨r₁, r₂, entry, rest, hsame, hopens, hcall, hcommit⟩
  · refine ⟨(h.sameData hsame).mono (List.subset_append_right _ _), ?_⟩
    intro i _
    rw [hsame.logs]
  · have hlogs : (r.appendEntries a env).1.logs = r.logs := by
      rw [hcommit.logs, (advances_followCommit r₁ _).stores.logs, hsame.logs]
    have hlasting := ((h.sameData hsame).followCommit a.leaderCommitIndex).sameData hcommit
    refine ⟨hlasting.mono (List.subset_append_right _ _), ?_⟩
    intro i _
    rw [hlogs]
  · obtain ⟨hsorted, hentries⟩ := horder _ hcall
    have hdecodes : ∀ e ∈ entry :: rest, e.decodes = true := fun e he => (hentries e he).1
    have habove : snapshotIndex base < entry.index :=
      Nat.lt_of_le_of_lt h.first (hentries entry (by simp)).2
    have h₁ := h.sameData hsame
    have hkept₁ : ∀ e ∈ r₁.logs, e ∉ r₂.logs → r₁.commitIndex < e.index ∧ e.index ∉ followed := by
      rw [hsame.logs, hsame.commitIndex]
      exact hkept _ hcall
    have hcommit := hcommit hdecodes
    have hlogs : (r.appendEntries a env).1.logs = (r₂.stores entry rest).logs := by
      rw [hcommit.logs, (advances_followCommit _ _).stores.logs]
    rw [hlogs]
    constructor
    · exact ((h₁.stores hopens habove hkept₁ hsorted hdecodes).followCommit _).sameData hcommit
    · intro i hi
      rw [← hsame.lastApplied] at hi
      rw [h₁.stores_getLog hopens habove hkept₁ hsorted hdecodes hi, hsame.logs]

section StepUp

variable {input : Input} {o : Outcome}

/-- What a step of the server that is not an AppendEntries request of a leader does. -/
theorem Lasting.dataStep (h : Lasting base archive followed r) (hheaded : Headed r)
    (hup : r.down = false) (henv : env.Faultless)
    (hinstall : ∀ req, input ≠ .rpc (.installSnapshot req))
    (hrequest : ∀ a, input ≠ .rpc (.appendEntries a))
    (hbeat : ∀ a, input = .heartbeat a → a.isHeartbeat = true)
    (hversion : ∀ req future, input = .configurationChange req future → 2 ≤ r.conf.protocolVersion)
    (ho : r.stepUp env input = some o) :
    Lasting base archive followed o.raft ∧
      ∀ i ≤ r.lastApplied, LogStore.getLog (archive ++ o.raft.logs) i =
        LogStore.getLog (archive ++ r.logs) i := by
  by_cases hcommit : input = .commit
  · subst hcommit
    obtain ⟨stepDown, ls, rest, hmain, hls, hch, hraft, -⟩ := stepUp_commit ho
    have hhead := hheaded (by simp [heads, hmain]) ls (by rw [hls]; rfl)
    rw [hraft]
    refine ⟨h.leaderCommit hhead hch stepDown, ?_⟩
    intro i _
    rw [(advances_leaderCommit r ls stepDown).stores.logs]
  cases dataStep_stepUp ho hup with
  | keep hsame =>
    refine ⟨h.sameData hsame, ?_⟩
    intro i _
    rw [hsame.logs]
  | @append _ a ha hsame =>
    cases input with
    | heartbeat req =>
      simp only [Input.append?, Option.some.injEq] at ha
      subst ha
      have hdata := (sameData_heartbeat (hbeat req rfl) env).trans hsame
      refine ⟨h.sameData hdata, ?_⟩
      intro i _
      rw [hdata.logs]
    | rpc cmd =>
      cases cmd with
      | appendEntries req => exact absurd rfl (hrequest req)
      | _ => simp [Input.append?] at ha
    | _ => simp [Input.append?] at ha
  | install => exact absurd rfl (hinstall _)
  | @dispatch _ futures _ _ hplain hsame =>
    refine ⟨(h.dispatchLogs henv hplain).sameData hsame, ?_⟩
    intro i hi
    rw [hsame.logs]
    exact h.dispatches_getLog (dispatches_dispatchLogs henv.2.1 futures) hi
  | @configure req future hstable hsame =>
    refine ⟨(h.appendConfigurationEntry henv (hversion req future rfl) hstable).sameData hsame, ?_⟩
    intro i hi
    rw [hsame.logs]
    rcases appendConfigurationEntry_cases (r := r) henv.2.1 req future with
      hrefused | ⟨c, entry, r₁, -, -, hd, hsame'⟩
    · rw [hrefused.logs]
    · rw [hsame'.logs]
      exact h.dispatches_getLog hd hi
  | commit => exact absurd rfl hcommit

theorem Lasting.stepUp (h : Lasting base archive followed r) (hheaded : Headed r)
    (hup : r.down = false) (henv : env.Faultless)
    (hinstall : ∀ req, input ≠ .rpc (.installSnapshot req))
    (hbeat : ∀ a, input = .heartbeat a → a.isHeartbeat = true)
    (hcalls : ∀ a, input = .rpc (.appendEntries a) → ∀ call ∈ r.storeCall env input,
      (∀ e ∈ r.logs, e ∉ call.1 → r.commitIndex < e.index ∧ e.index ∉ followed) ∧ r.InOrder call)
    (hversion : ∀ req future, input = .configurationChange req future → 2 ≤ r.conf.protocolVersion)
    (ho : r.stepUp env input = some o) :
    Lasting base archive (LogStore.followed (archive ++ o.raft.logs) ++ followed) o.raft ∧
      ∀ i ≤ r.lastApplied, LogStore.getLog (archive ++ o.raft.logs) i =
        LogStore.getLog (archive ++ r.logs) i := by
  by_cases hrequest : ∃ a, input = .rpc (.appendEntries a)
  case neg =>
    obtain ⟨hlasting, hlogs⟩ := h.dataStep hheaded hup henv hinstall
      (fun a ha => hrequest ⟨a, ha⟩) hbeat hversion ho
    exact ⟨hlasting.mono (List.subset_append_right _ _), hlogs⟩
  obtain ⟨a, rfl⟩ := hrequest
  have hcalls := hcalls a rfl
  obtain ⟨hselecting, hraft, -⟩ := stepUp_rpc ho
  rw [hraft]
  simp only [storeCall, hselecting, Bool.true_and] at hcalls
  unfold processRPC
  split
  · exact ⟨(h.sameData ((SameData.refl r).setMain _)).mono (List.subset_append_right _ _), fun _ _ => rfl⟩
  · rename_i hheader
    have hheader : r.checkRPCHeader a.header = true := by
      rw [Bool.not_eq_false] at hheader
      exact hheader
    rw [if_pos hheader] at hcalls
    obtain ⟨hlasting, hlogs⟩ := h.appendEntries henv (fun call hcall => (hcalls call hcall).1)
      (fun call hcall => (hcalls call hcall).2)
    exact ⟨hlasting.sameData ((SameData.refl _).setMain _), hlogs⟩

end StepUp

/-- The last snapshot is one of this run. -/
theorem Lasting.setLastSnapshot (h : Lasting base archive followed r) {index term : Nat}
    (hfirst : snapshotIndex base ≤ index) (hlast : index ≤ r.lastApplied) :
    Lasting base archive followed (r.setLastSnapshot index term) where
  tracked := ⟨⟨h.tracked.below.base, h.tracked.below.latest, h.tracked.below.committed⟩,
    h.tracked.snapshot, h.tracked.within⟩
  archived := h.archived
  first := hfirst
  last := hlast
  newest := h.newest
  applied := h.applied
  committed := h.committed
  settled := h.settled
  followed := h.followed

theorem Lasting.addSnapshot (h : Lasting base archive followed r) {snapshot : Snapshot}
    (hindex : snapshot.metadata.index ≤ r.lastApplied) :
    Lasting base archive followed { r with snapshots := addSnapshot snapshot r.snapshots } where
  tracked := ⟨⟨h.tracked.below.base, h.tracked.below.latest, h.tracked.below.committed⟩,
    h.tracked.snapshot, h.tracked.within⟩
  archived := h.archived
  first := h.first
  last := h.last
  newest := by
    rcases snapshotIndex_addSnapshot snapshot r.snapshots with hnew | hsame
    · exact hnew ▸ hindex
    · exact hsame ▸ h.newest
  applied := h.applied
  committed := h.committed
  settled := h.settled
  followed := h.followed

/-- What `compactLogs` deletes goes to the archive, and the whole log is the same. -/
theorem compactLogs_whole (r : Raft) (archive : LogStore) (index i : Nat) (env : Env) :
    LogStore.getLog (archive ++ r.logs.filter (fun e => decide (e ∉ (r.compactLogs index env).logs)) ++
      (r.compactLogs index env).logs) i = LogStore.getLog (archive ++ r.logs) i := by
  rw [List.append_assoc, LogStore.getLog_append, LogStore.getLog_append archive]
  congr 1
  unfold compactLogs
  rcases compactLogsWithTrailing_eq r index r.lastLogIndex r.conf.trailingLogs env with
    hsame | ⟨maxLog, -, -, -, hsame⟩
  · have hnone : r.logs.filter (fun e => decide (e ∉ r.logs)) = [] := by
      rw [List.filter_eq_nil_iff]
      intro e he
      simp [he]
    rw [hsame, hnone]
    rfl
  · rw [hsame]
    exact LogStore.getLog_parted r.logs _ _ i

theorem Lasting.compactLogs (h : Lasting base archive followed r) {index : Nat}
    (hindex : index ≤ r.lastApplied) (env : Env) :
    Lasting base (archive ++ r.logs.filter (fun e => decide (e ∉ (r.compactLogs index env).logs)))
      followed (r.compactLogs index env) := by
  obtain ⟨hframe, hgone⟩ := compactLogs_frame r index env
  have hwhole := fun i => compactLogs_whole r archive index i env
  have hsub : ∀ e ∈ (r.compactLogs index env).logs, e ∈ r.logs := by
    unfold Raft.compactLogs
    rcases compactLogsWithTrailing_eq r index r.lastLogIndex r.conf.trailingLogs env with
      hsame | ⟨maxLog, -, -, -, hsame⟩
    · rw [hsame]
      exact fun e he => he
    · rw [hsame]
      exact fun e he => LogStore.mem_of_mem_deleteRange he
  generalize (r.compactLogs index env).logs = logs at hframe hgone hwhole hsub ⊢
  rw [hframe]
  constructor
  case tracked =>
    refine ⟨h.tracked.below.congr rfl rfl (fun i _ => hwhole i), rfl, ?_⟩
    intro e he
    apply h.tracked.within
    simp only [whole, List.mem_append, List.mem_filter] at he ⊢
    rcases he with (he | he) | he
    · exact .inl he
    · exact .inr he.1
    · exact .inr (hsub e he)
  case archived =>
    intro e he
    rcases List.mem_append.mp he with he | he
    · exact h.archived e he
    · obtain ⟨hmem, hout⟩ := List.mem_filter.mp he
      exact (hgone e hmem (by simpa using hout)).trans hindex
  case first => exact h.first
  case last => exact h.last
  case newest => exact h.newest
  case applied => exact h.applied
  case committed => exact h.committed
  case settled => exact h.settled
  case followed => exact h.followed

/-- After a start the committed configuration is that of the snapshot, or it has been
followed. -/
theorem committed_newRaft {conf : Config} {stable : StableStore} {logs : LogStore}
    {snapshots : List Snapshot} (hbase : (snapshotConfiguration snapshots).2 ≤ snapshotIndex snapshots)
    (h : newRaft conf stable logs snapshots env = some r) :
    r.configurations.committedIndex ≤ snapshotIndex snapshots ∨
      r.configurations.committedIndex < r.configurations.latestIndex := by
  obtain ⟨-, lastLogTerm, r₁, -, hr₁, hscan⟩ := newRaft_some h
  obtain ⟨hindex, -, hlatest, hcommitted⟩ := restoreSnapshot_newest hr₁ rfl rfl rfl
  dsimp only at hindex hlatest hcommitted
  rw [Prod.ext_iff] at hlatest hcommitted
  dsimp only at hlatest hcommitted
  have hpush := congrArg Raft.configurations (scanConfigurations_push hscan)
  dsimp only at hpush
  generalize hentries : (List.range' (r₁.lastSnapshotIndex + 1)
    (logs.lastIndex - r₁.lastSnapshotIndex)).filterMap r₁.logs.getLog = entries at hpush
  have hsorted : entries.Pairwise (fun e e' => e.index < e'.index) := by
    rw [← hentries]
    apply List.Pairwise.filterMap (R := fun i j => i < j) _ _ (List.pairwise_lt_range' ..)
    intro i j hij e he e' he'
    rw [LogStore.index_of_getLog he, LogStore.index_of_getLog he']
    exact hij
  have hlater : ∀ e ∈ entries, r₁.configurations.latestIndex < e.index := by
    intro e he
    rw [← hentries] at he
    obtain ⟨i, hi, hget⟩ := List.mem_filterMap.mp he
    rw [List.mem_range'_1] at hi
    rw [LogStore.index_of_getLog hget]
    omega
  have hscanned := Configurations.push_foldl hsorted hlater
  rw [← hpush] at hscanned
  refine hscanned.imp ?_ And.right
  intro hsame
  rw [hsame]
  omega

theorem lasting_newRaft {conf : Config} {stable : StableStore} {logs : LogStore}
    {snapshots : List Snapshot} (hbase : (snapshotConfiguration snapshots).2 ≤ snapshotIndex snapshots)
    (h : newRaft conf stable logs snapshots env = some r) :
    Lasting r.snapshots [] r.logs.followed r := by
  have hstarted := started_newRaft h
  have htracked := tracked_newRaft hbase h
  obtain ⟨hlast, -, happlied⟩ := newRaft_lastSnapshot h
  have hcommitted := committed_newRaft hbase h
  rw [← hstarted.snapshots] at hlast hcommitted hbase
  constructor
  case tracked =>
    exact ⟨⟨htracked.below.base, htracked.below.latest, htracked.below.committed⟩, rfl, htracked.within⟩
  case archived => simp
  case first => exact hlast.ge
  case last => exact happlied.ge
  case newest => rw [happlied, hlast]
  case applied =>
    rw [happlied, hlast]
    exact Nat.le_max_right _ _
  case committed =>
    rw [hstarted.commitIndex]
    exact Nat.zero_le _
  case settled =>
    rw [hstarted.commitIndex, Nat.zero_max]
    intro hle
    rcases htracked.below.committed with heq | ⟨-, heq⟩
    · exact heq
    · rw [heq, inForce_of_le (by omega), htracked.below.latest]
      have hindex : r.configurations.latestIndex =
          (inForce r.snapshots r.logs (r.lastLogIndex + 1)).2 := congrArg Prod.snd htracked.below.latest
      rcases inForce_index r.snapshots r.logs (r.lastLogIndex + 1) with hsame | ⟨hlow, -⟩
      · exact hsame.symm
      · omega
  case followed =>
    rw [hstarted.commitIndex, Nat.zero_max]
    rcases hcommitted with hle | hlt
    · exact .inl hle
    · exact htracked.committed_followed hlt

end Raft

end PerfRaft
