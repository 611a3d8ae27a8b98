import Mathlib.Data.List.TakeWhile
import PerfRaft.Proofs.LastEntry

namespace PerfRaft

namespace LogStore

variable {logs : LogStore} {entries : List Log} {i hi : Nat}

/-- The indexes start above 0, and none is missing between an entry and the last. -/
structure Unbroken (logs : LogStore) : Prop where
  pos : ∀ e ∈ logs, 0 < e.index
  next : ∀ e ∈ logs, ∀ i, e.index ≤ i → i ≤ logs.lastIndex → ∃ e' ∈ logs, e'.index = i

/-- What a monotonic log store expects of StoreLogs: consecutive entries that go on
where it ends. -/
def Contiguous (logs : LogStore) (entries : List Log) : Prop :=
  (∃ first, entries.map Log.index = List.range' first entries.length) ∧
    (logs = [] ∨ ∀ e ∈ entries.head?, e.index = logs.lastIndex + 1)

theorem unbroken_nil : Unbroken [] where
  pos := by simp
  next := by simp

theorem lastIndex_pos (h : Unbroken logs) (hne : logs ≠ []) : 0 < logs.lastIndex := by
  obtain ⟨e, he⟩ := List.exists_mem_of_ne_nil _ hne
  exact Nat.lt_of_lt_of_le (h.pos e he) (index_le_lastIndex he)

/-- The log is cut at an index: what is left ends right before it. -/
theorem Unbroken.cut (h : Unbroken logs) (hi : i ≤ logs.lastIndex) :
    Unbroken (logs.deleteRange i logs.lastIndex) ∧
      (logs.deleteRange i logs.lastIndex = [] ∨
        (logs.deleteRange i logs.lastIndex).lastIndex + 1 = i) := by
  have hmem : ∀ e, e ∈ logs.deleteRange i logs.lastIndex ↔ e ∈ logs ∧ e.index < i := by
    intro e
    rw [mem_deleteRange]
    constructor
    · rintro ⟨he, hout⟩
      have := index_le_lastIndex he
      exact ⟨he, by omega⟩
    · rintro ⟨he, hlt⟩
      exact ⟨he, by omega⟩
  have hlast : (logs.deleteRange i logs.lastIndex).lastIndex ≤ i - 1 := by
    rw [lastIndex_le]
    intro e he
    have := ((hmem e).mp he).2
    omega
  constructor
  · constructor
    · exact fun e he => h.pos e ((hmem e).mp he).1
    · intro e he j hej hj
      obtain ⟨e', he', hindex⟩ := h.next e ((hmem e).mp he).1 j hej (by omega)
      have hpos := h.pos e' he'
      exact ⟨e', (hmem e').mpr ⟨he', by omega⟩, hindex⟩
  · by_cases hnil : logs.deleteRange i logs.lastIndex = []
    · exact .inl hnil
    · right
      obtain ⟨e, he⟩ := List.exists_mem_of_ne_nil _ hnil
      obtain ⟨hold, hlt⟩ := (hmem e).mp he
      obtain ⟨e', he', hindex⟩ := h.next e hold (i - 1) (by omega) (by omega)
      have hle := index_le_lastIndex ((hmem e').mpr ⟨he', by omega⟩)
      omega

/-- Entries are deleted from the front. -/
theorem Unbroken.front (h : Unbroken logs) (hi : Nat) :
    Unbroken (logs.deleteRange logs.firstIndex hi) ∧
      (logs.deleteRange logs.firstIndex hi = [] ∨
        (logs.deleteRange logs.firstIndex hi).lastIndex = logs.lastIndex) := by
  by_cases hall : logs.lastIndex ≤ hi
  · rw [deleteRange_all hall]
    exact ⟨unbroken_nil, .inl rfl⟩
  · have hlast := @lastIndex_deleteRange logs logs.firstIndex hi (by omega)
    refine ⟨⟨?_, ?_⟩, .inr hlast⟩
    · exact fun e he => h.pos e (mem_of_mem_deleteRange he)
    · intro e he j hej hj
      rw [hlast] at hj
      obtain ⟨hold, hout⟩ := mem_deleteRange.mp he
      have hfirst := firstIndex_le hold
      obtain ⟨e', he', hindex⟩ := h.next e hold j hej hj
      exact ⟨e', mem_deleteRange.mpr ⟨he', by omega⟩, hindex⟩

theorem index_of_range' {first k : Nat} {e : Log}
    (h : entries.map Log.index = List.range' first entries.length) (he : entries[k]? = some e) :
    e.index = first + k := by
  have hmap : (entries.map Log.index)[k]? = some e.index := by
    rw [List.getElem?_map, he]
    rfl
  rw [h, List.getElem?_eq_some_iff] at hmap
  obtain ⟨hk, heq⟩ := hmap
  rw [List.getElem_range'] at heq
  omega

/-- A call that a monotonic log store accepts leaves it without a gap, and the last
entry is that of the call. -/
theorem Unbroken.storeLogs (h : Unbroken logs) {entry : Log} {rest : List Log}
    (hc : Contiguous logs (entry :: rest)) (hpos : 0 < entry.index) :
    Unbroken (logs.storeLogs (entry :: rest)) ∧
      (logs.storeLogs (entry :: rest)).lastIndex = ((entry :: rest).getLast (by simp)).index ∧
      entry.index ≤ ((entry :: rest).getLast (by simp)).index := by
  obtain ⟨⟨first, hrange⟩, hhead⟩ := hc
  have hfirst : entry.index = first := by simpa using @index_of_range' _ first 0 entry hrange rfl
  subst hfirst
  have hindex : ∀ e ∈ entry :: rest, ∃ k, (entry :: rest)[k]? = some e ∧ e.index = entry.index + k := by
    intro e he
    obtain ⟨k, hk⟩ := List.getElem?_of_mem he
    exact ⟨k, hk, index_of_range' hrange hk⟩
  have hnodup : ((entry :: rest).map Log.index).Nodup := by
    rw [hrange]
    exact List.nodup_range'
  have hlast : ((entry :: rest).getLast (by simp)).index = entry.index + rest.length := by
    have hget : (entry :: rest)[rest.length]? = some ((entry :: rest).getLast (by simp)) := by
      rw [List.getLast_eq_getElem, List.getElem?_eq_getElem (by simp)]
      simp
    exact index_of_range' hrange hget
  have hold : ∀ e ∈ logs, e.index < entry.index := by
    intro e he
    rcases hhead with hnil | hhead
    · simp [hnil] at he
    · have := hhead entry rfl
      have := index_le_lastIndex he
      omega
  have hnew : ∀ e ∈ entry :: rest, e.index ≤ ((entry :: rest).getLast (by simp)).index := by
    intro e he
    obtain ⟨k, hk, heq⟩ := hindex e he
    obtain ⟨hlt, -⟩ := List.getElem?_eq_some_iff.mp hk
    simp only [List.length_cons] at hlt
    omega
  obtain ⟨hstored, -⟩ := lastIndex_storeLogs hnodup (List.getLast_mem (by simp))
    (fun e he => by have := hold e he; have := hnew entry (by simp); omega) hnew
  have hmem : ∀ e ∈ entry :: rest, e ∈ logs.storeLogs (entry :: rest) := fun e he =>
    mem_of_getLog (getLog_storeLogs_mem hnodup he)
  have hat : ∀ j, entry.index ≤ j → j ≤ ((entry :: rest).getLast (by simp)).index →
      ∃ e' ∈ logs.storeLogs (entry :: rest), e'.index = j := by
    intro j hj hle
    have hlt : j - entry.index < (entry :: rest).length := by
      simp only [List.length_cons]
      omega
    have hget := List.getElem?_eq_getElem hlt
    refine ⟨_, hmem _ (List.getElem_mem hlt), ?_⟩
    rw [index_of_range' hrange hget]
    omega
  refine ⟨⟨?_, ?_⟩, hstored, hnew entry (by simp)⟩
  · intro e he
    rcases mem_of_mem_storeLogs he with he | he
    · exact h.pos e he
    · obtain ⟨k, -, heq⟩ := hindex e he
      omega
  · intro e he j hej hj
    rw [hstored] at hj
    by_cases hj' : entry.index ≤ j
    · exact hat j hj' hj
    · -- below the new entries there is what was in the store
      rcases mem_of_mem_storeLogs he with he | he
      · have hhead := hhead.resolve_left (List.ne_nil_of_mem he) entry rfl
        obtain ⟨e', he', hindex'⟩ := h.next e he j hej (by omega)
        have hkept : (logs.storeLogs (entry :: rest)).getLog j = logs.getLog j := by
          apply getLog_storeLogs_ne
          intro x hx
          obtain ⟨k, -, heq⟩ := hindex x hx
          omega
        have hsome : (logs.getLog j).isSome := by
          unfold LogStore.getLog
          rw [List.find?_isSome]
          exact ⟨e', he', by simp [hindex']⟩
        obtain ⟨x, hx⟩ := Option.isSome_iff_exists.mp hsome
        rw [← hkept] at hx
        exact ⟨x, mem_of_getLog hx, index_of_getLog hx⟩
      · obtain ⟨k, -, heq⟩ := hindex e he
        omega

end LogStore

/-- What is on disk: a log without a gap, which is empty or not behind the newest
snapshot. -/
structure SoundDisk (snapshots : List Snapshot) (logs : LogStore) : Prop where
  unbroken : logs.Unbroken
  covers : logs = [] ∨ snapshotIndex snapshots ≤ logs.lastIndex

theorem soundDisk_nil (snapshots : List Snapshot) : SoundDisk snapshots [] :=
  ⟨LogStore.unbroken_nil, .inl rfl⟩

variable {snapshots : List Snapshot}

theorem SoundDisk.front {logs : LogStore} (h : SoundDisk snapshots logs)
    (hi : Nat) : SoundDisk snapshots (logs.deleteRange logs.firstIndex hi) := by
  obtain ⟨hunbroken, hlast⟩ := h.unbroken.front hi
  refine ⟨hunbroken, ?_⟩
  rcases hlast with hnil | hlast
  · exact .inl hnil
  · rcases h.covers with rfl | hcovers
    · exact .inl rfl
    · exact .inr (hlast ▸ hcovers)

theorem SoundDisk.storeLogs {logs : LogStore} {entry : Log}
    {rest : List Log} (h : SoundDisk snapshots logs) (hc : logs.Contiguous (entry :: rest))
    (hpos : 0 < entry.index) (habove : snapshotIndex snapshots ≤ entry.index) :
    SoundDisk snapshots (logs.storeLogs (entry :: rest)) := by
  obtain ⟨hunbroken, hlast, hle⟩ := h.unbroken.storeLogs hc hpos
  exact ⟨hunbroken, .inr (hlast ▸ habove.trans hle)⟩

theorem snapshotIndex_addSnapshot (snapshot : Snapshot) (snapshots : List Snapshot) :
    snapshotIndex (addSnapshot snapshot snapshots) = snapshot.metadata.index ∨
      snapshotIndex (addSnapshot snapshot snapshots) = snapshotIndex snapshots := by
  cases snapshots with
  | nil => exact .inl rfl
  | cons t rest =>
    unfold addSnapshot
    split
    · exact .inr rfl
    · exact .inl rfl

theorem SoundDisk.addSnapshot {logs : LogStore} (h : SoundDisk snapshots logs)
    {snapshot : Snapshot} (hle : logs = [] ∨ snapshot.metadata.index ≤ logs.lastIndex) :
    SoundDisk (addSnapshot snapshot snapshots) logs := by
  refine ⟨h.unbroken, ?_⟩
  rcases hle with hnil | hle
  · exact .inl hnil
  · rcases snapshotIndex_addSnapshot snapshot snapshots with heq | heq
    · exact .inr (heq ▸ hle)
    · exact heq ▸ h.covers

theorem snapshotIndex_lt {n : Nat} (hn : 0 < n)
    (h : ∀ snapshot ∈ snapshots, snapshot.metadata.index < n) : snapshotIndex snapshots < n := by
  cases snapshots with
  | nil => exact hn
  | cons snapshot rest => exact h snapshot (by simp)

namespace Raft

variable {r r' r'' : Raft} {env : Env} {a : AppendEntriesRequest} {input : Input} {o : Outcome}

/-- A running server whose log store is not behind what it knows, unless it is
empty. -/
structure Aligned (r : Raft) : Prop where
  sound : SoundDisk r.snapshots r.logs
  last : r.logs = [] ∨ (r.logs.lastIndex = r.lastLogIndex ∧ r.lastSnapshotIndex ≤ r.lastLogIndex)
  newest : snapshotIndex r.snapshots ≤ r.getLastIndex

theorem Aligned.sameStores (h : Aligned r) (hs : SameStores r r') : Aligned r' where
  sound := by
    rw [hs.snapshots, hs.logs]
    exact h.sound
  last := by
    rw [hs.logs, hs.lastLogIndex, hs.lastSnapshotIndex]
    exact h.last
  newest := by
    unfold getLastIndex
    rw [hs.snapshots, hs.lastLogIndex, hs.lastSnapshotIndex]
    exact h.newest

theorem Aligned.lastIndex_le (h : Aligned r) (hne : r.logs ≠ []) :
    r.logs.lastIndex = r.lastLogIndex ∧ r.getLastIndex = r.lastLogIndex := by
  obtain ⟨hlast, hsnap⟩ := h.last.resolve_left hne
  exact ⟨hlast, Nat.max_eq_left hsnap⟩

/-- A request whose entries follow its previous entry, and whose new entries are
above the snapshots. -/
structure Fresh (r : Raft) (a : AppendEntriesRequest) : Prop where
  consecutive : a.Consecutive
  above : ∀ e ∈ (r.added a.entries).head?, r.lastSnapshotIndex < e.index ∧
    ∀ snapshot ∈ r.snapshots, snapshot.metadata.index < e.index

theorem Fresh.sameData (h : Fresh r a) (hs : SameData r r') : Fresh r' a where
  consecutive := h.consecutive
  above := by
    rw [added_sameData hs, hs.lastSnapshotIndex, hs.snapshots]
    exact h.above

theorem Fresh.heartbeat (h : a.entries = []) : Fresh r a where
  consecutive := .heartbeat h
  above := by
    rw [h]
    simp [added]

/-- The first new entry comes right after the previous entry, or after one that the
log holds. -/
theorem added_consecutive (h : a.Consecutive) {entry : Log} {rest : List Log}
    (hadded : r.added a.entries = entry :: rest) :
    (entry :: rest).map Log.index = List.range' entry.index (entry :: rest).length ∧
      (entry.index = a.prevLogEntry + 1 ∨ entry.index ≤ r.lastLogIndex + 1) := by
  have hsplit : a.entries = a.entries.takeWhile r.holds ++ entry :: rest := by
    rw [← hadded]
    exact (List.takeWhile_append_dropWhile).symm
  generalize hheld : a.entries.takeWhile r.holds = held at hsplit
  have hholds : ∀ e ∈ held, r.holds e = true := by
    rw [← hheld]
    exact fun e he => List.mem_takeWhile_imp he
  have hall := h
  unfold AppendEntriesRequest.Consecutive at hall
  rw [hsplit, List.map_append, List.length_append, ← List.range'_append_1] at hall
  obtain ⟨hleft, hright⟩ := List.append_inj hall (by simp)
  have hentry : entry.index = a.prevLogEntry + 1 + held.length := by
    simpa using LogStore.index_of_range' (k := 0) hright rfl
  constructor
  · rw [hentry]
    exact hright
  · rcases List.eq_nil_or_concat held with rfl | ⟨before, e, rfl⟩
    · exact .inl hentry
    · right
      have hlast : (before.concat e)[before.length]? = some e := by simp
      have he := LogStore.index_of_range' hleft hlast
      have hheld := hholds e (by simp)
      unfold holds at hheld
      simp only [Bool.and_eq_true, decide_eq_true_eq] at hheld
      simp only [List.length_concat] at hentry
      omega

/-- A request that passes the check of its previous entry goes on where a log that is
not empty ends, at the latest. -/
theorem Aligned.added_le (h : Aligned r) (hc : a.Consecutive) (hprev : r.verifyPrevious a = true)
    (hne : r.logs ≠ []) {entry : Log} {rest : List Log}
    (hadded : r.added a.entries = entry :: rest) : entry.index ≤ r.logs.lastIndex + 1 := by
  obtain ⟨hlast, hindex⟩ := h.lastIndex_le hne
  rcases (added_consecutive hc hadded).2 with hentry | hentry
  · unfold verifyPrevious at hprev
    split at hprev
    · omega
    · dsimp only at hprev
      split at hprev
      · rename_i heq
        unfold getLastEntry at heq
        unfold getLastIndex at hindex
        split at heq
        · dsimp only at heq
          omega
        · dsimp only at heq
          omega
      · split at hprev
        · simp at hprev
        · rename_i prevLog hget
          have := LogStore.index_le_lastIndex (LogStore.mem_of_getLog hget)
          rw [LogStore.index_of_getLog hget] at this
          omega
  · omega

/-- The log as a request leaves it before its new entries are stored. -/
theorem Aligned.opens (h : Aligned r) (hf : Fresh r a) (hprev : r.verifyPrevious a = true)
    {entry : Log} {rest : List Log} (hadded : r.added a.entries = entry :: rest)
    (hopens : Opens r entry r') :
    r'.snapshots = r.snapshots ∧ SoundDisk r.snapshots r'.logs ∧
      r'.logs.Contiguous (entry :: rest) ∧ 0 < entry.index ∧
      snapshotIndex r.snapshots < entry.index := by
  have hmem : entry ∈ a.entries := (added_sublist r a.entries).mem (by rw [hadded]; simp)
  have hpos := hf.consecutive.pos hmem
  have hrange := (added_consecutive hf.consecutive hadded).1
  obtain ⟨-, hsnapshots⟩ := hf.above entry (by rw [hadded]; rfl)
  have habove := snapshotIndex_lt hpos hsnapshots
  cases hopens with
  | after hafter =>
    refine ⟨rfl, h.sound, ⟨⟨_, hrange⟩, ?_⟩, hpos, habove⟩
    by_cases hnil : r.logs = []
    · exact .inl hnil
    · right
      rintro e ⟨⟩
      have := h.added_le hf.consecutive hprev hnil hadded
      have := (h.lastIndex_le hnil).1
      omega
  | conflict hle hold hne =>
    have hnil : r.logs ≠ [] := List.ne_nil_of_mem (LogStore.mem_of_getLog hold)
    obtain ⟨hlast, -⟩ := h.lastIndex_le hnil
    obtain ⟨hunbroken, hend⟩ := h.sound.unbroken.cut (i := entry.index) (by omega)
    rw [cut_eq]
    dsimp only
    rw [← hlast]
    refine ⟨rfl, ⟨hunbroken, ?_⟩, ⟨⟨_, hrange⟩, ?_⟩, hpos, habove⟩
    · rcases hend with hnil | hend
      · exact .inl hnil
      · right
        omega
    · rcases hend with hnil | hend
      · exact .inl hnil
      · right
        rintro e ⟨⟩
        exact hend.symm

/-- The store after a step that makes this call of StoreLogs, or none. -/
def afterCall (logs : LogStore) (env : Env) : Option (LogStore × List Log) → LogStore
  | none => logs
  | some call => if env.storeLogs then call.1.storeLogs call.2 else call.1

theorem appendCall_eq_some {call : LogStore × List Log} (h : r.appendCall a env = some call) :
    ∃ r₁ r₂ entry rest, SameData r r₁ ∧ r₁.verifyPrevious a = true ∧
      r₁.added a.entries = entry :: rest ∧ Opens r₁ entry r₂ ∧ call = (r₂.logs, entry :: rest) := by
  unfold appendCall at h
  split at h
  · simp at h
  dsimp only at h
  split at h
  · simp at h
  rename_i hcond
  simp only [not_or, Bool.not_eq_false] at hcond
  have hfollow := sameData_followLeader r a env
  generalize r.followLeader a env = r₁ at hfollow hcond h
  rcases newEntries_cases r₁ env a.entries with
    hnew | ⟨-, hnew⟩ | ⟨entry, rest, r₂, hadded, hopens, -, hnew⟩
  · simp [hnew] at h
  · simp [hnew] at h
  · simp only [hnew, Option.some.injEq] at h
    exact ⟨r₁, r₂, entry, rest, hfollow, hcond.2, hadded, hopens, h.symm⟩

/-- `appendEntries` when no store fails: it stores nothing, or it calls StoreLogs. -/
theorem appendEntries_call (henv : env.storeLogs = true) :
    (SameData r (r.appendEntries a env).1 ∨
        ∃ r₁, SameData r r₁ ∧
          SameData (r₁.followCommit a.leaderCommitIndex).1 (r.appendEntries a env).1) ∨
      ∃ r₁ r₂ entry rest, SameData r r₁ ∧ Opens r₁ entry r₂ ∧
        r.appendCall a env = some (r₂.logs, entry :: rest) ∧
        ((∀ e ∈ entry :: rest, e.decodes = true) →
          SameData ((r₂.stores entry rest).followCommit a.leaderCommitIndex).1
            (r.appendEntries a env).1) := by
  have hfollow := sameData_followLeader r a env
  unfold appendEntries appendCall
  dsimp only
  split
  · exact .inl (.inl (.refl r))
  generalize r.followLeader a env = r₁ at hfollow ⊢
  split
  · exact .inl (.inl hfollow)
  rename_i hup
  split
  · exact .inl (.inl hfollow)
  rename_i hprev
  rw [if_neg (by simp [hup, hprev])]
  unfold storeEntries
  rcases newEntries_cases r₁ env a.entries with
    hnew | ⟨-, hnew⟩ | ⟨entry, rest, r₂, -, hopens, -, hnew⟩
  · rw [hnew]
    exact .inl (.inl hfollow)
  · rw [hnew]
    exact .inl (.inr ⟨r₁, hfollow, ⟨rfl, rfl, rfl, rfl, rfl, rfl, rfl, rfl, rfl⟩⟩)
  · right
    refine ⟨r₁, r₂, entry, rest, hfollow, hopens, by rw [hnew], ?_⟩
    intro hdecodes
    have hprocess := processConfigurationLogEntries_push hdecodes
      { r₂ with logs := r₂.logs.storeLogs (entry :: rest) }
    simp only [hnew, henv, Bool.true_eq_false, if_false, stores, hprocess]
    exact ⟨rfl, rfl, rfl, rfl, rfl, rfl, rfl, rfl, rfl⟩

theorem logs_storeEntries (r : Raft) (entries : List Log) (env : Env) :
    (r.storeEntries entries env).raft.logs =
      afterCall r.logs env
        (match r.newEntries r.lastLogIndex env entries with
        | none => none
        | some (_, []) => none
        | some (r', entry :: rest) => some (r'.logs, entry :: rest)) := by
  unfold storeEntries
  rcases newEntries_cases r env entries with hnew | ⟨-, hnew⟩ | ⟨entry, rest, r₁, -, -, -, hnew⟩
  · rw [hnew]
    rfl
  · rw [hnew]
    rfl
  · rw [hnew]
    unfold afterCall
    dsimp only
    cases henv : env.storeLogs with
    | false => rfl
    | true =>
      have hlogs := processConfigurationLogEntries_logs
        { r₁ with logs := r₁.logs.storeLogs (entry :: rest) } (entry :: rest)
      simp only [Bool.true_eq_false, if_false, if_true]
      split
      · rename_i hp
        rw [hp] at hlogs
        exact hlogs
      · rename_i hp
        rw [hp] at hlogs
        exact hlogs

/-- `appendCall` is the call that `appendEntries` makes. -/
theorem logs_appendEntries (r : Raft) (a : AppendEntriesRequest) (env : Env) :
    (r.appendEntries a env).1.logs = afterCall r.logs env (r.appendCall a env) := by
  unfold appendEntries appendCall
  dsimp only
  split
  · rfl
  have hfollow := (sameData_followLeader r a env).logs
  generalize r.followLeader a env = r₁ at hfollow ⊢
  split
  · rename_i hdown
    rw [if_pos (.inl hdown)]
    exact hfollow
  rename_i hdown
  split
  · rename_i hprev
    rw [if_pos (.inr hprev)]
    exact hfollow
  rename_i hprev
  rw [if_neg (not_or.mpr ⟨hdown, hprev⟩), ← hfollow]
  refine Eq.trans ?_ (logs_storeEntries r₁ a.entries env)
  cases r₁.storeEntries a.entries env with
  | gaveUp r₂ => rfl
  | failed r₂ => rfl
  | stored r₂ =>
    show (r₂.followCommit a.leaderCommitIndex).1.logs = r₂.logs
    rw [followCommit_eq]

theorem logs_dispatchLogs (r : Raft) (futures : List LogFuture) (env : Env) :
    (r.dispatchLogs futures env).1.logs =
      afterCall r.logs env (some (r.logs, r.stampedLogs futures env)) := by
  unfold dispatchLogs afterCall
  cases env.storeLogs <;> rfl

theorem logs_appendConfigurationEntry {configuration : Configuration}
    {req : ConfigurationChangeRequest} {future : Nat}
    (h : nextConfiguration r.configurations.latest r.configurations.latestIndex req =
      .ok configuration) :
    (r.appendConfigurationEntry req future env).1.logs =
      afterCall r.logs env
        (some (r.logs, r.stampedLogs [⟨future, r.configurationEntry configuration⟩] env)) := by
  have hdispatch := logs_dispatchLogs r [⟨future, r.configurationEntry configuration⟩] env
  unfold appendConfigurationEntry
  simp only [h]
  generalize r.dispatchLogs [⟨future, r.configurationEntry configuration⟩] env = result at hdispatch ⊢
  obtain ⟨r₁, events⟩ := result
  exact hdispatch

/-- `storeCall` is the call of StoreLogs that a step makes, and the only thing that
a step other than `installSnapshot` does to the log store, but for the entries that
the call replaces. -/
theorem logs_stepUp (h : r.stepUp env input = some o) (hup : r.down = false)
    (hinstall : ∀ req, input ≠ .rpc (.installSnapshot req)) :
    o.raft.logs = afterCall r.logs env (r.storeCall env input) := by
  have hkeep (hkeep : r.writesData input = false) (hcall : r.storeCall env input = none) :
      o.raft.logs = afterCall r.logs env (r.storeCall env input) := by
    rw [hcall]
    exact (sameData_stepUp h hup hkeep).logs
  cases input with
  | rpc cmd =>
    cases cmd with
    | appendEntries a =>
      obtain ⟨hselecting, hraft, -⟩ := stepUp_rpc h
      rw [hraft]
      unfold processRPC storeCall
      cases hheader : r.checkRPCHeader a.header with
      | false => simp [Command.header, hheader, afterCall]
      | true =>
        simp only [Command.header, hheader, hselecting, Bool.true_eq_false, if_false, Bool.and_self,
          if_true]
        exact logs_appendEntries r a env
    | installSnapshot req => exact absurd rfl (hinstall req)
    | _ => exact hkeep rfl rfl
  | heartbeat a =>
    obtain ⟨hstate, hraft, -⟩ := stepUp_heartbeat h
    rw [hraft]
    unfold storeCall
    simp only [hstate, if_false]
    exact logs_appendEntries r a env
  | enter =>
    by_cases hnoop : r.main = .noop
    · simp only [stepUp, enter, hnoop, Option.some.injEq] at h
      subst h
      simp only [storeCall, hnoop, if_true]
      exact logs_dispatchLogs r _ env
    · exact hkeep (by simp [writesData, hnoop]) (by simp [storeCall, hnoop])
  | apply futures =>
    obtain ⟨stepDown, hmain, hfutures, rfl⟩ := stepUp_apply h
    cases stepDown with
    | true => simp [storeCall, hmain, afterCall, apply]
    | false =>
      simp only [storeCall, hmain, hfutures, and_self, if_true]
      exact logs_dispatchLogs r futures env
  | configurationChange req future =>
    obtain ⟨stepDown, hmain, hstable, hraft, -⟩ := stepUp_configurationChange h
    rw [hraft]
    simp only [storeCall, hmain]
    cases hnext : nextConfiguration r.configurations.latest r.configurations.latestIndex req with
    | error e => simp [appendConfigurationEntry, hnext, afterCall]
    | ok configuration =>
      simp only [hstable, if_true]
      exact logs_appendConfigurationEntry hnext
  | commit =>
    obtain ⟨stepDown, ls, rest, -, -, -, hraft, -⟩ := stepUp_commit h
    rw [hraft]
    exact (advances_leaderCommit r ls stepDown).stores.logs
  | restart => exact absurd h stepUp_restart
  | _ => exact hkeep rfl rfl

end Raft

end PerfRaft
