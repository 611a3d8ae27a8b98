import PerfRaft.Proofs.Disk
import PerfRaft.Proofs.Process

namespace PerfRaft

/-- The entries of a request follow its previous entry without a gap. -/
def AppendEntriesRequest.Consecutive (a : AppendEntriesRequest) : Prop :=
  a.entries.map Log.index = List.range' (a.prevLogEntry + 1) a.entries.length

instance (a : AppendEntriesRequest) : Decidable a.Consecutive :=
  inferInstanceAs (Decidable (_ = _))

variable {a : AppendEntriesRequest}

theorem AppendEntriesRequest.Consecutive.index (h : a.Consecutive)
    {i : Nat} {e : Log} (he : a.entries[i]? = some e) : e.index = a.prevLogEntry + 1 + i := by
  have hmap : (a.entries.map Log.index)[i]? = some e.index := by
    rw [List.getElem?_map, he]
    rfl
  rw [h, List.getElem?_eq_some_iff] at hmap
  obtain ⟨hi, heq⟩ := hmap
  rw [List.getElem_range'] at heq
  omega

theorem AppendEntriesRequest.Consecutive.sorted (h : a.Consecutive) :
    a.entries.Pairwise (fun e e' => e.index < e'.index) := by
  rw [List.pairwise_iff_getElem]
  intro i j hi hj hij
  rw [h.index (List.getElem?_eq_getElem hi), h.index (List.getElem?_eq_getElem hj)]
  omega

theorem AppendEntriesRequest.Consecutive.pos (h : a.Consecutive)
    {e : Log} (he : e ∈ a.entries) : 0 < e.index := by
  obtain ⟨i, hi⟩ := List.getElem?_of_mem he
  have := h.index hi
  omega

theorem AppendEntriesRequest.Consecutive.heartbeat
    (h : a.entries = []) : a.Consecutive := by
  unfold AppendEntriesRequest.Consecutive
  rw [h]
  rfl

namespace Raft

variable {r r' : Raft} {env : Env}

theorem lastTermOf_eq {logs : LogStore} {e : Log} (hpos : 0 < logs.lastIndex)
    (hget : logs.getLog logs.lastIndex = some e) : (lastTermOf logs).getD 0 = e.term := by
  unfold lastTermOf
  rw [if_pos hpos, hget]
  rfl

theorem lastTermOf_zero {logs : LogStore} (h : logs.lastIndex = 0) :
    (lastTermOf logs).getD 0 = 0 := by
  unfold lastTermOf
  rw [h]
  rfl

/-- The cached last log is that of the store, unless the store has lost it to a
snapshot that covers it. -/
structure Coherent (r : Raft) : Prop where
  within : r.logs.lastIndex ≤ r.lastLogIndex
  same : r.logs.lastIndex = r.lastLogIndex → r.lastLogTerm = (lastTermOf r.logs).getD 0
  covered : r.logs.lastIndex < r.lastLogIndex → r.lastLogIndex ≤ r.lastSnapshotIndex ∧
    (r.lastLogIndex = r.lastSnapshotIndex → r.lastLogTerm = r.lastSnapshotTerm)

/-- The newest snapshot on disk has this index and term. -/
def Newest (r : Raft) (index term : Nat) : Prop :=
  snapshotIndex r.snapshots = index ∧ snapshotTerm r.snapshots = term

/-- A snapshot that lies below the last log, or is the last entry, and is not behind
the last snapshot. -/
def Fits (r : Raft) (index term : Nat) : Prop :=
  r.lastSnapshotIndex ≤ index ∧ (index < r.lastLogIndex ∨ (index, term) = r.getLastEntry)

instance (r : Raft) (index term : Nat) : Decidable (r.Fits index term) :=
  inferInstanceAs (Decidable (_ ∧ _))

theorem Coherent.disk (h : Coherent r) (hnew : r.Newest r.lastSnapshotIndex r.lastSnapshotTerm) :
    r.getLastEntry = diskEntry r.snapshots r.logs := by
  obtain ⟨hindex, hterm⟩ := hnew
  unfold getLastEntry diskEntry
  rw [hindex, hterm]
  rcases Nat.lt_or_eq_of_le h.within with hlt | heq
  · obtain ⟨hle, hsame⟩ := h.covered hlt
    rw [if_neg (by omega : ¬ r.lastSnapshotIndex ≤ r.logs.lastIndex)]
    by_cases heq : r.lastSnapshotIndex ≤ r.lastLogIndex
    · have hboth : r.lastLogIndex = r.lastSnapshotIndex := by omega
      rw [if_pos heq, hboth, hsame hboth]
    · rw [if_neg heq]
  · rw [heq, ← h.same heq]

variable {index term : Nat}

/-- A snapshot that has just been written, and is not the last one yet, changes
nothing either. -/
theorem Coherent.disk_fits (h : Coherent r) (hnew : r.Newest index term)
    (hfits : r.Fits index term) : r.getLastEntry = diskEntry r.snapshots r.logs := by
  obtain ⟨hindex, hterm⟩ := hnew
  obtain ⟨hle, hbelow | hlast⟩ := hfits
  · -- below the last log, which then is in the store
    have heq : r.logs.lastIndex = r.lastLogIndex := by
      rcases Nat.lt_or_eq_of_le h.within with hlt | heq
      · have := (h.covered hlt).1
        omega
      · exact heq
    unfold getLastEntry diskEntry
    rw [hindex, hterm, if_pos (by omega), if_pos (by omega), heq, ← h.same heq]
  · unfold diskEntry
    rw [hindex, hterm, ← hlast]
    split
    · rename_i hcovers
      unfold getLastEntry at hlast
      have := h.within
      by_cases hsnap : r.lastSnapshotIndex ≤ r.lastLogIndex
      · rw [if_pos hsnap, Prod.mk.injEq] at hlast
        have heq : r.logs.lastIndex = r.lastLogIndex := by omega
        rw [hlast.1, hlast.2, heq, h.same heq]
      · rw [if_neg hsnap, Prod.mk.injEq] at hlast
        omega
    · rfl

theorem Coherent.congr (h : Coherent r) (hlogs : r'.logs = r.logs)
    (hlog : r'.lastLogIndex = r.lastLogIndex) (hlogTerm : r'.lastLogTerm = r.lastLogTerm)
    (hsnap : r'.lastSnapshotIndex = r.lastSnapshotIndex)
    (hsnapTerm : r'.lastSnapshotTerm = r.lastSnapshotTerm) : Coherent r' where
  within := by rw [hlogs, hlog]; exact h.within
  same := by rw [hlogs, hlog, hlogTerm]; exact h.same
  covered := by rw [hlogs, hlog, hlogTerm, hsnap, hsnapTerm]; exact h.covered

theorem Coherent.sameStores (h : Coherent r) (hs : SameStores r r') : Coherent r' :=
  h.congr hs.logs hs.lastLogIndex hs.lastLogTerm hs.lastSnapshotIndex hs.lastSnapshotTerm

/-- The store has the last log, whatever the snapshots. -/
theorem coherent_of_last {e : Log} (hindex : r.logs.lastIndex = e.index)
    (hget : r.logs.getLog e.index = some e) (hpos : 0 < e.index) (hlog : r.lastLogIndex = e.index)
    (hterm : r.lastLogTerm = e.term) : Coherent r where
  within := by omega
  same := by
    intro _
    rw [hterm, lastTermOf_eq (by omega) (by rw [hindex]; exact hget)]
  covered := by omega

theorem Coherent.below (h : Coherent r) : ∀ e ∈ r.logs, e.index ≤ r.lastLogIndex :=
  fun _ he => Nat.le_trans (LogStore.index_le_lastIndex he) h.within

/-- The last snapshot moves forward, to one that has the term of the last log if it
is at its index. -/
theorem Coherent.setLastSnapshot (h : Coherent r)
    (hle : r.lastSnapshotIndex ≤ index) (hterm : r.lastLogIndex = index → r.lastLogTerm = term) :
    Coherent (r.setLastSnapshot index term) where
  within := h.within
  same := h.same
  covered := by
    intro hlt
    have := (h.covered hlt).1
    exact ⟨Nat.le_trans this hle, hterm⟩

/-- Entries are deleted from the front, all of them only if the last snapshot covers
them. -/
theorem Coherent.deleteRange (h : Coherent r) {hi : Nat}
    (hcovered : r.logs.lastIndex ≤ hi → r.lastLogIndex ≤ r.lastSnapshotIndex ∧
      (r.lastLogIndex = r.lastSnapshotIndex → r.lastLogTerm = r.lastSnapshotTerm)) :
    Coherent { r with logs := r.logs.deleteRange r.logs.firstIndex hi } := by
  by_cases hall : r.logs.lastIndex ≤ hi
  · rw [LogStore.deleteRange_all hall]
    have hzero : LogStore.lastIndex [] = 0 := rfl
    refine ⟨by rw [hzero]; exact Nat.zero_le _, ?_, fun _ => hcovered hall⟩
    intro hlast
    have hlast : 0 = r.lastLogIndex := hlast
    have hwithin := h.within
    have hempty : r.logs.lastIndex = 0 := by omega
    have hterm := h.same (by omega)
    rw [lastTermOf_zero hempty] at hterm
    exact hterm
  · have hlt : hi < r.logs.lastIndex := by omega
    have hindex := @LogStore.lastIndex_deleteRange r.logs r.logs.firstIndex hi hlt
    obtain ⟨e, he⟩ := LogStore.exists_getLog_lastIndex (Nat.zero_lt_of_lt hlt)
    have hget : (r.logs.deleteRange r.logs.firstIndex hi).getLog r.logs.lastIndex = some e := by
      rw [LogStore.getLog_deleteRange (by omega)]
      exact he
    have hterm : (lastTermOf (r.logs.deleteRange r.logs.firstIndex hi)).getD 0 =
        (lastTermOf r.logs).getD 0 := by
      rw [lastTermOf_eq (by omega) he, lastTermOf_eq (by rw [hindex]; omega) (by rw [hindex]; exact hget)]
    refine ⟨?_, ?_, ?_⟩
    · show (r.logs.deleteRange r.logs.firstIndex hi).lastIndex ≤ r.lastLogIndex
      rw [hindex]
      exact h.within
    · show (r.logs.deleteRange r.logs.firstIndex hi).lastIndex = r.lastLogIndex →
        r.lastLogTerm = (lastTermOf (r.logs.deleteRange r.logs.firstIndex hi)).getD 0
      rw [hindex, hterm]
      exact h.same
    · show (r.logs.deleteRange r.logs.firstIndex hi).lastIndex < r.lastLogIndex → _
      rw [hindex]
      exact h.covered

theorem Coherent.compactLogsWithTrailing (h : Coherent r) {snapIdx lastLogIdx trailingLogs : Nat}
    (hcovered : r.logs.lastIndex ≤ snapIdx → r.lastLogIndex ≤ r.lastSnapshotIndex ∧
      (r.lastLogIndex = r.lastSnapshotIndex → r.lastLogTerm = r.lastSnapshotTerm)) :
    Coherent (r.compactLogsWithTrailing snapIdx lastLogIdx trailingLogs env) := by
  rcases compactLogsWithTrailing_eq r snapIdx lastLogIdx trailingLogs env with
    hsame | ⟨maxLog, hmax, -, -, hsame⟩
  · rw [hsame]
    exact h
  · rw [hsame]
    exact h.deleteRange (fun hall => hcovered (Nat.le_trans hall hmax))

/-- Compaction up to the last snapshot. -/
theorem Coherent.compactLogs (h : Coherent r)
    (hterm : r.lastLogIndex = r.lastSnapshotIndex → r.lastLogTerm = r.lastSnapshotTerm) :
    Coherent (r.compactLogs r.lastSnapshotIndex env) := by
  apply h.compactLogsWithTrailing
  intro hall
  rcases Nat.lt_or_eq_of_le h.within with hlt | heq
  · exact h.covered hlt
  · exact ⟨by omega, hterm⟩

/-- The last log is what it was, or above `index`. -/
def Grows (r : Raft) (index : Nat) (r' : Raft) : Prop :=
  (r'.lastLogIndex = r.lastLogIndex ∧ r'.lastLogTerm = r.lastLogTerm) ∨ index < r'.lastLogIndex

theorem Fits.grows (h : r.Fits index term) (hg : Grows r index r')
    (hindex : r'.lastSnapshotIndex = r.lastSnapshotIndex)
    (hterm : r'.lastSnapshotTerm = r.lastSnapshotTerm) : r'.Fits index term := by
  obtain ⟨hle, hfits⟩ := h
  refine ⟨by rw [hindex]; exact hle, ?_⟩
  rcases hg with ⟨hlog, hlogTerm⟩ | hlt
  · unfold getLastEntry at hfits ⊢
    rw [hlog, hlogTerm, hindex, hterm]
    exact hfits
  · exact .inl hlt

theorem Fits.le_getLastIndex (h : r.Fits index term) : index ≤ r.getLastIndex := by
  unfold getLastIndex
  rcases h.2 with hlt | heq
  · omega
  · unfold getLastEntry at heq
    split at heq
    · rw [Prod.mk.injEq] at heq
      omega
    · rw [Prod.mk.injEq] at heq
      omega

theorem Fits.term_eq (h : r.Fits index term) (heq : r.lastLogIndex = index) :
    r.lastLogTerm = term := by
  rcases h.2 with hlt | hlast
  · omega
  · have := h.1
    unfold getLastEntry at hlast
    rw [if_pos (by omega), Prod.mk.injEq] at hlast
    exact hlast.2.symm

theorem Fits.setLastSnapshot (h : r.Fits index term) :
    (r.setLastSnapshot index term).Fits index term := by
  refine ⟨Nat.le_refl _, ?_⟩
  rcases Nat.lt_trichotomy index r.lastLogIndex with hlt | heq | hgt
  · exact .inl hlt
  · right
    show (index, term) = if index ≤ r.lastLogIndex then (r.lastLogIndex, r.lastLogTerm) else (index, term)
    rw [if_pos (Nat.le_of_eq heq), h.term_eq heq.symm, heq]
  · right
    show (index, term) = if index ≤ r.lastLogIndex then (r.lastLogIndex, r.lastLogTerm) else (index, term)
    rw [if_neg (by omega)]

theorem Dispatches.getLast_index {entries : List Log} (hd : Dispatches r entries r')
    (hne : entries ≠ []) : (entries.getLast hne).index = r.getLastIndex + entries.length := by
  have hpos : 0 < entries.length := List.length_pos_of_ne_nil hne
  have hget : entries[entries.length - 1]? = some (entries.getLast hne) := by
    rw [List.getLast_eq_getElem]
    exact List.getElem?_eq_getElem (by omega)
  rw [hd.index _ _ hget]
  omega

theorem stampedLogs_ne_nil {futures : List LogFuture} (hne : futures ≠ []) :
    r.stampedLogs futures env ≠ [] := by
  intro hnil
  have hlength := congrArg List.length hnil
  rw [stampedLogs, List.length_map, stampLogs_length, List.length_nil] at hlength
  exact hne (List.eq_nil_of_length_eq_zero hlength)

theorem Coherent.dispatches (h : Coherent r) {entries : List Log} (hne : entries ≠ [])
    (hd : Dispatches r entries r') : Coherent r' ∧ ∀ index ≤ r.getLastIndex, Grows r index r' := by
  have hlast := hd.getLast_index hne
  have hnew : ∀ e ∈ entries, e.index ≤ (entries.getLast hne).index := by
    intro e he
    obtain ⟨i, hi⟩ := List.getElem?_of_mem he
    have := (List.getElem?_eq_some_iff.mp hi).1
    rw [hd.index i e hi, hlast]
    omega
  have hold : ∀ e ∈ r.logs, e.index ≤ (entries.getLast hne).index := by
    intro e he
    have := h.below e he
    have : r.lastLogIndex ≤ r.getLastIndex := Nat.le_max_left _ _
    omega
  have hpos : 0 < (entries.getLast hne).index := by
    have := List.length_pos_of_ne_nil hne
    omega
  obtain ⟨hindex, hget⟩ :=
    LogStore.lastIndex_storeLogs hd.nodup (List.getLast_mem hne) hold hnew
  rw [← hd.logs] at hindex hget
  refine ⟨coherent_of_last hindex hget hpos (by rw [hd.lastLogIndex, hlast]) ?_, ?_⟩
  · rw [hd.lastLogTerm, hd.term _ (List.getLast_mem hne)]
  · intro index hle
    right
    rw [hd.lastLogIndex]
    have := List.length_pos_of_ne_nil hne
    omega

/-- New entries are stored, above everything and in the order of their indexes. -/
theorem coherent_stores {entry : Log} {rest : List Log} (hlow : ∀ e ∈ r.logs, e.index < entry.index)
    (hsorted : (entry :: rest).Pairwise (fun e e' => e.index < e'.index)) (hpos : 0 < entry.index)
    (hdecodes : ∀ e ∈ entry :: rest, e.decodes = true) :
    Coherent (r.stores entry rest) ∧ entry.index ≤ (r.stores entry rest).lastLogIndex := by
  have hstores := stores_push (r := r) hdecodes
  rw [hstores]
  have hnew := index_le_getLast hsorted (by simp)
  have hfirst := hnew entry (by simp)
  obtain ⟨hindex, hget⟩ := LogStore.lastIndex_storeLogs (nodup_of_sorted hsorted)
    (List.getLast_mem (by simp)) (fun e he => by have := hlow e he; omega) hnew
  exact ⟨coherent_of_last hindex hget (by omega) rfl rfl, hfirst⟩

theorem Coherent.logsAfter (h : Coherent r)
    (hterm : r.lastLogIndex = r.lastSnapshotIndex → r.lastLogTerm = r.lastSnapshotTerm)
    (hwhole : r.conf.monotonicLogs = true → r.lastLogIndex ≤ r.lastSnapshotIndex) :
    Coherent { r with logs := r.logsAfter r.lastSnapshotIndex env } := by
  rw [← logsAfter_eq]
  split
  · rename_i hmono
    exact h.compactLogsWithTrailing (fun _ => ⟨hwhole hmono, hterm⟩)
  · exact h.compactLogs hterm

theorem Coherent.installs (h : Coherent r) {req : InstallSnapshotRequest} {c : Configuration}
    {index : Nat} (habove : r.lastSnapshotIndex ≤ req.lastLogIndex)
    (hsame : r.lastLogIndex = req.lastLogIndex → r.lastLogTerm = req.lastLogTerm)
    (hwhole : r.conf.monotonicLogs = true → r.lastLogIndex ≤ req.lastLogIndex)
    (hi : Installs r req c index env r') : Coherent r' := by
  have hset := h.setLastSnapshot habove hsame
  have hafter : Coherent { r.setLastSnapshot req.lastLogIndex req.lastLogTerm with
      logs := (r.setLastSnapshot req.lastLogIndex req.lastLogTerm).logsAfter req.lastLogIndex env } :=
    hset.logsAfter hsame hwhole
  refine hafter.congr ?_ hi.lastLogIndex hi.lastLogTerm hi.lastSnapshotIndex hi.lastSnapshotTerm
  rw [hi.logs]
  apply logsAfter_congr <;> rfl

theorem removeOldLogs_lastIndex_le (r : Raft) (env : Env) :
    (r.removeOldLogs env).logs.lastIndex ≤ r.logs.lastIndex := by
  unfold removeOldLogs
  rcases compactLogsWithTrailing_eq r r.logs.lastIndex r.logs.lastIndex 0 env with
    hsame | ⟨maxLog, -, -, -, hsame⟩
  · rw [hsame]
  · rw [hsame, LogStore.lastIndex_le]
    intro e he
    exact LogStore.index_le_lastIndex (LogStore.mem_of_mem_deleteRange he)

theorem Coherent.restoresUser (h : Coherent r) {user : UserSnapshot}
    (hr : RestoresUser r user env r') : Coherent r' := by
  have hlt : r'.logs.lastIndex < r'.lastLogIndex := by
    have hlast : r.lastLogIndex ≤ r.getLastIndex := Nat.le_max_left _ _
    have hwithin := h.within
    have hremoved := removeOldLogs_lastIndex_le r env
    rw [hr.logs, hr.lastLogIndex]
    split <;> omega
  refine ⟨Nat.le_of_lt hlt, by omega, fun _ => ⟨?_, fun _ => ?_⟩⟩
  · rw [hr.lastLogIndex, hr.lastSnapshotIndex]
  · rw [hr.lastLogTerm, hr.lastSnapshotTerm]

theorem coherent_newRaft {conf : Config} {stable : StableStore} {logs : LogStore}
    {snapshots : List Snapshot} (h : newRaft conf stable logs snapshots env = some r) : Coherent r := by
  have hstarted := started_newRaft h
  refine ⟨?_, ?_, ?_⟩
  · rw [hstarted.logs, hstarted.lastLogIndex]
  · intro _
    rw [hstarted.logs, hstarted.lastLogTerm]
    rfl
  · rw [hstarted.logs, hstarted.lastLogIndex]
    intro hlt
    exact absurd hlt (Nat.lt_irrefl _)

end Raft

end PerfRaft
