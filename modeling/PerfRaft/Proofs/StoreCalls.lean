import PerfRaft.Proofs.Frames
import PerfRaft.Proofs.LogStore
import PerfRaft.StoreCalls

namespace PerfRaft

open Lib

/-- Whether the goroutine has read the entry at `i` for the request it is building. -/
def Setup.hasRead (r : Raft) (i : Nat) : Setup → Bool
  | .logs nextIndex _ prevLogEntry _ entries =>
    (decide (i = prevLogEntry) && decide (prevLogEntry ≠ 0) &&
        decide (prevLogEntry ≠ r.lastSnapshotIndex)) ||
      (decide (nextIndex ≤ i) && decide (i < nextIndex + entries.length))
  | _ => false

namespace StoreRun

variable {s s' : StoreRun} {call : StoreCall}

/-- The main thread neither deletes nor overwrites an entry that has been read for
an unfinished request. -/
def keepsRead (s : StoreRun) : StoreCall → Bool
  | .write =>
    match s.append with
    | .delete lastLogIdx entry _ =>
      (List.range' entry.index (lastLogIdx + 1 - entry.index)).all
        (fun i => !s.setup.hasRead s.raft i)
    | .store entry rest => (entry :: rest).all (fun e => !s.setup.hasRead s.raft e.index)
    | _ => true
  | _ => true

/-- What has been read for a request is still there. -/
def Reads (s : StoreRun) : Prop :=
  match s.setup with
  | .idle => True
  | .previous nextIndex _ => 1 ≤ nextIndex
  | .logs nextIndex _ prevLogEntry prevLogTerm entries =>
    prevLogEntry + 1 = nextIndex ∧
      Slice.SegmentOf ⟨prevLogEntry, prevLogTerm, entries⟩ s.raft s.raft.logs

theorem previous_segment {r : Raft} {nextIndex prevLogEntry prevLogTerm : Nat} (hnext : 1 ≤ nextIndex)
    (h : r.setPreviousLog nextIndex = some (prevLogEntry, prevLogTerm)) :
    prevLogEntry + 1 = nextIndex ∧ Slice.SegmentOf ⟨prevLogEntry, prevLogTerm, []⟩ r r.logs := by
  unfold Raft.setPreviousLog Raft.setPreviousLogFrom at h
  split at h
  · rename_i hfirst
    cases h
    exact ⟨hfirst.symm, by simp [Slice.SegmentOf]⟩
  · split at h
    · rename_i hfirst hsnap
      cases h
      have hpos : r.lastSnapshotIndex ≠ 0 := by omega
      exact ⟨by omega, by simp [Slice.SegmentOf, hpos]⟩
    · rename_i hfirst hsnap
      simp only [Option.map_eq_some_iff, Prod.mk.injEq] at h
      obtain ⟨l, hget, rfl, rfl⟩ := h
      have hindex := LogStore.index_of_getLog hget
      have hpos : l.index ≠ 0 := by omega
      have hother : l.index ≠ r.lastSnapshotIndex := by omega
      rw [← hindex] at hget
      exact ⟨by omega, by simp [Slice.SegmentOf, hpos, hother, hget]⟩

theorem segment_snoc {r : Raft} {logs : LogStore} {prevLogEntry prevLogTerm : Nat}
    {entries : List Log} {entry : Log}
    (h : Slice.SegmentOf ⟨prevLogEntry, prevLogTerm, entries⟩ r logs)
    (hget : logs.getLog (prevLogEntry + 1 + entries.length) = some entry) :
    Slice.SegmentOf ⟨prevLogEntry, prevLogTerm, entries ++ [entry]⟩ r logs := by
  refine ⟨h.1, ?_⟩
  have hold := h.2
  simp only [List.length_append, List.length_singleton, List.range'_concat, List.map_append, hold,
    List.map_cons, List.map_nil, Nat.one_mul, hget]

/-- A segment stays one as long as what has been read of it is left alone. -/
theorem segment_keep {r r' : Raft} {nextIndex lastIndex prevLogEntry prevLogTerm : Nat}
    {entries : List Log} (hprev : prevLogEntry + 1 = nextIndex)
    (h : Slice.SegmentOf ⟨prevLogEntry, prevLogTerm, entries⟩ r r.logs)
    (hsnap : r'.lastSnapshotIndex = r.lastSnapshotIndex ∧ r'.lastSnapshotTerm = r.lastSnapshotTerm)
    (hkeep : ∀ i, (Setup.logs nextIndex lastIndex prevLogEntry prevLogTerm entries).hasRead r i = true →
      r'.logs.getLog i = r.logs.getLog i) :
    Slice.SegmentOf ⟨prevLogEntry, prevLogTerm, entries⟩ r' r'.logs := by
  obtain ⟨hp, hentries⟩ := h
  dsimp only at hp hentries
  constructor
  · dsimp only
    rw [hsnap.1, hsnap.2]
    by_cases hzero : prevLogEntry = 0
    · rw [if_pos hzero] at hp ⊢
      exact hp
    · rw [if_neg hzero] at hp ⊢
      by_cases hlast : prevLogEntry = r.lastSnapshotIndex
      · rw [if_pos hlast] at hp ⊢
        exact hp
      · rw [if_neg hlast] at hp ⊢
        rw [hkeep prevLogEntry (by simp [Setup.hasRead, hzero, hlast])]
        exact hp
  · dsimp only
    rw [← hentries]
    refine List.map_congr_left ?_
    intro i hi
    rw [List.mem_range'_1] at hi
    refine hkeep i ?_
    simp only [Setup.hasRead, Bool.or_eq_true, Bool.and_eq_true, decide_eq_true_eq]
    exact .inr ⟨by omega, by omega⟩

/-- A call of the main thread that keeps what has been read keeps the segment. -/
theorem Reads.keep (h : s.Reads) (hsetup : s'.setup = s.setup)
    (hsnap : s'.raft.lastSnapshotIndex = s.raft.lastSnapshotIndex ∧
      s'.raft.lastSnapshotTerm = s.raft.lastSnapshotTerm)
    (hkeep : ∀ i, s.setup.hasRead s.raft i = true → s'.raft.logs.getLog i = s.raft.logs.getLog i) :
    s'.Reads := by
  unfold Reads at h ⊢
  rw [hsetup]
  cases hs : s.setup with
  | idle => trivial
  | previous nextIndex lastIndex =>
    rw [hs] at h
    exact h
  | logs nextIndex lastIndex prevLogEntry prevLogTerm entries =>
    rw [hs] at h hkeep
    exact ⟨h.1, segment_keep h.1 h.2 hsnap hkeep⟩

theorem Reads.write (h : s.Reads) (hok : s.keepsRead .write = true) (hs : s.write = some s') :
    s'.Reads := by
  unfold StoreRun.write at hs
  unfold keepsRead at hok
  cases happend : s.append with
  | idle => simp [happend] at hs
  | compare lastLogIdx entries =>
    have hsame : ∀ append, s' = { s with append := append } → s'.Reads := by
      rintro append rfl
      exact h.keep rfl ⟨rfl, rfl⟩ (fun _ _ => rfl)
    cases entries with
    | nil =>
      simp only [happend, Option.some.injEq] at hs
      exact hsame _ hs.symm
    | cons entry rest =>
      simp only [happend] at hs
      split at hs
      · exact hsame _ (Option.some.inj hs).symm
      · split at hs
        · exact hsame _ (Option.some.inj hs).symm
        · split at hs
          · exact hsame _ (Option.some.inj hs).symm
          · exact hsame _ (Option.some.inj hs).symm
  | delete lastLogIdx entry rest =>
    simp only [happend, Option.some.injEq] at hs
    simp only [happend, List.all_eq_true, Bool.not_eq_eq_eq_not, Bool.not_true] at hok
    rw [← hs]
    refine h.keep rfl ⟨rfl, rfl⟩ ?_
    intro i hread
    refine LogStore.getLog_deleteRange ?_
    rintro ⟨hlo, hhi⟩
    have hnot := hok i (by rw [List.mem_range'_1]; omega)
    simp [hread] at hnot
  | store entry rest =>
    simp only [happend, Option.some.injEq] at hs
    simp only [happend, List.all_eq_true, Bool.not_eq_eq_eq_not, Bool.not_true] at hok
    rw [← hs]
    refine h.keep rfl ⟨rfl, rfl⟩ ?_
    intro i hread
    refine LogStore.getLog_storeLogs_ne ?_
    intro e he heq
    have hnot := hok e he
    simp [heq, hread] at hnot

/-- One GetLog of the goroutine; a request that is sent is a segment of the store at
that moment. -/
theorem Reads.read (h : s.Reads) (hs : s.read = some s') :
    s'.Reads ∧ s'.raft = s.raft ∧ s'.past = s.past ∧
      ∀ slice ∈ s'.sent, slice ∈ s.sent ∨ slice.SegmentOf s.raft s.raft.logs := by
  unfold StoreRun.read at hs
  cases hsetup : s.setup with
  | idle => simp [hsetup] at hs
  | previous nextIndex lastIndex =>
    simp only [hsetup] at hs
    simp only [Reads, hsetup] at h
    split at hs
    · cases hs
      exact ⟨trivial, rfl, rfl, fun _ hmem => .inl hmem⟩
    · rename_i prevLogEntry prevLogTerm hprev
      cases hs
      exact ⟨previous_segment h hprev, rfl, rfl, fun _ hmem => .inl hmem⟩
  | logs nextIndex lastIndex prevLogEntry prevLogTerm entries =>
    simp only [hsetup] at hs
    simp only [Reads, hsetup] at h
    obtain ⟨hprev, hsegment⟩ := h
    split at hs
    · split at hs
      · cases hs
        exact ⟨trivial, rfl, rfl, fun _ hmem => .inl hmem⟩
      · rename_i entry hget
        cases hs
        rw [← hprev] at hget
        exact ⟨⟨hprev, segment_snoc hsegment hget⟩, rfl, rfl, fun _ hmem => .inl hmem⟩
    · cases hs
      refine ⟨trivial, rfl, rfl, ?_⟩
      intro slice hmem
      rcases List.mem_cons.mp hmem with rfl | hmem
      · exact .inr hsegment
      · exact .inl hmem

/-- The main thread sends nothing, and remembers the contents it changes. -/
theorem write_frame (hs : s.write = some s') :
    s'.sent = s.sent ∧ s'.raft.lastSnapshotIndex = s.raft.lastSnapshotIndex ∧
      s'.raft.lastSnapshotTerm = s.raft.lastSnapshotTerm ∧
      ∀ logs ∈ s.raft.logs :: s.past, logs ∈ s'.raft.logs :: s'.past := by
  unfold StoreRun.write at hs
  split at hs
  · simp at hs
  · cases hs
    exact ⟨rfl, rfl, rfl, fun _ h => h⟩
  · split at hs
    · cases hs
      exact ⟨rfl, rfl, rfl, fun _ h => h⟩
    · split at hs
      · cases hs
        exact ⟨rfl, rfl, rfl, fun _ h => h⟩
      · split at hs <;> cases hs <;> exact ⟨rfl, rfl, rfl, fun _ h => h⟩
  · cases hs
    exact ⟨rfl, rfl, rfl, fun _ h => List.mem_cons_of_mem _ h⟩
  · cases hs
    exact ⟨rfl, rfl, rfl, fun _ h => List.mem_cons_of_mem _ h⟩

/-- Every request sent so far was a segment of the store at some moment. -/
def Sliced (s : StoreRun) : Prop :=
  ∀ slice ∈ s.sent, ∃ logs ∈ s.raft.logs :: s.past, slice.SegmentOf s.raft logs

theorem Sliced.step (h : s.Sliced) (hreads : s.Reads) (hok : s.keepsRead call = true)
    (hs : s.step call = some s') : s'.Reads ∧ s'.Sliced := by
  cases call with
  | setupAppendEntries nextIndex lastIndex =>
    simp only [StoreRun.step] at hs
    split at hs
    · rename_i hidle
      cases hs
      exact ⟨hidle.2, h⟩
    · simp at hs
  | read =>
    obtain ⟨hreads', hraft, hpast, hsent⟩ := hreads.read hs
    refine ⟨hreads', ?_⟩
    intro slice hmem
    rw [hraft, hpast]
    rcases hsent slice hmem with hold | hnew
    · exact h slice hold
    · exact ⟨s.raft.logs, by simp, hnew⟩
  | appendEntries entries =>
    simp only [StoreRun.step] at hs
    split at hs
    · cases hs
      exact ⟨hreads.keep rfl ⟨rfl, rfl⟩ (fun _ _ => rfl), h⟩
    · simp at hs
  | write =>
    obtain ⟨hsent, hindex, hterm, hpast⟩ := write_frame hs
    refine ⟨hreads.write hok hs, ?_⟩
    intro slice hmem
    rw [hsent] at hmem
    obtain ⟨logs, hlogs, hsegment⟩ := h slice hmem
    refine ⟨logs, hpast logs hlogs, ?_⟩
    unfold Slice.SegmentOf at hsegment ⊢
    rw [hindex, hterm]
    exact hsegment

end StoreRun

/-- In every interleaving in which the main thread neither deletes nor overwrites an
entry that has been read for an unfinished request, each request sent is a segment
of the log the store contained at one moment. -/
theorem request_of_one_log {s : StoreRun}
    (h : StoreRun.system.Reachable (fun s call => s.keepsRead call = true) s) :
    ∀ slice ∈ s.sent, ∃ logs ∈ s.raft.logs :: s.past, slice.SegmentOf s.raft logs := by
  have hinv := h.invariant (P := fun s => s.Reads ∧ s.Sliced)
    (by rintro s ⟨r, rfl⟩; exact ⟨trivial, by simp [StoreRun.Sliced]⟩)
    (fun s call s' hP hok hs => hP.2.step hP.1 hok hs)
  exact hinv.2

/-- A server with three entries, the last two of term 2. -/
def threeEntries : StoreRun :=
  { raft :=
      { conf := { localID := [65], localAddr := [65] }
        logs := [⟨1, 1, .logNoop, .bytes [], [], 0⟩, ⟨2, 2, .logNoop, .bytes [], [], 0⟩,
          ⟨3, 2, .logNoop, .bytes [], [], 0⟩]
        lastLogIndex := 3, lastLogTerm := 2 } }

/-- A fourth entry is stored while the first three are read. -/
def readBesideAppend : List (StoreRun → StoreCall) :=
  [.setupAppendEntries 2 3, .read, .appendEntries [⟨4, 2, .logNoop, .bytes [], [], 0⟩], .read, .write,
    .write, .read, .read].map (fun call _ => call)

theorem request_of_one_log_beside :
    ∃ s, StoreRun.system.Reachable (fun s call => s.keepsRead call = true) s ∧
      ∃ slice ∈ s.sent, slice.entries.length = 2 ∧
        ∃ logs ∈ s.raft.logs :: s.past, slice.SegmentOf s.raft logs := by
  obtain ⟨s, hreach, slice, hmem, hlen⟩ : ∃ s,
      StoreRun.system.Reachable (fun s call => s.keepsRead call = true) s ∧
      ∃ slice ∈ s.sent, slice.entries.length = 2 :=
    System.exists_reachable (s := threeEntries) ⟨_, rfl⟩ readBesideAppend (by decide +kernel)
  exact ⟨s, hreach, slice, hmem, hlen, request_of_one_log hreach slice hmem⟩

/-- After the entry at 2 has been read, a newer leader's request replaces the entries
at 2 and 3, and then the new entry at 3 is read. -/
def readAcrossTruncation : List (StoreRun → StoreCall) :=
  [.setupAppendEntries 2 3, .read, .read,
    .appendEntries [⟨2, 3, .logNoop, .bytes [], [], 0⟩, ⟨3, 3, .logNoop, .bytes [], [], 0⟩], .write,
    .write, .write, .read, .read].map (fun call _ => call)

/-- A request can mix entries that were never in the store together. -/
theorem request_of_two_logs :
    ∃ s, StoreRun.system.Reachable (fun _ _ => True) s ∧
      ∃ slice ∈ s.sent, ¬ ∃ logs ∈ s.raft.logs :: s.past, slice.SegmentOf s.raft logs :=
  System.exists_reachable (s := threeEntries) ⟨_, rfl⟩ readAcrossTruncation (by decide +kernel)

namespace StoreRun

/-- The rest of the loop of `setNewLogs`, when nothing comes between. -/
theorem reads_rest {s : StoreRun} {nextIndex lastIndex prevLogEntry prevLogTerm k : Nat}
    {entries : List Log}
    (hsetup : s.setup = .logs nextIndex lastIndex prevLogEntry prevLogTerm entries)
    (hk : k = s.maxIndex nextIndex lastIndex + 1 - (nextIndex + entries.length)) :
    ∃ s', system.Reaches (fun _ call => call = .read) s s' ∧ s'.raft = s.raft ∧ s'.setup = .idle ∧
      s'.sent = (((List.range' (nextIndex + entries.length) k).mapM s.raft.logs.getLog).map
        (fun rest => ⟨prevLogEntry, prevLogTerm, entries ++ rest⟩)).toList ++ s.sent := by
  induction k generalizing s entries with
  | zero =>
    have hend : ¬ nextIndex + entries.length ≤ s.maxIndex nextIndex lastIndex := by omega
    have hstep : system.step s .read = some
        { s with setup := .idle, sent := ⟨prevLogEntry, prevLogTerm, entries⟩ :: s.sent } := by
      simp [system, step, read, hsetup, hend]
    exact ⟨_, .tail .refl rfl hstep, rfl, rfl, by simp⟩
  | succ k ih =>
    have hmore : nextIndex + entries.length ≤ s.maxIndex nextIndex lastIndex := by omega
    cases hget : s.raft.logs.getLog (nextIndex + entries.length) with
    | none =>
      have hstep : system.step s .read = some { s with setup := .idle } := by
        simp [system, step, read, hsetup, hmore, hget]
      exact ⟨_, .tail .refl rfl hstep, rfl, rfl, by simp [List.range'_succ, hget]⟩
    | some entry =>
      let s₁ : StoreRun :=
        { s with setup := .logs nextIndex lastIndex prevLogEntry prevLogTerm (entries ++ [entry]) }
      have hstep : system.step s .read = some s₁ := by
        simp [system, step, read, hsetup, hmore, hget, s₁]
      have hlen : nextIndex + (entries ++ [entry]).length = nextIndex + entries.length + 1 := by
        simp
        omega
      have hk' : k = s₁.maxIndex nextIndex lastIndex + 1 - (nextIndex + (entries ++ [entry]).length) := by
        rw [hlen]
        simp only [maxIndex, s₁] at hk ⊢
        omega
      obtain ⟨s', hreach, hraft, hidle, hsent⟩ := ih (s := s₁) rfl hk'
      refine ⟨s', System.Reaches.trans (.tail .refl rfl hstep) hreach, hraft, hidle, ?_⟩
      rw [hsent, hlen]
      simp only [List.range'_succ, List.mapM_cons, hget, s₁]
      cases (List.range' (nextIndex + entries.length + 1) k).mapM s.raft.logs.getLog <;> simp

/-- When nothing comes between its calls, `setupAppendEntries` reads the previous entry
and the entries of the request that the single step of the model of replication makes,
and sends nothing when that one does not find an entry. -/
theorem setup_alone (r : Raft) (currentTerm nextIndex lastIndex : Nat) :
    ∃ s', system.Reaches (fun _ call => call = .read)
        { raft := r, setup := .previous nextIndex lastIndex } s' ∧ s'.raft = r ∧ s'.setup = .idle ∧
      s'.sent = ((r.setupAppendEntries currentTerm nextIndex lastIndex).map
        (fun req => ⟨req.prevLogEntry, req.prevLogTerm, req.entries⟩)).toList := by
  cases hprev : r.setPreviousLog nextIndex with
  | none =>
    have hstep : system.step { raft := r, setup := .previous nextIndex lastIndex } .read = some
        { raft := r } := by
      simp [system, step, read, hprev]
    unfold Raft.setPreviousLog at hprev
    exact ⟨_, .tail .refl rfl hstep, rfl, rfl, by
      simp [Raft.setupAppendEntries, Raft.setupAppendEntriesFrom, hprev]⟩
  | some prev =>
    let s₁ : StoreRun := { raft := r, setup := .logs nextIndex lastIndex prev.1 prev.2 [] }
    have hstep : system.step { raft := r, setup := .previous nextIndex lastIndex } .read = some s₁ := by
      simp [system, step, read, hprev, s₁]
    obtain ⟨s', hreach, hraft, hidle, hsent⟩ := reads_rest (s := s₁) rfl rfl
    refine ⟨s', System.Reaches.trans (.tail .refl rfl hstep) hreach, hraft, hidle, ?_⟩
    rw [hsent]
    unfold Raft.setPreviousLog at hprev
    simp only [Raft.setupAppendEntries, Raft.setupAppendEntriesFrom, Raft.setNewLogsFrom,
      Raft.newLogsRange, hprev, s₁, maxIndex, List.length_nil, Nat.add_zero, List.nil_append,
      List.append_nil]
    cases (List.range' nextIndex
      (min (nextIndex + r.conf.maxAppendEntries - 1) lastIndex + 1 - nextIndex)).mapM r.logs.getLog
    · rfl
    · rfl

theorem store_alone {s : StoreRun} {entry : Log} {rest : List Log}
    (happend : s.append = .store entry rest) :
    ∃ s', system.Reaches (fun _ call => call = .write) s s' ∧ s'.append = .idle ∧
      s'.raft.logs = s.raft.logs.storeLogs (entry :: rest) := by
  have hstep : ∃ s', system.step s .write = some s' ∧ s'.append = .idle ∧
      s'.raft.logs = s.raft.logs.storeLogs (entry :: rest) := by
    simp only [system, step, write, happend]
    exact ⟨_, rfl, rfl, rfl⟩
  obtain ⟨s', hs, hidle, hlogs⟩ := hstep
  exact ⟨s', .tail .refl rfl hs, hidle, hlogs⟩

/-- The rest of the loop over the entries, when nothing comes between. -/
theorem compares_rest {s : StoreRun} {lastLogIdx : Nat} {entries : List Log} {env : Env}
    (hdelete : env.deleteRange = true) (happend : s.append = .compare lastLogIdx entries) :
    ∃ s', system.Reaches (fun _ call => call = .write) s s' ∧ s'.append = .idle ∧
      s'.raft.logs = match s.raft.newEntries lastLogIdx env entries with
        | none => s.raft.logs
        | some (r', rest) => r'.logs.storeLogs rest := by
  induction entries generalizing s with
  | nil =>
    have hstep : system.step s .write = some { s with append := .idle } := by
      simp [system, step, write, happend]
    exact ⟨_, .tail .refl rfl hstep, rfl, rfl⟩
  | cons entry rest ih =>
    unfold Raft.newEntries
    by_cases hlast : lastLogIdx < entry.index
    · have hstep : system.step s .write = some { s with append := .store entry rest } := by
        simp [system, step, write, happend, hlast]
      obtain ⟨s', hreach, hidle, hlogs⟩ :=
        store_alone (s := { s with append := .store entry rest }) rfl
      rw [if_pos hlast]
      exact ⟨s', System.Reaches.trans (.tail .refl rfl hstep) hreach, hidle, hlogs⟩
    · rw [if_neg hlast]
      cases hget : s.raft.logs.getLog entry.index with
      | none =>
        have hstep : system.step s .write = some { s with append := .idle } := by
          simp [system, step, write, happend, hlast, hget]
        exact ⟨_, .tail .refl rfl hstep, rfl, rfl⟩
      | some storeEntry =>
        by_cases hterm : entry.term ≠ storeEntry.term
        · have hstep : system.step s .write = some
              { s with append := .delete lastLogIdx entry rest } := by
            simp [system, step, write, happend, hlast, hget, hterm]
          let s₁ : StoreRun :=
            { s.setLogs (s.raft.logs.deleteRange entry.index lastLogIdx) with
              append := .store entry rest }
          have hstep₁ : system.step { s with append := .delete lastLogIdx entry rest } .write =
              some s₁ := rfl
          obtain ⟨s', hreach, hidle, hlogs⟩ := store_alone (s := s₁) rfl
          refine ⟨s', System.Reaches.trans (.tail (.tail .refl rfl hstep) rfl hstep₁) hreach, hidle, ?_⟩
          simp only [hdelete, Bool.true_eq_false, if_false, if_pos hterm]
          rw [hlogs]
          dsimp only [s₁, setLogs]
          split <;> rfl
        · have hstep : system.step s .write = some { s with append := .compare lastLogIdx rest } := by
            simp [system, step, write, happend, hlast, hget, not_not.mp hterm]
          obtain ⟨s', hreach, hidle, hlogs⟩ :=
            ih (s := { s with append := .compare lastLogIdx rest }) rfl
          dsimp only
          rw [if_neg hterm]
          exact ⟨s', System.Reaches.trans (.tail .refl rfl hstep) hreach, hidle, hlogs⟩

/-- When nothing comes between its calls, the main thread stores the entries of a
request as the model of `appendEntries` does. -/
theorem append_alone (r : Raft) (entries : List Log) {env : Env} (hdelete : env.deleteRange = true)
    (hstore : env.storeLogs = true) :
    ∃ s', system.Reaches (fun _ call => call = .write)
        { raft := r, append := .compare r.lastLogIndex entries } s' ∧ s'.append = .idle ∧
      s'.raft.logs = (r.storeEntries entries env).raft.logs := by
  rw [Raft.storeEntries_logs r entries env hstore]
  exact compares_rest (s := { raft := r, append := .compare r.lastLogIndex entries }) hdelete rfl

theorem append_alone_conflict : ∃ s', system.Reaches (fun _ call => call = .write)
    { raft := threeEntries.raft, append := .compare 3 [⟨2, 3, .logNoop, .bytes [], [], 0⟩] } s' ∧
      s'.append = .idle ∧ s'.raft.logs =
        (threeEntries.raft.storeEntries [⟨2, 3, .logNoop, .bytes [], [], 0⟩] {}).raft.logs :=
  append_alone threeEntries.raft _ rfl rfl

end StoreRun

end PerfRaft
