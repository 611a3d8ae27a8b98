import PerfRaft.Proofs.Coherence

namespace PerfRaft

namespace Raft

variable {r r' : Raft} {env : Env} {a : AppendEntriesRequest}

/-- Two servers with the same settings and data, both up or both down. -/
structure Alike (r r' : Raft) : Prop where
  data : SameData r r'
  conf : r'.conf = r.conf
  down : r'.down = r.down

theorem Alike.processConfigurationLogEntry (h : Alike r r') (entry : Log) :
    (r'.processConfigurationLogEntry entry).2 = (r.processConfigurationLogEntry entry).2 ∧
      Alike (r.processConfigurationLogEntry entry).1 (r'.processConfigurationLogEntry entry).1 := by
  obtain ⟨⟨h1, h2, h3, h4, h5, h6, h7, h8, hconfigurations⟩, hconf, hdown⟩ := h
  unfold Raft.processConfigurationLogEntry setCommittedConfiguration setLatestConfiguration
  cases entry.type with
  | logConfiguration =>
    dsimp only
    cases decodeConfiguration entry.data with
    | none => exact ⟨rfl, ⟨h1, h2, h3, h4, h5, h6, h7, h8, by simp [hconfigurations]⟩, hconf, rfl⟩
    | some c => exact ⟨rfl, ⟨h1, h2, h3, h4, h5, h6, h7, h8, by simp [hconfigurations]⟩, hconf, hdown⟩
  | logAddPeerDeprecated | logRemovePeerDeprecated =>
    dsimp only
    cases decodePeers entry.data with
    | none => exact ⟨rfl, ⟨h1, h2, h3, h4, h5, h6, h7, h8, by simp [hconfigurations]⟩, hconf, hdown⟩
    | some c => exact ⟨rfl, ⟨h1, h2, h3, h4, h5, h6, h7, h8, by simp [hconfigurations]⟩, hconf, hdown⟩
  | logBarrier | logCommand | logNoop =>
    exact ⟨rfl, ⟨h1, h2, h3, h4, h5, h6, h7, h8, hconfigurations⟩, hconf, hdown⟩

theorem Alike.processConfigurationLogEntries (h : Alike r r') (entries : List Log) :
    (r'.processConfigurationLogEntries entries).2 = (r.processConfigurationLogEntries entries).2 ∧
      Alike (r.processConfigurationLogEntries entries).1 (r'.processConfigurationLogEntries entries).1 := by
  induction entries generalizing r r' with
  | nil => exact ⟨rfl, h⟩
  | cons entry rest ih =>
    obtain ⟨hok, halike⟩ := h.processConfigurationLogEntry entry
    unfold Raft.processConfigurationLogEntries
    cases hp : r.processConfigurationLogEntry entry with
    | mk r₁ ok =>
      cases hp' : r'.processConfigurationLogEntry entry with
      | mk r₁' ok' =>
        rw [hp, hp'] at hok halike
        dsimp only at hok halike ⊢
        subst hok
        cases ok' with
        | false => exact ⟨rfl, halike⟩
        | true => exact ih halike

theorem Alike.stores (h : Alike r r') (entry : Log) (rest : List Log) :
    Alike (r.stores entry rest) (r'.stores entry rest) := by
  have hstored : Alike { r with logs := r.logs.storeLogs (entry :: rest) }
      { r' with logs := r'.logs.storeLogs (entry :: rest) } := by
    have hd := h.data
    refine ⟨⟨?_, hd.snapshots, hd.commitIndex, hd.lastApplied, hd.lastLogIndex, hd.lastLogTerm,
      hd.lastSnapshotIndex, hd.lastSnapshotTerm, hd.configurations⟩, h.conf, h.down⟩
    show r'.logs.storeLogs (entry :: rest) = r.logs.storeLogs (entry :: rest)
    rw [hd.logs]
  obtain ⟨-, hprocessed⟩ := hstored.processConfigurationLogEntries (entry :: rest)
  have hd := hprocessed.data
  exact ⟨⟨hd.logs, hd.snapshots, hd.commitIndex, hd.lastApplied, rfl, rfl, hd.lastSnapshotIndex,
    hd.lastSnapshotTerm, hd.configurations⟩, hprocessed.conf, hprocessed.down⟩

theorem processLoop_congr (hlogs : r'.logs = r.logs) (hconf : r'.conf = r.conf)
    (futures : List LogFuture) (indexes : List Nat) (batch : List CommitTuple) :
    r'.processLoop futures indexes batch = r.processLoop futures indexes batch := by
  have hprepare (l : Log) (future : Option Nat) : r'.prepareLog l future = r.prepareLog l future := by
    unfold prepareLog
    rw [hconf]
  induction indexes generalizing batch with
  | nil => rfl
  | cons idx rest ih =>
    unfold processLoop
    simp only [hlogs, hconf, hprepare, ih]

theorem Alike.processLogs (h : Alike r r') (index : Nat) :
    Alike (r.processLogs index []).1 (r'.processLogs index []).1 := by
  have hd := h.data
  unfold Raft.processLogs
  rw [hd.lastApplied, processLoop_congr hd.logs h.conf]
  split
  · exact h
  · dsimp only
    split
    · exact ⟨⟨hd.logs, hd.snapshots, hd.commitIndex, rfl, hd.lastLogIndex, hd.lastLogTerm,
        hd.lastSnapshotIndex, hd.lastSnapshotTerm, hd.configurations⟩, h.conf, rfl⟩
    · exact ⟨⟨hd.logs, hd.snapshots, hd.commitIndex, rfl, hd.lastLogIndex, hd.lastLogTerm,
        hd.lastSnapshotIndex, hd.lastSnapshotTerm, hd.configurations⟩, h.conf, h.down⟩

theorem Alike.followCommit (h : Alike r r') (leaderCommitIndex : Nat) :
    Alike (r.followCommit leaderCommitIndex).1 (r'.followCommit leaderCommitIndex).1 := by
  have hd := h.data
  have hindex : r'.getLastIndex = r.getLastIndex := by
    unfold getLastIndex
    rw [hd.lastLogIndex, hd.lastSnapshotIndex]
  unfold Raft.followCommit
  rw [hd.commitIndex, hindex]
  split
  · dsimp only
    rw [hd.configurations]
    apply Alike.processLogs
    split
    · exact ⟨⟨hd.logs, hd.snapshots, rfl, hd.lastApplied, hd.lastLogIndex, hd.lastLogTerm,
        hd.lastSnapshotIndex, hd.lastSnapshotTerm, rfl⟩, h.conf, h.down⟩
    · exact ⟨⟨hd.logs, hd.snapshots, rfl, hd.lastApplied, hd.lastLogIndex, hd.lastLogTerm,
        hd.lastSnapshotIndex, hd.lastSnapshotTerm, rfl⟩, h.conf, h.down⟩
  · exact h

/-- Where no entry of a request conflicts with the log, the new ones are found and the
log is left alone. -/
theorem newEntries_of_holds {entries : List Log}
    (hholds : ∀ e ∈ entries, e.index ≤ r.lastLogIndex → r.holds e = true) :
    r.newEntries r.lastLogIndex env entries = some (r, r.added entries) := by
  induction entries with
  | nil => rfl
  | cons entry rest ih =>
    have hrest := ih (fun e he => hholds e (List.mem_cons_of_mem _ he))
    unfold newEntries
    by_cases hafter : r.lastLogIndex < entry.index
    · have hnew : r.holds entry = false := by simp [holds, hafter]
      rw [if_pos hafter, added_cons_of_not_holds hnew]
    · have hheld := hholds entry List.mem_cons_self (by omega)
      rw [if_neg hafter, added_cons_of_holds hheld]
      simp only [holds, Bool.and_eq_true, decide_eq_true_eq, Option.any_eq_true, beq_iff_eq] at hheld
      obtain ⟨-, old, hget, hterm⟩ := hheld
      rw [hget]
      dsimp only
      rw [if_neg (by simp [hterm])]
      exact hrest

theorem holds_sameData (h : SameData r r') : r'.holds = r.holds := by
  unfold holds
  rw [h.logs, h.lastLogIndex]

theorem newEntries_followLeader (env : Env)
    (hholds : ∀ e ∈ a.entries, e.index ≤ r.lastLogIndex → r.holds e = true) :
    (r.followLeader a env).newEntries (r.followLeader a env).lastLogIndex env a.entries =
      some (r.followLeader a env, r.added a.entries) := by
  have hd := sameData_followLeader r a env
  rw [newEntries_of_holds ?_, added_sameData hd]
  rw [holds_sameData hd, hd.lastLogIndex]
  exact hholds

/-- A request refused because its entries could not be stored has left the log alone. -/
theorem appendEntries_unstored (hterm : r.currentTerm ≤ a.term) (hfails : env.storeLogs = false)
    (hup : (r.followLeader a env).down = false) (hprev : r.verifyPrevious a = true)
    (hholds : ∀ e ∈ a.entries, e.index ≤ r.lastLogIndex → r.holds e = true)
    (hrefused : Refuses (r.appendEntries a env).2.1) :
    ∃ entry rest, r.added a.entries = entry :: rest ∧ (r.appendEntries a env).1 = r.followLeader a env := by
  have hd := sameData_followLeader r a env
  have hnew := newEntries_followLeader env hholds
  unfold appendEntries at hrefused ⊢
  simp only [Nat.not_lt.mpr hterm, if_false, hup, Bool.false_eq_true, verifyPrevious_sameData hd, hprev,
    Bool.true_eq_false] at hrefused ⊢
  unfold storeEntries at hrefused ⊢
  rw [hnew] at hrefused ⊢
  cases hadded : r.added a.entries with
  | nil =>
    rw [hadded] at hrefused
    have := hrefused _ rfl
    cases this
  | cons entry rest =>
    refine ⟨entry, rest, rfl, ?_⟩
    simp only [hfails, if_true]

/-- Once the leader is followed, an accepted request whose new entries are stored. -/
theorem appendEntries_stores (hterm : r.currentTerm ≤ a.term) (henv : env.storeLogs = true)
    (hup : (r.followLeader a env).down = false) (hprev : r.verifyPrevious a = true)
    (hdecodes : ∀ e ∈ a.entries, e.decodes = true)
    (hholds : ∀ e ∈ a.entries, e.index ≤ r.lastLogIndex → r.holds e = true) {entry : Log}
    {rest : List Log} (hadded : r.added a.entries = entry :: rest) :
    (r.appendEntries a env).1 =
        { (((r.followLeader a env).stores entry rest).followCommit a.leaderCommitIndex).1 with
          lastContact := env.now } ∧
      ∃ resp, (r.appendEntries a env).2.1 = .appendEntries resp ∧ resp.success = true := by
  have hd := sameData_followLeader r a env
  have hnew := newEntries_followLeader env hholds
  rw [hadded] at hnew
  have hsub : ∀ e ∈ entry :: rest, e.decodes = true := by
    intro e he
    rw [← hadded] at he
    exact hdecodes e ((added_sublist r a.entries).subset he)
  have hprocess := processConfigurationLogEntries_push hsub
    { r.followLeader a env with logs := (r.followLeader a env).logs.storeLogs (entry :: rest) }
  have hstored : (r.followLeader a env).storeEntries a.entries env =
      .stored ((r.followLeader a env).stores entry rest) := by
    unfold storeEntries
    rw [hnew]
    simp only [henv, Bool.true_eq_false, if_false, stores, hprocess]
  unfold appendEntries
  simp only [Nat.not_lt.mpr hterm, if_false, hup, Bool.false_eq_true, verifyPrevious_sameData hd, hprev,
    Bool.true_eq_false, hstored, true_and]
  exact ⟨_, rfl, rfl⟩

/-- Where an entry of a request is missing from the log or conflicts with it, the loop
gives up, or it cuts the log there and gives up when it comes again. -/
theorem newEntries_cut (hdelete : env.deleteRange = true) {entries : List Log}
    (hsorted : entries.Pairwise (fun e e' => e.index < e'.index)) {e : Log} (he : e ∈ entries)
    (hle : e.index ≤ r.lastLogIndex) (hnot : r.holds e = false) :
    ∃ r₁ : Raft, (r.newEntries r.lastLogIndex env entries = none ∧ r₁ = r ∨
        ∃ entry rest, r.newEntries r.lastLogIndex env entries = some (r₁, entry :: rest)) ∧
      r₁.lastLogIndex = r.lastLogIndex ∧
      (∀ i, (∀ e ∈ entries, i < e.index) → r₁.logs.getLog i = r.logs.getLog i) ∧
      ∀ (r₂ : Raft) (env' : Env), r₂.logs = r₁.logs →
        r₂.newEntries r.lastLogIndex env' entries = none := by
  induction entries with
  | nil => simp at he
  | cons entry rest ih =>
    obtain ⟨hfirst, hsorted⟩ := List.pairwise_cons.mp hsorted
    have hat : ¬ r.lastLogIndex < entry.index := by
      rcases List.mem_cons.mp he with rfl | hmem
      · omega
      · have := hfirst e hmem
        omega
    cases hget : r.logs.getLog entry.index with
    | none =>
      refine ⟨r, .inl ⟨?_, rfl⟩, rfl, fun _ _ => rfl, ?_⟩
      · rw [newEntries, if_neg hat, hget]
      · intro r₂ env' hlogs
        rw [newEntries, if_neg hat, hlogs, hget]
    | some old =>
      by_cases hterm : entry.term = old.term
      · -- a duplicate is skipped, both times
        have hheld : r.holds entry = true := by
          simp only [holds, hget, Option.any_some, hterm, beq_self_eq_true, Bool.and_true,
            decide_eq_true_eq]
          omega
        have hmem : e ∈ rest := by
          rcases List.mem_cons.mp he with rfl | hmem
          · rw [hheld] at hnot
            cases hnot
          · exact hmem
        obtain ⟨r₁, hfirst₁, hlast, hbelow, hagain⟩ := ih hsorted hmem
        have hskip : ∀ (r₂ : Raft) (env' : Env), r₂.logs.getLog entry.index = some old →
            r₂.newEntries r.lastLogIndex env' (entry :: rest) =
              r₂.newEntries r.lastLogIndex env' rest := by
          intro r₂ env' hget₂
          rw [newEntries, if_neg hat, hget₂]
          simp [hterm]
        refine ⟨r₁, ?_, hlast, ?_, ?_⟩
        · rw [hskip r env hget]
          exact hfirst₁
        · intro i hi
          exact hbelow i (fun e he => hi e (List.mem_cons_of_mem _ he))
        · intro r₂ env' hlogs
          rw [hskip r₂ env' (by rw [hlogs, hbelow _ hfirst, hget])]
          exact hagain r₂ env' hlogs
      · -- the log is cut here, and the entry is not found any more
        obtain ⟨r₁, hcut, hlogs₁, hlast⟩ : ∃ r₁ : Raft,
            r.newEntries r.lastLogIndex env (entry :: rest) = some (r₁, entry :: rest) ∧
              r₁.logs = r.logs.deleteRange entry.index r.lastLogIndex ∧
              r₁.lastLogIndex = r.lastLogIndex := by
          rw [newEntries, if_neg hat, hget]
          dsimp only
          rw [if_pos hterm, if_neg (by simp [hdelete])]
          refine ⟨_, rfl, ?_, ?_⟩ <;> split <;> rfl
        refine ⟨r₁, .inr ⟨entry, rest, hcut⟩, hlast, ?_, ?_⟩
        · intro i hi
          have := hi entry List.mem_cons_self
          rw [hlogs₁]
          exact LogStore.getLog_deleteRange (by omega)
        · intro r₂ env' hlogs
          rw [newEntries, if_neg hat, hlogs, hlogs₁, LogStore.getLog_deleteRange_self (by omega)]

/-- A server whose loop gives up does not accept the request. -/
theorem refuses_of_newEntries (hgives : ∀ (r₂ : Raft) (env : Env), r₂.logs = r.logs →
      r₂.newEntries r.lastLogIndex env a.entries = none) (env : Env) :
    Refuses (r.appendEntries a env).2.1 := by
  have hd := sameData_followLeader r a env
  have hstored : (r.followLeader a env).storeEntries a.entries env = .gaveUp (r.followLeader a env) := by
    unfold storeEntries
    rw [hd.lastLogIndex, hgives _ env hd.logs]
  intro resp hresp
  unfold appendEntries at hresp
  dsimp only at hresp
  rw [hstored] at hresp
  split at hresp
  · cases hresp
    rfl
  split at hresp
  · cases hresp
  split at hresp
  · cases hresp
    rfl
  · cases hresp
    rfl

/-- A request with an entry that is missing from the log or conflicts with it is
refused again once its entries could not be stored. -/
theorem appendEntries_stuck (hterm : r.currentTerm ≤ a.term)
    (hup : (r.followLeader a env).down = false) (hprev : r.verifyPrevious a = true)
    (hsorted : a.entries.Pairwise (fun e e' => e.index < e'.index))
    (hdelete : env.deleteRange = true) (hfails : env.storeLogs = false) {e : Log}
    (he : e ∈ a.entries) (hle : e.index ≤ r.lastLogIndex) (hnot : r.holds e = false) (env' : Env) :
    Refuses ((r.appendEntries a env).1.appendEntries a env').2.1 := by
  have hd := sameData_followLeader r a env
  obtain ⟨r₁, hfirst, hlast, -, hagain⟩ := newEntries_cut (r := r.followLeader a env) hdelete hsorted
    he (by rw [hd.lastLogIndex]; exact hle) (by rw [holds_sameData hd]; exact hnot)
  have hleft : (r.appendEntries a env).1 = r₁ := by
    unfold appendEntries storeEntries
    simp only [Nat.not_lt.mpr hterm, if_false, hup, Bool.false_eq_true, verifyPrevious_sameData hd,
      hprev, Bool.true_eq_false]
    rcases hfirst with ⟨hnone, rfl⟩ | ⟨entry, rest, hsome⟩
    · rw [hnone]
    · rw [hsome]
      simp only [hfails, if_true]
  rw [hleft]
  apply refuses_of_newEntries
  rw [hlast]
  exact hagain

/-- A request whose entries could not be stored is handled as at the first time when it
comes again, if none of its entries conflicts with the log, and only then. -/
theorem append_retried (r : Raft) (a : AppendEntriesRequest) (env env' : Env)
    (hup : r.down = false) (hterm : r.currentTerm ≤ a.term) (hprev : r.verifyPrevious a = true)
    (hsorted : a.entries.Pairwise (fun e e' => e.index < e'.index))
    (hdecodes : ∀ e ∈ a.entries, e.decodes = true)
    (hwrites : env.writes = []) (hdelete : env.deleteRange = true) (hfails : env.storeLogs = false)
    (hrefused : Refuses (r.appendEntries a env).2.1) (henv' : env'.Faultless) :
    ((∃ resp, ((r.appendEntries a env).1.appendEntries a env').2.1 = .appendEntries resp ∧
        resp.success = true) ∧
      SameData (r.appendEntries a env').1 ((r.appendEntries a env).1.appendEntries a env').1 ∧
      ((r.appendEntries a env).1.appendEntries a env').1.down = (r.appendEntries a env').1.down) ↔
    ∀ e ∈ a.entries, e.index ≤ r.lastLogIndex → r.holds e = true := by
  obtain ⟨hfup, hfterm, -, hd⟩ := followLeader_nil hup hwrites hterm
  constructor
  · rintro ⟨⟨resp, hresp, hsuccess⟩, -⟩ e he hle
    by_contra hnot
    have hrefuses := appendEntries_stuck hterm hfup hprev hsorted hdelete hfails he hle
      (by simpa using hnot) env'
    rw [hrefuses resp hresp] at hsuccess
    cases hsuccess
  intro hholds
  obtain ⟨entry, rest, hadded, hfirst⟩ := appendEntries_unstored hterm hfails hfup hprev hholds hrefused
  rw [hfirst]
  obtain ⟨hfup', -, -, hd'⟩ := followLeader_nil hup henv'.1 hterm
  obtain ⟨hfup'', -, -, hd''⟩ := followLeader_nil hfup henv'.1 hfterm.le
  obtain ⟨hdirect, -⟩ := appendEntries_stores hterm henv'.2.1 hfup' hprev hdecodes hholds hadded
  obtain ⟨hretried, hsuccess⟩ := appendEntries_stores hfterm.le henv'.2.1 hfup''
    (by rw [verifyPrevious_sameData hd]; exact hprev) hdecodes
    (fun e he hle => by
      rw [hd.lastLogIndex] at hle
      rw [holds_sameData hd]
      exact hholds e he hle)
    (by rw [added_sameData hd]; exact hadded)
  have halike : Alike (r.followLeader a env') ((r.followLeader a env).followLeader a env') := by
    refine ⟨hd'.symm.trans (hd.trans hd''), ?_, ?_⟩
    · rw [(rpcEffect_followLeader (r.followLeader a env) a env' hfterm.le).1.conf,
        (rpcEffect_followLeader r a env hterm).1.conf, (rpcEffect_followLeader r a env' hterm).1.conf]
    · rw [hfup', hfup'']
  have hcommit := (halike.stores entry rest).followCommit a.leaderCommitIndex
  rw [hdirect, hretried]
  have hsame := hcommit.data
  exact ⟨hsuccess, ⟨hsame.logs, hsame.snapshots, hsame.commitIndex, hsame.lastApplied,
    hsame.lastLogIndex, hsame.lastLogTerm, hsame.lastSnapshotIndex, hsame.lastSnapshotTerm,
    hsame.configurations⟩, hcommit.down⟩

/-- A follower with the entries 1 to 3. -/
def uptoThree : Raft :=
  { conf := { localID := [65], localAddr := [65] }, currentTerm := 2
    logs := [{ index := 1, term := 1, type := .logNoop }, { index := 2, term := 2, type := .logCommand },
      { index := 3, term := 2, type := .logCommand }]
    lastLogIndex := 3, lastLogTerm := 2 }

/-- The entries 3 and 4, of which the follower has the first. -/
def threeAndFour : AppendEntriesRequest :=
  { header := { id := [66], addr := [66] }, term := 2, prevLogEntry := 2, prevLogTerm := 2
    entries := [{ index := 3, term := 2, type := .logCommand }, { index := 4, term := 2, type := .logCommand }]
    leaderCommitIndex := 3 }

theorem append_retried_four :
    SameData (uptoThree.appendEntries threeAndFour {}).1
      ((uptoThree.appendEntries threeAndFour { storeLogs := false }).1.appendEntries threeAndFour {}).1 := by
  have hresponse : (uptoThree.appendEntries threeAndFour { storeLogs := false }).2.1 =
      .appendEntries { header := uptoThree.getRPCHeader, term := 2, lastLog := 3 } := by
    decide
  refine ((append_retried uptoThree threeAndFour { storeLogs := false } {} rfl (by decide) (by decide)
    (by decide) (by decide) rfl rfl rfl ?_ (by decide)).mpr (by decide)).2.1
  intro resp hresp
  rw [hresponse] at hresp
  cases hresp
  rfl

end Raft

namespace Process

/-- The entry 2 of a new leader. -/
def overwriting : AppendEntriesRequest :=
  { header := { id := [66], addr := [66] }, term := 3, prevLogEntry := 1, prevLogTerm := 1
    entries := [{ index := 2, term := 3, type := .logCommand }] }

/-- A conflicting entry could not be stored after the log was cut for it. The server
still believes in its last index 3, does not find its entry 2, and refuses the request
when it comes again. -/
theorem append_not_retried :
    ∃ s : Process Nat Nat, (system counter 0).Reachable (fun _ a => Calm a) s ∧
      (s.raft.state = .follower ∧ s.raft.lastLogIndex = 3 ∧ s.raft.lastLogTerm = 2 ∧
        s.raft.logs.map (fun l => (l.index, l.term)) = [(1, 1), (2, 2), (3, 2)]) ∧
      (s.raft.appendEntries overwriting {}).2.1 = .appendEntries
        { header := s.raft.getRPCHeader, term := 3, lastLog := 3, success := true } ∧
      (s.raft.appendEntries overwriting { storeLogs := false }).2.1 = .appendEntries
        { header := s.raft.getRPCHeader, term := 3, lastLog := 3, success := false } ∧
      ((s.raft.appendEntries overwriting { storeLogs := false }).1.appendEntries overwriting {}).2.1 =
        .appendEntries { header := s.raft.getRPCHeader, term := 3, lastLog := 3, success := false } :=
  Lib.System.exists_reachable (init_countingStart false)
    ((booted ++ commandsFrom 1 1 2 1).map (fun a _ => a)) (by decide +kernel)

end Process

end PerfRaft
