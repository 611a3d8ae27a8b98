import PerfRaft.Proofs.DataSteps
import PerfRaft.Proofs.Handlers

namespace PerfRaft.Raft

variable {r r' : Raft} {env : Env} {entries : List Log} {entry : Log}

theorem added_cons_of_holds (h : r.holds entry = true) :
    r.added (entry :: entries) = r.added entries := by
  unfold added
  rw [List.dropWhile_cons_of_pos h]

theorem added_cons_of_not_holds (h : r.holds entry = false) :
    r.added (entry :: entries) = entry :: entries := by
  unfold added
  rw [List.dropWhile_cons_of_neg (by simp [h])]

theorem added_sublist (r : Raft) (entries : List Log) : (r.added entries).Sublist entries :=
  List.dropWhile_sublist _

theorem added_sameData (h : SameData r r') : r'.added = r.added := by
  unfold added holds
  rw [h.logs, h.lastLogIndex]

/-- The server is ready to store the entries that are new to it: they come after
its log, or the log has been cut at the first of them. -/
inductive Opens (r : Raft) (entry : Log) : Raft → Prop where
  | after (h : r.lastLogIndex < entry.index) : Opens r entry r
  | conflict {old : Log} (h : entry.index ≤ r.lastLogIndex)
      (hold : r.logs.getLog entry.index = some old) (hne : entry.term ≠ old.term) :
      Opens r entry (r.cut entry.index)

theorem newEntries_cases (r : Raft) (env : Env) (entries : List Log) :
    r.newEntries r.lastLogIndex env entries = none ∨
      (r.added entries = [] ∧ r.newEntries r.lastLogIndex env entries = some (r, [])) ∨
      ∃ entry rest r₁, r.added entries = entry :: rest ∧ Opens r entry r₁ ∧
        (r₁ = r ∨ env.deleteRange = true) ∧
        r.newEntries r.lastLogIndex env entries = some (r₁, entry :: rest) := by
  induction entries with
  | nil => exact .inr (.inl ⟨rfl, rfl⟩)
  | cons entry rest ih =>
    unfold newEntries
    by_cases hafter : r.lastLogIndex < entry.index
    · have hnew : r.holds entry = false := by simp [holds, hafter]
      rw [if_pos hafter, added_cons_of_not_holds hnew]
      exact .inr (.inr ⟨entry, rest, r, rfl, .after hafter, .inl rfl, rfl⟩)
    · rw [if_neg hafter]
      cases hget : r.logs.getLog entry.index with
      | none => exact .inl rfl
      | some old =>
        dsimp only
        by_cases hterm : entry.term = old.term
        · have hheld : r.holds entry = true := by simp [holds, hget, hterm]; omega
          rw [if_neg (by simpa using hterm), added_cons_of_holds hheld]
          exact ih
        · have hnew : r.holds entry = false := by simp [holds, hget, Ne.symm hterm]
          rw [if_pos hterm, added_cons_of_not_holds hnew]
          cases henv : env.deleteRange with
          | false => exact .inl rfl
          | true =>
            exact .inr (.inr ⟨entry, rest, r.cut entry.index, rfl,
              .conflict (by omega) hget hterm, .inr rfl, rfl⟩)

/-- The entries new to the server are in its log and have been scanned for
configurations. -/
def stores (r : Raft) (entry : Log) (rest : List Log) : Raft :=
  let last := (entry :: rest).getLast (List.cons_ne_nil _ _)
  (Raft.processConfigurationLogEntries { r with logs := r.logs.storeLogs (entry :: rest) }
    (entry :: rest)).1.setLastLog last.index last.term

theorem stores_push {rest : List Log}
    (hdecodes : ∀ e ∈ entry :: rest, e.decodes = true) :
    r.stores entry rest =
      { r with
        logs := r.logs.storeLogs (entry :: rest)
        configurations := (entry :: rest).foldl Configurations.push r.configurations
        lastLogIndex := ((entry :: rest).getLast (by simp)).index
        lastLogTerm := ((entry :: rest).getLast (by simp)).term } := by
  unfold stores
  rw [processConfigurationLogEntries_push hdecodes]
  rfl

/-- Before new entries are stored, nothing in the log is at or above them. -/
theorem Opens.below (h : Opens r entry r')
    (hwithin : ∀ e ∈ r.logs, e.index ≤ r.lastLogIndex) : ∀ e ∈ r'.logs, e.index < entry.index := by
  intro e he
  cases h with
  | after hafter =>
    have := hwithin e he
    omega
  | conflict hle _ _ =>
    rw [cut_eq] at he
    obtain ⟨hmem, hout⟩ := LogStore.mem_deleteRange.mp he
    have := hwithin e hmem
    omega

/-- What a request leaves of the server's log, when no store fails and its entries
can be decoded: nothing has changed, or all the entries are there. -/
inductive Takes (r : Raft) (entries : List Log) : Raft → Prop where
  | held (h : r.added entries = []) : Takes r entries r
  | stored {entry : Log} {rest : List Log} {r₁ : Raft} (h : r.added entries = entry :: rest)
      (hopens : Opens r entry r₁) : Takes r entries (r₁.stores entry rest)

theorem nodup_of_sorted {entries : List Log}
    (h : entries.Pairwise (fun e e' => e.index < e'.index)) : (entries.map Log.index).Nodup := by
  rw [List.Nodup, List.pairwise_map]
  exact h.imp (fun hlt => Nat.ne_of_lt hlt)

theorem index_le_getLast {entries : List Log}
    (h : entries.Pairwise (fun e e' => e.index < e'.index)) (hne : entries ≠ []) :
    ∀ e ∈ entries, e.index ≤ (entries.getLast hne).index := by
  induction entries with
  | nil => exact absurd rfl hne
  | cons entry rest ih =>
    rw [List.pairwise_cons] at h
    intro e he
    cases rest with
    | nil =>
      rw [List.mem_singleton.mp he]
      exact Nat.le_refl _
    | cons entry' rest =>
      rw [List.getLast_cons (by simp)]
      rcases List.mem_cons.mp he with rfl | he
      · exact Nat.le_of_lt (h.1 _ (List.getLast_mem _))
      · exact ih h.2 (by simp) e he

theorem index_ge_head {rest : List Log}
    (h : (entry :: rest).Pairwise (fun e e' => e.index < e'.index)) :
    ∀ e ∈ entry :: rest, entry.index ≤ e.index := by
  intro e he
  rcases List.mem_cons.mp he with rfl | he
  · exact Nat.le_refl _
  · exact Nat.le_of_lt ((List.pairwise_cons.mp h).1 e he)

theorem storeEntries_cases (henv : env.storeLogs = true)
    (hdecodes : ∀ e ∈ r.added entries, e.decodes = true) :
    r.storeEntries entries env = .gaveUp r ∨
      ∃ r', r.storeEntries entries env = .stored r' ∧ Takes r entries r' := by
  unfold storeEntries
  rcases newEntries_cases r env entries with hnew | ⟨hadded, hnew⟩ | ⟨entry, rest, r₁, hadded, hopens, -, hnew⟩
  · rw [hnew]
    exact .inl rfl
  · rw [hnew]
    exact .inr ⟨r, rfl, .held hadded⟩
  · right
    refine ⟨r₁.stores entry rest, ?_, .stored hadded hopens⟩
    rw [hadded] at hdecodes
    have hprocess := processConfigurationLogEntries_push hdecodes
      { r₁ with logs := r₁.logs.storeLogs (entry :: rest) }
    simp only [hnew, henv, Bool.true_eq_false, if_false, stores, hprocess]

/-- `appendEntries` when no store fails and the new entries can be decoded: the
request is refused, or its entries are taken and the commit index moves. -/
theorem appendEntries_cases {a : AppendEntriesRequest} (henv : env.storeLogs = true)
    (hdecodes : ∀ e ∈ r.added a.entries, e.decodes = true) :
    SameData r (r.appendEntries a env).1 ∨
      ∃ r₁ r₂, SameData r r₁ ∧ r₁.verifyPrevious a = true ∧ Takes r₁ a.entries r₂ ∧
        SameData (r₂.followCommit a.leaderCommitIndex).1 (r.appendEntries a env).1 := by
  have hfollow := sameData_followLeader r a env
  unfold appendEntries
  dsimp only
  split
  · exact .inl (.refl r)
  split
  · exact .inl hfollow
  split
  · exact .inl hfollow
  rename_i hprev
  rw [Bool.not_eq_false] at hprev
  generalize r.followLeader a env = r₁ at hfollow hprev
  rw [← added_sameData hfollow] at hdecodes
  rcases storeEntries_cases henv hdecodes with hgaveUp | ⟨r₂, hstored, htakes⟩
  · rw [hgaveUp]
    exact .inl hfollow
  · rw [hstored]
    exact .inr ⟨r₁, r₂, hfollow, hprev, htakes, ⟨rfl, rfl, rfl, rfl, rfl, rfl, rfl, rfl, rfl⟩⟩

end PerfRaft.Raft
