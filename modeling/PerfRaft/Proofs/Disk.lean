import PerfRaft.Proofs.Entries

namespace PerfRaft

section InForce

variable {snapshots : List Snapshot} {logs logs' : LogStore} {k m n : Nat}

theorem inForce_of_le (h : n ≤ snapshotIndex snapshots + 1) :
    inForce snapshots logs n = snapshotConfiguration snapshots := by
  unfold inForce
  rw [Nat.sub_eq_zero_of_le h]
  rfl

theorem inForce_succ (h : snapshotIndex snapshots < n) :
    inForce snapshots logs (n + 1) = logs.configurationAt (inForce snapshots logs n) n := by
  obtain ⟨d, rfl⟩ := Nat.exists_eq_add_of_le h
  have hshort : snapshotIndex snapshots + 1 + d - (snapshotIndex snapshots + 1) = d := by omega
  have hlong : snapshotIndex snapshots + 1 + d + 1 - (snapshotIndex snapshots + 1) = d + 1 := by omega
  unfold inForce
  rw [Nat.succ_eq_add_one, hshort, hlong, List.range'_1_concat, List.foldl_append]
  rfl

/-- Only the entries above the snapshot and below `n` count. -/
theorem inForce_congr
    (h : ∀ i, snapshotIndex snapshots < i → i < n → logs'.getLog i = logs.getLog i) :
    inForce snapshots logs' n = inForce snapshots logs n := by
  induction n with
  | zero => rw [inForce_of_le (by omega), inForce_of_le (by omega)]
  | succ n ih =>
    by_cases hn : snapshotIndex snapshots < n
    · have hbelow := ih (fun i hi hlt => h i hi (by omega))
      rw [inForce_succ hn, inForce_succ hn, hbelow]
      unfold LogStore.configurationAt
      rw [h n hn (by omega)]
    · rw [inForce_of_le (by omega), inForce_of_le (by omega)]

/-- Entries without a configuration change nothing. -/
theorem inForce_skip (hle : m ≤ n)
    (h : ∀ i, snapshotIndex snapshots < i → m ≤ i → i < n →
      (logs.getLog i).bind Log.configuration? = none) :
    inForce snapshots logs n = inForce snapshots logs m := by
  induction n, hle using Nat.le_induction with
  | base => rfl
  | succ n hle ih =>
    have hbelow := ih (fun i hi hm hlt => h i hi hm (by omega))
    by_cases hn : snapshotIndex snapshots < n
    · rw [inForce_succ hn, ← hbelow]
      unfold LogStore.configurationAt
      rw [h n hn hle (by omega)]
      rfl
    · rw [← hbelow, inForce_of_le (by omega), inForce_of_le (by omega)]

theorem inForce_index (snapshots : List Snapshot) (logs : LogStore) (n : Nat) :
    inForce snapshots logs n = snapshotConfiguration snapshots ∨
      (snapshotIndex snapshots < (inForce snapshots logs n).2 ∧ (inForce snapshots logs n).2 < n) := by
  induction n with
  | zero => exact .inl (inForce_of_le (by omega))
  | succ n ih =>
    by_cases hn : snapshotIndex snapshots < n
    · rw [inForce_succ hn]
      unfold LogStore.configurationAt
      cases (logs.getLog n).bind Log.configuration? with
      | some c => exact .inr ⟨hn, Nat.lt_succ_self n⟩
      | none =>
        refine ih.imp id ?_
        rintro ⟨hlow, hhigh⟩
        exact ⟨hlow, Nat.lt_succ_of_lt hhigh⟩
    · exact .inl (inForce_of_le (by omega))

/-- What is in force below `m` was in force below `k` already, or was written at or
above it. -/
theorem inForce_or_le (hle : k ≤ m) :
    inForce snapshots logs m = inForce snapshots logs k ∨ k ≤ (inForce snapshots logs m).2 := by
  induction m, hle using Nat.le_induction with
  | base => exact .inl rfl
  | succ m hle ih =>
    by_cases hm : snapshotIndex snapshots < m
    · rw [inForce_succ hm]
      unfold LogStore.configurationAt
      cases (logs.getLog m).bind Log.configuration? with
      | some c => exact .inr hle
      | none => exact ih
    · exact .inl (by rw [inForce_of_le (by omega), inForce_of_le (by omega)])

theorem inForce_entry {entry : Log} {c : Configuration} (hget : logs.getLog n = some entry)
    (hc : entry.configuration? = some c) (hn : snapshotIndex snapshots < n) :
    inForce snapshots logs (n + 1) = (c, n) := by
  rw [inForce_succ hn]
  unfold LogStore.configurationAt
  rw [hget, Option.bind_some, hc]
  rfl

end InForce

namespace Raft

variable {r r' : Raft} {n : Nat}

/-- The configurations are those of the entries below `n`. The committed one is the
latest, or the one that was in force before it. -/
structure TracksBelow (r : Raft) (n : Nat) : Prop where
  base : (snapshotConfiguration r.snapshots).2 ≤ snapshotIndex r.snapshots
  latest : (r.configurations.latest, r.configurations.latestIndex) = inForce r.snapshots r.logs n
  committed : (r.configurations.committed, r.configurations.committedIndex) =
      (r.configurations.latest, r.configurations.latestIndex) ∨
    (r.configurations.committedIndex < r.configurations.latestIndex ∧
      (r.configurations.committed, r.configurations.committedIndex) =
        inForce r.snapshots r.logs r.configurations.latestIndex)

theorem TracksBelow.latestIndex_lt (h : TracksBelow r n) {m : Nat} (hn : n ≤ m)
    (hm : snapshotIndex r.snapshots < m) : r.configurations.latestIndex < m := by
  have hindex : r.configurations.latestIndex = (inForce r.snapshots r.logs n).2 :=
    congrArg Prod.snd h.latest
  rcases inForce_index r.snapshots r.logs n with hbase | ⟨-, hlt⟩
  · rw [hbase] at hindex
    have := h.base
    omega
  · omega

/-- Entries without a configuration may be passed over. -/
theorem TracksBelow.skip (h : TracksBelow r n) {m : Nat} (hle : n ≤ m)
    (hplain : ∀ i, snapshotIndex r.snapshots < i → n ≤ i → i < m →
      (r.logs.getLog i).bind Log.configuration? = none) : TracksBelow r m where
  base := h.base
  latest := by rw [h.latest, inForce_skip hle hplain]
  committed := h.committed

/-- A configuration entry above everything scanned so far. -/
theorem TracksBelow.entry (h : TracksBelow r n) {entry : Log} {c : Configuration}
    (hget : r.logs.getLog entry.index = some entry) (hc : entry.configuration? = some c)
    (hn : n = entry.index) (hsnap : snapshotIndex r.snapshots < entry.index) :
    TracksBelow { r with configurations := r.configurations.push entry } (entry.index + 1) := by
  subst hn
  constructor
  case base => exact h.base
  case latest =>
    simp only [Configurations.push, hc]
    rw [inForce_entry hget hc hsnap]
  case committed =>
    right
    simp only [Configurations.push, hc]
    exact ⟨h.latestIndex_lt (Nat.le_refl _) hsnap, h.latest⟩

theorem TracksBelow.push (h : TracksBelow r n) {entry : Log}
    (hget : r.logs.getLog entry.index = some entry) (hn : n ≤ entry.index)
    (hgap : ∀ i, n ≤ i → i < entry.index → r.logs.getLog i = none)
    (hsnap : entry.configuration?.isSome = true → snapshotIndex r.snapshots < entry.index) :
    TracksBelow { r with configurations := r.configurations.push entry } (entry.index + 1) := by
  have hnear : TracksBelow r entry.index := by
    apply h.skip hn
    intro i _ hi hlt
    rw [hgap i hi hlt]
    rfl
  cases hc : entry.configuration? with
  | some c => exact hnear.entry hget hc rfl (hsnap (by rw [hc]; rfl))
  | none =>
    have hsame : r.configurations.push entry = r.configurations := by
      simp only [Configurations.push, hc]
    rw [hsame]
    apply hnear.skip (Nat.le_succ _)
    intro i _ hi hlt
    have hi : i = entry.index := by omega
    rw [hi, hget]
    exact hc

/-- The entries of a request in the order of their indexes, all of them stored. -/
theorem TracksBelow.processConfigurationLogEntries {entries : List Log} (h : TracksBelow r n)
    (hsorted : entries.Pairwise (fun e e' => e.index < e'.index))
    (hlow : ∀ e ∈ entries, n ≤ e.index) (hget : ∀ e ∈ entries, r.logs.getLog e.index = some e)
    (hgap : ∀ i, n ≤ i → (∀ e ∈ entries, e.index ≠ i) → r.logs.getLog i = none)
    (hdecodes : ∀ e ∈ entries, e.decodes = true)
    (hsnap : ∀ e ∈ entries, e.configuration?.isSome = true → snapshotIndex r.snapshots < e.index)
    (hne : entries ≠ []) :
    TracksBelow (r.processConfigurationLogEntries entries).1 ((entries.getLast hne).index + 1) := by
  induction entries generalizing r n with
  | nil => exact absurd rfl hne
  | cons entry rest ih =>
    rw [List.pairwise_cons] at hsorted
    have hpushed := h.push (hget entry (by simp)) (hlow entry (by simp)) (by
      intro i hi hlt
      apply hgap i hi
      intro e he
      rcases List.mem_cons.mp he with rfl | hrest
      · omega
      · have := hsorted.1 e hrest
        omega) (hsnap entry (by simp))
    have hone := processConfigurationLogEntry_decodes (hdecodes entry (by simp)) r
    unfold Raft.processConfigurationLogEntries
    cases hp : r.processConfigurationLogEntry entry with
    | mk r₁ ok =>
      rw [hp] at hone
      cases hone
      dsimp only
      have hr₁ := processConfigurationLogEntry_push hp
      rw [← hr₁] at hpushed
      cases rest with
      | nil => exact hpushed
      | cons entry' rest =>
        rw [List.getLast_cons (by simp)]
        have hlogs : r₁.logs = r.logs := by rw [hr₁]
        have hsnapshots : r₁.snapshots = r.snapshots := by rw [hr₁]
        apply ih hpushed hsorted.2
        · intro e he
          exact hsorted.1 e he
        · intro e he
          rw [hlogs]
          exact hget e (List.mem_cons_of_mem _ he)
        · intro i hi hother
          rw [hlogs]
          apply hgap i
          · have := hlow entry (by simp)
            omega
          · intro e he
            rcases List.mem_cons.mp he with rfl | hrest
            · omega
            · exact hother e hrest
        · exact fun e he => hdecodes e (List.mem_cons_of_mem _ he)
        · rw [hsnapshots]
          exact fun e he => hsnap e (List.mem_cons_of_mem _ he)

/-- The scan of `NewRaft`, index by index. -/
theorem TracksBelow.scanConfigurations {d : Nat} (h : TracksBelow r n)
    (hsnap : snapshotIndex r.snapshots < n)
    (hr : r.scanConfigurations (List.range' n d) = some r') : TracksBelow r' (n + d) := by
  induction d generalizing r n with
  | zero =>
    simp only [List.range'_zero, Raft.scanConfigurations, Option.some.injEq] at hr
    rw [← hr]
    exact h
  | succ d ih =>
    rw [List.range'_succ] at hr
    unfold Raft.scanConfigurations at hr
    split at hr
    · simp at hr
    · rename_i entry hget
      split at hr
      · simp at hr
      · rename_i r₁ hp
        have hindex := LogStore.index_of_getLog hget
        have hpushed := h.push (by rw [hindex]; exact hget) (by omega)
          (by intro i hi hlt; omega) (by intro _; omega)
        have hr₁ := processConfigurationLogEntry_push hp
        rw [← hr₁, hindex] at hpushed
        have hsnapshots : r₁.snapshots = r.snapshots := by rw [hr₁]
        have hrest := ih hpushed (by rw [hsnapshots]; omega) hr
        rw [show n + (d + 1) = n + 1 + d by omega]
        exact hrest

theorem restoreSnapshot_newest {env : Env} (h : r.restoreSnapshot env = some r')
    (hsnap : r.lastSnapshotIndex = 0) (hterm : r.lastSnapshotTerm = 0)
    (hconf : r.configurations = {}) :
    r'.lastSnapshotIndex = snapshotIndex r.snapshots ∧
      r'.lastSnapshotTerm = snapshotTerm r.snapshots ∧
      (r'.configurations.latest, r'.configurations.latestIndex) = snapshotConfiguration r.snapshots ∧
      (r'.configurations.committed, r'.configurations.committedIndex) =
        snapshotConfiguration r.snapshots := by
  unfold restoreSnapshot at h
  cases hs : r.snapshots with
  | nil =>
    rw [hs] at h
    cases h
    rw [hsnap, hterm, hconf]
    exact ⟨rfl, rfl, rfl, rfl⟩
  | cons snapshot rest =>
    rw [hs] at h
    dsimp only at h
    split at h
    · simp at h
    · cases h
      exact ⟨rfl, rfl, rfl, rfl⟩

theorem restoreSnapshot_applied {env : Env} (h : r.restoreSnapshot env = some r')
    (happlied : r.lastApplied = r.lastSnapshotIndex) :
    r'.snapshots = r.snapshots ∧ r'.logs = r.logs ∧ r'.lastApplied = r'.lastSnapshotIndex := by
  unfold restoreSnapshot at h
  split at h
  · cases h
    exact ⟨rfl, rfl, happlied⟩
  · split at h
    · simp at h
    · cases h
      exact ⟨rfl, rfl, rfl⟩

/-- `NewRaft` takes the newest snapshot for the last one, and what it covers for
applied. -/
theorem newRaft_lastSnapshot {conf : Config} {stable : StableStore} {logs : LogStore}
    {snapshots : List Snapshot} {env : Env} (h : newRaft conf stable logs snapshots env = some r) :
    r.lastSnapshotIndex = snapshotIndex snapshots ∧ r.lastSnapshotTerm = snapshotTerm snapshots ∧
      r.lastApplied = r.lastSnapshotIndex := by
  obtain ⟨-, lastLogTerm, r₁, -, hr₁, hscan⟩ := newRaft_some h
  obtain ⟨hindex, hterm, -, -⟩ := restoreSnapshot_newest hr₁ rfl rfl rfl
  rw [scanConfigurations_push hscan]
  exact ⟨hindex, hterm, (restoreSnapshot_applied hr₁ rfl).2.2⟩

end Raft

end PerfRaft
