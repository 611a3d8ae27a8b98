import PerfRaft.Proofs.Applied
import PerfRaft.Proofs.Contiguous

namespace PerfRaft

namespace Raft

variable {r r' : Raft} {env : Env} {a : AppendEntriesRequest} {input : Input} {o : Outcome}

/-- What is stored by a call, above the newest snapshot and with something in it. -/
structure Sends (r : Raft) (call : LogStore × List Log) : Prop where
  contiguous : call.1.Contiguous call.2
  sound : SoundDisk r.snapshots call.1
  entries : ∃ entry rest, call.2 = entry :: rest ∧ 0 < entry.index ∧
    snapshotIndex r.snapshots < entry.index

/-- Entries numbered after the last index go on where the log ends. -/
theorem Aligned.sends (h : Aligned r) {entries : List Log} (hne : entries ≠ [])
    (hindex : ∀ i e, entries[i]? = some e → e.index = r.getLastIndex + i + 1) :
    Sends r (r.logs, entries) := by
  have hrange : entries.map Log.index = List.range' (r.getLastIndex + 1) entries.length := by
    apply List.ext_getElem (by simp)
    intro i hi hi'
    rw [List.length_map] at hi
    rw [List.getElem_map, hindex i _ (List.getElem?_eq_getElem hi), List.getElem_range']
    omega
  obtain ⟨entry, rest, rfl⟩ := List.exists_cons_of_ne_nil hne
  have hentry := hindex 0 entry rfl
  have hnewest := h.newest
  refine ⟨⟨⟨_, hrange⟩, ?_⟩, h.sound, entry, rest, rfl, by omega, by omega⟩
  by_cases hnil : r.logs = []
  · exact .inl hnil
  · right
    obtain ⟨hlast, hmax⟩ := h.lastIndex_le hnil
    rintro e ⟨⟩
    dsimp only
    omega

theorem Aligned.sendsStamped (h : Aligned r) {futures : List LogFuture} (hne : futures ≠ [])
    (env : Env) : Sends r (r.logs, r.stampedLogs futures env) :=
  h.sends (stampedLogs_ne_nil hne) (fun _ _ he => (stampedLogs_getElem? he).1)

theorem Aligned.appendCall (h : Aligned r) (hf : Fresh r a) {call : LogStore × List Log}
    (hcall : r.appendCall a env = some call) : Sends r call := by
  obtain ⟨r₁, r₂, entry, rest, hsame, hprev, hadded, hopens, rfl⟩ := appendCall_eq_some hcall
  obtain ⟨-, hsound, hcontiguous, hpos, habove⟩ :=
    (h.sameStores hsame.sameStores).opens (hf.sameData hsame) hprev hadded hopens
  rw [hsame.snapshots] at hsound habove
  exact ⟨hcontiguous, hsound, entry, rest, rfl, hpos, habove⟩

theorem Aligned.storeCall (h : Aligned r) (hfresh : ∀ a, input.append? = some a → Fresh r a)
    {call : LogStore × List Log} (hcall : r.storeCall env input = some call) : Sends r call := by
  unfold Raft.storeCall at hcall
  split at hcall
  · split at hcall
    · exact h.appendCall (hfresh _ rfl) hcall
    · simp at hcall
  · split at hcall
    · simp at hcall
    · exact h.appendCall (hfresh _ rfl) hcall
  · split at hcall
    · cases hcall
      exact h.sendsStamped (by simp) env
    · simp at hcall
  · split at hcall
    · rename_i hmain
      cases hcall
      exact h.sendsStamped (ne_nil_of_acceptsFutures hmain.2) env
    · simp at hcall
  · split at hcall
    · split at hcall
      · cases hcall
        exact h.sendsStamped (by simp) env
      · simp at hcall
    · simp at hcall
  · simp at hcall

/-- The stores after any step other than an installation, whatever fails on the way. -/
theorem Aligned.soundDisk_stepUp (h : Aligned r) (hup : r.down = false)
    (hfresh : ∀ a, input.append? = some a → Fresh r a)
    (hinstall : ∀ req, input ≠ .rpc (.installSnapshot req)) (ho : r.stepUp env input = some o) :
    SoundDisk o.raft.snapshots o.raft.logs := by
  rw [(sameSnapshots_stepUp ho hup hinstall).snapshots, logs_stepUp ho hup hinstall]
  cases hcall : r.storeCall env input with
  | none => exact h.sound
  | some call =>
    obtain ⟨hcontiguous, hsound, entry, rest, hentries, hpos, habove⟩ := h.storeCall hfresh hcall
    unfold afterCall
    dsimp only
    split
    · rw [hentries] at hcontiguous ⊢
      exact hsound.storeLogs hcontiguous hpos (Nat.le_of_lt habove)
    · exact hsound

/-- The last index does not fall below a snapshot. -/
def Covers (r r' : Raft) : Prop :=
  r.getLastIndex ≤ r'.getLastIndex ∨
    ∀ snapshot ∈ r.snapshots, snapshot.metadata.index ≤ r'.getLastIndex

theorem SameStores.covers (h : SameStores r r') : Covers r r' := by
  left
  unfold getLastIndex
  rw [h.lastLogIndex, h.lastSnapshotIndex]

theorem Aligned.takes (h : Aligned r) (hf : Fresh r a)
    (hdecodes : ∀ e ∈ r.added a.entries, e.decodes = true) (hprev : r.verifyPrevious a = true)
    (ht : Takes r a.entries r') : Aligned r' ∧ Covers r r' := by
  cases ht with
  | held _ => exact ⟨h, .inl (Nat.le_refl _)⟩
  | @stored entry rest r₁ hadded hopens =>
    obtain ⟨hsnapshots, hsound, hcontiguous, hpos, habove⟩ := h.opens hf hprev hadded hopens
    obtain ⟨hlast, hall⟩ := hf.above entry (by rw [hadded]; rfl)
    rw [hadded] at hdecodes
    have hstores := stores_push (r := r₁) hdecodes
    obtain ⟨hunbroken, hindex, hle⟩ := hsound.unbroken.storeLogs hcontiguous hpos
    have hsnap : r₁.lastSnapshotIndex = r.lastSnapshotIndex := by
      cases hopens with
      | after _ => rfl
      | conflict _ _ _ => rw [cut_eq]
    have hmax : ((entry :: rest).getLast (by simp)).index ≤ (r₁.stores entry rest).getLastIndex := by
      rw [hstores]
      exact Nat.le_max_left _ _
    refine ⟨⟨?_, ?_, ?_⟩, ?_⟩
    · rw [hstores]
      dsimp only
      rw [hsnapshots]
      exact hsound.storeLogs hcontiguous hpos (Nat.le_of_lt habove)
    · right
      rw [hstores]
      dsimp only
      rw [hsnap]
      exact ⟨hindex, by omega⟩
    · have hkept : (r₁.stores entry rest).snapshots = r.snapshots := by rw [hstores, ← hsnapshots]
      rw [hkept]
      omega
    · right
      intro snapshot hmem
      have := hall snapshot hmem
      omega

theorem Aligned.dispatches (h : Aligned r) {entries : List Log} (hne : entries ≠ [])
    (hd : Dispatches r entries r') : Aligned r' ∧ Covers r r' := by
  obtain ⟨hcontiguous, hsound, entry, rest, rfl, hpos, habove⟩ := h.sends hne hd.index
  dsimp only at hcontiguous hsound
  obtain ⟨hunbroken, hlast, hle⟩ := hsound.unbroken.storeLogs hcontiguous hpos
  have hend : ((entry :: rest).getLast (by simp)).index = r'.lastLogIndex := by
    have hget : (entry :: rest)[rest.length]? = some ((entry :: rest).getLast (by simp)) := by
      rw [List.getLast_eq_getElem, List.getElem?_eq_getElem (by simp)]
      simp
    rw [hd.lastLogIndex, hd.index _ _ hget, List.length_cons]
    omega
  have hentry := hd.index 0 entry rfl
  have hsnap : r.lastSnapshotIndex ≤ r.getLastIndex := Nat.le_max_right _ _
  have hmax : r'.lastLogIndex ≤ r'.getLastIndex := Nat.le_max_left _ _
  refine ⟨⟨?_, ?_, ?_⟩, ?_⟩
  · rw [hd.snapshots, hd.logs]
    exact hsound.storeLogs hcontiguous hpos (Nat.le_of_lt habove)
  · right
    rw [hd.logs, hlast, hd.lastSnapshotIndex]
    exact ⟨hend, by omega⟩
  · rw [hd.snapshots]
    omega
  · left
    omega

theorem Aligned.appendEntries (h : Aligned r) (henv : env.storeLogs = true) (hf : Fresh r a)
    (hdecodes : ∀ e ∈ r.added a.entries, e.decodes = true) :
    Aligned (r.appendEntries a env).1 ∧ Covers r (r.appendEntries a env).1 := by
  rcases appendEntries_cases henv hdecodes with hsame | ⟨r₁, r₂, hsame, hprev, htakes, hafter⟩
  · exact ⟨h.sameStores hsame.sameStores, hsame.sameStores.covers⟩
  · rw [← added_sameData hsame] at hdecodes
    have h₁ := h.sameStores hsame.sameStores
    obtain ⟨h₂, hcovers⟩ := h₁.takes (hf.sameData hsame) hdecodes hprev htakes
    have hstores := (advances_followCommit r₂ a.leaderCommitIndex).stores.trans hafter.sameStores
    refine ⟨h₂.sameStores hstores, ?_⟩
    unfold Covers getLastIndex at hcovers ⊢
    rw [hstores.lastLogIndex, hstores.lastSnapshotIndex, ← hsame.lastLogIndex,
      ← hsame.lastSnapshotIndex, ← hsame.snapshots]
    exact hcovers

theorem Aligned.stepUp (h : Aligned r) (hup : r.down = false) (henv : env.storeLogs = true)
    (hfresh : ∀ a, input.append? = some a → Fresh r a ∧ ∀ e ∈ r.added a.entries, e.decodes = true)
    (hinstall : ∀ req, input ≠ .rpc (.installSnapshot req)) (ho : r.stepUp env input = some o) :
    Aligned o.raft ∧ Covers r o.raft := by
  have hafter {r' : Raft} (h' : Aligned r' ∧ Covers r r') (hs : SameData r' o.raft) :
      Aligned o.raft ∧ Covers r o.raft := by
    refine ⟨h'.1.sameStores hs.sameStores, ?_⟩
    unfold Covers getLastIndex
    rw [hs.lastLogIndex, hs.lastSnapshotIndex]
    exact h'.2
  cases dataStep_stepUp ho hup with
  | keep hs => exact ⟨h.sameStores hs.sameStores, hs.sameStores.covers⟩
  | append ha hs =>
    obtain ⟨hf, hdecodes⟩ := hfresh _ ha
    exact hafter (h.appendEntries henv hf hdecodes) hs
  | install => exact absurd rfl (hinstall _)
  | dispatch _ hne _ hs =>
    exact hafter (h.dispatches (stampedLogs_ne_nil hne) (dispatches_dispatchLogs henv _)) hs
  | @configure req future hstable hs =>
    rcases appendConfigurationEntry_cases henv req future with
      hsame | ⟨configuration, entry, r₁, -, -, hd, hset⟩
    · exact hafter ⟨h.sameStores hsame.sameStores, hsame.sameStores.covers⟩ hs
    · obtain ⟨h₁, hcovers⟩ := h.dispatches (by simp) hd
      refine hafter ⟨h₁.sameStores ?_, ?_⟩ hs
      · exact ⟨hset.logs, hset.snapshots, hset.lastLogIndex, hset.lastLogTerm, hset.lastSnapshotIndex,
          hset.lastSnapshotTerm⟩
      · unfold Covers getLastIndex
        rw [hset.lastLogIndex, hset.lastSnapshotIndex]
        exact hcovers
  | @commit ls stepDown hs =>
    have hstores := (advances_leaderCommit r ls stepDown).stores
    exact hafter ⟨h.sameStores hstores, hstores.covers⟩ hs

/-- The server has written a snapshot and does not have it as its last one. -/
theorem Aligned.writes (h : Aligned r) (snapshot : Snapshot)
    (hle : snapshot.metadata.index ≤ r.getLastIndex)
    (hs : SameData { r with snapshots := addSnapshot snapshot r.snapshots } r') : Aligned r' := by
  have hwritten : Aligned { r with snapshots := addSnapshot snapshot r.snapshots } := by
    refine ⟨h.sound.addSnapshot ?_, h.last, ?_⟩
    · by_cases hnil : r.logs = []
      · exact .inl hnil
      · obtain ⟨hlast, hmax⟩ := h.lastIndex_le hnil
        right
        omega
    · have hnewest := h.newest
      show snapshotIndex (addSnapshot snapshot r.snapshots) ≤ r.getLastIndex
      rcases snapshotIndex_addSnapshot snapshot r.snapshots with heq | heq
      · rw [heq]
        exact hle
      · rw [heq]
        exact hnewest
  exact hwritten.sameStores hs.sameStores

/-- The server has a snapshot as its last one, which was not behind the last one, and
has an empty log. -/
theorem Aligned.clears (h : Aligned r) (snapshot : Snapshot)
    (hle : r.getLastIndex ≤ r'.getLastIndex) (hindex : snapshot.metadata.index ≤ r'.getLastIndex)
    (hlogs : r'.logs = []) (hsnapshots : r'.snapshots = addSnapshot snapshot r.snapshots) :
    Aligned r' := by
  have hnewest := h.newest
  refine ⟨?_, .inl hlogs, ?_⟩
  · rw [hlogs]
    exact soundDisk_nil _
  · rw [hsnapshots]
    rcases snapshotIndex_addSnapshot snapshot r.snapshots with heq | heq
    · omega
    · omega

theorem Aligned.installs (h : Aligned r) {req : InstallSnapshotRequest} {c : Configuration}
    {index : Nat} (hmonotonic : r.conf.monotonicLogs = true)
    (habove : r.lastSnapshotIndex ≤ req.lastLogIndex)
    (hclears : req.lastLogIndex ≤ r.getLastIndex ∨ r.logs = [] ∨ env.deleteRange = true)
    (hi : Installs r req c index env r') : Aligned r' ∧ r.getLastIndex ≤ r'.getLastIndex := by
  have hlogs := hi.logs
  unfold logsAfter at hlogs
  rw [if_pos hmonotonic] at hlogs
  have hmax : r.getLastIndex ≤ r'.getLastIndex ∧ req.lastLogIndex ≤ r'.getLastIndex := by
    unfold getLastIndex
    rw [hi.lastLogIndex, hi.lastSnapshotIndex]
    omega
  have hcleared (hnil : r'.logs = []) : Aligned r' ∧ r.getLastIndex ≤ r'.getLastIndex :=
    ⟨h.clears _ hmax.1 hmax.2 hnil hi.snapshots, hmax.1⟩
  rcases removeOldLogs_cases env h.sound.unbroken.pos with hnil | ⟨hfails, hkept⟩
  · exact hcleared (hlogs.trans hnil)
  · rw [hkept] at hlogs
    rcases hclears with hle | hnil | hdelete
    · by_cases hnil : r.logs = []
      · exact hcleared (hlogs.trans hnil)
      · obtain ⟨hlast, hindex⟩ := h.lastIndex_le hnil
        have hwritten := h.writes (receivedSnapshot req c index) hle (.refl _)
        refine ⟨⟨?_, .inr ⟨?_, ?_⟩, ?_⟩, hmax.1⟩
        · rw [hlogs, hi.snapshots]
          exact hwritten.sound
        · rw [hlogs, hi.lastLogIndex]
          exact hlast
        · rw [hi.lastSnapshotIndex, hi.lastLogIndex]
          omega
        · rw [hi.snapshots]
          exact hwritten.newest.trans hmax.1
    · exact hcleared (hlogs.trans hnil)
    · rw [hfails] at hdelete
      cases hdelete

theorem Aligned.restoresUser (h : Aligned r) {user : UserSnapshot}
    (hmonotonic : r.conf.monotonicLogs = true) (hclears : r.logs = [] ∨ env.deleteRange = true)
    (hr : RestoresUser r user env r') : Aligned r' ∧ r.getLastIndex ≤ r'.getLastIndex := by
  have hlogs := hr.logs
  rw [if_pos hmonotonic] at hlogs
  have hindex : (r.userSnapshot user).metadata.index = max r.getLastIndex user.index + 1 := rfl
  have hmax : r'.getLastIndex = max r.getLastIndex user.index + 1 := by
    unfold getLastIndex
    rw [hr.lastLogIndex, hr.lastSnapshotIndex, Nat.max_self]
    rfl
  refine ⟨h.clears (r.userSnapshot user) (by omega) (by omega) ?_ hr.snapshots, by omega⟩
  rcases removeOldLogs_cases env h.sound.unbroken.pos with hnil | ⟨hfails, hkept⟩
  · exact hlogs.trans hnil
  · rcases hclears with hnil | hdelete
    · rw [hlogs, hkept, hnil]
    · rw [hfails] at hdelete
      cases hdelete

theorem snapshots_of_unclosed (h : env.closeSink = false) (req : InstallSnapshotRequest) :
    (r.installSnapshot req env).1.snapshots = r.snapshots := by
  have hreceive (r : Raft) : (r.receiveSnapshot req env).1.snapshots = r.snapshots := by
    unfold receiveSnapshot
    split
    · split <;> rfl
    · simp [h]
  have hfollow := (sameData_followSnapshot r req env).snapshots
  rcases installSnapshot_raft r req env with hraft | hraft | hraft
  · rw [hraft]
  · rw [hraft]
    exact hfollow
  · rw [hraft, hreceive]
    exact hfollow

end Raft

end PerfRaft
