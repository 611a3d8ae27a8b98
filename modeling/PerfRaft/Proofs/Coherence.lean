import PerfRaft.Proofs.LastEntry

namespace PerfRaft

namespace Raft

variable {r r' : Raft} {env : Env} {input : Input}

/-- What the main thread does to the last entry, other than by a snapshot. -/
structure Moves (r : Raft) (index? : Option Nat) (r' : Raft) : Prop where
  coherent : Coherent r'
  snapshots : r'.snapshots = r.snapshots
  lastSnapshotIndex : r'.lastSnapshotIndex = r.lastSnapshotIndex
  lastSnapshotTerm : r'.lastSnapshotTerm = r.lastSnapshotTerm
  grows : ∀ index ∈ index?, Grows r index r'

theorem Coherent.keeps (h : Coherent r) (hs : SameStores r r') (index? : Option Nat) :
    Moves r index? r' where
  coherent := h.sameStores hs
  snapshots := hs.snapshots
  lastSnapshotIndex := hs.lastSnapshotIndex
  lastSnapshotTerm := hs.lastSnapshotTerm
  grows := fun _ _ => .inl ⟨hs.lastLogIndex, hs.lastLogTerm⟩

variable {index? : Option Nat}

theorem Moves.sameStores {r'' : Raft} (h : Moves r index? r')
    (hs : SameStores r' r'') : Moves r index? r'' where
  coherent := h.coherent.sameStores hs
  snapshots := hs.snapshots.trans h.snapshots
  lastSnapshotIndex := hs.lastSnapshotIndex.trans h.lastSnapshotIndex
  lastSnapshotTerm := hs.lastSnapshotTerm.trans h.lastSnapshotTerm
  grows := by
    unfold Grows
    rw [hs.lastLogIndex, hs.lastLogTerm]
    exact h.grows

/-- The entries of a request follow each other, those new to the server can be
decoded, and the first of them is above the snapshot that is being taken. -/
structure Appendable (r : Raft) (index? : Option Nat) (a : AppendEntriesRequest) : Prop where
  consecutive : a.Consecutive
  decodes : ∀ e ∈ r.added a.entries, e.decodes = true
  above : ∀ index ∈ index?, ∀ e ∈ (r.added a.entries).head?, index < e.index

variable {a : AppendEntriesRequest}

theorem Coherent.takes (h : Coherent r)
    (ha : Appendable r index? a) (ht : Takes r a.entries r') : Moves r index? r' := by
  cases ht with
  | held _ => exact h.keeps (SameData.refl r).sameStores _
  | @stored entry rest r₁ hadded hopens =>
    have hlow := hopens.below h.below
    have hmem : entry ∈ a.entries := (added_sublist r a.entries).mem (by rw [hadded]; simp)
    have hsorted := ha.consecutive.sorted.sublist (added_sublist r a.entries)
    have hdecodes := ha.decodes
    rw [hadded] at hsorted hdecodes
    obtain ⟨hcoherent, hlast⟩ := coherent_stores hlow hsorted (ha.consecutive.pos hmem) hdecodes
    have hstores := stores_push (r := r₁) hdecodes
    have hsnapshots : r₁.snapshots = r.snapshots ∧ r₁.lastSnapshotIndex = r.lastSnapshotIndex ∧
        r₁.lastSnapshotTerm = r.lastSnapshotTerm := by
      cases hopens with
      | after _ => exact ⟨rfl, rfl, rfl⟩
      | conflict _ _ _ =>
        rw [cut_eq]
        exact ⟨rfl, rfl, rfl⟩
    refine ⟨hcoherent, ?_, ?_, ?_, ?_⟩
    · rw [hstores]
      exact hsnapshots.1
    · rw [hstores]
      exact hsnapshots.2.1
    · rw [hstores]
      exact hsnapshots.2.2
    · intro index hindex
      right
      have := ha.above index hindex entry (by rw [hadded]; rfl)
      omega

theorem Appendable.heartbeat
    (h : a.entries = []) : Appendable r index? a where
  consecutive := .heartbeat h
  decodes := by
    rw [h]
    simp [added]
  above := by
    rw [h]
    simp [added]

theorem Appendable.sameData
    (h : Appendable r index? a) (hs : SameData r r') : Appendable r' index? a where
  consecutive := h.consecutive
  decodes := by
    rw [added_sameData hs]
    exact h.decodes
  above := by
    rw [added_sameData hs]
    exact h.above

theorem Coherent.appendEntries (h : Coherent r) (henv : env.Faultless)
    (ha : Appendable r index? a) :
    Moves r index? (r.appendEntries a env).1 := by
  rcases appendEntries_cases henv.2.1 ha.decodes with hsame | ⟨r₁, r₂, hsame, -, htakes, hcommit⟩
  · exact h.keeps hsame.sameStores _
  · have hmoves := (h.sameStores hsame.sameStores).takes (ha.sameData hsame) htakes
    have hmoves' : Moves r index? r₂ := by
      refine ⟨hmoves.coherent, hmoves.snapshots.trans hsame.snapshots,
        hmoves.lastSnapshotIndex.trans hsame.lastSnapshotIndex,
        hmoves.lastSnapshotTerm.trans hsame.lastSnapshotTerm, ?_⟩
      intro index hindex
      have hgrows := hmoves.grows index hindex
      unfold Grows at hgrows ⊢
      rw [hsame.lastLogIndex, hsame.lastLogTerm] at hgrows
      exact hgrows
    exact hmoves'.sameStores ((advances_followCommit r₂ _).stores.trans hcommit.sameStores)

theorem Coherent.dispatched (h : Coherent r) {entries : List Log} (hne : entries ≠ [])
    (hd : Dispatches r entries r')
    (hindex : ∀ index ∈ index?, index ≤ r.getLastIndex) : Moves r index? r' := by
  obtain ⟨hcoherent, hgrows⟩ := h.dispatches hne hd
  exact ⟨hcoherent, hd.snapshots, hd.lastSnapshotIndex, hd.lastSnapshotTerm,
    fun index hmem => hgrows index (hindex index hmem)⟩

/-- A step of the main thread that has nothing to do with snapshots. -/
theorem Coherent.stepUp {o : Outcome} (h : Coherent r) (hup : r.down = false)
    (henv : env.Faultless) (hindex : ∀ index ∈ index?, index ≤ r.getLastIndex)
    (hinstall : ∀ req, input ≠ .rpc (.installSnapshot req))
    (happend : ∀ a, input.append? = some a → Appendable r index? a)
    (ho : r.stepUp env input = some o) : Moves r index? o.raft := by
  cases dataStep_stepUp ho hup with
  | keep hsame => exact h.keeps hsame.sameStores _
  | append ha hsame => exact (h.appendEntries henv (happend _ ha)).sameStores hsame.sameStores
  | install _ => exact absurd rfl (hinstall _)
  | @dispatch _ futures _ hne _ hsame =>
    have hd := dispatches_dispatchLogs (r := r) henv.2.1 futures
    exact (h.dispatched (stampedLogs_ne_nil hne) hd hindex).sameStores hsame.sameStores
  | @configure req future _ hsame =>
    rcases appendConfigurationEntry_cases (r := r) henv.2.1 req future with
      hkept | ⟨c, entry, r₁, -, -, hd, hset⟩
    · exact h.keeps (hkept.trans hsame).sameStores _
    · have hstores := (hset.trans hsame).sameStores
      exact (h.dispatched (by simp) hd hindex).sameStores
        ⟨hstores.logs, hstores.snapshots, hstores.lastLogIndex, hstores.lastLogTerm,
          hstores.lastSnapshotIndex, hstores.lastSnapshotTerm⟩
  | @commit ls stepDown hsame =>
    exact h.keeps ((advances_leaderCommit r ls stepDown).stores.trans hsame.sameStores) _

end Raft

variable {σ ρ : Type}

/-- The last snapshot is the newest on disk, or takeSnapshot has just written that
one. -/
def TakeSnapshot.Matches (r : Raft) : TakeSnapshot σ → Prop
  | .closed index term => r.Newest index term ∧ r.Fits index term
  | .compacting index => r.Newest r.lastSnapshotIndex r.lastSnapshotTerm ∧
      index = r.lastSnapshotIndex ∧ r.Fits r.lastSnapshotIndex r.lastSnapshotTerm
  | _ => r.Newest r.lastSnapshotIndex r.lastSnapshotTerm

theorem TakeSnapshot.Matches.moves {t : TakeSnapshot σ} {r r' : Raft} (h : t.Matches r)
    (hm : r.Moves t.written? r') : t.Matches r' := by
  have hnew {index term : Nat} (hn : r.Newest index term) : r'.Newest index term := by
    unfold Raft.Newest
    rw [hm.snapshots]
    exact hn
  cases t with
  | closed index term =>
    exact ⟨hnew h.1, h.2.grows (hm.grows index rfl) hm.lastSnapshotIndex hm.lastSnapshotTerm⟩
  | compacting index =>
    obtain ⟨hn, rfl, hfits⟩ := h
    refine ⟨?_, hm.lastSnapshotIndex.symm, ?_⟩
    · rw [hm.lastSnapshotIndex, hm.lastSnapshotTerm]
      exact hnew hn
    · rw [hm.lastSnapshotIndex, hm.lastSnapshotTerm]
      exact hfits.grows (hm.grows _ rfl) hm.lastSnapshotIndex hm.lastSnapshotTerm
  | _ =>
    unfold TakeSnapshot.Matches at h ⊢
    rw [hm.lastSnapshotIndex, hm.lastSnapshotTerm]
    exact hnew h

theorem TakeSnapshot.Matches.le_getLastIndex {t : TakeSnapshot σ} {r : Raft} (h : t.Matches r) :
    ∀ index ∈ t.written?, index ≤ r.getLastIndex := by
  intro index hindex
  cases t with
  | closed i term =>
    cases hindex
    exact h.2.le_getLastIndex
  | compacting i =>
    cases hindex
    rw [h.2.1]
    exact h.2.2.le_getLastIndex
  | _ => simp [TakeSnapshot.written?] at hindex

namespace Process

variable {fsm : FSM σ ρ} {initial : σ} {s s' : Process σ ρ} {work : Work} {env : Env}

/-- A snapshot that the main thread may write: none is being taken, the FSM can be
restored, it is the newest, not behind the last snapshot, it has the term of the last
log if it is at its index, and a monotonic store loses nothing above it. -/
structure Installable (fsm : FSM σ ρ) (s : Process σ ρ) (snapshot : Snapshot) : Prop where
  idle : s.taking.index? = none
  restores : ∀ thread ∈ s.drained fsm, (thread.restore fsm snapshot).2 = true
  newest : NotOlder s.raft.snapshots snapshot.metadata.index snapshot.metadata.term
  above : s.raft.lastSnapshotIndex ≤ snapshot.metadata.index
  same : s.raft.lastLogIndex = snapshot.metadata.index → s.raft.lastLogTerm = snapshot.metadata.term
  whole : s.raft.conf.monotonicLogs = true → s.raft.lastLogIndex ≤ snapshot.metadata.index

/-- What a step must keep to if the last entry is to stay the one on disk. The
process may die at any time. -/
def KeepsLast (fsm : FSM σ ρ) (s : Process σ ρ) : ProcessAction → Prop
  | .main work env => env.Faultless ∧
      (∀ snapshot ∈ work.snapshot? s.raft, Installable fsm s snapshot) ∧
      ∀ a ∈ work.append?, s.raft.Appendable s.taking.written? a
  | .persist _ => ∀ p ∈ s.taking.pending?,
      NotOlder s.raft.snapshots p.1 p.2 ∧ s.raft.Fits p.1 p.2
  | _ => True

/-- The last entry and the last snapshot are known as they are on disk. -/
structure LastKnown (s : Process σ ρ) : Prop where
  coherent : s.raft.Coherent
  taking : s.taking.Matches s.raft

theorem LastKnown.disk (h : LastKnown s) :
    s.raft.getLastEntry = diskEntry s.raft.snapshots s.raft.logs := by
  have htaking := h.taking
  cases ht : s.taking with
  | closed index term =>
    rw [ht] at htaking
    exact h.coherent.disk_fits htaking.1 htaking.2
  | compacting index =>
    rw [ht] at htaking
    exact h.coherent.disk htaking.1
  | _ =>
    rw [ht] at htaking
    exact h.coherent.disk htaking

theorem LastKnown.moves (h : LastKnown s) {r : Raft} (hm : s.raft.Moves s.taking.written? r)
    (hraft : s'.raft = r) (htaking : s'.taking = s.taking) : LastKnown s' where
  coherent := by
    rw [hraft]
    exact hm.coherent
  taking := by
    rw [hraft, htaking]
    exact h.taking.moves hm

theorem newest_addSnapshot {r : Raft} {snapshots : List Snapshot} (snapshot : Snapshot)
    (hnew : NotOlder snapshots snapshot.metadata.index snapshot.metadata.term)
    (hr : r.snapshots = addSnapshot snapshot snapshots) :
    r.Newest snapshot.metadata.index snapshot.metadata.term := by
  unfold Raft.Newest snapshotIndex snapshotTerm
  rw [hr, head?_addSnapshot hnew]
  exact ⟨rfl, rfl⟩

theorem Installable.taking_idle {snapshot : Snapshot} (h : Installable fsm s snapshot) :
    s.taking = .idle := by
  have hnone := h.idle
  cases ht : s.taking with
  | idle => rfl
  | _ => simp [ht, TakeSnapshot.index?] at hnone

theorem LastKnown.installs (h : LastKnown s) {req : InstallSnapshotRequest} {c : Configuration}
    {index : Nat} (hinstallable : Installable fsm s (Raft.receivedSnapshot req c index))
    (hi : Raft.Installs s.raft req c index env s'.raft) (htaking : s'.taking = s.taking) :
    LastKnown s' := by
  refine ⟨h.coherent.installs hinstallable.above hinstallable.same hinstallable.whole hi, ?_⟩
  rw [htaking, hinstallable.taking_idle]
  show s'.raft.Newest s'.raft.lastSnapshotIndex s'.raft.lastSnapshotTerm
  rw [hi.lastSnapshotIndex, hi.lastSnapshotTerm]
  exact newest_addSnapshot _ hinstallable.newest hi.snapshots

theorem LastKnown.restoresUser (h : LastKnown s) {user : UserSnapshot}
    (hinstallable : Installable fsm s (s.raft.userSnapshot user))
    (hr : Raft.RestoresUser s.raft user env s'.raft) (htaking : s'.taking = s.taking) :
    LastKnown s' := by
  refine ⟨h.coherent.restoresUser hr, ?_⟩
  rw [htaking, hinstallable.taking_idle]
  show s'.raft.Newest s'.raft.lastSnapshotIndex s'.raft.lastSnapshotTerm
  rw [hr.lastSnapshotIndex, hr.lastSnapshotTerm]
  exact newest_addSnapshot _ hinstallable.newest hr.snapshots

/-- What the main thread does without a snapshot. -/
theorem LastKnown.perform (h : LastKnown s) (hup : s.raft.down = false) (henv : env.Faultless)
    (happend : ∀ a ∈ work.append?, s.raft.Appendable s.taking.written? a)
    (hwork : work.snapshot? s.raft = none) {o : Outcome} (ho : s.perform env work = some o) :
    s.raft.Moves s.taking.written? o.raft := by
  obtain ⟨input, rfl, hstep, hother | ⟨hsame, -, -⟩⟩ := perform_input hup hwork ho
  · refine h.coherent.stepUp hup henv h.taking.le_getLastIndex hother ?_ hstep
    intro a ha
    rcases append?_of_perform ho ha with ha | hnil
    · exact happend a ha
    · exact .heartbeat hnil
  · exact h.coherent.keeps hsame.sameStores _

theorem LastKnown.main (h : LastKnown s) (hup : s.raft.down = false)
    (hok : KeepsLast fsm s (.main work env)) (hs : MainStep fsm s work env s')
    (hup' : s'.raft.down = false) : LastKnown s' := by
  obtain ⟨henv, hinstallable, happend⟩ := hok
  cases hs with
  | proceed hwork ho => exact h.moves (h.perform hup henv happend hwork ho) rfl rfl
  | @refused o snapshot ok hwork ho hsame =>
    have hkept := sameData_of_not_grown hup hwork ho hsame
    exact h.moves (h.coherent.keeps hkept.sameStores _) rfl rfl
  | @install o snapshot ok thread thread' acknowledged hwork hdrained hrestore ho hgrown _ =>
    have hinst := hinstallable snapshot hwork
    have hrestores := hinst.restores thread hdrained
    rw [hrestore] at hrestores
    rcases perform_snapshot hup hwork ho with hkept | ⟨-, hdone⟩ | ⟨hfailed, -⟩
    · exact absurd hgrown (not_grown_of_sameData hkept)
    · rcases hdone with ⟨req, c, index, -, rfl, hi⟩ | ⟨user, -, rfl, hr⟩
      · exact h.installs hinst hi rfl
      · exact h.restoresUser hinst hr rfl
    · simp only at hrestores hfailed
      rw [hrestores] at hfailed
      cases hfailed
  | panicked => simp at hup'

theorem LastKnown.beside (h : LastKnown s) {a : ProcessAction} (hok : KeepsLast fsm s a)
    (hs : BesideStep fsm s a s') (hup' : s'.raft.down = false) : LastKnown s' := by
  have htaking := h.taking
  cases hs with
  | applied _ _ => exact ⟨h.coherent, h.taking⟩
  | panicked => simp at hup'
  | snapped hidle _ =>
    rw [hidle] at htaking
    exact ⟨h.coherent, htaking⟩
  | @configurations index term state hsnapped _ =>
    rw [hsnapped] at htaking
    refine ⟨h.coherent.congr rfl rfl rfl rfl rfl, ?_⟩
    unfold Process.configurations
    dsimp only
    split
    · exact htaking
    · exact htaking
  | @persist env index term state committed committedIndex hconfigured =>
    rw [hconfigured] at htaking
    have hpending := hok (index, term) (by rw [hconfigured]; rfl)
    unfold Process.persist
    split
    · exact ⟨h.coherent, htaking⟩
    · refine ⟨h.coherent.congr rfl rfl rfl rfl rfl, ?_, hpending.2⟩
      exact newest_addSnapshot (takenSnapshot fsm index term state committed committedIndex)
        hpending.1 rfl
  | @setLastSnapshot index term hclosed =>
    rw [hclosed] at htaking
    obtain ⟨hnew, hfits⟩ := htaking
    exact ⟨h.coherent.setLastSnapshot hfits.1 hfits.term_eq, hnew, rfl, hfits.setLastSnapshot⟩
  | @compact env index hcompacting =>
    rw [hcompacting] at htaking
    obtain ⟨hnew, rfl, hfits⟩ := htaking
    refine ⟨h.coherent.compactLogs hfits.term_eq, ?_⟩
    show (s.raft.compactLogs s.raft.lastSnapshotIndex env).Newest _ _
    unfold Raft.compactLogs
    rcases Raft.compactLogsWithTrailing_eq s.raft s.raft.lastSnapshotIndex s.raft.lastLogIndex
      s.raft.conf.trailingLogs env with hsame | ⟨maxLog, -, -, -, hsame⟩
    · rw [hsame]
      exact hnew
    · rw [hsame]
      exact hnew

theorem LastKnown.step {a : ProcessAction} (h : s.raft.down = false → LastKnown s)
    (hok : KeepsLast fsm s a) (hs : s.step fsm initial a = some s') :
    s'.raft.down = false → LastKnown s' := by
  refine step_cases (P := fun s' => s'.raft.down = false → LastKnown s') hs ?_ ?_ ?_ ?_
  · intro env r _ _ hr _
    refine ⟨Raft.coherent_newRaft hr, ?_⟩
    have hsnapshots := (Raft.started_newRaft hr).snapshots
    obtain ⟨hindex, hterm, -⟩ := Raft.newRaft_lastSnapshot hr
    show snapshotIndex r.snapshots = _ ∧ snapshotTerm r.snapshots = _
    rw [hsnapshots]
    exact ⟨hindex.symm, hterm.symm⟩
  · rintro work env s' rfl hup hmain hup'
    exact (h hup).main hup hok hmain hup'
  · intro work env o _ _ _ hup'
    simp at hup'
  · intro s' hup hbeside hup'
    exact (h hup).beside hok hbeside hup'

theorem lastKnown_reachable (h : (system fsm initial).Reachable (KeepsLast fsm) s)
    (hup : s.raft.down = false) : LastKnown s := by
  refine Lib.System.Reachable.invariant (P := fun s => s.raft.down = false → LastKnown s) ?_ ?_ h hup
  · rintro s ⟨conf, currentTerm, logs, snapshots, rfl⟩ hup
    simp at hup
  · intro s a s' hs hok hstep
    exact LastKnown.step hs hok hstep

/-- In every run whose steps all keep to the conditions, the last entry of a running
server is the last one on disk, and a restart would find the same. -/
theorem last_entry_on_disk {s : Process σ ρ}
    (h : (system fsm initial).Reachable (KeepsLast fsm) s) (hup : s.raft.down = false) :
    s.raft.getLastEntry = diskEntry s.raft.snapshots s.raft.logs ∧
      ∀ env r, Raft.newRaft s.raft.conf s.raft.stable s.raft.logs s.raft.snapshots env = some r →
        r.getLastEntry = s.raft.getLastEntry := by
  have hknown := lastKnown_reachable h hup
  refine ⟨hknown.disk, ?_⟩
  intro env r hr
  have hstarted := Raft.started_newRaft hr
  obtain ⟨hindex, hterm, -⟩ := Raft.newRaft_lastSnapshot hr
  have hnew : r.Newest r.lastSnapshotIndex r.lastSnapshotTerm := by
    unfold Raft.Newest
    rw [hstarted.snapshots]
    exact ⟨hindex.symm, hterm.symm⟩
  rw [hknown.disk, (Raft.coherent_newRaft hr).disk hnew, hstarted.snapshots, hstarted.logs]

instance (index? : Option Nat) (a : AppendEntriesRequest) (r : Raft) :
    Decidable (r.Appendable index? a) :=
  decidable_of_iff
    (a.Consecutive ∧ (∀ e ∈ r.added a.entries, e.decodes = true) ∧
      ∀ index ∈ index?, ∀ e ∈ (r.added a.entries).head?, index < e.index)
    ⟨fun ⟨h₁, h₂, h₃⟩ => ⟨h₁, h₂, h₃⟩, fun h => ⟨h.consecutive, h.decodes, h.above⟩⟩

instance (fsm : FSM σ ρ) (s : Process σ ρ) (snapshot : Snapshot) :
    Decidable (Installable fsm s snapshot) :=
  decidable_of_iff
    (s.taking.index? = none ∧ (∀ thread ∈ s.drained fsm, (thread.restore fsm snapshot).2 = true) ∧
      NotOlder s.raft.snapshots snapshot.metadata.index snapshot.metadata.term ∧
      s.raft.lastSnapshotIndex ≤ snapshot.metadata.index ∧
      (s.raft.lastLogIndex = snapshot.metadata.index →
        s.raft.lastLogTerm = snapshot.metadata.term) ∧
      (s.raft.conf.monotonicLogs = true → s.raft.lastLogIndex ≤ snapshot.metadata.index))
    ⟨fun ⟨h₁, h₂, h₃, h₄, h₅, h₆⟩ => ⟨h₁, h₂, h₃, h₄, h₅, h₆⟩,
      fun h => ⟨h.idle, h.restores, h.newest, h.above, h.same, h.whole⟩⟩

instance (fsm : FSM σ ρ) (s : Process σ ρ) : DecidablePred (KeepsLast fsm s)
  | .main _ _ => inferInstanceAs (Decidable (_ ∧ _ ∧ _))
  | .persist _ => inferInstanceAs (Decidable (∀ p ∈ s.taking.pending?, _))
  | .dies _ _ | .apply | .snapshot | .configurations | .setLastSnapshot | .compact _ => isTrue trivial

/-- A snapshot is taken at the last index, after which the log is empty, then a
snapshot from the leader arrives, and then entries. -/
theorem last_entry_on_disk_compacted :
    ∃ s, (system counter 0).Reachable (KeepsLast counter) s ∧ s.raft.down = false ∧
      s.raft.snapshots.length = 2 ∧ s.raft.logs.length = 1 ∧ s.raft.getLastEntry = (8, 2) ∧
      s.raft.getLastEntry = diskEntry s.raft.snapshots s.raft.logs := by
  obtain ⟨s, hreach, hup, hsnapshots, hlogs, hlast⟩ : ∃ s,
      (system counter 0).Reachable (KeepsLast counter) s ∧ s.raft.down = false ∧
      s.raft.snapshots.length = 2 ∧ s.raft.logs.length = 1 ∧ s.raft.getLastEntry = (8, 2) :=
    Lib.System.exists_reachable (init_countingStart false)
      ((booted ++ commandsFrom 1 1 2 3 ++ [ProcessAction.apply] ++ takeSnapshot ++ snapshotAt 7 ++
        commandsFrom 7 2 1 8).map (fun a _ => a)) (by decide +kernel)
  exact ⟨s, hreach, hup, hsnapshots, hlogs, hlast, (last_entry_on_disk hreach hup).1⟩

/-- A snapshot that was sent before the entries up to 5, and arrives after them. The
monotonic store drops all the entries, but the last log stays at 5. -/
theorem last_entry_dropped :
    ∃ s r, (system counter 0).Reachable (fun _ a => Calm a) s ∧ s.raft.down = false ∧
      s.raft.getLastEntry = (5, 2) ∧ diskEntry s.raft.snapshots s.raft.logs = (3, 2) ∧
      Raft.newRaft s.raft.conf s.raft.stable s.raft.logs s.raft.snapshots {} = some r ∧
      r.getLastEntry = (3, 2) := by
  simp only [exists_and_left]
  exact Lib.System.exists_reachable (init_countingStart true)
    ((booted ++ commandsFrom 1 1 4 5 ++ snapshotAt 3).map (fun a _ => a)) (by decide +kernel)

end Process

end PerfRaft
