import PerfRaft.Proofs.Gaps

namespace PerfRaft

namespace Process

variable {σ ρ : Type} {fsm : FSM σ ρ} {initial : σ} {s s' : Process σ ρ} {work : Work} {env : Env}
  {o : Outcome}

/-- The runs of a server on a monotonic log store that has no gap and is empty or not
behind the newest snapshot. -/
def monotonicSystem (fsm : FSM σ ρ) (initial : σ) : Lib.System (Process σ ρ) ProcessAction where
  init := fun s => (system fsm initial).init s ∧ s.raft.conf.monotonicLogs = true ∧
    SoundDisk s.raft.snapshots s.raft.logs
  step := step fsm initial

/-- A snapshot that the main thread may write: it is not behind the last one, and if it
is ahead of everything, it is restored and the old entries are removed. -/
structure Clearable (fsm : FSM σ ρ) (s : Process σ ρ) (env : Env) (snapshot : Snapshot) :
    Prop where
  above : s.raft.lastSnapshotIndex ≤ snapshot.metadata.index
  clears : snapshot.metadata.index ≤ s.raft.getLastIndex ∨
    ((∀ thread ∈ s.drained fsm, (thread.restore fsm snapshot).2 = true) ∧
      (s.raft.logs = [] ∨ env.deleteRange = true))

/-- What a step must keep to if no gap is to appear. StoreLogs does not fail, but
DeleteRange may, and the process may die at any time, unless it has just written a
snapshot ahead of the log and has not removed the old entries yet. -/
def LeavesNoGap (fsm : FSM σ ρ) (s : Process σ ρ) : ProcessAction → Prop
  | .main work env => env.storeLogs = true ∧
      (∀ a ∈ work.append?, s.raft.Fresh a ∧ ∀ e ∈ s.raft.added a.entries, e.decodes = true) ∧
      ∀ snapshot ∈ work.snapshot? s.raft, Clearable fsm s env snapshot
  | .dies work env => (∀ a ∈ work.append?, s.raft.Fresh a) ∧
      ∀ snapshot ∈ work.snapshot? s.raft,
        s.raft.logs = [] ∨ snapshot.metadata.index ≤ s.raft.logs.lastIndex ∨
          env.closeSink = false ∨ (env.restoreFSM = true ∧ env.deleteRange = true)
  | .persist _ => ∀ p ∈ s.taking.pending?, p.1 ≤ s.raft.getLastIndex
  | .setLastSnapshot => ∀ index ∈ s.taking.written?, s.raft.lastSnapshotIndex ≤ index
  | _ => True

/-- The snapshot that was written last is in the store and not ahead. -/
def Covered (s : Process σ ρ) : Prop :=
  ∀ index ∈ s.taking.written?, index ≤ s.raft.getLastIndex ∧
    ∃ snapshot ∈ s.raft.snapshots, snapshot.metadata.index = index

structure Gapless (s : Process σ ρ) : Prop where
  monotonic : s.raft.conf.monotonicLogs = true
  calls : ∀ call ∈ s.storeCalls, call.1.Contiguous call.2
  sound : SoundDisk s.raft.snapshots s.raft.logs
  aligned : s.raft.down = false → s.raft.Aligned
  covered : s.raft.down = false → s.Covered

/-- The snapshots and the last index move so that the last snapshot written stays
covered. -/
theorem Covered.moves (h : s.Covered) {r : Raft} (hc : Raft.Covers s.raft r)
    (hsnapshots : ∀ snapshot ∈ s.raft.snapshots, snapshot ∈ r.snapshots) :
    Covered { s with raft := r } := by
  intro index hindex
  obtain ⟨hle, snapshot, hmem, heq⟩ := h index hindex
  refine ⟨?_, snapshot, hsnapshots snapshot hmem, heq⟩
  rcases hc with hgrows | habove
  · exact hle.trans hgrows
  · exact heq ▸ habove snapshot hmem

theorem mem_addSnapshot {snapshot t : Snapshot} {snapshots : List Snapshot} :
    t ∈ addSnapshot snapshot snapshots ↔ t = snapshot ∨ t ∈ snapshots := by
  induction snapshots with
  | nil => simp [addSnapshot]
  | cons u rest ih =>
    unfold addSnapshot
    split
    · rw [List.mem_cons, ih, List.mem_cons]
      tauto
    · rw [List.mem_cons]

theorem fresh_of_perform {input : Input} {P : AppendEntriesRequest → Prop}
    (hfresh : ∀ a ∈ (Work.input input).append?, P a)
    (hbeat : ∀ a : AppendEntriesRequest, a.entries = [] → P a)
    (ho : s.perform env (.input input) = some o) : ∀ a, input.append? = some a → P a := by
  intro a ha
  rcases append?_of_perform ho ha with ha | hnil
  · exact hfresh a ha
  · exact hbeat a hnil

/-- The calls that the main thread makes of StoreLogs. -/
theorem Gapless.storeCall (h : Gapless s) (hup : s.raft.down = false)
    (hfresh : ∀ a ∈ work.append?, s.raft.Fresh a) (ho : s.perform env work = some o) :
    ∀ call ∈ s.storeCall env work ++ s.storeCalls, call.1.Contiguous call.2 := by
  intro call hcall
  rcases List.mem_append.mp hcall with hcall | hcall
  · cases work with
    | restore user => simp [Process.storeCall] at hcall
    | input input =>
      rw [Process.storeCall, Option.mem_toList] at hcall
      have hfresh := fresh_of_perform hfresh (fun _ => .heartbeat) ho
      exact ((h.aligned hup).storeCall hfresh hcall).contiguous
  · exact h.calls call hcall

theorem conf_perform (ho : s.perform env work = some o) : o.raft.conf = s.raft.conf := by
  rcases perform_cases ho with ⟨input, rfl, hstep, -⟩ | ⟨user, stepDown, rfl, -, -, rfl⟩
  · exact Raft.conf_step hstep
  · obtain ⟨leaderships, hsame⟩ := Raft.sameThreads_restoreUserSnapshot s.raft user env
    exact hsame.conf

/-- The main thread leaves the stores in order, whatever fails on the way, if it has
no snapshot to write. -/
theorem Gapless.soundDisk_perform (h : Gapless s) (hup : s.raft.down = false)
    (hfresh : ∀ a ∈ work.append?, s.raft.Fresh a) (hwork : work.snapshot? s.raft = none)
    (ho : s.perform env work = some o) : SoundDisk o.raft.snapshots o.raft.logs := by
  obtain ⟨input, rfl, hstep, hother | ⟨hsame, -, -⟩⟩ := perform_input hup hwork ho
  · exact (h.aligned hup).soundDisk_stepUp hup (fresh_of_perform hfresh (fun _ => .heartbeat) ho)
      hother hstep
  · rw [hsame.snapshots, hsame.logs]
    exact h.sound

theorem snapshots_of_unclosed {snapshot : Snapshot} (hup : s.raft.down = false)
    (hwork : work.snapshot? s.raft = some snapshot) (hunclosed : env.closeSink = false)
    (ho : s.perform env work = some o) : o.raft.snapshots = s.raft.snapshots := by
  rcases perform_cases ho with ⟨input, rfl, hstep, -⟩ | ⟨user, stepDown, rfl, -, -, rfl⟩
  · obtain ⟨req, c, index, rfl, -, -⟩ := install_of_snapshot? hwork
    rw [(Raft.stepUp_rpc (Raft.step_up hstep hup)).2.1]
    unfold Raft.processRPC
    split
    · rfl
    · exact Raft.snapshots_of_unclosed hunclosed req
  · show (s.raft.restoreUserSnapshot user env).snapshots = s.raft.snapshots
    unfold Raft.restoreUserSnapshot
    split
    · rfl
    split
    · rfl
    · simp only [hunclosed, or_true, if_true]
      rfl

/-- The process dies with a snapshot in its hands. -/
theorem Gapless.soundDisk_snapshot (h : Gapless s) (hup : s.raft.down = false) {snapshot : Snapshot}
    (hwork : work.snapshot? s.raft = some snapshot)
    (hclears : s.raft.logs = [] ∨ snapshot.metadata.index ≤ s.raft.logs.lastIndex ∨
      env.closeSink = false ∨ (env.restoreFSM = true ∧ env.deleteRange = true))
    (ho : s.perform env work = some o) : SoundDisk o.raft.snapshots o.raft.logs := by
  have hkept (hs : Raft.SameData s.raft o.raft) : SoundDisk o.raft.snapshots o.raft.logs := by
    rw [hs.snapshots, hs.logs]
    exact h.sound
  -- what is left of the log once the snapshot is taken over
  have hremoved (hsnapshots : o.raft.snapshots = addSnapshot snapshot s.raft.snapshots)
      (hlogs : o.raft.logs = (s.raft.removeOldLogs env).logs)
      (hcases : s.raft.logs = [] ∨ snapshot.metadata.index ≤ s.raft.logs.lastIndex ∨
        env.deleteRange = true) : SoundDisk o.raft.snapshots o.raft.logs := by
    rw [hsnapshots, hlogs]
    rcases Raft.removeOldLogs_cases env h.sound.unbroken.pos with hnil | ⟨hfails, hsame⟩
    · rw [hnil]
      exact soundDisk_nil _
    · rw [hsame]
      apply h.sound.addSnapshot
      rw [hfails] at hcases
      simpa using hcases
  by_cases hunclosed : env.closeSink = false
  · apply hkept
    apply sameData_of_not_grown hup hwork ho
    rw [snapshots_of_unclosed hup hwork hunclosed ho]
    exact Nat.lt_irrefl _
  · have hcases : s.raft.logs = [] ∨ snapshot.metadata.index ≤ s.raft.logs.lastIndex ∨
        (env.restoreFSM = true ∧ env.deleteRange = true) := by
      tauto
    rcases perform_snapshot hup hwork ho with hsame | ⟨-, hdone⟩ | ⟨hfailed, hwritten⟩
    · exact hkept hsame
    · have hcases' := hcases.imp_right (Or.imp_right And.right)
      rcases hdone with ⟨req, c, index, -, rfl, hi⟩ | ⟨user, -, rfl, hr⟩
      · refine hremoved hi.snapshots ?_ hcases'
        rw [hi.logs, Raft.logsAfter, if_pos h.monotonic]
      · refine hremoved hr.snapshots ?_ hcases'
        rw [hr.logs, if_pos h.monotonic]
    · rw [hwritten.snapshots, hwritten.logs]
      apply h.sound.addSnapshot
      rw [hfailed] at hcases
      simpa using hcases

/-- The main thread of a running process, when it has no snapshot to write. -/
theorem Gapless.proceed (h : Gapless s) (hup : s.raft.down = false) (henv : env.storeLogs = true)
    (hfresh : ∀ a ∈ work.append?,
      s.raft.Fresh a ∧ ∀ e ∈ s.raft.added a.entries, e.decodes = true)
    (hwork : work.snapshot? s.raft = none) (ho : s.perform env work = some o)
    (queue : List (List Log)) :
    Gapless
      { s with
        raft := o.raft, fsmMutateCh := queue, storeCalls := s.storeCall env work ++ s.storeCalls } := by
  have hfresh' : ∀ a ∈ work.append?, s.raft.Fresh a := fun a ha => (hfresh a ha).1
  have haligned : o.raft.Aligned ∧ Raft.Covers s.raft o.raft ∧
      o.raft.snapshots = s.raft.snapshots := by
    obtain ⟨input, rfl, hstep, hother | ⟨hsame, -, -⟩⟩ := perform_input hup hwork ho
    · have happend := fresh_of_perform hfresh
        (fun a hnil => ⟨.heartbeat hnil, by rw [hnil]; simp [Raft.added]⟩) ho
      obtain ⟨haligned, hcovers⟩ := (h.aligned hup).stepUp hup henv happend hother hstep
      exact ⟨haligned, hcovers, (Raft.sameSnapshots_stepUp hstep hup hother).snapshots⟩
    · exact ⟨(h.aligned hup).sameStores hsame.sameStores, hsame.sameStores.covers, hsame.snapshots⟩
  obtain ⟨haligned, hcovers, hsnapshots⟩ := haligned
  constructor
  case monotonic =>
    show o.raft.conf.monotonicLogs = true
    rw [conf_perform ho]
    exact h.monotonic
  case calls => exact h.storeCall hup hfresh' ho
  case sound => exact haligned.sound
  case aligned => exact fun _ => haligned
  case covered =>
    intro _
    exact (h.covered hup).moves hcovers (fun snapshot hmem => hsnapshots.symm ▸ hmem)

/-- A snapshot has been written, and the server is in order again. -/
theorem Gapless.installed (h : Gapless s) (hup : s.raft.down = false)
    (ho : s.perform env work = some o) {snapshot : Snapshot} (haligned : o.raft.Aligned)
    (hgrows : s.raft.getLastIndex ≤ o.raft.getLastIndex)
    (hsnapshots : o.raft.snapshots = addSnapshot snapshot s.raft.snapshots) (t : FSMThread σ ρ)
    (acknowledged : List Nat) :
    Gapless { s with raft := o.raft, thread := t, fsmMutateCh := [], acknowledged := acknowledged } := by
  constructor
  case monotonic =>
    show o.raft.conf.monotonicLogs = true
    rw [conf_perform ho]
    exact h.monotonic
  case calls => exact h.calls
  case sound => exact haligned.sound
  case aligned => exact fun _ => haligned
  case covered =>
    intro _
    refine (h.covered hup).moves (.inl hgrows) ?_
    intro t ht
    rw [hsnapshots, mem_addSnapshot]
    exact .inr ht

theorem Gapless.down (h : Gapless s) {r : Raft} (hconf : r.conf = s.raft.conf)
    (hsound : SoundDisk r.snapshots r.logs) {calls : List (LogStore × List Log)}
    (hcalls : ∀ call ∈ calls, call.1.Contiguous call.2) :
    Gapless { s with raft := { r with down := true }, storeCalls := calls } := by
  refine ⟨?_, hcalls, hsound, by simp, by simp⟩
  rw [← h.monotonic, ← hconf]

theorem Gapless.sameData (h : Gapless s) (hup : s.raft.down = false)
    (ho : s.perform env work = some o) (hs : Raft.SameData s.raft o.raft) :
    Gapless { s with raft := o.raft } := by
  have haligned := (h.aligned hup).sameStores hs.sameStores
  constructor
  case monotonic =>
    show o.raft.conf.monotonicLogs = true
    rw [conf_perform ho]
    exact h.monotonic
  case calls => exact h.calls
  case sound => exact haligned.sound
  case aligned => exact fun _ => haligned
  case covered =>
    intro _
    exact (h.covered hup).moves hs.sameStores.covers (fun snapshot hmem => hs.snapshots.symm ▸ hmem)

theorem Gapless.main (h : Gapless s) (hup : s.raft.down = false)
    (hok : LeavesNoGap fsm s (.main work env)) (hs : MainStep fsm s work env s') : Gapless s' := by
  obtain ⟨henv, hfresh, hclearable⟩ := hok
  cases hs with
  | proceed hwork ho => exact h.proceed hup henv hfresh hwork ho _
  | refused hwork ho hsame => exact h.sameData hup ho (sameData_of_not_grown hup hwork ho hsame)
  | @install o snapshot ok thread thread' acknowledged hwork hdrained hrestore ho hgrown _ =>
    obtain ⟨habove, hclears⟩ := hclearable snapshot hwork
    have haligned := h.aligned hup
    rcases perform_snapshot hup hwork ho with hkept | ⟨-, hdone⟩ | ⟨hfailed, hwritten⟩
    · exact absurd hgrown (not_grown_of_sameData hkept)
    · rcases hdone with ⟨req, c, index, -, rfl, hi⟩ | ⟨user, -, rfl, hr⟩
      · obtain ⟨haligned', hgrows⟩ :=
          haligned.installs h.monotonic habove (by exact hclears.imp_right And.right) hi
        exact h.installed hup ho haligned' hgrows hi.snapshots _ _
      · have hahead : ¬ (s.raft.userSnapshot user).metadata.index ≤ s.raft.getLastIndex := by
          show ¬ max s.raft.getLastIndex user.index + 1 ≤ s.raft.getLastIndex
          omega
        obtain ⟨haligned', hgrows⟩ :=
          haligned.restoresUser h.monotonic (by exact (hclears.resolve_left hahead).2) hr
        exact h.installed hup ho haligned' hgrows hr.snapshots _ _
    · -- the FSM has failed, so the snapshot is not ahead of the log
      have hle : snapshot.metadata.index ≤ s.raft.getLastIndex := by
        rcases hclears with hle | ⟨hrestores, -⟩
        · exact hle
        · have hok := hrestores thread hdrained
          rw [hrestore] at hok
          dsimp only at hok hfailed
          rw [hok] at hfailed
          cases hfailed
      refine h.installed hup ho (haligned.writes _ hle hwritten) ?_ hwritten.snapshots _ _
      unfold Raft.getLastIndex
      rw [hwritten.lastLogIndex, hwritten.lastSnapshotIndex]
  | panicked => exact h.down rfl h.sound h.calls

theorem Gapless.dies (h : Gapless s) (hup : s.raft.down = false)
    (hok : LeavesNoGap fsm s (.dies work env)) (ho : s.perform env work = some o) :
    Gapless
      { s with
        raft := { o.raft with down := true }
        storeCalls := s.storeCall env work ++ s.storeCalls } := by
  obtain ⟨hfresh, hclears⟩ := hok
  refine h.down (conf_perform ho) ?_ (h.storeCall hup hfresh ho)
  cases hwork : work.snapshot? s.raft with
  | none => exact h.soundDisk_perform hup hfresh hwork ho
  | some snapshot => exact h.soundDisk_snapshot hup hwork (hclears snapshot hwork) ho

theorem Gapless.beside (h : Gapless s) (hup : s.raft.down = false) {a : ProcessAction}
    (hok : LeavesNoGap fsm s a) (hs : BesideStep fsm s a s') : Gapless s' := by
  have haligned := h.aligned hup
  have hcovered := h.covered hup
  unfold Covered at hcovered
  cases hs with
  | applied => exact ⟨h.monotonic, h.calls, h.sound, h.aligned, h.covered⟩
  | panicked => exact h.down rfl h.sound h.calls
  | snapped =>
    exact ⟨h.monotonic, h.calls, h.sound, h.aligned, by simp [Covered, TakeSnapshot.written?]⟩
  | @configurations index term state hsnapped _ =>
    refine ⟨h.monotonic, h.calls, h.sound, fun _ => haligned.sameStores ?_, ?_⟩
    · exact ⟨rfl, rfl, rfl, rfl, rfl, rfl⟩
    · intro _
      unfold Covered Process.configurations
      dsimp only
      split <;> simp [TakeSnapshot.written?]
  | @persist env index term state committed committedIndex hconfigured =>
    have hle : index ≤ s.raft.getLastIndex := hok (index, term) (by rw [hconfigured]; rfl)
    unfold Process.persist
    split
    · exact ⟨h.monotonic, h.calls, h.sound, h.aligned, by simp [Covered, TakeSnapshot.written?]⟩
    · have hwritten := haligned.writes
        (takenSnapshot fsm index term state committed committedIndex) hle (.refl _)
      refine ⟨h.monotonic, h.calls, hwritten.sound, fun _ => hwritten, ?_⟩
      rintro _ i ⟨⟩
      exact ⟨hle, _, mem_addSnapshot.mpr (.inl rfl), rfl⟩
  | @setLastSnapshot index term hclosed =>
    rw [hclosed] at hcovered
    obtain ⟨hle, snapshot, hmem, heq⟩ := hcovered index rfl
    have hge : s.raft.lastSnapshotIndex ≤ index := hok index (by rw [hclosed]; rfl)
    have hmax : (s.raft.setLastSnapshot index term).getLastIndex = s.raft.getLastIndex := by
      show max s.raft.lastLogIndex index = max s.raft.lastLogIndex s.raft.lastSnapshotIndex
      unfold Raft.getLastIndex at hle
      omega
    refine ⟨h.monotonic, h.calls, h.sound, fun _ => ⟨h.sound, ?_, ?_⟩, ?_⟩
    · by_cases hnil : s.raft.logs = []
      · exact .inl hnil
      · obtain ⟨hlast, hindex⟩ := haligned.lastIndex_le hnil
        exact .inr ⟨hlast, show index ≤ s.raft.lastLogIndex by omega⟩
    · rw [hmax]
      exact haligned.newest
    · rintro _ i ⟨⟩
      rw [hmax]
      exact ⟨hle, snapshot, hmem, heq⟩
  | @compact env index hcompacting =>
    have hcompact : SoundDisk s.raft.snapshots (s.raft.compactLogs index env).logs ∧
        ((s.raft.compactLogs index env).logs = [] ∨
          (s.raft.compactLogs index env).logs.lastIndex = s.raft.logs.lastIndex) ∧
        s.raft.compactLogs index env =
          { s.raft with logs := (s.raft.compactLogs index env).logs } := by
      unfold Raft.compactLogs
      rcases Raft.compactLogsWithTrailing_eq s.raft index s.raft.lastLogIndex
        s.raft.conf.trailingLogs env with hsame | ⟨maxLog, -, -, -, hsame⟩
      · rw [hsame]
        exact ⟨h.sound, .inr rfl, rfl⟩
      · rw [hsame]
        exact ⟨h.sound.front maxLog, (h.sound.unbroken.front maxLog).2, rfl⟩
    obtain ⟨hsound, hlast, hkept⟩ := hcompact
    generalize (s.raft.compactLogs index env).logs = logs at hsound hlast hkept
    rw [hkept]
    refine ⟨h.monotonic, h.calls, hsound, fun _ => ⟨hsound, ?_, haligned.newest⟩, ?_⟩
    · rcases hlast with hnil | hlast
      · exact .inl hnil
      · by_cases hnil : s.raft.logs = []
        · left
          by_contra hne
          have hpos := LogStore.lastIndex_pos hsound.unbroken hne
          rw [hlast, hnil] at hpos
          exact absurd hpos (Nat.lt_irrefl 0)
        · obtain ⟨hend, hsnap⟩ := haligned.last.resolve_left hnil
          exact .inr ⟨hlast.trans hend, hsnap⟩
    · simp [Covered, TakeSnapshot.written?]

theorem Gapless.step {a : ProcessAction} (h : Gapless s) (hok : LeavesNoGap fsm s a)
    (hs : s.step fsm initial a = some s') : Gapless s' := by
  refine step_cases hs ?_ ?_ ?_ ?_
  · intro env r _ _ hr
    have hstarted := Raft.started_newRaft hr
    obtain ⟨hindex, -, -⟩ := Raft.newRaft_lastSnapshot hr
    have hsound : SoundDisk r.snapshots r.logs := by
      rw [hstarted.snapshots, hstarted.logs]
      exact h.sound
    refine ⟨?_, h.calls, hsound, fun _ => ⟨hsound, ?_, ?_⟩, by simp [Covered, TakeSnapshot.written?]⟩
    · show r.conf.monotonicLogs = true
      rw [hstarted.conf]
      exact h.monotonic
    · show r.logs = [] ∨ (r.logs.lastIndex = r.lastLogIndex ∧ r.lastSnapshotIndex ≤ r.lastLogIndex)
      rw [hstarted.lastLogIndex, hindex, hstarted.logs]
      rcases h.sound.covers with hnil | hcovers
      · exact .inl hnil
      · exact .inr ⟨rfl, hcovers⟩
    · show snapshotIndex r.snapshots ≤ max r.lastLogIndex r.lastSnapshotIndex
      rw [hstarted.snapshots, hindex]
      exact Nat.le_max_right _ _
  · rintro work env s' rfl hup hmain
    exact h.main hup hok hmain
  · rintro work env o rfl hup ho
    exact h.dies hup hok ho
  · intro s' hup hbeside
    exact h.beside hup hok hbeside

/-- A monotonic log store never sees a gap, if what is written ahead of the log is
followed by the removal of the old entries. -/
theorem store_calls_contiguous
    (h : (monotonicSystem fsm initial).Reachable (LeavesNoGap fsm) s) :
    ∀ call ∈ s.storeCalls, call.1.Contiguous call.2 := by
  have hgapless : Gapless s := by
    refine Lib.System.Reachable.invariant (P := Gapless) ?_ ?_ h
    · rintro s ⟨⟨conf, currentTerm, logs, snapshots, rfl⟩, hmonotonic, hsound⟩
      exact ⟨hmonotonic, by simp, hsound, by simp, by simp⟩
    · intro s a s' hs hok hstep
      exact hs.step hok hstep
  exact hgapless.calls

instance (r : Raft) (a : AppendEntriesRequest) : Decidable (r.Fresh a) :=
  decidable_of_iff
    (a.Consecutive ∧ ∀ e ∈ (r.added a.entries).head?, r.lastSnapshotIndex < e.index ∧
      ∀ snapshot ∈ r.snapshots, snapshot.metadata.index < e.index)
    ⟨fun ⟨h₁, h₂⟩ => ⟨h₁, h₂⟩, fun h => ⟨h.consecutive, h.above⟩⟩

instance (fsm : FSM σ ρ) (s : Process σ ρ) (env : Env) (snapshot : Snapshot) :
    Decidable (Clearable fsm s env snapshot) :=
  decidable_of_iff
    (s.raft.lastSnapshotIndex ≤ snapshot.metadata.index ∧
      (snapshot.metadata.index ≤ s.raft.getLastIndex ∨
        ((∀ thread ∈ s.drained fsm, (thread.restore fsm snapshot).2 = true) ∧
          (s.raft.logs = [] ∨ env.deleteRange = true))))
    ⟨fun ⟨h₁, h₂⟩ => ⟨h₁, h₂⟩, fun h => ⟨h.above, h.clears⟩⟩

instance (fsm : FSM σ ρ) (s : Process σ ρ) : DecidablePred (LeavesNoGap fsm s)
  | .main work _ => inferInstanceAs (Decidable (_ ∧ (∀ a ∈ work.append?, _) ∧ _))
  | .dies work _ => inferInstanceAs (Decidable ((∀ a ∈ work.append?, _) ∧ _))
  | .persist _ => inferInstanceAs (Decidable (∀ p ∈ s.taking.pending?, _))
  | .setLastSnapshot => inferInstanceAs (Decidable (∀ index ∈ s.taking.written?, _))
  | .apply | .snapshot | .configurations | .compact _ => isTrue trivial

/-- No store fails but for DeleteRange, and the process does not die. -/
def OnlyDeletesFail : ProcessAction → Prop
  | .main _ env | .persist env | .compact env => { env with deleteRange := true } = {}
  | .dies _ _ => False
  | _ => True

instance : DecidablePred OnlyDeletesFail
  | .main _ env | .persist env | .compact env =>
    inferInstanceAs (Decidable ({ env with deleteRange := true } = {}))
  | .dies _ _ => isFalse id
  | .apply | .snapshot | .configurations | .setLastSnapshot => isTrue trivial

theorem init_monotonic : (monotonicSystem counter 0).init (countingStart true) := by
  refine ⟨init_countingStart true, rfl, ⟨?_, ?_⟩, .inr (Nat.zero_le _)⟩
  · intro e he
    rw [List.mem_singleton.mp he]
    exact Nat.zero_lt_one
  · intro e he i hei hi
    rw [List.mem_singleton.mp he] at hei
    exact ⟨_, List.mem_singleton.mpr rfl, Nat.le_antisymm hei hi⟩

/-- Entries up to 5, a snapshot at 10 that clears the log, and the entry 11. -/
theorem store_calls_contiguous_cleared :
    ∃ s, (monotonicSystem counter 0).Reachable (LeavesNoGap counter) s ∧
      s.storeCalls.map (fun call => (call.1.lastIndex, call.2.map Log.index)) =
        [(0, [11]), (1, [2, 3, 4, 5])] ∧
      ∀ call ∈ s.storeCalls, call.1.Contiguous call.2 := by
  obtain ⟨s, hreach, hcalls⟩ : ∃ s, (monotonicSystem counter 0).Reachable (LeavesNoGap counter) s ∧
      s.storeCalls.map (fun call => (call.1.lastIndex, call.2.map Log.index)) =
        [(0, [11]), (1, [2, 3, 4, 5])] :=
    Lib.System.exists_reachable init_monotonic
      ((booted ++ commandsFrom 1 1 4 5 ++ [ProcessAction.apply] ++ snapshotAt 10 ++
        commandsFrom 10 2 1 11).map (fun a _ => a)) (by decide +kernel)
  exact ⟨s, hreach, hcalls, store_calls_contiguous hreach⟩

/-- The old entries cannot be deleted when a snapshot arrives at 10. The next entry
is stored all the same, right after 5. -/
theorem store_call_after_gap :
    ∃ s logs entries, (monotonicSystem counter 0).Reachable (fun _ a => OnlyDeletesFail a) s ∧
      (logs, entries) ∈ s.storeCalls ∧ logs.lastIndex = 5 ∧ entries.map Log.index = [11] ∧
      ¬ logs.Contiguous entries := by
  obtain ⟨s, hreach, ⟨logs, entries⟩, hcall, hlast, hindex⟩ : ∃ s,
      (monotonicSystem counter 0).Reachable (fun _ a => OnlyDeletesFail a) s ∧
      ∃ call ∈ s.storeCalls, call.1.lastIndex = 5 ∧ call.2.map Log.index = [11] :=
    Lib.System.exists_reachable init_monotonic
      ((booted ++ commandsFrom 1 1 4 5 ++ [ProcessAction.apply] ++
        (snapshotAt 10).map undeleted ++ commandsFrom 10 2 1 11).map (fun a _ => a))
      (by decide +kernel)
  refine ⟨s, logs, entries, hreach, hcall, hlast, hindex, ?_⟩
  rintro ⟨-, hnil | hnext⟩
  · rw [hnil] at hlast
    cases hlast
  · cases entries with
    | nil => simp at hindex
    | cons e rest =>
      have he := hnext e rfl
      simp only [List.map_cons, List.cons.injEq] at hindex
      dsimp only at hlast
      omega

end Process

end PerfRaft
