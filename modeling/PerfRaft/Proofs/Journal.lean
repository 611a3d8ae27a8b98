import PerfRaft.Journal
import PerfRaft.Proofs.FSM
import PerfRaft.Proofs.LastSnapshot
import PerfRaft.Proofs.MonotonicStore

namespace PerfRaft

/-- The batches hold the entries after `base` up to `lastApplied`, each once and in
order, but for those that are not for the FSM. -/
def Covers (conf : Config) (base lastApplied : Nat) (batches : List (List Log)) : Prop :=
  ∃ entries : List Log, entries.map Log.index = FSMRun.indexes base lastApplied ∧
    batches.flatten = entries.filter conf.prepares

theorem Covers.nil (conf : Config) (base : Nat) : Covers conf base base [] :=
  ⟨[], by rw [FSMRun.indexes_eq_nil (Nat.le_refl base)]; rfl, rfl⟩

theorem map_index_readAt {r : Raft} {futures : List LogFuture} {idxs : List Nat}
    (h : ∀ idx ∈ idxs, (r.readAt futures idx).isSome) :
    (idxs.filterMap (r.readAt futures)).map Log.index = idxs := by
  induction idxs with
  | nil => rfl
  | cons idx rest ih =>
    obtain ⟨l, hl⟩ := Option.isSome_iff_exists.mp (h idx (by simp))
    rw [List.filterMap_cons, hl, List.map_cons, Raft.readAt_index hl,
      ih (fun i hi => h i (List.mem_cons_of_mem _ hi))]

/-- What a step sends to the FSM goes on where the batches end. -/
theorem Covers.applies {r r' : Raft} {base : Nat} {batches : List (List Log)}
    (h : Covers r.conf base r.lastApplied batches) (hle : base ≤ r.lastApplied)
    {futures : List LogFuture} {logs : List Log}
    (happlies : Raft.Applies r (r'.readAt futures) logs r') (n : Nat) :
    Covers r.conf base r'.lastApplied (batches ++ cutBatches n logs []) := by
  obtain ⟨entries, hindex, hflatten⟩ := h
  refine ⟨entries ++
    (FSMRun.indexes r.lastApplied r'.lastApplied).filterMap (r'.readAt futures), ?_, ?_⟩
  · rw [List.map_append, hindex, map_index_readAt happlies.found]
    exact FSMRun.indexes_append hle happlies.le
  · rw [List.flatten_append, flatten_cutBatches, List.filter_append, hflatten, List.nil_append,
      happlies.logs]

namespace Journal

variable {σ ρ : Type} {fsm : FSM σ ρ} {initial : σ} {j j' : Journal σ ρ}

/-- The FSM is in the state that its batches lead to, and they and those in the channel
are the entries since the last restore. -/
structure Sound (fsm : FSM σ ρ) (j : Journal σ ρ) : Prop where
  le : j.baseIndex ≤ j.process.raft.lastApplied
  covers : Covers j.process.raft.conf j.baseIndex j.process.raft.lastApplied
    (j.batches ++ j.process.fsmMutateCh)
  state : j.batches.foldlM (Process.applyBatch fsm) j.base = some j.process.thread

/-- When an InstallSnapshot request gets as far as `Restore` and this fails, it leaves the
FSM in the state it was in. -/
def Spares (fsm : FSM σ ρ) (j : Journal σ ρ) : JournalAction → Prop
  | .process (.main (.input (.rpc (.installSnapshot req))) env) =>
    (env.createSink = true ∧ env.copySink = true ∧ req.reader.length = req.size ∧
      env.closeSink = true) →
    ∀ thread ∈ j.process.drained fsm, (fsm.restore thread.state req.reader).2 = false →
      (fsm.restore thread.state req.reader).1 = thread.state
  | _ => True

theorem Sound.opened {s : Process σ ρ} (hch : s.fsmMutateCh = []) : Sound fsm (opened s) where
  le := Nat.le_refl _
  covers := by
    simp only [Journal.opened, hch, List.append_nil]
    exact Covers.nil _ _
  state := rfl

/-- The server goes on without anything for the FSM. -/
theorem Sound.same (h : Sound fsm j) {s : Process σ ρ} (hconf : s.raft.conf = j.process.raft.conf)
    (happlied : s.raft.lastApplied = j.process.raft.lastApplied)
    (hthread : s.thread = j.process.thread) (hch : s.fsmMutateCh = j.process.fsmMutateCh) :
    Sound fsm { j with process := s } where
  le := by
    dsimp only
    rw [happlied]
    exact h.le
  covers := by
    dsimp only
    rw [hconf, happlied, hch]
    exact h.covers
  state := by
    dsimp only
    rw [hthread]
    exact h.state

/-- The FSM thread has taken everything from the channel. -/
theorem Sound.drained (h : Sound fsm j) {s : Process σ ρ} {thread : FSMThread σ ρ}
    (hdrained : j.process.drained fsm = some thread)
    (hconf : s.raft.conf = j.process.raft.conf)
    (happlied : s.raft.lastApplied = j.process.raft.lastApplied) (hthread : s.thread = thread)
    (hch : s.fsmMutateCh = []) :
    Sound fsm { j with process := s, batches := j.batches ++ j.process.fsmMutateCh } where
  le := by
    dsimp only
    rw [happlied]
    exact h.le
  covers := by
    dsimp only
    rw [hconf, happlied, hch, List.append_nil]
    exact h.covers
  state := by
    dsimp only
    rw [List.foldlM_append, h.state, hthread]
    exact hdrained

/-- `Restore` fails only when it is called, and then gives back the thread as it was. -/
theorem restore_spared {thread thread' : FSMThread σ ρ} {snapshot : Snapshot}
    (h : thread.restore fsm snapshot = (thread', false))
    (hspared : (fsm.restore thread.state snapshot.contents).2 = false →
      (fsm.restore thread.state snapshot.contents).1 = thread.state) : thread' = thread := by
  unfold FSMThread.restore at h
  dsimp only at h
  split at h
  · cases h
  · rename_i hfailed
    cases h
    rw [hspared (by simpa using hfailed)]

/-- A snapshot that has been written got through all that comes before `Restore`. -/
theorem written_of_grown {r : Raft} {req : InstallSnapshotRequest} {env : Env} {o : Outcome}
    (h : r.stepUp env (.rpc (.installSnapshot req)) = some o)
    (hgrown : r.snapshots.length < o.raft.snapshots.length) :
    env.createSink = true ∧ env.copySink = true ∧ req.reader.length = req.size ∧
      env.closeSink = true := by
  rw [(Raft.stepUp_rpc h).2.1] at hgrown
  unfold Raft.processRPC at hgrown
  dsimp only at hgrown
  split at hgrown
  · exact absurd hgrown (Nat.lt_irrefl _)
  have hfollow := (Raft.sameData_followSnapshot r req env).snapshots
  dsimp only at hgrown
  unfold Raft.installSnapshot at hgrown
  split at hgrown
  · exact absurd hgrown (Nat.lt_irrefl _)
  split at hgrown
  · exact absurd hgrown (Nat.lt_irrefl _)
  dsimp only at hgrown
  split at hgrown
  · rw [hfollow] at hgrown
    exact absurd hgrown (Nat.lt_irrefl _)
  by_contra hfails
  have hsame : ((r.followSnapshot req env).receiveSnapshot req env).1.snapshots = r.snapshots := by
    unfold Raft.receiveSnapshot
    split
    · split <;> exact hfollow
    · rw [if_pos]
      · exact hfollow
      · by_contra hnone
        simp only [not_or, Bool.not_eq_false, ne_eq, not_not] at hnone
        exact hfails hnone
  split at hgrown
  · rename_i hr
    rw [hr] at hsame
    rw [hsame] at hgrown
    exact Nat.lt_irrefl _ hgrown
  · rename_i hr
    rw [hr] at hsame
    rw [hsame] at hgrown
    exact Nat.lt_irrefl _ hgrown

/-- What is noted of a step on the main thread of a running server. -/
theorem Sound.main (h : Sound fsm j) {work : Work} {env : Env} {s' : Process σ ρ}
    (hup : j.process.raft.down = false) (hup' : s'.raft.down = false)
    (hspares : Spares fsm j (.process (.main work env)))
    (hs : Process.MainStep fsm j.process work env s') :
    Sound fsm (j.record fsm (.main work env) s') := by
  unfold record
  rw [if_neg (by simp [hup])]
  cases hs with
  | @proceed o hwork ho =>
    have hnone : restoreOutcome fsm j.process (.main work env)
        { j.process with
          raft := o.raft
          fsmMutateCh := j.process.fsmMutateCh ++
            cutBatches j.process.raft.conf.maxAppendEntries (appliedLogs o.events) []
          storeCalls := j.process.storeCall env work ++ j.process.storeCalls } = none := by
      simp [restoreOutcome, hwork]
    rw [hnone]
    obtain ⟨-, futures, happlies⟩ := Process.perform_applies hup hwork ho hup'
    constructor
    case le => exact h.le.trans happlies.le
    case covers =>
      dsimp only
      rw [Process.conf_perform ho, ← List.append_assoc]
      exact h.covers.applies h.le happlies _
    case state => exact h.state
  | @refused o snapshot ok hwork ho hsame =>
    have hnone : restoreOutcome fsm j.process (.main work env)
        { j.process with raft := o.raft } = none := by
      simp [restoreOutcome, hsame]
    rw [hnone]
    have hkept := Process.sameData_of_not_grown hup hwork ho hsame
    exact h.same (Process.conf_perform ho) hkept.lastApplied rfl rfl
  | @install o snapshot ok thread thread' acknowledged hwork hdrained hrestore ho hgrown _ =>
    have hsome : restoreOutcome fsm j.process (.main work env)
        { j.process with
          raft := o.raft, thread := thread', fsmMutateCh := [], acknowledged := acknowledged } =
            some ok := by
      simp [restoreOutcome, hwork, hdrained, hgrown, hrestore]
    rw [hsome]
    cases ok with
    | true => exact Sound.opened rfl
    | false =>
      rcases Process.perform_snapshot hup hwork ho with hkept | ⟨hrestored, -⟩ | ⟨-, hwritten⟩
      · exact absurd hgrown (Process.not_grown_of_sameData hkept)
      · cases hrestored
      · refine h.drained hdrained (Process.conf_perform ho) hwritten.lastApplied ?_ rfl
        dsimp only
        rcases Process.perform_cases ho with
          ⟨input, rfl, hstep, -⟩ | ⟨user, stepDown, rfl, -, -, rfl⟩
        · obtain ⟨req, c, index, rfl, -, rfl⟩ := Process.install_of_snapshot? hwork
          have hgot := written_of_grown (Raft.step_up hstep hup) hgrown
          exact restore_spared hrestore (hspares hgot thread hdrained)
        · -- a user's snapshot that cannot be restored brings the process down
          rcases Raft.restoreUserSnapshot_cases j.process.raft user { env with restoreFSM := false }
            with hkept | ⟨hrestored, -⟩ | ⟨-, hdown, -⟩
          · exact absurd hgrown (Process.not_grown_of_sameData (hkept.setMain _))
          · cases hrestored
          · exact absurd hup' (by simp [hdown])
  | panicked => simp at hup'

theorem Sound.beside (h : Sound fsm j) {a : ProcessAction} {s' : Process σ ρ}
    (hup : j.process.raft.down = false) (hup' : s'.raft.down = false)
    (hs : Process.BesideStep fsm j.process a s') : Sound fsm (j.record fsm a s') := by
  unfold record
  rw [if_neg (by simp [hup])]
  cases hs with
  | @applied batch rest thread hch hbatch =>
    simp only [restoreOutcome, hch, List.take_succ_cons, List.take_zero]
    constructor
    case le => exact h.le
    case covers =>
      have hcovers := h.covers
      rw [hch] at hcovers
      simpa using hcovers
    case state =>
      dsimp only
      rw [List.foldlM_append, h.state]
      simpa using hbatch
  | panicked => simp at hup'
  | snapped => exact h.same rfl rfl rfl rfl
  | configurations => exact h.same rfl rfl rfl rfl
  | persist =>
    unfold Process.persist
    simp only [restoreOutcome]
    split <;> exact h.same rfl rfl rfl rfl
  | setLastSnapshot => exact h.same rfl rfl rfl rfl
  | @compact env index =>
    simp only [restoreOutcome, Raft.compactLogs]
    rcases Raft.compactLogsWithTrailing_eq j.process.raft index j.process.raft.lastLogIndex
      j.process.raft.conf.trailingLogs env with hsame | ⟨maxLog, -, -, -, hsame⟩
    · rw [hsame]
      exact h.same rfl rfl rfl rfl
    · rw [hsame]
      exact h.same rfl rfl rfl rfl

theorem Sound.unopened (h : Sound fsm j) {req : InstallSnapshotRequest} {env : Env}
    (hstep : j.unopened fsm req env = some j') : Sound fsm j' := by
  unfold Journal.unopened at hstep
  dsimp only at hstep
  split at hstep
  · rename_i thread hup hdrained
    rw [Option.map_eq_some_iff] at hstep
    obtain ⟨o, ho, rfl⟩ := hstep
    have hconf := Process.conf_perform ho
    rcases Process.perform_cases ho with ⟨input, hinput, hperform, -⟩ | ⟨user, stepDown, hinput, -⟩
    · cases hinput
      cases Raft.dataStep_stepUp (Raft.step_up hperform hup) hup with
      | keep hsame =>
        rw [if_neg (Process.not_grown_of_sameData hsame)]
        exact h.same hconf hsame.lastApplied rfl rfl
      | append ha _ => simp [Input.append?] at ha
      | dispatch hinput _ _ _ => simp at hinput
      | install hsame =>
        have happlied : o.raft.lastApplied = j.process.raft.lastApplied := by
          rcases Raft.installSnapshot_cases j.process.raft req { env with restoreFSM := false } with
            hkept | ⟨hrestored, -⟩ | ⟨-, c, index, -, hwritten⟩
          · exact (hkept.trans hsame).lastApplied
          · cases hrestored
          · exact (hwritten.trans hsame).lastApplied
        split
        · exact h.drained hdrained hconf happlied rfl rfl
        · exact h.same hconf happlied rfl rfl
    · cases hinput
  · cases hstep

theorem process_record (j : Journal σ ρ) (a : ProcessAction) (s' : Process σ ρ) :
    (j.record fsm a s').process = s' := by
  unfold record
  split
  · rfl
  · split
    · rfl
    · rfl
    · split <;> rfl

theorem sound_of_reachable (h : (system fsm initial).Reachable (Spares fsm) j)
    (hup : j.process.raft.down = false) : Sound fsm j := by
  refine Lib.System.Reachable.invariant
    (P := fun j => j.process.raft.down = false → Sound fsm j) ?_ ?_ h hup
  · rintro j ⟨s, -, -, hch, rfl⟩ -
    exact Sound.opened hch
  · intro j a j' hj hspares hstep hup'
    cases a with
    | process a =>
      simp only [system, step, Option.map_eq_some_iff] at hstep
      obtain ⟨s', hs', rfl⟩ := hstep
      rw [process_record] at hup'
      refine Process.step_cases
        (P := fun s' => s'.raft.down = false → Sound fsm (j.record fsm a s')) hs' ?_ ?_ ?_ ?_ hup'
      · intro env r _ hdown _ _
        unfold record
        rw [if_pos hdown]
        exact Sound.opened rfl
      · rintro work env s'' rfl hup hmain hup''
        exact (hj hup).main hup hup'' hspares hmain
      · intro work env o _ _ _ hup''
        simp at hup''
      · intro s'' hup hbeside hup''
        exact (hj hup).beside hup hup'' hbeside
    | unopened req env =>
      cases hdown : j.process.raft.down with
      | false => exact (hj hdown).unopened hstep
      | true => simp [system, step, Journal.unopened, hdown] at hstep

/-- From any state of a follower on whose FSM has applied what is applied, whatever
InstallSnapshot requests fail: as long as a failing `Restore` leaves the FSM in the state
it was in, every batch is applied to the state that the entries before it lead to. -/
theorem applies_to_entries_before {batch : List Log} {rest : List (List Log)}
    (h : (system fsm initial).Reachable (Spares fsm) j) (hup : j.process.raft.down = false)
    (hch : j.process.fsmMutateCh = batch :: rest) :
    j.batches.foldlM (Process.applyBatch fsm) j.base = some j.process.thread ∧
      ∃ entries : List Log,
        entries.map Log.index = FSMRun.indexes j.baseIndex j.process.raft.lastApplied ∧
        entries.filter j.process.raft.conf.prepares = j.batches.flatten ++ batch ++ rest.flatten := by
  have hsound := sound_of_reachable h hup
  refine ⟨hsound.state, ?_⟩
  obtain ⟨entries, hindex, hflatten⟩ := hsound.covers
  refine ⟨entries, hindex, ?_⟩
  rw [← hflatten, hch]
  simp

/-- An FSM that counts its commands, and that is left with a wrong count when it has to
restore an empty snapshot. -/
def brittle : FSM Nat Nat :=
  { counter with
    restore := fun _ contents => if contents = [] then (100, false) else (contents.length, true) }

/-- A follower that has applied the one command it has. -/
def following : Process Nat Nat where
  raft :=
    { conf := { localID := [65], localAddr := [65] }
      stable := { currentTerm := 2 }
      logs := [{ index := 1, term := 1, type := .logConfiguration
                 data := encodeConfiguration ⟨[voterNamed 65, voterNamed 66]⟩ },
        { index := 2, term := 2, type := .logCommand }]
      currentTerm := 2
      commitIndex := 2
      lastApplied := 2
      lastLogIndex := 2
      lastLogTerm := 2
      configurations :=
        { committed := ⟨[voterNamed 65, voterNamed 66]⟩, committedIndex := 1
          latest := ⟨[voterNamed 65, voterNamed 66]⟩, latestIndex := 1 }
      main := .follower true }
  thread := { state := 1, lastIndex := 2, lastTerm := 2 }

theorem init_following : (system brittle 0).init (opened following) :=
  ⟨following, rfl, rfl, rfl, rfl⟩

/-- An empty snapshot from the leader, and then the next command. -/
def installThenCommand (env : Env) : List (Journal Nat Nat → JournalAction) :=
  [fun _ => .process (.main (.input (.rpc (.installSnapshot
      { header := { id := [66], addr := [66] }, term := 2, lastLogIndex := 5, lastLogTerm := 2
        configuration := encodeConfiguration ⟨[voterNamed 65, voterNamed 66]⟩
        configurationIndex := 1 }))) env),
    fun _ => .process (Process.given .loopTest)] ++
  (Process.commandsFrom 2 2 1 3).map (fun a _ => .process a)

/-- A request to install a snapshot is given up before the FSM is asked to restore it. -/
def givenUp : JournalAction → Bool
  | .process (.main (.input (.rpc (.installSnapshot _))) env) => !env.closeSink
  | _ => true

theorem spares_of_givenUp {a : JournalAction} (h : givenUp a = true) : Spares fsm j a := by
  unfold givenUp at h
  unfold Spares
  split at h
  · rintro ⟨-, -, -, hclosed⟩
    simp [hclosed] at h
  · trivial

/-- The sink cannot be closed, and the next command is applied to the state that the first
one has led to. -/
theorem applies_to_entries_before_unclosed :
    ∃ j : Journal Nat Nat, j.process.fsmMutateCh = [[{ index := 3, term := 2, type := .logCommand }]] ∧
      j.process.raft.snapshots = [] ∧ j.process.thread.state = 1 ∧
      j.batches.foldlM (Process.applyBatch brittle) j.base = some j.process.thread := by
  have hplays : (system brittle 0).plays (fun _ a => givenUp a)
      (fun j => decide (
        j.process.fsmMutateCh = [[{ index := 3, term := 2, type := .logCommand }]] ∧
        j.process.raft.snapshots = [] ∧ j.process.thread.state = 1 ∧ j.process.raft.down = false))
      (opened following) (installThenCommand { closeSink := false }) = true := by
    decide +kernel
  obtain ⟨j, hrun, hcheck⟩ :=
    Lib.System.reaches_of_plays (Spares brittle) (fun _ _ h => spares_of_givenUp h) hplays
  obtain ⟨hch, hsnapshots, hstate, hup⟩ := of_decide_eq_true hcheck
  have happlies := applies_to_entries_before ⟨_, init_following, hrun⟩ hup hch
  exact ⟨j, hch, hsnapshots, hstate, happlies.1⟩

/-- `Restore` fails and leaves another state behind. The request is answered with an
error, and the next command is applied to that state. -/
theorem applies_to_spoiled_state :
    ∃ j : Journal Nat Nat, (system brittle 0).Reachable (fun _ _ => True) j ∧
      j.process.raft.down = false ∧ j.process.raft.lastApplied = 3 ∧
      j.process.fsmMutateCh = [[{ index := 3, term := 2, type := .logCommand }]] ∧
      (j.batches.foldlM (Process.applyBatch brittle) j.base).map FSMThread.state = some 1 ∧
      j.process.thread.state = 100 :=
  Lib.System.exists_reachable init_following (installThenCommand {}) (by decide +kernel)

end Journal

end PerfRaft
