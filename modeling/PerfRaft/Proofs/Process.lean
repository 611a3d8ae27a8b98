import PerfRaft.Proofs.Writes

namespace PerfRaft

namespace Raft

variable {r r' r'' : Raft} {env : Env}

/-- A server has restored a snapshot of its user. -/
structure RestoresUser (r : Raft) (user : UserSnapshot) (env : Env) (r' : Raft) : Prop where
  settled : r.configurations.committedIndex = r.configurations.latestIndex
  snapshots : r'.snapshots = addSnapshot (r.userSnapshot user) r.snapshots
  lastLogIndex : r'.lastLogIndex = max r.getLastIndex user.index + 1
  lastLogTerm : r'.lastLogTerm = r.currentTerm
  lastSnapshotIndex : r'.lastSnapshotIndex = max r.getLastIndex user.index + 1
  lastSnapshotTerm : r'.lastSnapshotTerm = r.currentTerm
  lastApplied : r'.lastApplied = max r.getLastIndex user.index + 1
  commitIndex : r'.commitIndex = r.commitIndex
  configurations : r'.configurations = r.configurations
  logs : r'.logs = if r.conf.monotonicLogs then (r.removeOldLogs env).logs else r.logs

theorem RestoresUser.sameData {user : UserSnapshot} (h : RestoresUser r user env r')
    (hs : SameData r' r'') : RestoresUser r user env r'' where
  settled := h.settled
  snapshots := hs.snapshots.trans h.snapshots
  lastLogIndex := hs.lastLogIndex.trans h.lastLogIndex
  lastLogTerm := hs.lastLogTerm.trans h.lastLogTerm
  lastSnapshotIndex := hs.lastSnapshotIndex.trans h.lastSnapshotIndex
  lastSnapshotTerm := hs.lastSnapshotTerm.trans h.lastSnapshotTerm
  lastApplied := hs.lastApplied.trans h.lastApplied
  commitIndex := hs.commitIndex.trans h.commitIndex
  configurations := hs.configurations.trans h.configurations
  logs := hs.logs.trans h.logs

theorem removeOldLogs_frame (h : r'.logs = r.logs) (hconf : r'.conf = r.conf) :
    (if r'.conf.monotonicLogs then r'.removeOldLogs env else r') =
      { r' with logs := if r.conf.monotonicLogs then (r.removeOldLogs env).logs else r.logs } := by
  have hlogs : (r'.removeOldLogs env).logs = (r.removeOldLogs env).logs := by
    unfold removeOldLogs
    rw [h]
    exact compactLogsWithTrailing_congr h _ _ _
  rw [← hconf, ← hlogs, ← h]
  split
  · unfold removeOldLogs
    rcases compactLogsWithTrailing_eq r' r'.logs.lastIndex r'.logs.lastIndex 0 env with
      hsame | ⟨maxLog, -, -, -, hsame⟩
    · rw [hsame]
    · rw [hsame]
  · rfl

/-- `restoreUserSnapshot` gives up before it writes, or restores the snapshot, or
panics once the snapshot is written. -/
theorem restoreUserSnapshot_cases (r : Raft) (user : UserSnapshot) (env : Env) :
    SameData r (r.restoreUserSnapshot user env) ∨
      (env.restoreFSM = true ∧ RestoresUser r user env (r.restoreUserSnapshot user env)) ∨
      (env.restoreFSM = false ∧ (r.restoreUserSnapshot user env).down = true ∧
        SameData { r with snapshots := addSnapshot (r.userSnapshot user) r.snapshots }
          (r.restoreUserSnapshot user env)) := by
  unfold restoreUserSnapshot
  split
  · exact .inl (.refl r)
  split
  · exact .inl (.refl r)
  rename_i hsettled
  rw [ne_eq, not_not] at hsettled
  dsimp only
  split
  · exact .inl ⟨rfl, rfl, rfl, rfl, rfl, rfl, rfl, rfl, rfl⟩
  split
  · rename_i hrestore
    exact .inr (.inr ⟨hrestore, rfl, ⟨rfl, rfl, rfl, rfl, rfl, rfl, rfl, rfl, rfl⟩⟩)
  · rename_i hrestore
    refine .inr (.inl ⟨by simpa using hrestore, ?_⟩)
    rw [removeOldLogs_frame (r := r)]
    · constructor
      case settled => exact hsettled
      all_goals rfl
    · rfl
    · rfl

/-- `restoreUserSnapshot` leaves what the threads go by, but for the futures in flight. -/
theorem sameThreads_restoreUserSnapshot (r : Raft) (user : UserSnapshot) (env : Env) :
    ∃ leaderships,
      SameThreads { r with leaderships := leaderships } (r.restoreUserSnapshot user env) := by
  unfold restoreUserSnapshot
  split
  · exact ⟨r.leaderships, .refl r⟩
  split
  · exact ⟨r.leaderships, .refl r⟩
  refine ⟨(r.modifyLeaderState (fun ls => { ls with inflight := [] })).leaderships, ?_⟩
  dsimp only
  split
  · exact ⟨rfl, rfl, rfl, rfl, rfl, rfl, rfl⟩
  split
  · exact ⟨rfl, rfl, rfl, rfl, rfl, rfl, rfl⟩
  rw [removeOldLogs_frame (r := r)]
  · exact ⟨rfl, rfl, rfl, rfl, rfl, rfl, rfl⟩
  · rfl
  · rfl

end Raft

variable {σ ρ : Type}

/-- The index of the snapshot in the making. -/
def TakeSnapshot.index? : TakeSnapshot σ → Option Nat
  | .idle => none
  | .snapped index _ _ | .configured index _ _ _ _ | .closed index _ | .compacting index => some index

/-- The index of the snapshot in the making, once it is in the store. -/
def TakeSnapshot.written? : TakeSnapshot σ → Option Nat
  | .closed index _ | .compacting index => some index
  | _ => none

/-- Index and term of the snapshot that is about to be written. -/
def TakeSnapshot.pending? : TakeSnapshot σ → Option (Nat × Nat)
  | .configured index term _ _ _ => some (index, term)
  | _ => none

/-- The AppendEntries request that the main thread is given. -/
def Work.append? : Work → Option AppendEntriesRequest
  | .input (.rpc (.appendEntries a)) => some a
  | _ => none

namespace Process

variable {fsm : FSM σ ρ} {initial : σ} {s s' : Process σ ρ} {work : Work} {env : Env}
  {o : Outcome}

theorem perform_cases (h : s.perform env work = some o) :
    (∃ input, work = .input input ∧ s.raft.step input env = some o ∧
        ∀ req, input = .heartbeat req → req.isHeartbeat = true) ∨
      ∃ user stepDown, work = .restore user ∧ s.raft.down = false ∧
        s.raft.main = .leader stepDown true ∧
        o = { raft := { s.raft.restoreUserSnapshot user env with main := .leader stepDown false } } := by
  cases work with
  | input input =>
    left
    refine ⟨input, rfl, ?_⟩
    cases input with
    | heartbeat req =>
      simp only [perform] at h
      split at h
      · rename_i hbeat
        refine ⟨h, ?_⟩
        rintro _ ⟨⟩
        exact hbeat
      · simp at h
    | _ => exact ⟨h, by simp⟩
  | restore user =>
    right
    simp only [perform] at h
    split at h
    · rename_i stepDown hup hmain
      exact ⟨user, stepDown, rfl, hup, hmain, (Option.some.inj h).symm⟩
    · simp at h

theorem length_addSnapshot (snapshot : Snapshot) (snapshots : List Snapshot) :
    (addSnapshot snapshot snapshots).length = snapshots.length + 1 := by
  induction snapshots with
  | nil => rfl
  | cons t rest ih =>
    unfold addSnapshot
    split
    · rw [List.length_cons, ih, List.length_cons]
    · rfl

/-- The only input with a snapshot is the request to install it. -/
theorem install_of_snapshot? {input : Input} {r : Raft} {snapshot : Snapshot}
    (h : (Work.input input).snapshot? r = some snapshot) :
    ∃ req c index, input = .rpc (.installSnapshot req) ∧
      Raft.requestConfiguration req = some (c, index) ∧
      snapshot = Raft.receivedSnapshot req c index := by
  unfold Work.snapshot? at h
  split at h
  · rename_i req heq
    cases heq
    rw [Option.map_eq_some_iff] at h
    obtain ⟨⟨c, index⟩, hreq, rfl⟩ := h
    exact ⟨req, c, index, rfl, hreq, rfl⟩
  · rename_i heq
    cases heq
  · simp at h

/-- What the main thread does with a snapshot it is given: it leaves its data alone,
or writes the snapshot and takes it over, or writes it and fails. -/
theorem perform_snapshot {snapshot : Snapshot} {o : Outcome} (hup : s.raft.down = false)
    (hwork : work.snapshot? s.raft = some snapshot) (ho : s.perform env work = some o) :
    Raft.SameData s.raft o.raft ∨
      (env.restoreFSM = true ∧
        ((∃ req c index, work = .input (.rpc (.installSnapshot req)) ∧
            snapshot = Raft.receivedSnapshot req c index ∧
            Raft.Installs s.raft req c index env o.raft) ∨
          ∃ user, work = .restore user ∧ snapshot = s.raft.userSnapshot user ∧
            Raft.RestoresUser s.raft user env o.raft)) ∨
      (env.restoreFSM = false ∧ Raft.SameData
        { s.raft with snapshots := addSnapshot snapshot s.raft.snapshots } o.raft) := by
  rcases perform_cases ho with ⟨input, rfl, hstep, -⟩ | ⟨user, stepDown, rfl, -, -, rfl⟩
  · obtain ⟨req, c, index, rfl, hreq, rfl⟩ := install_of_snapshot? hwork
    cases Raft.dataStep_stepUp (Raft.step_up hstep hup) hup with
    | keep hsame => exact .inl hsame
    | append ha _ => simp [Input.append?] at ha
    | dispatch hinput _ _ _ => simp at hinput
    | install hsame =>
      rcases Raft.installSnapshot_cases s.raft req env with
        hkept | ⟨hrestore, c', index', hinstalls⟩ | ⟨hrestore, c', index', hreq', hwritten⟩
      · exact .inl (hkept.trans hsame)
      · have hsame' := hinstalls.request
        rw [hreq, Option.some.injEq, Prod.mk.injEq] at hsame'
        obtain ⟨rfl, rfl⟩ := hsame'
        exact .inr (.inl ⟨hrestore, .inl ⟨req, c, index, rfl, rfl, hinstalls.sameData hsame⟩⟩)
      · rw [hreq, Option.some.injEq, Prod.mk.injEq] at hreq'
        obtain ⟨rfl, rfl⟩ := hreq'
        exact .inr (.inr ⟨hrestore, hwritten.trans hsame⟩)
  · cases hwork
    have hmain : Raft.SameData (s.raft.restoreUserSnapshot user env)
        { s.raft.restoreUserSnapshot user env with main := .leader stepDown false } :=
      (Raft.SameData.refl _).setMain _
    rcases Raft.restoreUserSnapshot_cases s.raft user env with
      hkept | ⟨hrestore, hr⟩ | ⟨hrestore, -, hwritten⟩
    · exact .inl (hkept.trans hmain)
    · exact .inr (.inl ⟨hrestore, .inr ⟨user, rfl, rfl, hr.sameData hmain⟩⟩)
    · exact .inr (.inr ⟨hrestore, hwritten.trans hmain⟩)

/-- A snapshot that was not written has left the data alone. -/
theorem sameData_of_not_grown {snapshot : Snapshot} {o : Outcome} (hup : s.raft.down = false)
    (hwork : work.snapshot? s.raft = some snapshot) (ho : s.perform env work = some o)
    (hsame : ¬ s.raft.snapshots.length < o.raft.snapshots.length) : Raft.SameData s.raft o.raft := by
  have hgrown (h : o.raft.snapshots = addSnapshot snapshot s.raft.snapshots) :
      s.raft.snapshots.length < o.raft.snapshots.length := by
    rw [h, length_addSnapshot]
    exact Nat.lt_succ_self _
  rcases perform_snapshot hup hwork ho with hkept | ⟨-, hdone⟩ | ⟨-, hwritten⟩
  · exact hkept
  · rcases hdone with ⟨req, c, index, -, rfl, hi⟩ | ⟨user, -, rfl, hr⟩
    · exact absurd (hgrown hi.snapshots) hsame
    · exact absurd (hgrown hr.snapshots) hsame
  · exact absurd (hgrown hwritten.snapshots) hsame

theorem not_grown_of_sameData {r : Raft} (h : Raft.SameData s.raft r) :
    ¬ s.raft.snapshots.length < r.snapshots.length := by
  rw [h.snapshots]
  exact Nat.lt_irrefl _

/-- A request whose configuration cannot be decoded leaves everything as it is. -/
theorem sameData_undecoded {r : Raft} {req : InstallSnapshotRequest}
    (h : Raft.requestConfiguration req = none) : Raft.SameData r (r.installSnapshot req env).1 := by
  rcases Raft.installSnapshot_cases r req env with
    hkept | ⟨-, c, index, hinstalls⟩ | ⟨-, c, index, hreq, -⟩
  · exact hkept
  · rw [hinstalls.request] at h
    cases h
  · rw [hreq] at h
    cases h

/-- An AppendEntries request beside the main thread is a heartbeat. -/
theorem append?_of_perform {input : Input} (ho : s.perform env (.input input) = some o)
    {a : AppendEntriesRequest} (ha : input.append? = some a) :
    (Work.input input).append? = some a ∨ a.entries = [] := by
  rcases perform_cases ho with ⟨input', heq, -, hbeat⟩ | ⟨user, stepDown, heq, -⟩
  · cases heq
    unfold Input.append? at ha
    split at ha
    · exact .inl ha
    · cases ha
      have hheartbeat := hbeat a rfl
      unfold AppendEntriesRequest.isHeartbeat at hheartbeat
      simp only [Bool.and_eq_true, List.isEmpty_iff] at hheartbeat
      tauto
    · cases ha
  · cases heq

/-- What the main thread does without a snapshot: a request to install one that cannot
be decoded, which has no effect, or any other step of the server. -/
theorem perform_input (hup : s.raft.down = false) (hwork : work.snapshot? s.raft = none)
    (ho : s.perform env work = some o) :
    ∃ input, work = .input input ∧ s.raft.stepUp env input = some o ∧
      ((∀ req, input ≠ .rpc (.installSnapshot req)) ∨
        (Raft.SameData s.raft o.raft ∧ o.events = [] ∧ s.raft.storeCall env input = none)) := by
  rcases perform_cases ho with ⟨input, rfl, hstep, -⟩ | ⟨user, stepDown, rfl, -, -, rfl⟩
  · have hstepUp := Raft.step_up hstep hup
    refine ⟨input, rfl, hstepUp, ?_⟩
    by_cases hinstall : ∃ req, input = .rpc (.installSnapshot req)
    · right
      obtain ⟨req, rfl⟩ := hinstall
      have hundecoded : Raft.requestConfiguration req = none := by
        simpa [Work.snapshot?] using hwork
      obtain ⟨-, hraft, -, hevents, -⟩ := Raft.stepUp_rpc hstepUp
      refine ⟨?_, ?_, rfl⟩
      · rw [hraft]
        unfold Raft.processRPC
        split
        · exact (Raft.SameData.refl _).setMain _
        · exact (sameData_undecoded hundecoded).setMain _
      · rw [hevents]
        unfold Raft.processRPC
        split <;> rfl
    · exact .inl (fun req heq => hinstall ⟨req, heq⟩)
  · simp [Work.snapshot?] at hwork

/-- What the main thread of a running process can do: something that leaves the FSM
alone, an installation that is refused before anything is written, one that is not,
or the FSM panics on the way. -/
inductive MainStep (fsm : FSM σ ρ) (s : Process σ ρ) (work : Work) (env : Env) :
    Process σ ρ → Prop where
  | proceed {o : Outcome} (hwork : work.snapshot? s.raft = none) (ho : s.perform env work = some o) :
      MainStep fsm s work env
        { s with
          raft := o.raft
          fsmMutateCh := s.fsmMutateCh ++
            cutBatches s.raft.conf.maxAppendEntries (appliedLogs o.events) []
          storeCalls := s.storeCall env work ++ s.storeCalls }
  | refused {o : Outcome} {snapshot : Snapshot} {ok : Bool}
      (hwork : work.snapshot? s.raft = some snapshot)
      (ho : s.perform { env with restoreFSM := ok } work = some o)
      (hsame : ¬ s.raft.snapshots.length < o.raft.snapshots.length) :
      MainStep fsm s work env { s with raft := o.raft }
  | install {o : Outcome} {snapshot : Snapshot} {ok : Bool} {thread thread' : FSMThread σ ρ}
      (acknowledged : List Nat)
      (hwork : work.snapshot? s.raft = some snapshot) (hdrained : s.drained fsm = some thread)
      (hrestore : thread.restore fsm snapshot = (thread', ok))
      (ho : s.perform { env with restoreFSM := ok } work = some o)
      (hgrown : s.raft.snapshots.length < o.raft.snapshots.length)
      (hacknowledged : acknowledged = s.acknowledged ∨
        (acknowledged = snapshot.metadata.index :: s.acknowledged ∧
          ∃ resp, o.response = some (.installSnapshot resp) ∧ resp.success = true)) :
      MainStep fsm s work env
        { s with raft := o.raft, thread := thread', fsmMutateCh := [], acknowledged := acknowledged }
  | panicked (hdrained : s.drained fsm = none) :
      MainStep fsm s work env { s with raft := { s.raft with down := true } }

theorem main_cases (h : s.main fsm initial work env = some s') (hup : s.raft.down = false) :
    MainStep fsm s work env s' := by
  unfold main at h
  rw [if_neg (by simp [hup])] at h
  cases hwork : work.snapshot? s.raft with
  | none =>
    simp only [hwork, proceed, Option.map_eq_some_iff] at h
    obtain ⟨o, ho, rfl⟩ := h
    exact .proceed hwork ho
  | some snapshot =>
    simp only [hwork, install] at h
    cases hdrained : s.drained fsm with
    | none =>
      simp only [hdrained, Option.some.injEq] at h
      rw [← h]
      exact .panicked hdrained
    | some thread =>
      cases hrestore : thread.restore fsm snapshot with
      | mk thread' ok =>
        simp only [hdrained, hrestore, Option.map_eq_some_iff] at h
        obtain ⟨o, ho, hs⟩ := h
        by_cases hgrown : s.raft.snapshots.length < o.raft.snapshots.length
        · rw [if_pos hgrown] at hs
          rw [← hs]
          refine .install _ hwork hdrained hrestore ho hgrown ?_
          split
          · rename_i resp hresp
            split
            · rename_i hsuccess
              exact .inr ⟨rfl, resp, hresp, hsuccess⟩
            · exact .inl rfl
          · exact .inl rfl
        · rw [if_neg hgrown] at hs
          rw [← hs]
          exact .refused hwork ho hgrown

/-- A process that has gone down can only be started again. -/
theorem main_down (h : s.main fsm initial work env = some s') (hdown : s.raft.down = true) :
    work = .input .restart ∧ ∃ r, Raft.newRaft s.raft.conf s.raft.stable s.raft.logs s.raft.snapshots
        { env with restoreFSM := (startFSM fsm initial s.raft.snapshots).2 } = some r ∧
      s' = { raft := r, thread := { state := (startFSM fsm initial s.raft.snapshots).1 }
             storeCalls := s.storeCalls } := by
  unfold main at h
  rw [if_pos hdown] at h
  split at h
  · refine ⟨rfl, ?_⟩
    unfold restart at h
    simp only [Raft.step, hdown, if_true, Option.map_map, Option.map_eq_some_iff] at h
    obtain ⟨r, hr, rfl⟩ := h
    exact ⟨r, hr, rfl⟩
  · simp at h

theorem dies_cases (h : s.dies work env = some s') :
    s.raft.down = false ∧ ∃ o, s.perform env work = some o ∧
      s' = { s with
        raft := { o.raft with down := true }
        storeCalls := s.storeCall env work ++ s.storeCalls } := by
  unfold dies at h
  split at h
  · simp at h
  · rename_i hup
    rw [Option.map_eq_some_iff] at h
    obtain ⟨o, ho, rfl⟩ := h
    exact ⟨by simpa using hup, o, ho, rfl⟩

/-- What the FSM thread and the snapshot thread can do. -/
inductive BesideStep (fsm : FSM σ ρ) (s : Process σ ρ) : ProcessAction → Process σ ρ → Prop where
  | applied {batch : List Log} {rest : List (List Log)} {thread : FSMThread σ ρ}
      (hch : s.fsmMutateCh = batch :: rest) (hbatch : applyBatch fsm s.thread batch = some thread) :
      BesideStep fsm s .apply { s with thread := thread, fsmMutateCh := rest }
  | panicked : BesideStep fsm s .apply { s with raft := { s.raft with down := true } }
  | snapped (hidle : s.taking = .idle) (hindex : s.thread.lastIndex ≠ 0) :
      BesideStep fsm s .snapshot
        { s with taking := .snapped s.thread.lastIndex s.thread.lastTerm s.thread.state }
  | configurations {index term : Nat} {state : σ} (hsnapped : s.taking = .snapped index term state)
      (hmain : s.raft.main.selecting = true) :
      BesideStep fsm s .configurations (s.configurations index term state)
  | persist {env : Env} {index term : Nat} {state : σ} {committed : Configuration}
      {committedIndex : Nat}
      (hconfigured : s.taking = .configured index term state committed committedIndex) :
      BesideStep fsm s (.persist env)
        (s.persist (takenSnapshot fsm index term state committed committedIndex) env)
  | setLastSnapshot {index term : Nat} (hclosed : s.taking = .closed index term) :
      BesideStep fsm s .setLastSnapshot
        { s with raft := s.raft.setLastSnapshot index term, taking := .compacting index }
  | compact {env : Env} {index : Nat} (hcompacting : s.taking = .compacting index) :
      BesideStep fsm s (.compact env)
        { s with raft := s.raft.compactLogs index env, taking := .idle }

theorem stepBeside_cases {a : ProcessAction} (h : s.stepBeside fsm a = some s') :
    BesideStep fsm s a s' := by
  cases a with
  | main work env => simp [stepBeside] at h
  | dies work env => simp [stepBeside] at h
  | apply =>
    simp only [stepBeside] at h
    split at h
    · simp at h
    · rename_i batch rest hch
      split at h
      · rw [← Option.some.inj h]
        exact .panicked
      · rename_i thread hbatch
        rw [← Option.some.inj h]
        exact .applied hch hbatch
  | snapshot =>
    simp only [stepBeside] at h
    split at h
    · rename_i hidle
      split at h
      · simp at h
      · rename_i hindex
        rw [← Option.some.inj h]
        exact .snapped hidle hindex
    · simp at h
  | configurations =>
    simp only [stepBeside] at h
    split at h
    · rename_i index term state hsnapped
      split at h
      · rename_i hmain
        rw [← Option.some.inj h]
        exact .configurations hsnapped hmain
      · simp at h
    · simp at h
  | persist env =>
    simp only [stepBeside] at h
    split at h
    · rename_i hconfigured
      rw [← Option.some.inj h]
      exact .persist hconfigured
    · simp at h
  | setLastSnapshot =>
    simp only [stepBeside] at h
    split at h
    · rename_i hclosed
      rw [← Option.some.inj h]
      exact .setLastSnapshot hclosed
    · simp at h
  | compact env =>
    simp only [stepBeside] at h
    split at h
    · rename_i hcompacting
      rw [← Option.some.inj h]
      exact .compact hcompacting
    · simp at h

/-- One step of a process, by what is running. -/
theorem step_cases {a : ProcessAction} (h : s.step fsm initial a = some s') {P : Process σ ρ → Prop}
    (hrestart : ∀ env r, a = .main (.input .restart) env → s.raft.down = true →
      Raft.newRaft s.raft.conf s.raft.stable s.raft.logs s.raft.snapshots
        { env with restoreFSM := (startFSM fsm initial s.raft.snapshots).2 } = some r →
      P { raft := r, thread := { state := (startFSM fsm initial s.raft.snapshots).1 }
          storeCalls := s.storeCalls })
    (hmain : ∀ work env s', a = .main work env → s.raft.down = false →
      MainStep fsm s work env s' → P s')
    (hdies : ∀ work env o, a = .dies work env → s.raft.down = false → s.perform env work = some o →
      P { s with
        raft := { o.raft with down := true }
        storeCalls := s.storeCall env work ++ s.storeCalls })
    (hbeside : ∀ s', s.raft.down = false → BesideStep fsm s a s' → P s') : P s' := by
  have hother (hbefore : (if s.raft.down then none else s.stepBeside fsm a) = some s') : P s' := by
    split at hbefore
    · simp at hbefore
    · rename_i hup
      exact hbeside s' (by simpa using hup) (stepBeside_cases hbefore)
  cases a with
  | main work env =>
    cases hdown : s.raft.down with
    | true =>
      obtain ⟨rfl, r, hr, rfl⟩ := main_down h hdown
      exact hrestart env r rfl hdown hr
    | false => exact hmain work env s' rfl hdown (main_cases h hdown)
  | dies work env =>
    obtain ⟨hup, o, ho, rfl⟩ := dies_cases h
    exact hdies work env o rfl hup ho
  | apply => exact hother h
  | snapshot => exact hother h
  | configurations => exact hother h
  | persist env => exact hother h
  | setLastSnapshot => exact hother h
  | compact env => exact hother h

end Process

end PerfRaft
