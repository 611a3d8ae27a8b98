import PerfRaft.Proofs.FSM
import PerfRaft.Proofs.LastSnapshot
import PerfRaft.Proofs.Lasting
import PerfRaft.Proofs.MonotonicStore

namespace PerfRaft

section Thread

variable {σ ρ : Type} {fsm : FSM σ ρ} {t t' : FSMThread σ ρ}

theorem FSMThread.command_applySingle {req : CommitTuple} (hcommand : req.log.isCommand = true)
    (h : t.applySingle fsm req = some t') : t'.lastIndex = req.log.index := by
  have htype : req.log.type = .logCommand := of_decide_eq_true hcommand
  simp only [applySingle, htype, Option.some.injEq] at h
  rw [← h]
  rfl

/-- The FSM thread does not fall behind a command it has applied. -/
theorem FSMThread.command_le {reqs : List CommitTuple}
    (hsorted : reqs.Pairwise (fun req req' => req.log.index < req'.log.index))
    (hlow : ∀ req ∈ reqs, t.lastIndex < req.log.index)
    (h : reqs.foldlM (applySingle fsm) t = some t') :
    t.lastIndex ≤ t'.lastIndex ∧
      ∀ req ∈ reqs, req.log.isCommand = true → req.log.index ≤ t'.lastIndex := by
  induction reqs generalizing t with
  | nil =>
    cases h
    exact ⟨Nat.le_refl _, by simp⟩
  | cons req rest ih =>
    rw [List.pairwise_cons] at hsorted
    rw [List.foldlM_cons, Option.bind_eq_bind, Option.bind_eq_some_iff] at h
    obtain ⟨t₁, ht₁, hrest⟩ := h
    have hlow₁ := hlow req (by simp)
    have hindex := lastIndex_applySingle ht₁
    have hlow' : ∀ req' ∈ rest, t₁.lastIndex < req'.log.index := by
      intro req' hreq'
      have hkept := hlow req' (List.mem_cons_of_mem _ hreq')
      have hmoved := hsorted.1 req' hreq'
      omega
    obtain ⟨hle, hcommands⟩ := ih hsorted.2 hlow' hrest
    refine ⟨by omega, ?_⟩
    intro req' hreq' hcommand
    rcases List.mem_cons.mp hreq' with rfl | hreq'
    · exact command_applySingle hcommand ht₁ ▸ hle
    · exact hcommands req' hreq' hcommand

theorem Process.command_le_applyBatch {batch : List Log}
    (hsorted : batch.Pairwise (fun l l' => l.index < l'.index))
    (hlow : ∀ l ∈ batch, t.lastIndex < l.index) (h : applyBatch fsm t batch = some t') :
    ∀ l ∈ batch, l.isCommand = true → l.index ≤ t'.lastIndex := by
  intro l hl hcommand
  unfold applyBatch FSMThread.applyBatch at h
  split at h
  · refine (FSMThread.command_le ?_ ?_ h).2 ⟨l, none⟩ (List.mem_map_of_mem hl) hcommand
    · exact List.pairwise_map.mpr hsorted
    · intro req hreq
      obtain ⟨l', hl', rfl⟩ := List.mem_map.mp hreq
      exact hlow l' hl'
  · simp only [Option.ite_none_left_eq_some, Option.some.injEq] at h
    obtain ⟨-, rfl⟩ := h
    obtain ⟨last, hlast⟩ := Option.ne_none_iff_exists'.mp
      (mt List.getLast?_eq_none_iff.mp (List.ne_nil_of_mem hl))
    show l.index ≤ _
    simp only [List.getLast?_map, hlast, Option.map_some, Option.getD_some]
    obtain ⟨init, rfl⟩ := List.getLast?_eq_some_iff.mp hlast
    rcases List.mem_append.mp hl with hl | hl
    · exact ((List.pairwise_append.mp hsorted).2.2 l hl last (by simp)).le
    · rw [List.mem_singleton.mp hl]

end Thread

theorem Config.prepares_of_isCommand (conf : Config) {l : Log} (h : l.isCommand = true) :
    conf.prepares l = true := by
  have htype : l.type = .logCommand := of_decide_eq_true h
  simp [prepares, htype]

namespace Raft

variable {r : Raft} {env : Env} {input : Input} {o : Outcome} {base : List Snapshot}
  {archive : LogStore} {followed : List Nat}

/-- What is sent to the FSM can be read from the whole log: the leader's futures are in
it. -/
theorem applies_whole (h : Lasting base archive followed r) (hheaded : Headed r)
    (hup : r.down = false) (hup' : o.raft.down = false)
    (hinstall : ∀ req, input ≠ .rpc (.installSnapshot req)) (ho : r.stepUp env input = some o) :
    Applies r (LogStore.getLog (archive ++ o.raft.logs)) (appliedLogs o.events) o.raft := by
  obtain ⟨futures, happlies, hfutures⟩ := applies_stepUp ho hup hup' hinstall
  have hread : ∀ idx ∈ FSMRun.indexes r.lastApplied o.raft.lastApplied,
      o.raft.readAt futures idx = LogStore.getLog (archive ++ o.raft.logs) idx := by
    intro idx hidx
    unfold FSMRun.indexes at hidx
    rw [List.mem_range'_1] at hidx
    rw [h.getLog_archive (by omega)]
    unfold readAt
    cases hf : futureAt futures idx with
    | none => rfl
    | some f =>
      have hmem := List.mem_of_find?_eq_some hf
      have hindex : f.log.index = idx := by simpa using List.find?_some hf
      rcases hfutures with rfl | ⟨stepDown, ls, rest, rfl, hmain, hls, rfl⟩
      · cases hmem
      · have hhead := hheaded (by simp [heads, hmain]) ls (by rw [hls]; rfl)
        have hstored := hhead.ready.stored f ((List.takeWhile_prefix _).subset hmem)
        obtain ⟨stepDown', ls', -, -, -, -, hraft, -⟩ := stepUp_commit ho
        rw [hraft, (advances_leaderCommit r ls' stepDown').stores.logs, ← hindex, hstored]
        rfl
  constructor
  case le => exact happlies.le
  case found =>
    intro idx hidx
    rw [← hread idx hidx]
    exact happlies.found idx hidx
  case logs => rw [happlies.logs, List.filterMap_congr hread]

end Raft

namespace Lifetime

variable {σ ρ : Type} {fsm : FSM σ ρ} {initial : σ} {w w' : Lifetime σ ρ} {i n : Nat}

theorem mem_entriesTo {e : Log} (h : e ∈ w.entriesTo n) :
    snapshotIndex w.base < e.index ∧ e.index ≤ n := by
  obtain ⟨j, hj, hget⟩ := List.mem_filterMap.mp h
  rw [LogStore.index_of_getLog hget]
  unfold FSMRun.indexes at hj
  rw [List.mem_range'_1] at hj
  omega

/-- The entries up to an index are the first ones of those up to a later index. -/
theorem entriesTo_split (hi : snapshotIndex w.base ≤ i) (hle : i ≤ n) :
    w.entriesTo n = w.entriesTo i ++ (FSMRun.indexes i n).filterMap w.whole.getLog := by
  unfold entriesTo
  rw [← List.filterMap_append, FSMRun.indexes_append hi hle]

theorem commandsTo_filter (hi : snapshotIndex w.base ≤ i) (hle : i ≤ n) :
    (w.commandsTo n).filter (fun l => decide (l.index ≤ i)) = w.commandsTo i := by
  have hbelow : (w.commandsTo i).filter (fun l => decide (l.index ≤ i)) = w.commandsTo i := by
    rw [List.filter_eq_self]
    intro e he
    exact decide_eq_true (mem_entriesTo (List.mem_filter.mp he).1).2
  have habove : (((FSMRun.indexes i n).filterMap w.whole.getLog).filter Log.isCommand).filter
      (fun l => decide (l.index ≤ i)) = [] := by
    rw [List.filter_eq_nil_iff]
    intro e he
    obtain ⟨j, hj, hget⟩ := List.mem_filterMap.mp (List.mem_filter.mp he).1
    rw [LogStore.index_of_getLog hget, decide_eq_true_eq]
    unfold FSMRun.indexes at hj
    rw [List.mem_range'_1] at hj
    omega
  unfold commandsTo at *
  rw [entriesTo_split hi hle, List.filter_append, List.filter_append, hbelow, habove, List.append_nil]

/-- `w'` is a later state of the same life. -/
structure Continues (w w' : Lifetime σ ρ) : Prop where
  base : w'.base = w.base
  start : w'.start = w.start
  batches : w.batches <+: w'.batches
  applied : w.process.raft.lastApplied ≤ w'.process.raft.lastApplied
  entries : ∀ i ≤ w.process.raft.lastApplied, w'.whole.getLog i = w.whole.getLog i

theorem Continues.entriesTo (h : Continues w w') (hi : i ≤ w.process.raft.lastApplied) :
    w'.entriesTo i = w.entriesTo i := by
  unfold Lifetime.entriesTo
  rw [h.base]
  refine List.filterMap_congr ?_
  intro j hj
  unfold FSMRun.indexes at hj
  rw [List.mem_range'_1] at hj
  exact h.entries j (by omega)

/-- More entries are applied. -/
theorem Continues.entriesTo_applied (h : Continues w w')
    (hbase : snapshotIndex w.base ≤ w.process.raft.lastApplied) :
    w'.entriesTo w'.process.raft.lastApplied = w.entriesTo w.process.raft.lastApplied ++
      (FSMRun.indexes w.process.raft.lastApplied w'.process.raft.lastApplied).filterMap
        w'.whole.getLog := by
  rw [entriesTo_split (h.base ▸ hbase) h.applied, h.entriesTo (Nat.le_refl _)]

theorem Continues.found (h : Continues w w')
    (hbase : snapshotIndex w.base ≤ w.process.raft.lastApplied)
    (hold : ∀ j ∈ FSMRun.indexes (snapshotIndex w.base) w.process.raft.lastApplied,
      (w.whole.getLog j).isSome)
    (hnew : ∀ j ∈ FSMRun.indexes w.process.raft.lastApplied w'.process.raft.lastApplied,
      (w'.whole.getLog j).isSome) :
    ∀ j ∈ FSMRun.indexes (snapshotIndex w'.base) w'.process.raft.lastApplied,
      (w'.whole.getLog j).isSome := by
  rw [h.base, ← FSMRun.indexes_append hbase h.applied]
  intro j hj
  rcases List.mem_append.mp hj with hj | hj
  · have hle : j ≤ w.process.raft.lastApplied := by
      unfold FSMRun.indexes at hj
      rw [List.mem_range'_1] at hj
      omega
    rw [h.entries j hle]
    exact hold j hj
  · exact hnew j hj

theorem Continues.inForce (h : Continues w w') (hi : i ≤ w.process.raft.lastApplied) :
    inForce w'.base w'.whole (i + 1) = PerfRaft.inForce w.base w.whole (i + 1) := by
  rw [h.base]
  exact inForce_congr (fun j _ hj => h.entries j (by omega))

/-- The state of a snapshot with the index `i`: what the commands up to `i` have led to. -/
structure Snapped (fsm : FSM σ ρ) (w : Lifetime σ ρ) (i : Nat) (state : σ) : Prop where
  above : snapshotIndex w.base < i
  applied : i ≤ w.process.raft.lastApplied
  run : ∃ batches thread, batches <+: w.batches ∧
    batches.foldlM (Process.applyBatch fsm) { state := w.start } = some thread ∧
    thread.state = state ∧ batches.flatten.filter Log.isCommand = w.commandsTo i

/-- What is known of the snapshot that is being taken. -/
def Taken (fsm : FSM σ ρ) (w : Lifetime σ ρ) : TakeSnapshot σ → Prop
  | .idle => True
  | .snapped i _ state => Snapped fsm w i state
  | .configured i _ state committed committedIndex => Snapped fsm w i state ∧
      (committed, committedIndex) = inForce w.base w.whole (i + 1) ∧ committedIndex ≤ i
  | .closed i _ | .compacting i => snapshotIndex w.base ≤ i ∧ i ≤ w.process.raft.lastApplied

theorem Snapped.continues {state : σ} (h : Snapped fsm w i state) (hc : Continues w w') :
    Snapped fsm w' i state where
  above := hc.base ▸ h.above
  applied := h.applied.trans hc.applied
  run := by
    obtain ⟨batches, thread, hprefix, hrun, hstate, hcommands⟩ := h.run
    refine ⟨batches, thread, hprefix.trans hc.batches, hc.start ▸ hrun, hstate, ?_⟩
    rw [hcommands]
    unfold commandsTo
    rw [hc.entriesTo h.applied]

theorem Taken.continues {t : TakeSnapshot σ} (h : Taken fsm w t) (hc : Continues w w') :
    Taken fsm w' t := by
  cases t with
  | idle => trivial
  | snapped i term state => exact Snapped.continues h hc
  | configured i term state committed committedIndex =>
    obtain ⟨hsnapped, hforce, hle⟩ := h
    exact ⟨hsnapped.continues hc, hforce.trans (hc.inForce hsnapped.applied).symm, hle⟩
  | closed i term => exact ⟨hc.base ▸ h.1, h.2.trans hc.applied⟩
  | compacting i => exact ⟨hc.base ▸ h.1, h.2.trans hc.applied⟩

/-- A running process: its FSM is in the state that its batches lead to, and they and
those in the channel are the entries applied since it was started. -/
structure Lived (fsm : FSM σ ρ) (w : Lifetime σ ρ) : Prop where
  lasting : Raft.Lasting w.base w.archive w.followed w.process.raft
  headed : Raft.Headed w.process.raft
  unflagged : Raft.Unflagged w.process.raft
  ordered : Process.Ordered w.process
  run : w.batches.foldlM (Process.applyBatch fsm) { state := w.start } = some w.process.thread
  entries : (w.batches ++ w.process.fsmMutateCh).flatten =
    (w.entriesTo w.process.raft.lastApplied).filter w.process.raft.conf.prepares
  found : ∀ j ∈ FSMRun.indexes (snapshotIndex w.base) w.process.raft.lastApplied,
    (w.whole.getLog j).isSome
  thread : w.process.thread.lastIndex = 0 ∨ snapshotIndex w.base < w.process.thread.lastIndex
  commands : ∀ l ∈ w.batches.flatten, l.isCommand = true → l.index ≤ w.process.thread.lastIndex
  taking : Taken fsm w w.process.taking

/-- What the FSM has applied are the commands up to its index. -/
theorem Lived.commandsTo (h : Lived fsm w) (hindex : w.process.thread.lastIndex ≠ 0) :
    w.batches.flatten.filter Log.isCommand = w.commandsTo w.process.thread.lastIndex := by
  have hbase := (h.thread.resolve_left hindex).le
  have happlied := h.ordered.queued.le
  have hcommands : (w.batches.flatten ++ w.process.fsmMutateCh.flatten).filter Log.isCommand =
      w.commandsTo w.process.raft.lastApplied := by
    rw [← List.flatten_append, h.entries, List.filter_filter]
    unfold Lifetime.commandsTo
    refine List.filter_congr ?_
    intro l _
    cases hcommand : l.isCommand with
    | false => rfl
    | true => rw [Config.prepares_of_isCommand _ hcommand, Bool.and_self]
  have hdone : (w.batches.flatten.filter Log.isCommand).filter
      (fun l => decide (l.index ≤ w.process.thread.lastIndex)) =
        w.batches.flatten.filter Log.isCommand := by
    rw [List.filter_eq_self]
    intro l hl
    obtain ⟨hmem, hcommand⟩ := List.mem_filter.mp hl
    exact decide_eq_true (h.commands l hmem hcommand)
  have hqueued : (w.process.fsmMutateCh.flatten.filter Log.isCommand).filter
      (fun l => decide (l.index ≤ w.process.thread.lastIndex)) = [] := by
    rw [List.filter_eq_nil_iff]
    intro l hl
    have habove := h.ordered.queued.above l (List.mem_filter.mp hl).1
    rw [decide_eq_true_eq]
    omega
  rw [← commandsTo_filter hbase happlied, ← hcommands, List.filter_append, List.filter_append, hdone,
    hqueued, List.append_nil]

section Main

variable {work : Work} {env : Env} {s' : Process σ ρ} {o : Outcome}

theorem record_main (hup : w.process.raft.down = false) :
    w.record (.main work env) s' =
      { w with
        process := s'
        followed := LogStore.followed (w.archive ++ s'.raft.logs) ++ w.followed } := by
  simp [record, hup, compacted, taken]

theorem snapshot?_of_unaided (h : work.unaided = true) (r : Raft) : work.snapshot? r = none := by
  unfold Work.unaided at h
  unfold Work.snapshot?
  split at h <;> simp_all

theorem Lived.proceed (h : Lived fsm w) (hup : w.process.raft.down = false)
    (hok : w.Regular (.main work env)) (ho : w.process.perform env work = some o)
    (hup' : o.raft.down = false) :
    Lived fsm (w.record (.main work env)
      { w.process with
        raft := o.raft
        fsmMutateCh := w.process.fsmMutateCh ++
          cutBatches w.process.raft.conf.maxAppendEntries (appliedLogs o.events) []
        storeCalls := w.process.storeCall env work ++ w.process.storeCalls }) := by
  obtain ⟨⟨henv, hunaided, hkept⟩, horder, hversion⟩ := hok
  have hwork := snapshot?_of_unaided hunaided w.process.raft
  have hconf := Process.conf_perform ho
  have hordered := h.ordered.proceed hup hwork ho hup'
    (w.process.storeCall env work ++ w.process.storeCalls) w.process.raft.conf.maxAppendEntries
  rcases Process.perform_cases ho with ⟨input, rfl, hstep, hbeat⟩ | ⟨user, stepDown, rfl, -⟩
  case inr => simp [Work.unaided] at hunaided
  have hstep := Raft.step_up hstep hup
  have hinstall : ∀ req, input ≠ .rpc (.installSnapshot req) := by
    rintro req rfl
    simp [Work.unaided] at hunaided
  obtain ⟨hlasting, hwhole⟩ := h.lasting.stepUp h.headed hup henv hinstall hbeat
    (by
      rintro a rfl call hcall
      exact ⟨hkept call hcall, horder call hcall⟩)
    (by
      rintro req future rfl
      exact hversion rfl) hstep
  have happlies := Raft.applies_whole h.lasting h.headed hup hup' hinstall hstep
  rw [record_main hup]
  have hcontinues : Continues w
      { w with
        process :=
          { w.process with
            raft := o.raft
            fsmMutateCh := w.process.fsmMutateCh ++
              cutBatches w.process.raft.conf.maxAppendEntries (appliedLogs o.events) []
            storeCalls := w.process.storeCall env (.input input) ++ w.process.storeCalls }
        followed := LogStore.followed (w.archive ++ o.raft.logs) ++ w.followed } :=
    ⟨rfl, rfl, List.prefix_refl _, happlies.le, hwhole⟩
  have hbase : snapshotIndex w.base ≤ w.process.raft.lastApplied :=
    h.lasting.first.trans h.lasting.last
  constructor
  case lasting => exact hlasting
  case headed =>
    exact h.headed.stepUp h.unflagged h.lasting.belowLast hup henv.2.1 hinstall hbeat hstep
  case unflagged => exact h.unflagged.stepUp hup hstep
  case ordered => exact hordered
  case run => exact h.run
  case entries =>
    have hentries := congrArg (List.filter w.process.raft.conf.prepares)
      (hcontinues.entriesTo_applied hbase)
    dsimp only at hentries ⊢
    rw [hconf, hentries, List.filter_append, ← h.entries, ← List.append_assoc, List.flatten_append,
      flatten_cutBatches, List.nil_append, happlies.logs]
    rfl
  case found => exact hcontinues.found hbase h.found happlies.found
  case thread => exact h.thread
  case commands => exact h.commands
  case taking => exact h.taking.continues hcontinues

end Main

section Beside

variable {s' : Process σ ρ} {env : Env}

/-- A step that leaves the log and the FSM thread alone. -/
theorem Lived.same (h : Lived fsm w) (hordered : Process.Ordered s')
    (hlasting : Raft.Lasting w.base w.archive w.followed s'.raft) (hheaded : Raft.Headed s'.raft)
    (hunflagged : Raft.Unflagged s'.raft) (hconf : s'.raft.conf = w.process.raft.conf)
    (happlied : s'.raft.lastApplied = w.process.raft.lastApplied)
    (hlogs : s'.raft.logs = w.process.raft.logs) (hthread : s'.thread = w.process.thread)
    (hch : s'.fsmMutateCh = w.process.fsmMutateCh) (htaking : Taken fsm w s'.taking)
    (followed : List Nat) : Lived fsm { w with process := s', followed := followed ++ w.followed } := by
  have hcontinues : Continues w { w with process := s', followed := followed ++ w.followed } := by
    refine ⟨rfl, rfl, List.prefix_refl _, happlied.ge, ?_⟩
    intro i _
    unfold whole
    rw [hlogs]
  have hbase : snapshotIndex w.base ≤ w.process.raft.lastApplied :=
    h.lasting.first.trans h.lasting.last
  constructor
  case lasting => exact hlasting.mono (List.subset_append_right _ _)
  case headed => exact hheaded
  case unflagged => exact hunflagged
  case ordered => exact hordered
  case run => exact hthread ▸ h.run
  case entries =>
    have hentries := hcontinues.entriesTo (Nat.le_refl _)
    dsimp only at hentries ⊢
    rw [hconf, hch, happlied, hentries]
    exact h.entries
  case found =>
    refine hcontinues.found hbase h.found ?_
    dsimp only
    rw [happlied, FSMRun.indexes_eq_nil (Nat.le_refl _)]
    simp
  case thread => exact hthread ▸ h.thread
  case commands => exact hthread ▸ h.commands
  case taking => exact htaking.continues hcontinues

theorem Lived.applied (h : Lived fsm w) {batch : List Log} {rest : List (List Log)}
    {thread : FSMThread σ ρ} (hch : w.process.fsmMutateCh = batch :: rest)
    (hbatch : Process.applyBatch fsm w.process.thread batch = some thread)
    (hordered : Process.Ordered { w.process with thread := thread, fsmMutateCh := rest })
    (followed : List Nat) :
    Lived fsm
      { w with
        process := { w.process with thread := thread, fsmMutateCh := rest }
        followed := followed ++ w.followed
        batches := w.batches ++ [batch] } := by
  have hqueued := h.ordered.queued
  rw [hch] at hqueued
  have hmem : ∀ l ∈ batch, l ∈ (batch :: rest).flatten := fun l hl => by simp [hl]
  have habove : ∀ l ∈ batch, snapshotIndex w.base < l.index := by
    intro l hl
    have hentry : l ∈ (w.batches ++ w.process.fsmMutateCh).flatten := by
      rw [hch, List.flatten_append]
      exact List.mem_append_right _ (hmem l hl)
    rw [h.entries] at hentry
    exact (mem_entriesTo (List.mem_filter.mp hentry).1).1
  have hle := (hqueued.applyBatch hbatch).2
  have hsorted := hqueued.sorted
  rw [List.flatten_cons, List.pairwise_append] at hsorted
  constructor
  case lasting => exact h.lasting.mono (List.subset_append_right _ _)
  case headed => exact h.headed
  case unflagged => exact h.unflagged
  case ordered => exact hordered
  case run =>
    dsimp only
    rw [List.foldlM_append, h.run]
    simpa using hbatch
  case entries =>
    have hentries := h.entries
    rw [hch] at hentries
    dsimp only
    rw [List.append_assoc]
    exact hentries
  case found => exact h.found
  case thread =>
    dsimp only
    rcases Process.lastIndex_applyBatch (hqueued.ne_nil batch (by simp)) hbatch with
      hkept | ⟨l, hl, hindex⟩
    · exact hkept ▸ h.thread
    · exact .inr (hindex ▸ habove l hl)
  case commands =>
    intro l hl hcommand
    rw [List.flatten_append, List.mem_append] at hl
    rcases hl with hl | hl
    · exact (h.commands l hl hcommand).trans hle
    · refine Process.command_le_applyBatch hsorted.1 ?_ hbatch l (by simpa using hl) hcommand
      exact fun l' hl' => (hqueued.above l' (hmem l' hl')).1
  case taking =>
    exact h.taking.continues ⟨rfl, rfl, List.prefix_append _ _, Nat.le_refl _, fun _ _ => rfl⟩

theorem Lived.compact (h : Lived fsm w) {index : Nat} (hindex : index ≤ w.process.raft.lastApplied)
    (hordered : Process.Ordered
      { w.process with raft := w.process.raft.compactLogs index env, taking := .idle })
    (followed : List Nat) :
    Lived fsm
      { w with
        process := { w.process with raft := w.process.raft.compactLogs index env, taking := .idle }
        archive := w.archive ++ w.process.raft.logs.filter
          (fun e => decide (e ∉ (w.process.raft.compactLogs index env).logs))
        followed := followed ++ w.followed } := by
  have hlasting := h.lasting.compactLogs hindex env
  have hheaded := h.headed.compactLogs hindex env
  have hwhole := fun i => Raft.compactLogs_whole w.process.raft w.archive index i env
  obtain ⟨logs, hcompacted⟩ :
      ∃ logs, w.process.raft.compactLogs index env = { w.process.raft with logs := logs } :=
    ⟨_, (Raft.compactLogs_frame w.process.raft index env).1⟩
  rw [hcompacted] at hlasting hheaded hwhole hordered ⊢
  have hcontinues : Continues w
      { w with
        process := { w.process with raft := { w.process.raft with logs := logs }, taking := .idle }
        archive := w.archive ++ w.process.raft.logs.filter (fun e => decide (e ∉ logs))
        followed := followed ++ w.followed } :=
    ⟨rfl, rfl, List.prefix_refl _, Nat.le_refl _, fun i _ => hwhole i⟩
  constructor
  case lasting => exact hlasting.mono (List.subset_append_right _ _)
  case headed => exact hheaded
  case unflagged => exact h.unflagged.same id rfl
  case ordered => exact hordered
  case run => exact h.run
  case entries =>
    have hentries := hcontinues.entriesTo (Nat.le_refl _)
    dsimp only at hentries ⊢
    rw [hentries]
    exact h.entries
  case found =>
    refine hcontinues.found (h.lasting.first.trans h.lasting.last) h.found ?_
    dsimp only
    rw [FSMRun.indexes_eq_nil (Nat.le_refl _)]
    simp
  case thread => exact h.thread
  case commands => exact h.commands
  case taking => trivial

theorem record_beside {a : ProcessAction} (hup : w.process.raft.down = false)
    (hcompacted : compacted w.process s' a = []) (htaken : taken w.process a = []) :
    w.record a s' =
      { w with
        process := s'
        followed := LogStore.followed (w.archive ++ s'.raft.logs) ++ w.followed } := by
  simp [record, hup, hcompacted, htaken]

theorem Lived.beside (h : Lived fsm w) (hup : w.process.raft.down = false) {a : ProcessAction}
    (hs : Process.BesideStep fsm w.process a s') (hup' : s'.raft.down = false) :
    Lived fsm (w.record a s') := by
  have hordered := (h.ordered.beside hs hup').1
  have htaking := h.taking
  cases hs with
  | @applied batch rest thread hch hbatch =>
    have hrecord := h.applied hch hbatch hordered
      (LogStore.followed (w.archive ++ w.process.raft.logs))
    simpa [record, hup, compacted, taken, hch] using hrecord
  | panicked => simp at hup'
  | snapped _ hindex =>
    rw [record_beside hup rfl rfl]
    refine h.same hordered h.lasting h.headed h.unflagged rfl rfl rfl rfl rfl ?_ _
    exact ⟨h.thread.resolve_left hindex, h.ordered.queued.le, w.batches, w.process.thread,
      List.prefix_refl _, h.run, rfl, h.commandsTo hindex⟩
  | @configurations index term state hsnapped hmain =>
    rw [record_beside hup rfl rfl]
    rw [hsnapped] at htaking
    have hsame : Raft.SameData w.process.raft (w.process.configurations index term state).raft :=
      (Raft.SameData.refl _).setMain _
    refine h.same hordered (h.lasting.sameData hsame) ?_ (h.unflagged.same id rfl) rfl rfl rfl rfl rfl ?_ _
    · exact h.headed.same (Raft.heads_again hmain) hsame rfl
    · unfold Process.configurations
      dsimp only
      split
      · trivial
      · rename_i hle
        exact ⟨htaking, h.lasting.inForce_committed htaking.applied (Nat.not_lt.mp hle), Nat.not_lt.mp hle⟩
  | @persist env index term state committed committedIndex hconfigured =>
    rw [record_beside hup rfl rfl]
    rw [hconfigured] at htaking
    obtain ⟨hsnapped, hforce, hle⟩ := htaking
    revert hordered
    unfold Process.persist
    split
    · intro hordered
      exact h.same hordered h.lasting h.headed h.unflagged rfl rfl rfl rfl rfl trivial _
    · intro hordered
      refine h.same hordered (h.lasting.addSnapshot hsnapped.applied) ?_ (h.unflagged.same id rfl)
        rfl rfl rfl rfl rfl ?_ _
      · intro hheads ls hls
        exact (h.headed hheads ls hls).congr (Nat.le_refl _) rfl rfl (fun _ _ => rfl)
      · exact ⟨hsnapped.above.le, hsnapped.applied⟩
  | @setLastSnapshot index term hclosed =>
    rw [record_beside hup rfl rfl]
    have hrises := (h.ordered.taking index (by rw [hclosed]; rfl)).1
    rw [hclosed] at htaking
    exact h.same hordered (h.lasting.setLastSnapshot htaking.1 htaking.2)
      (h.headed.setLastSnapshot hrises term) (h.unflagged.same id rfl) rfl rfl rfl rfl rfl htaking _
  | @compact env index hcompacting =>
    rw [hcompacting] at htaking
    have hrecord := h.compact htaking.2 hordered (LogStore.followed
      (w.archive ++ w.process.raft.logs.filter
        (fun e => decide (e ∉ (w.process.raft.compactLogs index env).logs)) ++
          (w.process.raft.compactLogs index env).logs))
    simpa [record, hup, compacted, taken] using hrecord

end Beside

/-- Every snapshot covers its configuration. -/
def Covering (snapshots : List Snapshot) : Prop :=
  ∀ snapshot ∈ snapshots, snapshot.metadata.configurationIndex ≤ snapshot.metadata.index

theorem Covering.newest {snapshots : List Snapshot} (h : Covering snapshots) :
    (snapshotConfiguration snapshots).2 ≤ snapshotIndex snapshots := by
  cases snapshots with
  | nil => exact Nat.le_refl _
  | cons snapshot rest => exact h snapshot (by simp)

/-- A process that has just been started has applied nothing. -/
theorem lived_born {s : Process σ ρ} {env : Env} {r : Raft} (hcovering : Covering s.raft.snapshots)
    (hr : Raft.newRaft s.raft.conf s.raft.stable s.raft.logs s.raft.snapshots env = some r) (state : σ)
    (calls : List (LogStore × List Log)) :
    Lived fsm (born { raft := r, thread := { state := state }, storeCalls := calls }) := by
  have hstarted := Raft.started_newRaft hr
  obtain ⟨hindex, -, happlied⟩ := Raft.newRaft_lastSnapshot hr
  have hlasting := Raft.lasting_newRaft hcovering.newest hr
  have hnothing : r.lastApplied ≤ snapshotIndex r.snapshots := by
    rw [happlied, hindex, hstarted.snapshots]
  constructor
  case lasting => exact hlasting
  case headed =>
    intro hheads
    simp [born, Raft.heads, hstarted.main] at hheads
  case unflagged => exact fun _ => hstarted.transfer
  case ordered =>
    refine ⟨happlied.ge, ⟨Nat.zero_le _, .inl rfl, ?_, ?_, ?_⟩, ?_, ?_⟩ <;>
      simp [born, TakeSnapshot.unset?]
  case run => rfl
  case entries =>
    unfold entriesTo
    simp [born, FSMRun.indexes_eq_nil hnothing]
  case found =>
    simp [born, FSMRun.indexes_eq_nil hnothing]
  case thread => exact .inl rfl
  case commands => simp [born]
  case taking => trivial

theorem process_record (w : Lifetime σ ρ) (a : ProcessAction) (s' : Process σ ρ) :
    (w.record a s').process = s' := by
  unfold record
  split <;> rfl

section Step

variable {work : Work} {env : Env} {s' : Process σ ρ} {o : Outcome} {a : ProcessAction}

/-- The main thread leaves the snapshots alone when it is given none. -/
theorem snapshots_perform (hup : w.process.raft.down = false) (hunaided : work.unaided = true)
    (ho : w.process.perform env work = some o) : o.raft.snapshots = w.process.raft.snapshots := by
  rcases Process.perform_cases ho with ⟨input, rfl, hstep, -⟩ | ⟨user, stepDown, rfl, -⟩
  · refine (Raft.sameSnapshots_stepUp (Raft.step_up hstep hup) hup ?_).snapshots
    rintro req rfl
    simp [Work.unaided] at hunaided
  · simp [Work.unaided] at hunaided

theorem Lived.main (h : Lived fsm w) (hup : w.process.raft.down = false)
    (hok : w.Regular (.main work env)) (hs : Process.MainStep fsm w.process work env s') :
    s'.raft.snapshots = w.process.raft.snapshots ∧
      (s'.raft.down = false → Lived fsm (w.record (.main work env) s')) := by
  have hunaided := hok.1.2.1
  have hnone := snapshot?_of_unaided hunaided w.process.raft
  cases hs with
  | proceed hwork ho =>
    exact ⟨snapshots_perform hup hunaided ho, fun hup' => h.proceed hup hok ho hup'⟩
  | refused hwork => simp [hnone] at hwork
  | install acknowledged hwork => simp [hnone] at hwork
  | panicked => exact ⟨rfl, fun hup' => by simp at hup'⟩

/-- The snapshots after a step beside the main thread. -/
theorem Lived.covering (h : Lived fsm w) (hcovering : Covering w.process.raft.snapshots)
    (hs : Process.BesideStep fsm w.process a s') : Covering s'.raft.snapshots := by
  have htaking := h.taking
  cases hs with
  | @persist env index term state committed committedIndex hconfigured =>
    rw [hconfigured] at htaking
    unfold Process.persist
    split
    · exact hcovering
    · intro snapshot hsnapshot
      rcases Process.mem_addSnapshot.mp hsnapshot with rfl | hold
      · exact htaking.2.2
      · exact hcovering snapshot hold
  | @compact env index =>
    have hsame : (w.process.raft.compactLogs index env).snapshots = w.process.raft.snapshots := by
      rw [(Raft.compactLogs_frame w.process.raft index env).1]
    exact hsame ▸ hcovering
  | applied | panicked | snapped | configurations | setLastSnapshot => exact hcovering

theorem Lived.step (hcovering : Covering w.process.raft.snapshots)
    (h : w.process.raft.down = false → Lived fsm w) (hok : w.Regular a)
    (hs : w.process.step fsm initial a = some s') :
    Covering s'.raft.snapshots ∧ (s'.raft.down = false → Lived fsm (w.record a s')) := by
  refine Process.step_cases (P := fun s' => Covering s'.raft.snapshots ∧
    (s'.raft.down = false → Lived fsm (w.record a s'))) hs ?_ ?_ ?_ ?_
  · intro env r _ hdown hr
    refine ⟨(Raft.started_newRaft hr).snapshots ▸ hcovering, fun _ => ?_⟩
    unfold record
    rw [if_pos hdown]
    exact lived_born hcovering hr _ _
  · rintro work env s' rfl hup hmain
    obtain ⟨hsnapshots, hlived⟩ := (h hup).main hup hok hmain
    exact ⟨hsnapshots ▸ hcovering, hlived⟩
  · rintro work env o rfl hup ho
    refine ⟨?_, fun hup' => by simp at hup'⟩
    exact snapshots_perform hup hok.1 ho ▸ hcovering
  · intro s' hup hbeside
    exact ⟨(h hup).covering hcovering hbeside, fun hup' => (h hup).beside hup hbeside hup'⟩

end Step

theorem lived_of_reachable (h : (system fsm initial).Reachable Regular w)
    (hup : w.process.raft.down = false) : Lived fsm w := by
  refine (Lib.System.Reachable.invariant (P := fun w => Covering w.process.raft.snapshots ∧
    (w.process.raft.down = false → Lived fsm w)) ?_ ?_ h).2 hup
  · rintro w ⟨⟨conf, currentTerm, logs, snapshots, hprocess⟩, hcovering⟩
    refine ⟨hcovering, fun hup => ?_⟩
    rw [hprocess] at hup
    cases hup
  · rintro w a w' ⟨hcovering, hlived⟩ hok hstep
    simp only [system, Option.map_eq_some_iff] at hstep
    obtain ⟨s', hs', rfl⟩ := hstep
    rw [process_record]
    exact Lived.step hcovering hlived hok hs'

/-- A snapshot that `takeSnapshot` creates, in a run whose requests are in order and above
the last snapshot: its configuration is that of the last configuration entry up to its
index, and its contents are those of the FSM after exactly the commands up to its index,
all of which are committed. -/
theorem taken_snapshot_exact {env : Env} {snapshot : Snapshot}
    (h : (system fsm initial).Reachable Regular w)
    (hstep : (system fsm initial).step w (.persist env) = some w')
    (hnew : snapshot ∈ w'.process.raft.snapshots) (hold : snapshot ∉ w.process.raft.snapshots) :
    (snapshot.metadata.configuration, snapshot.metadata.configurationIndex) =
        inForce w.base w.whole (snapshot.metadata.index + 1) ∧
      snapshot.metadata.index ≤ w.process.raft.commitIndex ∧
      (∀ j ∈ FSMRun.indexes (snapshotIndex w.base) snapshot.metadata.index,
        (w.whole.getLog j).isSome) ∧
      ∃ (batches : List (List Log)) (thread : FSMThread σ ρ), batches <+: w.batches ∧
        batches.foldlM (Process.applyBatch fsm) { state := w.start } = some thread ∧
        snapshot.contents = fsm.persist thread.state ∧
        batches.flatten.filter Log.isCommand = w.commandsTo snapshot.metadata.index := by
  simp only [system, Option.map_eq_some_iff] at hstep
  obtain ⟨s', hs', rfl⟩ := hstep
  rw [process_record] at hnew
  revert hnew
  refine Process.step_cases (P := fun s' => snapshot ∈ s'.raft.snapshots → _) hs' ?_ ?_ ?_ ?_
  · rintro env r ⟨⟩
  · rintro work env s' ⟨⟩
  · rintro work env o ⟨⟩
  intro s' hup hbeside hnew
  have hlived := lived_of_reachable h hup
  have htaking := hlived.taking
  cases hbeside with
  | @persist _ index term state committed committedIndex hconfigured =>
    rw [hconfigured] at htaking
    obtain ⟨hsnapped, hforce, -⟩ := htaking
    unfold Process.persist at hnew
    split at hnew
    · exact absurd hnew hold
    rcases Process.mem_addSnapshot.mp hnew with rfl | hmem
    case inr => exact absurd hmem hold
    obtain ⟨batches, thread, hprefix, hrun, rfl, hcommands⟩ := hsnapped.run
    refine ⟨hforce, ?_, ?_, batches, thread, hprefix, hrun, rfl, hcommands⟩
    · have habove : snapshotIndex w.base < index := hsnapped.above
      have happlied := hsnapped.applied
      have hcommitted := hlived.lasting.applied
      show index ≤ w.process.raft.commitIndex
      omega
    · intro j hj
      apply hlived.found
      rw [← FSMRun.indexes_append hsnapped.above.le hsnapped.applied]
      exact List.mem_append_left _ hj

/-- A server with empty stores that keeps no trailing logs, and is to join a cluster. -/
def joining : Lifetime Nat Nat where
  process :=
    { raft := { conf := { localID := [65], localAddr := [65], trailingLogs := 0 }, down := true }
      thread := { state := 0 } }
  start := 0

theorem init_joining : (system counter 0).init joining :=
  ⟨⟨_, _, _, _, rfl⟩, by simp [joining]⟩

def configurationEntry (index : Nat) (servers : List Server) : Log :=
  { index := index, term := 2, type := .logConfiguration, data := encodeConfiguration ⟨servers⟩ }

/-- Entries from the leader `B` after the entry `prev`. -/
def entriesFrom (prev : Nat) (entries : List Log) (commit : Nat) : List ProcessAction :=
  [Process.given (.rpc (.appendEntries
    { header := { id := [66], addr := [66] }, term := 2, prevLogEntry := prev
      prevLogTerm := if prev = 0 then 0 else 2, entries := entries, leaderCommitIndex := commit })),
    Process.given .loopTest]

/-- The first request to the new server `A`: the leader's own configuration and the one
with `A`. -/
def firstEntries : List ProcessAction :=
  entriesFrom 0 [configurationEntry 1 [voterNamed 66],
    configurationEntry 2 [voterNamed 65, voterNamed 66]] 1

/-- `C` joins, and a command follows. -/
def nextEntries : List ProcessAction :=
  entriesFrom 2 [configurationEntry 3 [voterNamed 65, voterNamed 66, voterNamed 67],
    { index := 4, term := 2, type := .logCommand }] 4

/-- `takeSnapshot` up to where the snapshot is created. -/
def beforePersist : List ProcessAction :=
  [.snapshot, .configurations, Process.given .loopTest]

/-- The new server is about to create its first snapshot. -/
def joined : List ProcessAction :=
  Process.booted ++ firstEntries ++ nextEntries ++ [ProcessAction.apply, .apply] ++ beforePersist

/-- It has created the snapshot, which leaves its log empty, and has started again. Then
the first request arrives once more, and another command, and it is about to create its
next snapshot. -/
def rejoined : List ProcessAction :=
  joined ++ [.persist {}, .setLastSnapshot, .compact {}, Process.given .crash] ++ Process.booted ++
    firstEntries ++ entriesFrom 4 [{ index := 5, term := 2, type := .logCommand }] 5 ++
    [ProcessAction.apply] ++ beforePersist

/-- The snapshot that `persist` would create has this index and configuration, where the
one in force has the second. -/
def creates (index : Nat) (taken force : Configuration × Nat) (w : Lifetime Nat Nat) : Bool :=
  ((system counter 0).step w (.persist {})).any (fun w' =>
    w'.process.raft.snapshots.any (fun snapshot =>
      decide (snapshot ∉ w.process.raft.snapshots ∧ snapshot.metadata.index = index ∧
        (snapshot.metadata.configuration, snapshot.metadata.configurationIndex) = taken ∧
        inForce w.base w.whole (index + 1) = force)))

theorem exists_of_creates {index : Nat} {taken force : Configuration × Nat} {w : Lifetime Nat Nat}
    (h : creates index taken force w = true) :
    ∃ w' snapshot, (system counter 0).step w (.persist {}) = some w' ∧
      snapshot ∈ w'.process.raft.snapshots ∧ snapshot ∉ w.process.raft.snapshots ∧
      snapshot.metadata.index = index ∧
      (snapshot.metadata.configuration, snapshot.metadata.configurationIndex) = taken ∧
      inForce w.base w.whole (index + 1) = force := by
  unfold creates at h
  rw [Option.any_eq_true] at h
  obtain ⟨w', hstep, h⟩ := h
  rw [List.any_eq_true] at h
  obtain ⟨snapshot, hmem, h⟩ := h
  exact ⟨w', snapshot, hstep, hmem, of_decide_eq_true h⟩

/-- The snapshot of the new server has the configuration with `C`. -/
theorem taken_snapshot_exact_joined :
    ∃ (w w' : Lifetime Nat Nat) (snapshot : Snapshot), (system counter 0).Reachable Regular w ∧
      (system counter 0).step w (.persist {}) = some w' ∧
      snapshot ∈ w'.process.raft.snapshots ∧ snapshot ∉ w.process.raft.snapshots ∧
      snapshot.metadata.index = 4 ∧
      (snapshot.metadata.configuration, snapshot.metadata.configurationIndex) =
        inForce w.base w.whole 5 ∧ 4 ≤ w.process.raft.commitIndex := by
  obtain ⟨w, hreachable, hcheck⟩ : ∃ w, (system counter 0).Reachable Regular w ∧
      creates 4 (⟨[voterNamed 65, voterNamed 66, voterNamed 67]⟩, 3)
        (⟨[voterNamed 65, voterNamed 66, voterNamed 67]⟩, 3) w = true :=
    Lib.System.exists_reachable init_joining (joined.map (fun a _ => a)) (by decide +kernel)
  obtain ⟨w', snapshot, hstep, hnew, hold, hindex, -, -⟩ := exists_of_creates hcheck
  have hexact := taken_snapshot_exact hreachable hstep hnew hold
  rw [hindex] at hexact
  exact ⟨w, w', snapshot, hreachable, hstep, hnew, hold, hindex, hexact.1, hexact.2.1⟩

/-- The entries of the first request are stored below the snapshot, and the configuration
without `C` goes into the next snapshot. -/
theorem taken_snapshot_outdated :
    ∃ (w w' : Lifetime Nat Nat) (snapshot : Snapshot), (system counter 0).Reachable Settled w ∧
      (system counter 0).step w (.persist {}) = some w' ∧
      snapshot ∈ w'.process.raft.snapshots ∧ snapshot ∉ w.process.raft.snapshots ∧
      snapshot.metadata.index = 5 ∧
      (snapshot.metadata.configuration, snapshot.metadata.configurationIndex) =
        (⟨[voterNamed 65, voterNamed 66]⟩, 2) ∧
      inForce w.base w.whole 6 = (⟨[voterNamed 65, voterNamed 66, voterNamed 67]⟩, 3) := by
  obtain ⟨w, hreach, hcheck⟩ : ∃ w, (system counter 0).Reachable Settled w ∧
      creates 5 (⟨[voterNamed 65, voterNamed 66]⟩, 2)
        (⟨[voterNamed 65, voterNamed 66, voterNamed 67]⟩, 3) w = true :=
    Lib.System.exists_reachable init_joining (rejoined.map (fun a _ => a)) (by decide +kernel)
  obtain ⟨w', snapshot, hstep, hnew, hold, hindex, hconfiguration, hforce⟩ :=
    exists_of_creates hcheck
  exact ⟨w, w', snapshot, hreach, hstep, hnew, hold, hindex,
    hconfiguration, hforce⟩

end Lifetime

end PerfRaft
