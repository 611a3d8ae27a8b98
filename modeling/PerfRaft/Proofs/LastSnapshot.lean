import PerfRaft.Proofs.Applied
import PerfRaft.Proofs.Disk
import PerfRaft.Proofs.Process

namespace PerfRaft

section Thread

variable {σ ρ : Type} {fsm : FSM σ ρ} {t t' : FSMThread σ ρ}

theorem FSMThread.lastIndex_applySingle {req : CommitTuple} (h : t.applySingle fsm req = some t') :
    t'.lastIndex = t.lastIndex ∨ t'.lastIndex = req.log.index := by
  unfold applySingle at h
  split at h
  · cases h
    exact .inr rfl
  · split at h
    · cases h
      exact .inl rfl
    · split at h
      · simp at h
      · cases h
        exact .inr rfl
  · cases h
    exact .inr rfl

theorem FSMThread.lastIndex_foldlM {reqs : List CommitTuple}
    (h : reqs.foldlM (applySingle fsm) t = some t') :
    t'.lastIndex = t.lastIndex ∨ ∃ req ∈ reqs, t'.lastIndex = req.log.index := by
  induction reqs generalizing t with
  | nil =>
    cases h
    exact .inl rfl
  | cons req rest ih =>
    rw [List.foldlM_cons, Option.bind_eq_bind, Option.bind_eq_some_iff] at h
    obtain ⟨t₁, ht₁, hrest⟩ := h
    rcases ih hrest with hkept | ⟨req', hmem, hindex⟩
    · rcases lastIndex_applySingle ht₁ with h₁ | h₁
      · exact .inl (hkept.trans h₁)
      · exact .inr ⟨req, by simp, hkept.trans h₁⟩
    · exact .inr ⟨req', List.mem_cons_of_mem _ hmem, hindex⟩

/-- A batch leaves the index of the FSM thread alone, or moves it to that of one of
its entries. -/
theorem Process.lastIndex_applyBatch {batch : List Log} (hne : batch ≠ [])
    (h : applyBatch fsm t batch = some t') :
    t'.lastIndex = t.lastIndex ∨ ∃ l ∈ batch, t'.lastIndex = l.index := by
  unfold applyBatch FSMThread.applyBatch at h
  split at h
  · rcases FSMThread.lastIndex_foldlM h with hkept | ⟨req, hmem, hindex⟩
    · exact .inl hkept
    · obtain ⟨l, hl, rfl⟩ := List.mem_map.mp hmem
      exact .inr ⟨l, hl, hindex⟩
  · simp only [Option.ite_none_left_eq_some, Option.some.injEq] at h
    obtain ⟨-, rfl⟩ := h
    right
    obtain ⟨l, hl⟩ := Option.ne_none_iff_exists'.mp (mt List.getLast?_eq_none_iff.mp hne)
    refine ⟨l, List.mem_of_getLast? hl, ?_⟩
    simp [List.getLast?_map, hl]

/-- Between the last snapshot at `lo` and the last applied index `hi`: where the FSM
thread stands, and the batches on their way to it. -/
structure Queued (lo hi : Nat) (t : FSMThread σ ρ) (queue : List (List Log)) : Prop where
  le : t.lastIndex ≤ hi
  ge : t.lastIndex = 0 ∨ lo ≤ t.lastIndex
  ne_nil : ∀ batch ∈ queue, batch ≠ []
  sorted : queue.flatten.Pairwise (fun l l' => l.index < l'.index)
  above : ∀ l ∈ queue.flatten, t.lastIndex < l.index ∧ lo < l.index ∧ l.index ≤ hi

variable {lo lo' hi hi' : Nat} {queue : List (List Log)}

theorem Queued.applyBatch {batch : List Log} (h : Queued lo hi t (batch :: queue))
    (ht : Process.applyBatch fsm t batch = some t') :
    Queued lo hi t' queue ∧ t.lastIndex ≤ t'.lastIndex := by
  have hsorted := h.sorted
  rw [List.flatten_cons, List.pairwise_append] at hsorted
  have habove : ∀ l ∈ queue.flatten, t.lastIndex < l.index ∧ lo < l.index ∧ l.index ≤ hi :=
    fun l hl => h.above l (by simp [hl])
  have hne : ∀ b ∈ queue, b ≠ [] := fun b hb => h.ne_nil b (List.mem_cons_of_mem _ hb)
  rcases Process.lastIndex_applyBatch (h.ne_nil batch (by simp)) ht with hkept | ⟨l, hl, hindex⟩
  · refine ⟨⟨?_, ?_, hne, hsorted.2.1, ?_⟩, hkept.ge⟩
    · exact hkept ▸ h.le
    · exact hkept ▸ h.ge
    · exact hkept ▸ habove
  · have hfrom := h.above l (by simp [hl])
    refine ⟨⟨?_, ?_, hne, hsorted.2.1, ?_⟩, ?_⟩
    · omega
    · right
      omega
    · intro l' hl'
      have hlt := hsorted.2.2 l hl l' hl'
      exact ⟨hindex ▸ hlt, (habove l' hl').2⟩
    · omega

theorem Queued.drained (h : Queued lo hi t queue)
    (ht : queue.foldlM (Process.applyBatch fsm) t = some t') :
    Queued lo hi t' [] ∧ t.lastIndex ≤ t'.lastIndex := by
  induction queue generalizing t with
  | nil =>
    cases ht
    exact ⟨h, Nat.le_refl _⟩
  | cons batch rest ih =>
    rw [List.foldlM_cons, Option.bind_eq_bind, Option.bind_eq_some_iff] at ht
    obtain ⟨t₁, ht₁, hrest⟩ := ht
    obtain ⟨hqueued, hle⟩ := h.applyBatch ht₁
    exact ⟨(ih hqueued hrest).1, hle.trans (ih hqueued hrest).2⟩

theorem Queued.raise (h : Queued lo hi t queue) (hlo : lo' ≤ t.lastIndex) :
    Queued lo' hi t queue where
  le := h.le
  ge := .inr hlo
  ne_nil := h.ne_nil
  sorted := h.sorted
  above l hl := by
    obtain ⟨hthread, -, hle⟩ := h.above l hl
    exact ⟨hthread, Nat.lt_of_le_of_lt hlo hthread, hle⟩

/-- More entries are applied. -/
theorem Queued.append {logs : List Log} (h : Queued lo hi t queue) (hlo : lo ≤ hi) (hle : hi ≤ hi')
    (hsorted : logs.Pairwise (fun l l' => l.index < l'.index))
    (hlogs : ∀ l ∈ logs, hi < l.index ∧ l.index ≤ hi') (n : Nat) :
    Queued lo hi' t (queue ++ cutBatches n logs []) := by
  have hthread := h.le
  constructor
  case le => omega
  case ge => exact h.ge
  case ne_nil =>
    intro batch hbatch
    rcases List.mem_append.mp hbatch with hbatch | hbatch
    · exact h.ne_nil batch hbatch
    · exact ne_nil_of_mem_cutBatches hbatch
  case sorted =>
    rw [List.flatten_append, flatten_cutBatches, List.nil_append, List.pairwise_append]
    refine ⟨h.sorted, hsorted, ?_⟩
    intro l hl l' hl'
    have hl := h.above l hl
    have hl' := hlogs l' hl'
    omega
  case above =>
    intro l hl
    rw [List.flatten_append, flatten_cutBatches, List.nil_append, List.mem_append] at hl
    rcases hl with hl | hl
    · have hl := h.above l hl
      omega
    · have hl := hlogs l hl
      omega

end Thread

theorem Raft.Applies.sorted {r r' : Raft} {futures : List LogFuture} {logs : List Log}
    (h : Applies r (r'.readAt futures) logs r') :
    logs.Pairwise (fun l l' => l.index < l'.index) ∧
      ∀ l ∈ logs, r.lastApplied < l.index ∧ l.index ≤ r'.lastApplied := by
  rw [h.logs]
  constructor
  · apply List.Pairwise.filter
    apply List.Pairwise.filterMap (R := fun i j => i < j) _ _ (List.pairwise_lt_range' ..)
    intro i j hij l hl l' hl'
    rw [readAt_index hl, readAt_index hl']
    exact hij
  · intro l hl
    obtain ⟨idx, hidx, hread⟩ := List.mem_filterMap.mp (List.mem_filter.mp hl).1
    rw [readAt_index hread]
    unfold FSMRun.indexes at hidx
    rw [List.mem_range'_1] at hidx
    have := h.le
    omega

variable {σ ρ : Type}

/-- The index of the snapshot in the making, until it is the last one. -/
def TakeSnapshot.unset? : TakeSnapshot σ → Option Nat
  | .snapped index _ _ | .configured index _ _ _ _ | .closed index _ => some index
  | _ => none

namespace Process

variable {fsm : FSM σ ρ} {initial : σ} {s s' : Process σ ρ} {work : Work} {env : Env}

/-- A snapshot that the main thread is given is above the last one. -/
def Rises (s : Process σ ρ) : ProcessAction → Prop
  | .main work _ => ∀ snapshot ∈ work.snapshot? s.raft,
      s.raft.lastSnapshotIndex < snapshot.metadata.index
  | _ => True

/-- The main thread is not given a snapshot while another is being taken. It installs a
snapshot in one step, so the step stands at the end of the installation: none is being
taken then. -/
def Undisturbed (s : Process σ ρ) : ProcessAction → Prop
  | .main work _ => (work.snapshot? s.raft).isSome → s.taking.unset? = none
  | _ => True

/-- Last snapshot, FSM thread, batches and last applied index stand in this order,
and so does the snapshot in the making. -/
structure Ordered (s : Process σ ρ) : Prop where
  applied : s.raft.lastSnapshotIndex ≤ s.raft.lastApplied
  queued : Queued s.raft.lastSnapshotIndex s.raft.lastApplied s.thread s.fsmMutateCh
  taking : ∀ index ∈ s.taking.unset?,
    s.raft.lastSnapshotIndex ≤ index ∧ index ≤ s.thread.lastIndex
  acknowledged : ∀ index ∈ s.acknowledged, index ≤ s.raft.lastSnapshotIndex

theorem Ordered.sameData (h : Ordered s) {r : Raft} (hs : Raft.SameData s.raft r) :
    Ordered { s with raft := r } where
  applied := by
    rw [hs.lastSnapshotIndex, hs.lastApplied]
    exact h.applied
  queued := by
    rw [hs.lastSnapshotIndex, hs.lastApplied]
    exact h.queued
  taking := by
    rw [hs.lastSnapshotIndex]
    exact h.taking
  acknowledged := by
    rw [hs.lastSnapshotIndex]
    exact h.acknowledged

/-- What the main thread does without a snapshot. -/
theorem perform_applies {o : Outcome} (hup : s.raft.down = false)
    (hwork : work.snapshot? s.raft = none) (ho : s.perform env work = some o)
    (hup' : o.raft.down = false) :
    Raft.SameSnapshots s.raft o.raft ∧ ∃ futures,
      Raft.Applies s.raft (o.raft.readAt futures) (appliedLogs o.events) o.raft := by
  obtain ⟨input, -, hstepUp, hother | ⟨hsame, hnone, -⟩⟩ := perform_input hup hwork ho
  · obtain ⟨futures, happlies, -⟩ := Raft.applies_stepUp hstepUp hup hup' hother
    exact ⟨Raft.sameSnapshots_stepUp hstepUp hup hother, futures, happlies⟩
  · refine ⟨hsame.sameSnapshots, [], ?_⟩
    rw [hnone]
    exact .nothing hsame.lastApplied _

/-- The snapshot that the main thread has written is acknowledged only if the FSM
has taken it. -/
theorem restoreFSM_of_acknowledged {o : Outcome} {snapshot : Snapshot}
    {resp : InstallSnapshotResponse} (hup : s.raft.down = false)
    (hwork : work.snapshot? s.raft = some snapshot) (ho : s.perform env work = some o)
    (hresp : o.response = some (.installSnapshot resp)) (hsuccess : resp.success = true) :
    env.restoreFSM = true := by
  rcases perform_cases ho with ⟨input, rfl, hstep, -⟩ | ⟨user, stepDown, rfl, -, -, rfl⟩
  · obtain ⟨req, c, index, rfl, -, -⟩ := install_of_snapshot? hwork
    obtain ⟨-, -, -, -, hresponse⟩ := Raft.stepUp_rpc (Raft.step_up hstep hup)
    rw [hresponse, Option.ite_none_left_eq_some, Option.some.injEq] at hresp
    obtain ⟨-, hresp⟩ := hresp
    unfold Raft.processRPC at hresp
    split at hresp
    · cases hresp
    · exact (Raft.installs_of_success hresp hsuccess).1
  · cases hresp

theorem Ordered.proceed (h : Ordered s) (hup : s.raft.down = false) {o : Outcome}
    (hwork : work.snapshot? s.raft = none) (ho : s.perform env work = some o)
    (hup' : o.raft.down = false) (calls : List (LogStore × List Log)) (n : Nat) :
    Ordered
      { s with
        raft := o.raft, fsmMutateCh := s.fsmMutateCh ++ cutBatches n (appliedLogs o.events) []
        storeCalls := calls } := by
  obtain ⟨hsnapshots, futures, happlies⟩ := perform_applies hup hwork ho hup'
  have hle := happlies.le
  have happlied := h.applied
  constructor
  case applied =>
    show o.raft.lastSnapshotIndex ≤ o.raft.lastApplied
    rw [hsnapshots.lastSnapshotIndex]
    omega
  case queued =>
    show Queued o.raft.lastSnapshotIndex o.raft.lastApplied _ _
    rw [hsnapshots.lastSnapshotIndex]
    exact h.queued.append happlied hle happlies.sorted.1 happlies.sorted.2 n
  case taking =>
    show ∀ index ∈ s.taking.unset?, o.raft.lastSnapshotIndex ≤ index ∧ index ≤ s.thread.lastIndex
    rw [hsnapshots.lastSnapshotIndex]
    exact h.taking
  case acknowledged =>
    show ∀ index ∈ s.acknowledged, index ≤ o.raft.lastSnapshotIndex
    rw [hsnapshots.lastSnapshotIndex]
    exact h.acknowledged

/-- The main thread has taken over a snapshot above the last one. -/
theorem Ordered.installed (h : Ordered s) {snapshot : Snapshot} {r : Raft} {t : FSMThread σ ρ}
    {acknowledged : List Nat} (hrises : s.raft.lastSnapshotIndex < snapshot.metadata.index)
    (hidle : s.taking.unset? = none) (hlast : r.lastSnapshotIndex = snapshot.metadata.index)
    (happlied : r.lastApplied = snapshot.metadata.index)
    (hthread : t.lastIndex = snapshot.metadata.index)
    (hacknowledged : acknowledged = s.acknowledged ∨
      acknowledged = snapshot.metadata.index :: s.acknowledged) :
    Ordered { s with raft := r, thread := t, fsmMutateCh := [], acknowledged := acknowledged } := by
  have hbefore : ∀ index ∈ s.acknowledged, index ≤ snapshot.metadata.index := by
    intro index hindex
    have := h.acknowledged index hindex
    omega
  constructor
  case applied => exact (hlast.trans happlied.symm).le
  case queued =>
    show Queued r.lastSnapshotIndex r.lastApplied t []
    rw [hlast, happlied]
    exact ⟨hthread.le, .inr hthread.ge, by simp, by simp, by simp⟩
  case taking => simp [hidle]
  case acknowledged =>
    show ∀ index ∈ acknowledged, index ≤ r.lastSnapshotIndex
    rw [hlast]
    rcases hacknowledged with rfl | rfl
    · exact hbefore
    · intro index hindex
      rcases List.mem_cons.mp hindex with rfl | hindex
      · exact Nat.le_refl _
      · exact hbefore index hindex

/-- The main thread has written a snapshot that the FSM could not restore. -/
theorem Ordered.unrestored (h : Ordered s) {r : Raft} {t t' : FSMThread σ ρ}
    (hidle : s.taking.unset? = none) (hdrained : s.drained fsm = some t)
    (hthread : t'.lastIndex = t.lastIndex)
    (hkept : r.lastSnapshotIndex = s.raft.lastSnapshotIndex ∧ r.lastApplied = s.raft.lastApplied) :
    Ordered { s with raft := r, thread := t', fsmMutateCh := [] } := by
  have hqueued := (h.queued.drained hdrained).1
  obtain ⟨hlast, happlied⟩ := hkept
  constructor
  case applied =>
    show r.lastSnapshotIndex ≤ r.lastApplied
    rw [hlast, happlied]
    exact h.applied
  case queued =>
    show Queued r.lastSnapshotIndex r.lastApplied t' []
    rw [hlast, happlied]
    exact ⟨hthread ▸ hqueued.le, hthread ▸ hqueued.ge, by simp, by simp, by simp⟩
  case taking => simp [hidle]
  case acknowledged =>
    show ∀ index ∈ s.acknowledged, index ≤ r.lastSnapshotIndex
    rw [hlast]
    exact h.acknowledged

theorem lastIndex_restore {t t' : FSMThread σ ρ} {snapshot : Snapshot} {ok : Bool}
    (h : t.restore fsm snapshot = (t', ok)) :
    (ok = true ∧ t'.lastIndex = snapshot.metadata.index) ∨
      (ok = false ∧ t'.lastIndex = t.lastIndex) := by
  unfold FSMThread.restore at h
  dsimp only at h
  split at h
  · cases h
    exact .inl ⟨rfl, rfl⟩
  · cases h
    exact .inr ⟨rfl, rfl⟩

theorem Ordered.main (h : Ordered s) (hup : s.raft.down = false) (hrises : Rises s (.main work env))
    (hundisturbed : Undisturbed s (.main work env)) (hs : MainStep fsm s work env s')
    (hup' : s'.raft.down = false) :
    Ordered s' ∧ s.raft.lastSnapshotIndex ≤ s'.raft.lastSnapshotIndex := by
  cases hs with
  | proceed hwork ho =>
    obtain ⟨hsnapshots, -⟩ := perform_applies hup hwork ho hup'
    exact ⟨h.proceed hup hwork ho hup' _ _, hsnapshots.lastSnapshotIndex.ge⟩
  | refused hwork ho hsame =>
    have hkept := sameData_of_not_grown hup hwork ho hsame
    exact ⟨h.sameData hkept, hkept.lastSnapshotIndex.ge⟩
  | @install o snapshot ok thread thread' acknowledged hwork hdrained hrestore ho hgrown hacknowledged =>
    have hidle := hundisturbed (by rw [hwork]; rfl)
    have habove := hrises snapshot hwork
    have hthread := lastIndex_restore hrestore
    rcases perform_snapshot hup hwork ho with hkept | ⟨hrestored, hdone⟩ | ⟨hfailed, hwritten⟩
    · exact absurd hgrown (not_grown_of_sameData hkept)
    · have hlast : o.raft.lastSnapshotIndex = snapshot.metadata.index ∧
          o.raft.lastApplied = snapshot.metadata.index := by
        rcases hdone with ⟨req, c, index, -, rfl, hi⟩ | ⟨user, -, rfl, hr⟩
        · exact ⟨hi.lastSnapshotIndex, hi.lastApplied⟩
        · exact ⟨hr.lastSnapshotIndex, hr.lastApplied⟩
      rcases hthread with ⟨-, hthread⟩ | ⟨rfl, -⟩
      · refine ⟨h.installed habove hidle hlast.1 hlast.2 hthread (hacknowledged.imp_right And.left), ?_⟩
        show s.raft.lastSnapshotIndex ≤ o.raft.lastSnapshotIndex
        omega
      · cases hrestored
    · dsimp only at hfailed
      subst hfailed
      have hsame : acknowledged = s.acknowledged := by
        rcases hacknowledged with hsame | ⟨-, resp, hresp, hsuccess⟩
        · exact hsame
        · cases restoreFSM_of_acknowledged hup hwork ho hresp hsuccess
      rcases hthread with ⟨hok, -⟩ | ⟨-, hthread⟩
      · cases hok
      · rw [hsame]
        exact ⟨h.unrestored hidle hdrained hthread ⟨hwritten.lastSnapshotIndex, hwritten.lastApplied⟩,
          hwritten.lastSnapshotIndex.ge⟩
  | panicked => simp at hup'

theorem Ordered.beside (h : Ordered s) {a : ProcessAction} (hs : BesideStep fsm s a s')
    (hup' : s'.raft.down = false) :
    Ordered s' ∧ s.raft.lastSnapshotIndex ≤ s'.raft.lastSnapshotIndex := by
  have htaking := h.taking
  cases hs with
  | @applied batch rest thread hch hbatch =>
    have hqueued := h.queued
    rw [hch] at hqueued
    obtain ⟨hqueued, hle⟩ := hqueued.applyBatch hbatch
    refine ⟨⟨h.applied, hqueued, ?_, h.acknowledged⟩, Nat.le_refl _⟩
    intro index hindex
    have := htaking index hindex
    exact ⟨this.1, this.2.trans hle⟩
  | panicked => simp at hup'
  | snapped _ hindex =>
    refine ⟨⟨h.applied, h.queued, ?_, h.acknowledged⟩, Nat.le_refl _⟩
    rintro index ⟨⟩
    exact ⟨h.queued.ge.resolve_left hindex, Nat.le_refl _⟩
  | @configurations index term state hsnapped _ =>
    rw [hsnapped] at htaking
    refine ⟨⟨h.applied, h.queued, ?_, h.acknowledged⟩, Nat.le_refl _⟩
    unfold Process.configurations
    dsimp only
    split
    · simp [TakeSnapshot.unset?]
    · exact htaking
  | @persist env index term state committed committedIndex hconfigured =>
    rw [hconfigured] at htaking
    unfold Process.persist
    split
    · exact ⟨⟨h.applied, h.queued, by simp [TakeSnapshot.unset?], h.acknowledged⟩, Nat.le_refl _⟩
    · exact ⟨⟨h.applied, h.queued, htaking, h.acknowledged⟩, Nat.le_refl _⟩
  | @setLastSnapshot index term hclosed =>
    rw [hclosed] at htaking
    obtain ⟨hge, hle⟩ := htaking index rfl
    refine ⟨⟨hle.trans h.queued.le, h.queued.raise hle, ?_, ?_⟩, hge⟩
    · simp [TakeSnapshot.unset?]
    · intro i hi
      exact (h.acknowledged i hi).trans hge
  | @compact env index hcompacting =>
    have hkept : (s.raft.compactLogs index env) =
        { s.raft with logs := (s.raft.compactLogs index env).logs } := by
      unfold Raft.compactLogs
      rcases Raft.compactLogsWithTrailing_eq s.raft index s.raft.lastLogIndex
        s.raft.conf.trailingLogs env with hsame | ⟨maxLog, -, -, -, hsame⟩
      · rw [hsame]
      · rw [hsame]
    rw [hkept]
    exact ⟨⟨h.applied, h.queued, by simp [TakeSnapshot.unset?], h.acknowledged⟩, Nat.le_refl _⟩

theorem Ordered.step {a : ProcessAction} (h : s.raft.down = false → Ordered s)
    (hok : Rises s a ∧ Undisturbed s a) (hs : s.step fsm initial a = some s') :
    s'.raft.down = false → Ordered s' ∧
      (s.raft.down = false → s.raft.lastSnapshotIndex ≤ s'.raft.lastSnapshotIndex) := by
  refine step_cases (P := fun s' => s'.raft.down = false → Ordered s' ∧
    (s.raft.down = false → s.raft.lastSnapshotIndex ≤ s'.raft.lastSnapshotIndex)) hs ?_ ?_ ?_ ?_
  · intro env r _ hdown hr _
    obtain ⟨-, -, happlied⟩ := Raft.newRaft_lastSnapshot hr
    refine ⟨⟨happlied.ge, ⟨Nat.zero_le _, .inl rfl, by simp, by simp, by simp⟩, ?_, by simp⟩, ?_⟩
    · simp [TakeSnapshot.unset?]
    · intro hup
      rw [hdown] at hup
      cases hup
  · rintro work env s' rfl hup hmain hup'
    obtain ⟨hordered, hle⟩ := (h hup).main hup hok.1 hok.2 hmain hup'
    exact ⟨hordered, fun _ => hle⟩
  · intro work env o _ _ _ hup'
    simp at hup'
  · intro s' hup hbeside hup'
    obtain ⟨hordered, hle⟩ := (h hup).beside hbeside hup'
    exact ⟨hordered, fun _ => hle⟩

theorem ordered_reachable (h : (system fsm initial).Reachable (fun s a => Rises s a ∧ Undisturbed s a) s)
    (hup : s.raft.down = false) : Ordered s := by
  refine Lib.System.Reachable.invariant (P := fun s => s.raft.down = false → Ordered s) ?_ ?_ h hup
  · rintro s ⟨conf, currentTerm, logs, snapshots, rfl⟩ hup
    simp at hup
  · intro s a s' hs hok hstep hup'
    exact (Ordered.step hs hok hstep hup').1

/-- While a process runs, its last snapshot never moves backwards, if no snapshot
arrives between the beginning of another and its being set. -/
theorem last_snapshot_advances {a : ProcessAction}
    (h : (system fsm initial).Reachable (fun s a => Rises s a ∧ Undisturbed s a) s)
    (hup : s.raft.down = false) (hok : Rises s a ∧ Undisturbed s a)
    (hs : s.step fsm initial a = some s') (hup' : s'.raft.down = false) :
    s.raft.lastSnapshotIndex ≤ s'.raft.lastSnapshotIndex ∧
      ∀ index ∈ s'.acknowledged, index ≤ s'.raft.getLastIndex := by
  obtain ⟨hordered, hle⟩ := Ordered.step (fun _ => ordered_reachable h hup) hok hs hup'
  refine ⟨hle hup, ?_⟩
  intro index hindex
  exact (hordered.acknowledged index hindex).trans (Nat.le_max_right _ _)

instance (s : Process σ ρ) : DecidablePred (Rises s)
  | .main work _ => inferInstanceAs (Decidable (∀ snapshot ∈ work.snapshot? s.raft, _))
  | .dies _ _ | .apply | .snapshot | .configurations | .persist _ | .setLastSnapshot | .compact _ =>
    isTrue trivial

instance (s : Process σ ρ) : DecidablePred (Undisturbed s)
  | .main work _ =>
    inferInstanceAs (Decidable ((work.snapshot? s.raft).isSome → s.taking.unset? = none))
  | .dies _ _ | .apply | .snapshot | .configurations | .persist _ | .setLastSnapshot | .compact _ =>
    isTrue trivial

/-- A snapshot is taken at 3 and then one arrives at 7. -/
theorem last_snapshot_advances_to_seven :
    ∃ (s s' : Process Nat Nat) (a : ProcessAction),
      (system counter 0).Reachable (fun s a => Rises s a ∧ Undisturbed s a) s ∧
      s.step counter 0 a = some s' ∧ s.raft.lastSnapshotIndex = 3 ∧ s'.acknowledged = [7] ∧
      s.raft.lastSnapshotIndex ≤ s'.raft.lastSnapshotIndex ∧
      ∀ index ∈ s'.acknowledged, index ≤ s'.raft.getLastIndex := by
  obtain ⟨s, hreach, hup, hlast, a, ha, hok, s', hstep, hup', hacknowledged⟩ :
      ∃ s : Process Nat Nat,
        (system counter 0).Reachable (fun s a => Rises s a ∧ Undisturbed s a) s ∧
        s.raft.down = false ∧ s.raft.lastSnapshotIndex = 3 ∧ ∃ a, (snapshotAt 7).head? = some a ∧
        (Rises s a ∧ Undisturbed s a) ∧ ∃ s', s.step counter 0 a = some s' ∧
        s'.raft.down = false ∧ s'.acknowledged = [7] :=
    Lib.System.exists_reachable (init_countingStart false)
      ((booted ++ commandsFrom 1 1 2 3 ++ [ProcessAction.apply] ++ takeSnapshot).map (fun a _ => a))
      (by decide +kernel)
  exact ⟨s, s', a, hreach, hstep, hlast, hacknowledged,
    last_snapshot_advances hreach hup hok hstep hup'⟩

/-- While a snapshot is being taken at 5, one arrives at 10 and is acknowledged.
Then the last snapshot is set to 5, and with it the last index. -/
theorem last_snapshot_regresses :
    ∃ s s' : Process Nat Nat,
      (system counter 0).Reachable (fun s a => Rises s a ∧ Calm a) s ∧
      s.raft.down = false ∧ s.step counter 0 .setLastSnapshot = some s' ∧ s'.raft.down = false ∧
      s.raft.lastSnapshotIndex = 10 ∧ s'.raft.lastSnapshotIndex = 5 ∧
      s'.acknowledged = [10] ∧ s'.raft.getLastIndex = 5 := by
  simp only [exists_and_left]
  exact Lib.System.exists_reachable (init_countingStart false)
    ((booted ++ commandsFrom 1 1 4 5 ++
      ([.apply, .snapshot, .configurations, given .loopTest] : List ProcessAction) ++
      snapshotAt 10 ++ [ProcessAction.persist {}]).map (fun a _ => a)) (by decide +kernel)

end Process

end PerfRaft
