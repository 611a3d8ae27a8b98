import PerfRaft.Lifetime
import PerfRaft.Proofs.Contiguous
import PerfRaft.Proofs.Heading
import PerfRaft.Proofs.Installs

namespace PerfRaft

namespace Raft

variable {r r' r₁ : Raft} {env : Env} {input : Input} {o : Outcome} {a : AppendEntriesRequest}
  {index n : Nat}

/-- The difference does not wrap around as long as the log reaches the last snapshot. -/
theorem shouldSnapshot_iff {snapshotThreshold : UInt64}
    (hsnap : r.lastSnapshotIndex ≤ r.logs.lastIndex) (hlast : r.logs.lastIndex < UInt64.size) :
    r.shouldSnapshot snapshotThreshold = true ↔
      (snapshotThreshold.toNat : Int) ≤ (r.logs.lastIndex : Int) - r.lastSnapshotIndex := by
  have hlastIdx : (UInt64.ofNat r.logs.lastIndex).toNat = r.logs.lastIndex :=
    UInt64.toNat_ofNat_of_lt' hlast
  have hlastSnap : (UInt64.ofNat r.lastSnapshotIndex).toNat = r.lastSnapshotIndex :=
    UInt64.toNat_ofNat_of_lt' (Nat.lt_of_le_of_lt hsnap hlast)
  have hdelta : (UInt64.ofNat r.logs.lastIndex - UInt64.ofNat r.lastSnapshotIndex).toNat =
      r.logs.lastIndex - r.lastSnapshotIndex := by
    rw [UInt64.toNat_sub_of_le _ _ (by rw [UInt64.le_iff_toNat_le, hlastIdx, hlastSnap]; exact hsnap),
      hlastIdx, hlastSnap]
  unfold shouldSnapshot
  rw [decide_eq_true_eq, UInt64.le_iff_toNat_le, hdelta]
  omega

/-- Compaction up to `index` leaves the last entry of the log. -/
def LeavesLast (r : Raft) (index : Nat) : Prop :=
  index < r.logs.lastIndex ∨ 1 ≤ r.conf.trailingLogs

instance (r : Raft) (index : Nat) : Decidable (r.LeavesLast index) :=
  inferInstanceAs (Decidable (_ ∨ _))

theorem lastIndex_compactLogs (hlast : r.lastLogIndex ≤ r.logs.lastIndex) (h : r.LeavesLast index)
    (env : Env) : (r.compactLogs index env).logs.lastIndex = r.logs.lastIndex := by
  unfold compactLogs
  rcases compactLogsWithTrailing_eq r index r.lastLogIndex r.conf.trailingLogs env with
    hsame | ⟨maxLog, hmax, -, htrailing, hsame⟩
  · rw [hsame]
  · rw [hsame]
    apply LogStore.lastIndex_deleteRange
    unfold LeavesLast at h
    omega

/-- The log goes up to `n`, and to the last log as the server knows it. -/
structure Reaches (n : Nat) (r : Raft) : Prop where
  last : r.lastLogIndex ≤ r.logs.lastIndex
  le : n ≤ r.logs.lastIndex

theorem Reaches.congr (h : Reaches n r) (hlogs : r'.logs = r.logs)
    (hlast : r'.lastLogIndex = r.lastLogIndex) : Reaches n r' :=
  ⟨by rw [hlogs, hlast]; exact h.last, by rw [hlogs]; exact h.le⟩

theorem Reaches.sameData (h : Reaches n r) (hs : SameData r r') : Reaches n r' :=
  h.congr hs.logs hs.lastLogIndex

/-- The entries of a request are stored. If something is deleted for them, the first of
them takes the place of a deleted one, which lies above `n`. -/
theorem Reaches.stores {entry : Log} {rest : List Log} (h : Reaches n r) (hopens : Opens r entry r₁)
    (hkept : ∀ e ∈ r.logs, e ∉ r₁.logs → n < e.index)
    (hdecodes : ∀ e ∈ entry :: rest, e.decodes = true) : Reaches n (r₁.stores entry rest) := by
  have hstores := stores_push (r := r₁) hdecodes
  rw [hstores]
  refine ⟨LogStore.index_le_storeLogs (List.getLast_mem _), ?_⟩
  show n ≤ (r₁.logs.storeLogs (entry :: rest)).lastIndex
  cases hopens with
  | after => exact h.le.trans (LogStore.lastIndex_le_storeLogs _ _)
  | @conflict old hle hold _ =>
    have hindex := LogStore.index_of_getLog hold
    have hdeleted : old ∉ (r.cut entry.index).logs := by
      rw [cut_eq]
      intro hmem
      exact (LogStore.mem_deleteRange.mp hmem).2 ⟨hindex.ge, hindex.symm ▸ hle⟩
    have habove := hkept old (LogStore.mem_of_getLog hold) hdeleted
    rw [hindex] at habove
    exact habove.le.trans (LogStore.index_le_storeLogs (List.mem_cons_self ..))

theorem Reaches.followCommit (h : Reaches n r) (k : Nat) : Reaches n (r.followCommit k).1 :=
  h.congr (advances_followCommit r k).stores.logs (advances_followCommit r k).stores.lastLogIndex

theorem Reaches.appendEntries (h : Reaches n r) (henv : env.storeLogs = true)
    (hcalls : ∀ call ∈ r.appendCall a env, (∀ e ∈ call.2, e.decodes = true) ∧
      ∀ e ∈ r.logs, e ∉ call.1 → n < e.index) : Reaches n (r.appendEntries a env).1 := by
  rcases appendEntries_call (r := r) (a := a) henv with
    (hsame | ⟨r₁, hsame, hcommit⟩) | ⟨r₁, r₂, entry, rest, hsame, hopens, hcall, hcommit⟩
  · exact h.sameData hsame
  · exact ((h.sameData hsame).followCommit _).sameData hcommit
  · obtain ⟨hdecodes, hkept⟩ := hcalls _ hcall
    rw [← hsame.logs] at hkept
    exact (((h.sameData hsame).stores hopens hkept hdecodes).followCommit _).sameData
      (hcommit hdecodes)

theorem Reaches.dispatches {entries : List Log} (h : Reaches n r) (hne : entries ≠ [])
    (hd : Dispatches r entries r') : Reaches n r' := by
  constructor
  case last =>
    rw [hd.lastLogIndex, ← hd.getLast_index hne, hd.logs]
    exact LogStore.index_le_storeLogs (List.getLast_mem hne)
  case le =>
    rw [hd.logs]
    exact h.le.trans (LogStore.lastIndex_le_storeLogs _ _)

theorem Reaches.dataStep (h : Reaches n r) (hup : r.down = false) (henv : env.storeLogs = true)
    (hinstall : ∀ req, input ≠ .rpc (.installSnapshot req))
    (hrequest : ∀ a, input ≠ .rpc (.appendEntries a))
    (hbeat : ∀ a, input = .heartbeat a → a.isHeartbeat = true) (ho : r.stepUp env input = some o) :
    Reaches n o.raft := by
  cases dataStep_stepUp ho hup with
  | keep hsame => exact h.sameData hsame
  | @append _ a ha hsame =>
    cases input with
    | heartbeat req =>
      simp only [Input.append?, Option.some.injEq] at ha
      subst ha
      exact h.sameData ((sameData_heartbeat (hbeat req rfl) env).trans hsame)
    | rpc cmd =>
      cases cmd with
      | appendEntries req => exact absurd rfl (hrequest req)
      | _ => simp [Input.append?] at ha
    | _ => simp [Input.append?] at ha
  | install => exact absurd rfl (hinstall _)
  | @dispatch _ futures _ hne _ hsame =>
    exact (h.dispatches (stampedLogs_ne_nil hne) (dispatches_dispatchLogs henv futures)).sameData hsame
  | @configure req future _ hsame =>
    rcases appendConfigurationEntry_cases (r := r) henv req future with
      hkept | ⟨c, entry, r₁, -, -, hd, hset⟩
    · exact h.sameData (hkept.trans hsame)
    · have hreaches : Reaches n (r₁.setLatestConfiguration c (r.getLastIndex + 1)) :=
        (h.dispatches (List.cons_ne_nil entry []) hd).congr rfl rfl
      exact hreaches.sameData (hset.trans hsame)
  | @commit ls stepDown hsame =>
    have hstores := (advances_leaderCommit r ls stepDown).stores
    exact (h.congr hstores.logs hstores.lastLogIndex).sameData hsame

theorem Reaches.stepUp (h : Reaches n r) (hup : r.down = false) (henv : env.storeLogs = true)
    (hinstall : ∀ req, input ≠ .rpc (.installSnapshot req))
    (hbeat : ∀ a, input = .heartbeat a → a.isHeartbeat = true)
    (hcalls : ∀ a, input = .rpc (.appendEntries a) → ∀ call ∈ r.storeCall env input,
      (∀ e ∈ call.2, e.decodes = true) ∧ ∀ e ∈ r.logs, e ∉ call.1 → n < e.index)
    (ho : r.stepUp env input = some o) : Reaches n o.raft := by
  by_cases hrequest : ∃ a, input = .rpc (.appendEntries a)
  case neg => exact h.dataStep hup henv hinstall (fun a ha => hrequest ⟨a, ha⟩) hbeat ho
  obtain ⟨a, rfl⟩ := hrequest
  have hcalls := hcalls a rfl
  obtain ⟨hselecting, hraft, -⟩ := stepUp_rpc ho
  rw [hraft]
  simp only [storeCall, hselecting, Bool.true_and] at hcalls
  unfold processRPC
  split
  · exact h.congr rfl rfl
  · rename_i hheader
    have hheader : r.checkRPCHeader a.header = true := by
      rw [Bool.not_eq_false] at hheader
      exact hheader
    rw [if_pos hheader] at hcalls
    exact (h.appendEntries henv hcalls).congr rfl rfl

/-- While the main thread leads, what it waits for is in the log. -/
def Waiting (r : Raft) : Prop :=
  r.heads = true → ∀ f ∈ r.inflight, f.log.index ≤ r.logs.lastIndex

theorem inflight_enterLeader (r : Raft) : r.enterLeader.inflight = [] := by
  simp [inflight, enterLeader, startStopReplication, modifyLeaderState, setupLeaderState]

theorem HeadStep.extends (h : HeadStep r env r') (henv : env.storeLogs = true) : Extends r r' := by
  cases h with
  | enter hraft =>
    rw [hraft]
    refine extends_of_subset (Nat.le_refl _) (fun e he => he) ?_
    simp [inflight_enterLeader]
  | keep hdata hleaderships => exact hdata.extends (fun f hf => inflight_congr hleaderships ▸ hf)
  | dispatch futures main hraft =>
    rw [hraft]
    exact (extends_dispatchLogs henv futures).setMain _
  | configure req future main hraft =>
    rw [hraft]
    exact (extends_appendConfigurationEntry henv req future).setMain _
  | commit stepDown hls hraft =>
    rw [hraft]
    exact extends_leaderCommit r _ stepDown
  | replicate hstep => exact extends_replicate hstep

theorem HeadStep.lastIndex_le (h : HeadStep r env r') (henv : env.storeLogs = true) :
    r.logs.lastIndex ≤ r'.logs.lastIndex := by
  cases h with
  | enter hraft =>
    rw [hraft]
    exact Nat.le_refl _
  | keep hdata _ => exact hdata.logs ▸ Nat.le_refl _
  | dispatch futures main hraft =>
    rw [hraft]
    show r.logs.lastIndex ≤ (r.dispatchLogs futures env).1.logs.lastIndex
    rw [(dispatches_dispatchLogs henv futures).logs]
    exact LogStore.lastIndex_le_storeLogs _ _
  | configure req future main hraft =>
    rw [hraft]
    show r.logs.lastIndex ≤ (r.appendConfigurationEntry req future env).1.logs.lastIndex
    rcases appendConfigurationEntry_cases (r := r) henv req future with
      hkept | ⟨c, entry, r₁, -, -, hd, hset⟩
    · exact hkept.logs ▸ Nat.le_refl _
    · have hlogs : (r.appendConfigurationEntry req future env).1.logs = r.logs.storeLogs [entry] :=
        hset.logs.trans hd.logs
      rw [hlogs]
      exact LogStore.lastIndex_le_storeLogs _ _
  | commit stepDown hls hraft =>
    rw [hraft, (advances_leaderCommit r _ stepDown).stores.logs]
  | replicate hstep =>
    obtain ⟨ls, s, s', matched, -, -, -, rfl⟩ := replicate_cases hstep
    exact Nat.le_refl _

theorem Waiting.stepUp (h : Waiting r) (hflag : Unflagged r) (hup : r.down = false)
    (henv : env.storeLogs = true) (hinstall : ∀ req, input ≠ .rpc (.installSnapshot req))
    (hbeat : ∀ a, input = .heartbeat a → a.isHeartbeat = true)
    (hlast : o.raft.lastLogIndex ≤ o.raft.logs.lastIndex)
    (ho : r.stepUp env input = some o) : Waiting o.raft := by
  intro hheads f hf
  rcases heads_back ho hheads with hback | ⟨-, hraft⟩
  · have hstep := headStep_stepUp hflag hup hinstall hbeat ho hheads
    rcases (hstep.extends henv).inflight f hf with hold | hnew
    · exact (h hback f hold).trans (hstep.lastIndex_le henv)
    · exact hnew.trans hlast
  · rw [hraft, inflight_enterLeader] at hf
    cases hf

/-- Installing a snapshot does not touch the leaderships. -/
theorem Waiting.installSnapshot {req : InstallSnapshotRequest} (h : Waiting r)
    (hlogs : r.logs.lastIndex ≤ o.raft.logs.lastIndex)
    (ho : r.stepUp env (.rpc (.installSnapshot req)) = some o) : Waiting o.raft := by
  intro hheads f hf
  rcases heads_back ho hheads with hback | ⟨-, hraft⟩
  · have hleaderships : o.raft.leaderships = r.leaderships := by
      rw [(stepUp_rpc ho).2.1]
      exact (rpcEffect_processRPC r (.installSnapshot req) env).leaderships
    rw [inflight_congr hleaderships] at hf
    exact (h hback f hf).trans hlogs
  · rw [hraft, inflight_enterLeader] at hf
    cases hf

/-- What a step has applied is in the log or among the futures that the leader has
committed. -/
theorem lastApplied_stepUp (hwaiting : Waiting r) (hup : r.down = false)
    (hup' : o.raft.down = false) (hinstall : ∀ req, input ≠ .rpc (.installSnapshot req))
    (happlied : r.lastApplied ≤ o.raft.logs.lastIndex) (ho : r.stepUp env input = some o) :
    o.raft.lastApplied ≤ o.raft.logs.lastIndex := by
  obtain ⟨futures, happlies, hfutures⟩ := applies_stepUp ho hup hup' hinstall
  by_cases hmoved : r.lastApplied < o.raft.lastApplied
  case neg => omega
  have hidx : o.raft.lastApplied ∈ FSMRun.indexes r.lastApplied o.raft.lastApplied := by
    unfold FSMRun.indexes
    rw [List.mem_range'_1]
    omega
  obtain ⟨l, hl⟩ := Option.isSome_iff_exists.mp (happlies.found _ hidx)
  unfold readAt at hl
  rw [Option.or_eq_some_iff] at hl
  rcases hl with hl | ⟨-, hl⟩
  · obtain ⟨f, hf, -⟩ := Option.map_eq_some_iff.mp hl
    have hmem := List.mem_of_find?_eq_some hf
    have hindex : f.log.index = o.raft.lastApplied := by simpa using List.find?_some hf
    rcases hfutures with rfl | ⟨stepDown, ls, rest, rfl, hmain, hls, rfl⟩
    · cases hmem
    · have hinflight : f ∈ r.inflight := by
        simp only [inflight, hls, List.head?_cons, Option.map_some, Option.getD_some]
        exact (List.takeWhile_prefix _).subset hmem
      have hle := hwaiting (by simp [heads, hmain]) f hinflight
      obtain ⟨stepDown', ls', -, -, -, -, hraft, -⟩ := stepUp_commit ho
      rw [hraft, (advances_leaderCommit r ls' stepDown').stores.logs, ← hraft, ← hindex]
      exact hle
  · rw [← LogStore.index_of_getLog hl]
    exact LogStore.index_le_lastIndex (LogStore.mem_of_getLog hl)

end Raft

variable {σ ρ : Type}

namespace Process

variable {fsm : FSM σ ρ} {initial : σ} {s s' : Process σ ρ} {work : Work} {env : Env} {o : Outcome}
  {input : Input}

/-- How far the server has applied entries and has taken snapshots or begun to. -/
def progress (s : Process σ ρ) : Nat :=
  max (max s.raft.lastApplied s.raft.lastSnapshotIndex) (s.taking.index?.getD 0)

/-- The step leaves entries up to the progress of the server in its log: it does not
start behind its snapshot, a snapshot from elsewhere and compaction leave the last entry,
and the entries of a request replace only what is above. -/
def KeepsTail (s : Process σ ρ) : ProcessAction → Prop
  | .main work env => env.storeLogs = true ∧
      (s.raft.down = true → snapshotIndex s.raft.snapshots ≤ s.raft.logs.lastIndex) ∧
      (∀ snapshot ∈ work.snapshot? s.raft, s.raft.conf.monotonicLogs = false ∧
        snapshot.metadata.index ≤ s.raft.logs.lastIndex ∧
        s.raft.LeavesLast snapshot.metadata.index) ∧
      ∀ call ∈ s.requestCall env work, (∀ e ∈ call.2, e.decodes = true) ∧
        ∀ e ∈ s.raft.logs, e ∉ call.1 → s.progress < e.index
  | .compact _ => ∀ index ∈ s.taking.index?, s.raft.LeavesLast index
  | _ => True

instance (s : Process σ ρ) : DecidablePred s.KeepsTail
  | .main _ _ => inferInstanceAs (Decidable (_ ∧ (_ → _) ∧ (∀ snapshot ∈ _, _) ∧ ∀ call ∈ _, _))
  | .compact _ => inferInstanceAs (Decidable (∀ index ∈ s.taking.index?, _))
  | .dies _ _ | .apply | .snapshot | .configurations | .persist _ | .setLastSnapshot => isTrue trivial

/-- The log of a running server reaches its progress. -/
structure Tailed (s : Process σ ρ) : Prop where
  reaches : Raft.Reaches s.progress s.raft
  waiting : Raft.Waiting s.raft
  unflagged : Raft.Unflagged s.raft

theorem progress_le {n : Nat} : s.progress ≤ n ↔ s.raft.lastApplied ≤ n ∧
    s.raft.lastSnapshotIndex ≤ n ∧ ∀ index ∈ s.taking.index?, index ≤ n := by
  unfold progress
  rw [Nat.max_le, Nat.max_le, and_assoc]
  cases s.taking.index? <;> simp

/-- A step of the server that is not the installation of a snapshot. -/
theorem Tailed.stepUp (h : Tailed s) (hup : s.raft.down = false)
    (hok : s.KeepsTail (.main (.input input) env))
    (hinstall : ∀ req, input ≠ .rpc (.installSnapshot req))
    (hbeat : ∀ a, input = .heartbeat a → a.isHeartbeat = true)
    (ho : s.raft.stepUp env input = some o) (hup' : o.raft.down = false)
    (hraft : s'.raft = o.raft) (htaking : s'.taking = s.taking) : Tailed s' := by
  obtain ⟨henv, -, -, hcalls⟩ := hok
  have hreaches := h.reaches.stepUp hup henv hinstall hbeat
    (by rintro a rfl; exact hcalls) ho
  obtain ⟨happlied, hsnapshot, hindex⟩ := progress_le.mp hreaches.le
  have hprogress : s'.progress ≤ o.raft.logs.lastIndex := by
    rw [progress_le, hraft, htaking, (Raft.sameSnapshots_stepUp ho hup hinstall).lastSnapshotIndex]
    exact ⟨Raft.lastApplied_stepUp h.waiting hup hup' hinstall happlied ho, hsnapshot, hindex⟩
  constructor
  case reaches => exact hraft.symm ▸ ⟨hreaches.last, hprogress⟩
  case waiting =>
    rw [hraft]
    exact h.waiting.stepUp h.unflagged hup henv hinstall hbeat hreaches.last ho
  case unflagged =>
    rw [hraft]
    exact h.unflagged.stepUp hup ho

/-- The data after a snapshot was written, or not. -/
theorem reaches_snapshot {snapshot : Snapshot} (h : Raft.Reaches s.progress s.raft)
    (hup : s.raft.down = false) (hwork : work.snapshot? s.raft = some snapshot)
    (hmonotonic : s.raft.conf.monotonicLogs = false)
    (hindex : snapshot.metadata.index ≤ s.raft.logs.lastIndex)
    (hleaves : s.raft.LeavesLast snapshot.metadata.index) (ho : s.perform env work = some o)
    (hraft : s'.raft = o.raft) (htaking : s'.taking = s.taking) :
    Raft.Reaches s'.progress s'.raft ∧ s'.raft.logs.lastIndex = s.raft.logs.lastIndex := by
  obtain ⟨happlied, hsnapshot, htaken⟩ := progress_le.mp h.le
  have hlast := h.last
  have hsame (hlogs : o.raft.logs.lastIndex = s.raft.logs.lastIndex)
      (hlog : o.raft.lastLogIndex ≤ s.raft.logs.lastIndex)
      (happ : o.raft.lastApplied ≤ s.raft.logs.lastIndex)
      (hsnap : o.raft.lastSnapshotIndex ≤ s.raft.logs.lastIndex) :
      Raft.Reaches s'.progress s'.raft ∧ s'.raft.logs.lastIndex = s.raft.logs.lastIndex := by
    refine ⟨⟨?_, ?_⟩, ?_⟩
    · rw [hraft, hlogs]
      exact hlog
    · rw [progress_le, hraft, htaking, hlogs]
      exact ⟨happ, hsnap, htaken⟩
    · rw [hraft, hlogs]
  rcases perform_snapshot hup hwork ho with hkept | ⟨-, hdone⟩ | ⟨-, hwritten⟩
  · refine hsame (by rw [hkept.logs]) ?_ ?_ ?_
    · exact hkept.lastLogIndex ▸ hlast
    · exact hkept.lastApplied ▸ happlied
    · exact hkept.lastSnapshotIndex ▸ hsnapshot
  · rcases hdone with ⟨req, c, index, -, rfl, hi⟩ | ⟨user, -, rfl, hr⟩
    · have hlogs : o.raft.logs = (s.raft.compactLogs req.lastLogIndex env).logs := by
        rw [hi.logs, Raft.logsAfter, if_neg (by simp [hmonotonic])]
      refine hsame ?_ ?_ ?_ ?_
      · rw [hlogs]
        exact Raft.lastIndex_compactLogs hlast hleaves env
      · exact hi.lastLogIndex ▸ hlast
      · exact hi.lastApplied ▸ hindex
      · exact hi.lastSnapshotIndex ▸ hindex
    · refine hsame ?_ ?_ ?_ ?_
      · rw [hr.logs, if_neg (by simp [hmonotonic])]
      · exact hr.lastLogIndex ▸ hindex
      · exact hr.lastApplied ▸ hindex
      · exact hr.lastSnapshotIndex ▸ hindex
  · refine hsame (congrArg LogStore.lastIndex hwritten.logs) ?_ ?_ ?_
    · exact hwritten.lastLogIndex.le.trans hlast
    · exact hwritten.lastApplied.le.trans happlied
    · exact hwritten.lastSnapshotIndex.le.trans hsnapshot

theorem Tailed.snapshot {snapshot : Snapshot} (h : Tailed s) (hup : s.raft.down = false)
    (hwork : work.snapshot? s.raft = some snapshot)
    (hmonotonic : s.raft.conf.monotonicLogs = false)
    (hindex : snapshot.metadata.index ≤ s.raft.logs.lastIndex)
    (hleaves : s.raft.LeavesLast snapshot.metadata.index) (ho : s.perform env work = some o)
    (hraft : s'.raft = o.raft) (htaking : s'.taking = s.taking) : Tailed s' := by
  obtain ⟨hreaches, hlogs⟩ :=
    reaches_snapshot h.reaches hup hwork hmonotonic hindex hleaves ho hraft htaking
  rw [hraft] at hreaches hlogs
  suffices hthreads : Raft.Waiting o.raft ∧ Raft.Unflagged o.raft by
    rw [← hraft] at hreaches hthreads
    exact ⟨hreaches, hthreads.1, hthreads.2⟩
  rcases perform_cases ho with ⟨input, rfl, hstep, -⟩ | ⟨user, stepDown, rfl, -, hmain, rfl⟩
  · obtain ⟨req, -, -, rfl, -, -⟩ := install_of_snapshot? hwork
    have hstepUp := Raft.step_up hstep hup
    exact ⟨h.waiting.installSnapshot hlogs.ge hstepUp, h.unflagged.stepUp hup hstepUp⟩
  · obtain ⟨leaderships, hsame⟩ := Raft.sameThreads_restoreUserSnapshot s.raft user env
    constructor
    · intro _ f hf
      rw [hlogs]
      exact h.waiting (by simp [Raft.heads, hmain]) f
        (Raft.inflight_restoreUserSnapshot s.raft user env f hf)
    · exact h.unflagged.same (fun hleader => hsame.state.symm.trans hleader) hsame.transfer

/-- What the main thread does without a snapshot. -/
theorem Tailed.perform (h : Tailed s) (hup : s.raft.down = false)
    (hok : s.KeepsTail (.main work env)) (hwork : work.snapshot? s.raft = none)
    (ho : s.perform env work = some o) (hup' : o.raft.down = false)
    (hraft : s'.raft = o.raft) (htaking : s'.taking = s.taking) : Tailed s' := by
  obtain ⟨input, rfl, hstep, hcase⟩ := perform_input hup hwork ho
  by_cases hinstall : ∃ req, input = .rpc (.installSnapshot req)
  · -- a request that cannot be decoded
    obtain ⟨req, rfl⟩ := hinstall
    have hsame : Raft.SameData s.raft o.raft :=
      hcase.elim (fun hother => absurd rfl (hother req)) (fun hsame => hsame.1)
    have hprogress : s'.progress = s.progress := by
      unfold progress
      rw [hraft, htaking, hsame.lastApplied, hsame.lastSnapshotIndex]
    have hreaches := h.reaches.sameData hsame
    have hwaiting := h.waiting.installSnapshot (hsame.logs ▸ Nat.le_refl _) hstep
    have hflag := h.unflagged.stepUp hup hstep
    rw [← hraft] at hreaches hwaiting hflag
    exact ⟨hprogress ▸ hreaches, hwaiting, hflag⟩
  · refine h.stepUp hup hok (fun req heq => hinstall ⟨req, heq⟩) ?_ hstep hup' hraft htaking
    rcases perform_cases ho with ⟨input', heq, -, hbeat⟩ | ⟨user, stepDown, heq, -⟩
    · cases heq
      exact hbeat
    · cases heq

theorem Tailed.main (h : Tailed s) (hup : s.raft.down = false) (hok : s.KeepsTail (.main work env))
    (hs : MainStep fsm s work env s') (hup' : s'.raft.down = false) : Tailed s' := by
  cases hs with
  | proceed hwork ho => exact h.perform hup hok hwork ho hup' rfl rfl
  | refused hwork ho _ =>
    obtain ⟨hmonotonic, hindex, hleaves⟩ := hok.2.2.1 _ hwork
    exact h.snapshot hup hwork hmonotonic hindex hleaves ho rfl rfl
  | install acknowledged hwork _ _ ho _ _ =>
    obtain ⟨hmonotonic, hindex, hleaves⟩ := hok.2.2.1 _ hwork
    exact h.snapshot hup hwork hmonotonic hindex hleaves ho rfl rfl
  | panicked => simp at hup'

/-- The step changes neither the log nor what the main thread goes by. -/
theorem Tailed.congr (h : Tailed s) (hlogs : s'.raft.logs.lastIndex = s.raft.logs.lastIndex)
    (hlast : s'.raft.lastLogIndex = s.raft.lastLogIndex)
    (hprogress : s'.progress ≤ s.raft.logs.lastIndex) (hheads : s'.raft.heads = true → s.raft.heads = true)
    (hthreads : s'.raft.leaderships = s.raft.leaderships) (hstate : s'.raft.state = s.raft.state)
    (hflag : s'.raft.candidateFromLeadershipTransfer = s.raft.candidateFromLeadershipTransfer) :
    Tailed s' where
  reaches := ⟨by rw [hlogs, hlast]; exact h.reaches.last, by rw [hlogs]; exact hprogress⟩
  waiting := by
    intro hh f hf
    rw [Raft.inflight_congr hthreads] at hf
    rw [hlogs]
    exact h.waiting (hheads hh) f hf
  unflagged := h.unflagged.same (fun hleader => hstate.symm.trans hleader) hflag

theorem Tailed.beside (h : Tailed s) (hbehind : Behind s) {a : ProcessAction} (hok : s.KeepsTail a)
    (hs : BesideStep fsm s a s') (hup' : s'.raft.down = false) : Tailed s' := by
  have hprogress := h.reaches.le
  obtain ⟨happlied, hsnapshot, htaking⟩ := progress_le.mp h.reaches.le
  cases hs with
  | applied _ _ => exact ⟨h.reaches, h.waiting, h.unflagged⟩
  | panicked => simp at hup'
  | snapped _ _ =>
    refine h.congr rfl rfl ?_ id rfl rfl rfl
    rw [progress_le]
    refine ⟨happlied, hsnapshot, ?_⟩
    rintro index ⟨⟩
    exact hbehind.le.trans happlied
  | @configurations index term state hsnapped hmain =>
    refine h.congr rfl rfl ?_ ?_ rfl rfl rfl
    · rw [progress_le]
      refine ⟨happlied, hsnapshot, ?_⟩
      rw [hsnapped] at htaking
      unfold Process.configurations
      dsimp only
      split
      · simp [TakeSnapshot.index?]
      · exact htaking
    · exact Raft.heads_again hmain
  | @persist env index term state committed committedIndex hconfigured =>
    rw [hconfigured] at htaking
    unfold Process.persist
    split
    · refine h.congr rfl rfl ?_ id rfl rfl rfl
      rw [progress_le]
      exact ⟨happlied, hsnapshot, by simp [TakeSnapshot.index?]⟩
    · refine h.congr rfl rfl ?_ id rfl rfl rfl
      rw [progress_le]
      exact ⟨happlied, hsnapshot, htaking⟩
  | @setLastSnapshot index term hclosed =>
    have hindex : index ≤ s.raft.logs.lastIndex := htaking index (by rw [hclosed]; rfl)
    refine h.congr rfl rfl ?_ id rfl rfl rfl
    rw [progress_le]
    refine ⟨happlied, hindex, ?_⟩
    rintro index' ⟨⟩
    exact hindex
  | @compact env index hcompacting =>
    have hleaves := hok index (by rw [hcompacting]; rfl)
    have hlogs := Raft.lastIndex_compactLogs h.reaches.last hleaves env
    obtain ⟨logs, hcompacted⟩ : ∃ logs, s.raft.compactLogs index env = { s.raft with logs := logs } :=
      ⟨_, (Raft.compactLogs_frame s.raft index env).1⟩
    rw [hcompacted] at hlogs ⊢
    refine h.congr hlogs rfl ?_ id rfl rfl rfl
    rw [progress_le]
    exact ⟨happlied, hsnapshot, by simp [TakeSnapshot.index?]⟩

theorem Tailed.step {a : ProcessAction} (hbehind : s.raft.down = false → Behind s)
    (h : s.raft.down = false → Tailed s) (hok : s.KeepsTail a)
    (hs : s.step fsm initial a = some s') : s'.raft.down = false → Tailed s' := by
  refine step_cases (P := fun s' => s'.raft.down = false → Tailed s') hs ?_ ?_ ?_ ?_
  · rintro env r rfl hdown hr _
    have hstarted := Raft.started_newRaft hr
    obtain ⟨hindex, -, happlied⟩ := Raft.newRaft_lastSnapshot hr
    have hcovered := hok.2.1 hdown
    constructor
    case reaches =>
      refine ⟨?_, ?_⟩
      · rw [hstarted.lastLogIndex, hstarted.logs]
      · rw [progress_le, happlied, hindex, hstarted.logs]
        exact ⟨hcovered, hcovered, by simp [TakeSnapshot.index?]⟩
    case waiting =>
      intro hheads
      simp [Raft.heads, hstarted.main] at hheads
    case unflagged => exact fun _ => hstarted.transfer
  · rintro work env s' rfl hup hmain hup'
    exact (h hup).main hup hok hmain hup'
  · intro work env o _ _ _ hup'
    simp at hup'
  · intro s' hup hside hup'
    exact (h hup).beside (hbehind hup) hok hside hup'

/-- In every run whose steps leave the log up to the progress of the server,
`shouldSnapshot` goes by the true difference of the two indexes. -/
theorem shouldSnapshot_threshold {s : Process σ ρ}
    (h : (system fsm initial).Reachable KeepsTail s) (hup : s.raft.down = false)
    (hlast : s.raft.logs.lastIndex < UInt64.size) (snapshotThreshold : UInt64) :
    s.raft.shouldSnapshot snapshotThreshold = true ↔
      (snapshotThreshold.toNat : Int) ≤ (s.raft.logs.lastIndex : Int) - s.raft.lastSnapshotIndex := by
  have htailed : Tailed s := by
    refine (Lib.System.Reachable.invariant (P := fun s =>
      s.raft.down = false → Behind s ∧ Tailed s) ?_ ?_ h hup).2
    · rintro s ⟨conf, currentTerm, logs, snapshots, rfl⟩ hup
      simp at hup
    · intro s a s' hs hok hstep hup'
      have hbehind := fun hup => (hs hup).1
      exact ⟨Behind.step hbehind hstep hup', Tailed.step hbehind (fun hup => (hs hup).2) hok hstep hup'⟩
  exact Raft.shouldSnapshot_iff (progress_le.mp htailed.reaches.le).2.1 hlast

/-- A snapshot is taken at 3 while the log goes to 5, and the log is compacted. -/
theorem shouldSnapshot_threshold_compacted :
    ∃ s, (system counter 0).Reachable KeepsTail s ∧ s.raft.down = false ∧
      s.raft.logs.map Log.index = [4, 5] ∧ s.raft.lastSnapshotIndex = 3 ∧
      (s.raft.shouldSnapshot 2 = true ↔ (2 : Int) ≤ 5 - 3) := by
  obtain ⟨s, hreach, hup, hlogs, hsnapshot, hlast⟩ : ∃ s,
      (system counter 0).Reachable KeepsTail s ∧ s.raft.down = false ∧
      s.raft.logs.map Log.index = [4, 5] ∧ s.raft.lastSnapshotIndex = 3 ∧ s.raft.logs.lastIndex = 5 :=
    Lib.System.exists_reachable (init_countingStart false)
      ((booted ++ commandsFrom 1 1 4 3 ++ [ProcessAction.apply] ++ takeSnapshot).map (fun a _ => a))
      (by decide +kernel)
  have hthreshold := shouldSnapshot_threshold hreach hup (by rw [hlast]; decide) 2
  rw [hlast, hsnapshot] at hthreshold
  exact ⟨s, hreach, hup, hlogs, hsnapshot, hthreshold⟩

/-- A snapshot is taken at the last index with no trailing logs, after which the log is
empty. The difference wraps around and asks for another snapshot at once. -/
theorem shouldSnapshot_wraps :
    ∃ s, (system counter 0).Reachable (fun _ a => Calm a) s ∧ s.raft.down = false ∧
      s.raft.logs = [] ∧ s.raft.lastSnapshotIndex = 3 ∧ s.raft.shouldSnapshot 8192 = true :=
  Lib.System.exists_reachable (init_countingStart false)
    ((booted ++ commandsFrom 1 1 2 3 ++ [ProcessAction.apply] ++ takeSnapshot).map (fun a _ => a))
    (by decide +kernel)

end Process

end PerfRaft
