import PerfRaft.Proofs.LastSnapshot
import PerfRaft.Proofs.Reign

namespace PerfRaft

/-- A restore that aborts futures gets as far as the FSM: the sink is created, the whole
snapshot is copied to it, its size is right, and it is closed. -/
def Process.Whole {σ ρ : Type} (s : Process σ ρ) : ProcessAction → Prop
  | .main (.restore user) env => s.raft.abortedBy user ≠ [] →
    env.createSink = true ∧ env.copySink = true ∧ user.contents.length = user.size ∧
      env.closeSink = true
  | _ => True

instance {σ ρ : Type} (s : Process σ ρ) : DecidablePred s.Whole
  | .main (.restore _) _ => inferInstanceAs (Decidable (_ → _))
  | .main (.input _) _ | .dies _ _ | .apply | .snapshot | .configurations | .persist _
  | .setLastSnapshot | .compact _ => isTrue trivial

namespace Raft

variable {r : Raft} {user : UserSnapshot} {env : Env}

theorem removeOldLogs_snapshots (r : Raft) (env : Env) :
    (r.removeOldLogs env).snapshots = r.snapshots := by
  unfold removeOldLogs
  rcases compactLogsWithTrailing_eq r r.logs.lastIndex r.logs.lastIndex 0 env with
    hsame | ⟨maxLog, -, -, -, hsame⟩
  · rw [hsame]
  · rw [hsame]

/-- A restore that gets past its checks and through its writes adds a snapshot. -/
theorem snapshots_of_whole (haborts : r.abortedBy user ≠ [])
    (hwhole : env.createSink = true ∧ env.copySink = true ∧ user.contents.length = user.size ∧
      env.closeSink = true) :
    (r.restoreUserSnapshot user env).snapshots = addSnapshot (r.userSnapshot user) r.snapshots := by
  unfold abortedBy at haborts
  split at haborts
  · exact absurd rfl haborts
  rename_i hchecks
  rw [not_or, not_not] at hchecks
  unfold restoreUserSnapshot
  rw [if_neg hchecks.1, if_neg (not_not.mpr hchecks.2)]
  dsimp only
  rw [if_neg (by simp [hwhole])]
  split
  · rfl
  split
  · exact removeOldLogs_snapshots _ env
  · rfl

end Raft

namespace Reign

variable {σ ρ : Type} {fsm : FSM σ ρ} {initial : σ} {w : Reign σ ρ} {s' : Process σ ρ}

/-- Nothing comes from another leader of the term, and a restore that aborts futures gets
as far as the FSM. -/
def Orderly (w : Reign σ ρ) (a : ProcessAction) : Prop := w.process.Unrivalled a ∧ w.process.Whole a

instance (w : Reign σ ρ) : DecidablePred w.Orderly :=
  fun a => inferInstanceAs (Decidable (w.process.Unrivalled a ∧ w.process.Whole a))

/-- What is in flight is in the log. What was aborted has been passed over by the last
restore: it is neither among the entries the FSM has applied since, nor among those that
are waiting for it. -/
structure Passed (w : Reign σ ρ) : Prop where
  inflight : ∀ f ∈ w.process.raft.inflight, f.log.index ≤ w.process.raft.lastLogIndex
  logged : ∀ f ∈ w.aborted, f.log.index ≤ w.process.raft.lastLogIndex
  passed : ∀ f ∈ w.aborted, f.log.index ≤ w.process.raft.lastApplied
  queued : ∀ f ∈ w.aborted, ∀ l ∈ w.process.fsmMutateCh.flatten, f.log.index < l.index
  applied : ∀ f ∈ w.aborted, ∀ l ∈ w.applied, f.log.index < l.index

theorem Passed.start {r : Raft} (hraft : w.process.raft = r.enterLeader) (haborted : w.aborted = []) :
    Passed w := by
  constructor
  case inflight =>
    rw [hraft]
    intro f hf
    simp [Raft.inflight, Raft.enterLeader, Raft.startStopReplication, Raft.modifyLeaderState,
      Raft.setupLeaderState] at hf
  all_goals simp [haborted]

theorem Passed.inflight_extends (h : Passed w) {r : Raft} (hext : Raft.Extends w.process.raft r) :
    ∀ f ∈ r.inflight, f.log.index ≤ r.lastLogIndex := by
  intro f hf
  rcases hext.inflight f hf with hold | hnew
  · exact (h.inflight f hold).trans hext.last
  · exact hnew

/-- A step that aborts nothing; what it sends to the FSM lies above what was applied. -/
theorem Passed.goesOn (h : Passed w) (hext : Raft.Extends w.process.raft s'.raft)
    (hle : w.process.raft.lastApplied ≤ s'.raft.lastApplied)
    (hqueue : ∀ l ∈ s'.fsmMutateCh.flatten,
      l ∈ w.process.fsmMutateCh.flatten ∨ w.process.raft.lastApplied < l.index)
    {applied : List Log}
    (happlied : ∀ l ∈ applied, l ∈ w.applied ∨ l ∈ w.process.fsmMutateCh.flatten) :
    Passed { process := s', aborted := w.aborted, applied := applied } where
  inflight := h.inflight_extends hext
  logged f hf := (h.logged f hf).trans hext.last
  passed f hf := (h.passed f hf).trans hle
  queued := by
    intro f hf l hl
    rcases hqueue l hl with hold | hnew
    · exact h.queued f hf l hold
    · exact (h.passed f hf).trans_lt hnew
  applied := by
    intro f hf l hl
    rcases happlied l hl with hold | htaken
    · exact h.applied f hf l hold
    · exact h.queued f hf l htaken

/-- A successful restore moves past everything that is in flight. -/
theorem Passed.restored (h : Passed w) {user : UserSnapshot} {env : Env}
    (hext : Raft.Extends w.process.raft s'.raft)
    (hr : Raft.RestoresUser w.process.raft user env s'.raft) (hqueue : s'.fsmMutateCh = []) :
    Passed
      { process := s', aborted := w.process.raft.abortedBy user ++ w.aborted, applied := [] } := by
  have hlogged : ∀ f ∈ w.process.raft.abortedBy user ++ w.aborted,
      f.log.index ≤ w.process.raft.lastLogIndex := by
    intro f hf
    rcases List.mem_append.mp hf with hnew | hold
    · apply h.inflight
      unfold Raft.abortedBy at hnew
      split at hnew
      · cases hnew
      · exact hnew
    · exact h.logged f hold
  constructor
  case inflight => exact h.inflight_extends hext
  case logged => exact fun f hf => (hlogged f hf).trans hext.last
  case passed =>
    intro f hf
    have hbelow : w.process.raft.lastLogIndex ≤ w.process.raft.getLastIndex := Nat.le_max_left _ _
    have hmax := Nat.le_max_left w.process.raft.getLastIndex user.index
    dsimp only
    rw [hr.lastApplied]
    exact (hlogged f hf).trans (by omega)
  case queued => simp [hqueue]
  case applied => simp

theorem Passed.main (h : Passed w) {work : Work} {env : Env} (hup : w.process.raft.down = false)
    (hrival : w.process.Unrivalled (.main work env)) (hwhole : w.process.Whole (.main work env))
    (hs : Process.MainStep fsm w.process work env s') (hup' : s'.raft.down = false)
    (hleader : s'.raft.state = .leader) : Passed (w.record (.main work env) s') := by
  cases hs with
  | @proceed o hwork ho =>
    obtain ⟨hsnapshots, futures, happlies⟩ := Process.perform_applies hup hwork ho hup'
    have haborted : work.abortedBy w.process.raft = [] := by
      cases work with
      | input input => rfl
      | restore user => cases hwork
    simp only [record, haborted, List.nil_append]
    refine h.goesOn (Process.extends_perform hup hrival ho hup' hleader) happlies.le ?_ ?_
    · intro l hl
      rw [List.flatten_append, flatten_cutBatches, List.nil_append, List.mem_append] at hl
      exact hl.imp id (fun hl => (happlies.sorted.2 l hl).1)
    · intro l hl
      split at hl
      · cases hl
      · exact .inl hl
  | @refused o snapshot ok hwork ho hsame =>
    have hkept := Process.sameData_of_not_grown hup hwork ho hsame
    have haborted : work.abortedBy w.process.raft = [] := by
      cases work with
      | input input => rfl
      | restore user =>
        -- a restore that aborts anything would have written its snapshot
        by_contra haborts
        obtain ⟨input, heq, -⟩ | ⟨user', stepDown, heq, -, -, rfl⟩ := Process.perform_cases ho
        · cases heq
        · cases heq
          apply hsame
          have hwritten : (w.process.raft.restoreUserSnapshot user
              { env with restoreFSM := ok }).snapshots = _ :=
            Raft.snapshots_of_whole haborts (hwhole haborts)
          rw [hwritten, Process.length_addSnapshot]
          exact Nat.lt_succ_self _
    simp only [record, haborted, List.nil_append, if_neg hsame]
    refine h.goesOn (Process.extends_perform hup hrival ho hup' hleader) ?_ ?_ ?_
    · exact hkept.lastApplied.ge
    · exact fun l hl => .inl hl
    · exact fun l hl => .inl hl
  | @install o snapshot ok thread thread' acknowledged hwork hdrained hrestore ho hgrown _ =>
    have hext := Process.extends_perform hup hrival ho hup' hleader
    obtain ⟨user, rfl, hr⟩ := Process.restore_of_grown hup hrival hwork ho hup' hleader hgrown
    simp only [record, if_pos hgrown]
    exact h.restored hext hr rfl
  | panicked => simp at hup'

theorem Passed.beside (h : Passed w) {a : ProcessAction}
    (hext : Raft.Extends w.process.raft s'.raft) (hs : Process.BesideStep fsm w.process a s') :
    Passed (w.record a s') := by
  cases hs with
  | @applied batch rest thread hch _ =>
    refine h.goesOn hext (Nat.le_refl _) ?_ ?_
    · intro l hl
      rw [hch, List.flatten_cons, List.mem_append]
      exact .inl (.inr hl)
    · intro l hl
      rw [hch, List.headD_cons, List.mem_append] at hl
      rw [hch, List.flatten_cons, List.mem_append]
      exact hl.imp id .inl
  | panicked =>
    refine h.goesOn hext (Nat.le_refl _) (fun l hl => .inl hl) ?_
    intro l hl
    rw [List.mem_append] at hl
    refine hl.imp id (fun hl => ?_)
    cases hch : w.process.fsmMutateCh with
    | nil => simp [hch] at hl
    | cons batch rest =>
      rw [hch, List.headD_cons] at hl
      simp [hl]
  | snapped | configurations | setLastSnapshot =>
    exact h.goesOn hext (Nat.le_refl _) (fun l hl => .inl hl) (fun l hl => .inl hl)
  | @persist env index term state committed committedIndex _ =>
    have hkept : ∀ snapshot,
        (w.process.persist snapshot env).raft.lastApplied = w.process.raft.lastApplied ∧
          (w.process.persist snapshot env).fsmMutateCh = w.process.fsmMutateCh := by
      intro snapshot
      unfold Process.persist
      split <;> exact ⟨rfl, rfl⟩
    refine h.goesOn hext (hkept _).1.ge ?_ (fun l hl => .inl hl)
    rw [(hkept _).2]
    exact fun l hl => .inl hl
  | @compact env index _ =>
    refine h.goesOn hext ?_ (fun l hl => .inl hl) (fun l hl => .inl hl)
    rcases Raft.compactLogsWithTrailing_eq w.process.raft index w.process.raft.lastLogIndex
      w.process.raft.conf.trailingLogs env with hsame | ⟨maxLog, -, -, -, hsame⟩
    · exact (congrArg Raft.lastApplied hsame).ge
    · exact (congrArg Raft.lastApplied hsame).ge

theorem Passed.step (h : Passed w) {a : ProcessAction} (hup : w.process.raft.down = false)
    (hrival : w.process.Unrivalled a) (hwhole : w.process.Whole a)
    (hs : w.process.reign fsm initial a = some s') : Passed (w.record a s') := by
  have hext := Process.extends_reign hup hrival hs
  obtain ⟨hstep, hup', hleader⟩ := Process.reign_eq hs
  revert hext hup' hleader
  refine Process.step_cases (P := fun s' => Raft.Extends w.process.raft s'.raft →
    s'.raft.down = false → s'.raft.state = .leader → Passed (w.record a s')) hstep ?_ ?_ ?_ ?_
  · intro env r _ hdown
    simp [hup] at hdown
  · rintro work env s' rfl - hmain - hup' hleader
    exact h.main hup hrival hwhole hmain hup' hleader
  · intro work env o _ _ _ _ hup'
    simp at hup'
  · intro s' _ hbeside hext _ _
    exact h.beside hext hbeside

theorem process_record (w : Reign σ ρ) (a : ProcessAction) (s' : Process σ ρ) :
    (w.record a s').process = s' := by
  unfold record
  split <;> rfl

theorem passed_of_reachable (h : (system fsm initial).Reachable Orderly w) :
    w.process.raft.down = false ∧ Passed w := by
  refine h.invariant (P := fun w => w.process.raft.down = false ∧ Passed w) ?_ ?_
  · rintro w ⟨⟨r, hup, -, hraft⟩, haborted, -⟩
    refine ⟨?_, .start hraft haborted⟩
    rw [hraft]
    exact hup
  · rintro w a w' ⟨hup, hpassed⟩ ⟨hrival, hwhole⟩ hstep
    simp only [system, Option.map_eq_some_iff] at hstep
    obtain ⟨s', hs, rfl⟩ := hstep
    rw [process_record]
    exact ⟨(Process.reign_eq hs).2.1, hpassed.step hup hrival hwhole hs⟩

/-- A leader in whose reign every restore that aborts futures gets as far as the FSM, and
which is not sent anything by another leader of its term: the entries of the aborted
futures lie at or below the last applied index, and none of them is among the entries
that the FSM has applied since it was last restored, or is still to apply. -/
theorem aborted_not_applied (h : (system fsm initial).Reachable Orderly w) {f : LogFuture}
    (hf : f ∈ w.aborted) :
    f.log.index ≤ w.process.raft.lastApplied ∧ (∀ l ∈ w.applied, l.index ≠ f.log.index) ∧
      ∀ l ∈ w.process.fsmMutateCh.flatten, l.index ≠ f.log.index := by
  obtain ⟨-, hpassed⟩ := passed_of_reachable h
  exact ⟨hpassed.passed f hf, fun l hl => (hpassed.applied f hf l hl).ne',
    fun l hl => (hpassed.queued f hf l hl).ne'⟩

/-- The only voter, which has just become the leader. -/
def lone : Reign Nat Nat :=
  { process := { raft := (newLeader [voterNamed 65]).enterLeader, thread := { state := 0 } } }

theorem init_lone : (system counter 0).init lone :=
  ⟨⟨newLeader [voterNamed 65], rfl, rfl, rfl⟩, rfl, rfl⟩

/-- A command of the client. -/
def command (id : Nat) : List ProcessAction :=
  [Process.given (.apply [⟨id, { index := 0, term := 0, type := .logCommand }⟩]),
    Process.given .loopTest]

/-- The no-op is committed, a command is dispatched, and before it is committed the user
restores a snapshot; another command is dispatched, committed and applied. -/
def restoredBetween (env : Env) : List ProcessAction :=
  [Process.given .enter, Process.given .loopTest, Process.given .commit, Process.given .loopTest,
      .apply] ++
    command 1 ++
    [.main (.restore { index := 0, size := 0, contents := [] }) env, Process.given .loopTest] ++
    command 2 ++ [Process.given .commit, .apply]

theorem aborted_not_applied_lone :
    ∃ w : Reign Nat Nat, (system counter 0).Reachable Orderly w ∧
      w.aborted.map (fun f => f.log.index) = [3] ∧ w.applied.map Log.index = [5] ∧ ∀ f ∈ w.aborted,
        f.log.index ≤ w.process.raft.lastApplied ∧ (∀ l ∈ w.applied, l.index ≠ f.log.index) ∧
          ∀ l ∈ w.process.fsmMutateCh.flatten, l.index ≠ f.log.index := by
  obtain ⟨w, hreach, haborted, happlied⟩ : ∃ w : Reign Nat Nat,
      (system counter 0).Reachable Orderly w ∧ w.aborted.map (fun f => f.log.index) = [3] ∧
      w.applied.map Log.index = [5] :=
    Lib.System.exists_reachable init_lone ((restoredBetween {}).map (fun a _ => a)) (by decide +kernel)
  exact ⟨w, hreach, haborted, happlied, fun f hf => aborted_not_applied hreach hf⟩

/-- The sink cannot be created. The client has been told that the command was aborted,
and the FSM applies it with the next one. -/
theorem aborted_applied :
    ∃ w : Reign Nat Nat, (system counter 0).Reachable (fun w a => w.process.Unrivalled a) w ∧
      ∃ f ∈ w.aborted, f.id = 1 ∧ f.log ∈ w.applied :=
  Lib.System.exists_reachable init_lone
    ((restoredBetween { createSink := false }).map (fun a _ => a)) (by decide +kernel)

end Reign

end PerfRaft
