import PerfRaft.Proofs.Tenure

namespace PerfRaft.Tenure

variable {r : Raft} {s s' : Tenure} {env : Env}

theorem keeps_of_leaderships {r r' : Raft} (h : r'.leaderships = r.leaderships) : Keeps r r' := by
  intro ls hls
  exact ⟨ls, h ▸ hls, rfl, Nat.le_refl _⟩

/-- The numbers `apply` gives to new futures. -/
theorem fresh_newFutures (h : Sound s) (logs : List Log) :
    Fresh { s with next := s.next + logs.length } ((s.newFutures logs).map LogFuture.id) := by
  have hids : (s.newFutures logs).map LogFuture.id = List.range' s.next logs.length := by
    apply List.ext_getElem?
    intro i
    simp only [newFutures, List.getElem?_map, List.getElem?_mapIdx, Option.map_map,
      Function.comp_def]
    by_cases hi : i < logs.length <;> simp [hi]
  rw [hids]
  refine ⟨List.nodup_range', ?_, ?_, ?_⟩
  · intro id hid hmem
    obtain ⟨f, hf, rfl⟩ := List.mem_map.mp hmem
    have := h.fresh f hf
    have := (List.mem_range'_1.mp hid).1
    omega
  · intro id hid hmem
    have := (h.known id hmem).2
    have := (List.mem_range'_1.mp hid).1
    omega
  · intro id hid
    exact (List.mem_range'_1.mp hid).2

theorem Sound.noop (h : Sound s) (hmain : s.raft.main = .noop) (env : Env) :
    Sound (s.dispatched [{ log := { index := 0, term := 0, type := .logNoop } }]
      (s.raft.dispatchNoop env).raft env) := by
  obtain ⟨ls, hls⟩ := h.led
  refine h.dispatched (by simp [Live, hmain]) hls (Raft.queues_dispatchNoop hls) rfl ?_
  refine ⟨by simp, ?_, ?_, ?_⟩
  · simp [h.idle hmain]
  · intro id hid hmem
    simp only [List.map_cons, List.map_nil, List.mem_singleton] at hid
    exact (h.known id hmem).1 hid
  · intro id hid
    simp only [List.map_cons, List.map_nil, List.mem_singleton] at hid
    subst hid
    exact h.next

theorem Sound.apply (h : Sound s) {stepDown : Bool} (hmain : s.raft.main = .leader stepDown true)
    (logs : List Log) (env : Env) :
    Sound ({ s with next := s.next + logs.length }.apply stepDown (s.newFutures logs) env) := by
  have hs : Sound { s with next := s.next + logs.length } := h.advance (Nat.le_add_right _ _)
  have hlive : Live { s with next := s.next + logs.length } := by simp [Live, hmain]
  have hids := fresh_newFutures h logs
  unfold Tenure.apply
  cases stepDown with
  | true =>
    have hrefused := hs.refuse hids
    refine hrefused.frame { s.raft with main := .leader true false } (keeps_of_leaderships rfl) rfl rfl rfl
      s.fsmStopped ?_ ?_ ?_
    · intro _
      exact ⟨hlive, id⟩
    · simp
    · intro hrun
      simp [hmain] at hrun
  | false =>
    obtain ⟨ls, hls⟩ := hs.led
    exact hs.dispatched hlive hls (Raft.queues_apply hls _) rfl hids

theorem Sound.configurationChange (h : Sound s) {stepDown : Bool}
    (hmain : s.raft.main = .leader stepDown true) (req : ConfigurationChangeRequest) (env : Env) :
    Sound ({ s with next := s.next + 1 }.configurationChange stepDown req s.next env) := by
  have hs : Sound { s with next := s.next + 1 } := h.advance (Nat.le_add_right _ _)
  have hlive : Live { s with next := s.next + 1 } := by simp [Live, hmain]
  have hids : Fresh { s with next := s.next + 1 } [s.next] :=
    fresh_newFutures h [{ index := 0, term := 0, type := .logConfiguration }]
  unfold Tenure.configurationChange
  dsimp only
  split
  · rename_i err herr
    have hraft : (s.raft.appendConfigurationEntry req s.next env).1 = s.raft := by
      simp [Raft.appendConfigurationEntry, herr]
    rw [hraft]
    have hrefused := hs.refuse hids
    refine hrefused.frame { s.raft with main := .leader stepDown false } (keeps_of_leaderships rfl)
      rfl rfl rfl s.fsmStopped ?_ ?_ ?_
    · intro _
      exact ⟨hlive, id⟩
    · simp
    · intro hrun
      simp [hmain] at hrun
  · rename_i configuration hok
    obtain ⟨ls, hls⟩ := hs.led
    exact hs.dispatched hlive hls (Raft.queues_appendConfigurationEntry hls hok _ _) rfl hids

theorem Sound.loopTest (h : Sound s) {stepDown : Bool} (hmain : s.raft.main = .leader stepDown false)
    (env : Env) (hstate : s.raft.state ≠ .leader) :
    Sound { s with
      raft := s.raft.leaveLeader env
      left := true
      replies := s.replies.respondAll false (s.inflight.map LogFuture.id) } := by
  have hleft : s.left = false := by
    cases hleft : s.left with
    | false => rfl
    | true =>
      have hrun := h.gone hleft
      rw [hmain] at hrun
      simp at hrun
  obtain ⟨done, hdone, hqueue⟩ := h.done hleft
  have honce := h.once
  rw [hdone, List.map_append, List.nodup_append] at honce
  have herror : Sound { s with replies := s.replies.respondAll false (s.inflight.map LogFuture.id) } := by
    apply h.error
    · intro id hid
      obtain ⟨f, hf, rfl⟩ := List.mem_map.mp hid
      apply h.fresh f
      rw [hdone]
      exact List.mem_append_right _ hf
    · intro id hid hmem
      exact honce.2.2 id (hqueue id hmem) id hid rfl
    · intro hl
      simp only [Live, hmain] at hl
      exact absurd hl hstate
  refine herror.leave ?_ env
  intro f hf hne
  exact Replies.mem_answered_respondAll.mpr (.inr ⟨List.mem_map_of_mem hf, hne⟩)

theorem Sound.step (h : Sound s) {a : TenureAction} (hs : s.step a = some s') : Sound s' := by
  cases a with
  | noop env =>
    simp only [Tenure.step] at hs
    split at hs
    · rename_i hmain
      cases hs
      exact h.noop hmain env
    · simp at hs
  | loopTest env =>
    simp only [Tenure.step] at hs
    split at hs
    · rename_i stepDown hmain
      split at hs
      · rename_i hstate
        cases hs
        refine h.frame { s.raft with main := .leader stepDown true } (keeps_of_leaderships rfl) rfl rfl
          rfl s.fsmStopped ?_ (by simp) ?_
        · intro _
          exact ⟨by simp [Live, hmain, hstate], id⟩
        · intro hrun
          simp [hmain] at hrun
      · rename_i hstate
        cases hs
        exact h.loopTest hmain env hstate
    · simp at hs
  | apply logs env =>
    simp only [Tenure.step] at hs
    split at hs
    · rename_i stepDown hmain
      split at hs
      · cases hs
        exact h.apply hmain logs env
      · simp at hs
    · simp at hs
  | configurationChange req env =>
    simp only [Tenure.step] at hs
    split at hs
    · rename_i stepDown hmain
      split at hs
      · cases hs
        exact h.configurationChange hmain req env
      · simp at hs
    · simp at hs
  | commit =>
    simp only [Tenure.step] at hs
    split at hs
    · rename_i stepDown ls rest hmain hls
      split at hs
      · exact h.commit (by simp [Live, hmain]) hls hs
      · simp at hs
    · simp at hs
  | matched server index =>
    simp only [Tenure.step, Option.some.injEq] at hs
    subst hs
    refine h.frame (s.raft.modifyLeaderState _) ?_ rfl rfl rfl s.fsmStopped (fun hl => ⟨hl, id⟩) id id
    intro ls hls
    simp only [Raft.modifyLeaderState, List.head?_modifyHead, hls, Option.map_some]
    exact ⟨_, rfl, rfl, commitIndex_matchServer _ _ _⟩
  | stepDown state term =>
    simp only [Tenure.step] at hs
    split at hs
    · rename_i stepDown hmain
      split at hs
      · rename_i hstate
        cases hs
        refine h.frame { s.raft.setState state with currentTerm := _, main := .leader stepDown false }
          (keeps_of_leaderships rfl) rfl rfl rfl s.fsmStopped ?_ (by simp) ?_
        · intro hl
          simp only [Live, Raft.setState, Raft.setLeader] at hl
          rcases hstate with rfl | rfl <;> simp at hl
        · intro hrun
          simp [hmain] at hrun
      · simp at hs
    · simp at hs
  | heartbeat term =>
    simp only [Tenure.step] at hs
    split at hs
    · simp at hs
    · cases hs
      refine h.frame { s.raft.setState .follower with currentTerm := _ } (keeps_of_leaderships rfl)
        rfl rfl rfl s.fsmStopped ?_ id id
      intro hl
      refine ⟨?_, by simp [Raft.setState]⟩
      simp only [Live, Raft.setState, Raft.setLeader] at hl ⊢
      split at hl
      · trivial
      · trivial
      · simp at hl
      · exact hl.elim
  | take =>
    simp only [Tenure.step] at hs
    split at hs
    · simp at hs
    · split at hs
      · simp at hs
      · rename_i batch rest hch
        cases hs
        exact h.take hch
  | stopFSM =>
    simp only [Tenure.step] at hs
    split at hs
    · cases hs
      exact h.frame s.raft (keeps_of_leaderships rfl) rfl rfl rfl true (fun hl => ⟨hl, id⟩) id id
    · simp at hs

theorem sound_enterLeader (hstart : r.lastApplied ≤ r.getLastIndex) (hstate : r.state = .leader) :
    Sound { raft := r.enterLeader } := by
  obtain ⟨ls, hls, hinflight⟩ : ∃ ls, r.enterLeader.leaderships.head? = some ls ∧ ls.inflight = [] := by
    simp [Raft.enterLeader, Raft.startStopReplication, Raft.modifyLeaderState, Raft.setupLeaderState]
  have hnil : inflight { raft := r.enterLeader } = [] := by simp [inflight, hls, hinflight]
  constructor
  case led => exact ⟨ls, hls⟩
  case sorted => simp [hnil]
  case done => simp [hnil, queueIDs]
  case once => simp
  case idle => simp
  case next => simp
  case fresh => simp
  case known => simp [Replies.answered]
  case accounted => simp
  case queued => simp [queueIDs]
  case truthful => simp [queueIDs]
  case processed => simp
  case effective => constructor <;> simp [Replies.answered]
  case gone => simp
  case shut =>
    intro hshut
    have hsame : r.enterLeader.state = .leader := hstate
    rw [hsame] at hshut
    simp at hshut
  case standing =>
    intro _
    refine ⟨rfl, hstart, ?_, by simp [hnil], by simp [hnil]⟩
    rw [hnil]
    exact ⟨List.Pairwise.nil, by simp, by simp⟩

/-- The FSM thread does not leave while a batch is waiting for it. -/
def Drains (s : Tenure) (a : TenureAction) : Prop :=
  match a with
  | .stopFSM => s.fsmMutateCh = []
  | _ => True

/-- Once the FSM thread has left, nothing comes to its channel. -/
def Drained (s : Tenure) : Prop :=
  s.fsmStopped = true → s.fsmMutateCh = [] ∧ s.raft.state = .shutdown

theorem Drained.step (hd : Drained s) (h : Sound s) {a : TenureAction} (hok : Drains s a)
    (hs : s.step a = some s') : Drained s' := by
  have hidle : s.fsmStopped = true → ¬ s.Live := fun hstopped => h.shut (hd hstopped).2
  cases a with
  | noop env =>
    simp only [Tenure.step] at hs
    split at hs
    · rename_i hmain
      cases hs
      intro hstopped
      exact absurd (by simp [Live, hmain]) (hidle hstopped)
    · simp at hs
  | loopTest env =>
    simp only [Tenure.step] at hs
    split at hs
    · split at hs
      · cases hs
        exact hd
      · cases hs
        intro hstopped
        exact ⟨(hd hstopped).1, (Raft.leaveLeader_control _ _).1.trans (hd hstopped).2⟩
    · simp at hs
  | apply logs env =>
    simp only [Tenure.step] at hs
    split at hs
    · rename_i stepDown hmain
      split at hs
      · cases hs
        intro hstopped
        have hsame : s.fsmStopped = true := by
          cases stepDown <;> exact hstopped
        exact absurd (by simp [Live, hmain]) (hidle hsame)
      · simp at hs
    · simp at hs
  | configurationChange req env =>
    simp only [Tenure.step] at hs
    split at hs
    · rename_i stepDown hmain
      split at hs
      · cases hs
        intro hstopped
        have hsame : s.fsmStopped = true := by
          simp only [Tenure.configurationChange] at hstopped
          split at hstopped <;> exact hstopped
        exact absurd (by simp [Live, hmain]) (hidle hsame)
      · simp at hs
    · simp at hs
  | commit =>
    simp only [Tenure.step] at hs
    split at hs
    · rename_i stepDown ls rest hmain hls
      split at hs
      · simp only [Tenure.commit] at hs
        split at hs
        · simp at hs
        · cases hs
          intro hstopped
          exact absurd (by simp [Live, hmain]) (hidle hstopped)
      · simp at hs
    · simp at hs
  | matched server index =>
    simp only [Tenure.step, Option.some.injEq] at hs
    subst hs
    exact hd
  | stepDown state term =>
    simp only [Tenure.step] at hs
    split at hs
    · rename_i stepDown hmain
      split at hs
      · cases hs
        intro hstopped
        exact absurd (by simp [Live, hmain]) (hidle hstopped)
      · simp at hs
    · simp at hs
  | heartbeat term =>
    simp only [Tenure.step] at hs
    split at hs
    · simp at hs
    · rename_i hstate
      cases hs
      intro hstopped
      exact absurd (hd hstopped).2 hstate
  | take =>
    simp only [Tenure.step] at hs
    split at hs
    · simp at hs
    · rename_i hrunning
      split at hs
      · simp at hs
      · cases hs
        intro hstopped
        exact absurd hstopped hrunning
  | stopFSM =>
    simp only [Tenure.step] at hs
    split at hs
    · rename_i hstate
      cases hs
      exact fun _ => ⟨hok, hstate⟩
    · simp at hs

theorem sound_of_reaches (h : Sound s ∧ Drained s) (hrun : (system r).Reaches Drains s s') :
    Sound s' ∧ Drained s' := by
  refine Lib.System.Reaches.invariant (P := fun s => Sound s ∧ Drained s) ?_ hrun h
  intro s a s' hs hok hstep
  exact ⟨hs.1.step hstep, hs.2.step hs.1 hok hstep⟩

/-- The FSM thread can always take what is left on its channel. -/
theorem exists_drained (s : Tenure) (h : Drained s) :
    ∃ s', (system r).Reaches Drains s s' ∧ s'.fsmMutateCh = [] ∧ s'.left = s.left ∧
      s'.pushed = s.pushed := by
  generalize hn : s.fsmMutateCh.length = n
  induction n generalizing s with
  | zero => exact ⟨s, .refl, List.length_eq_zero_iff.mp hn, rfl, rfl⟩
  | succ n ih =>
    cases hch : s.fsmMutateCh with
    | nil => simp [hch] at hn
    | cons batch rest =>
      have hrunning : s.fsmStopped = false := by
        cases hstopped : s.fsmStopped with
        | false => rfl
        | true =>
          have hempty := (h hstopped).1
          rw [hch] at hempty
          simp at hempty
      obtain ⟨s₁, hs₁⟩ : ∃ s₁, s₁ = { s with
          fsmMutateCh := rest
          replies := s.replies.respondAll true (batch.filterMap CommitTuple.future) } := ⟨_, rfl⟩
      have hstep : (system r).step s .take = some s₁ := by
        simp [system, Tenure.step, hrunning, hch, hs₁]
      have hdrained : Drained s₁ := by
        intro hstopped
        rw [hs₁] at hstopped
        simp [hrunning] at hstopped
      have hlength : s₁.fsmMutateCh.length = n := by
        rw [hs₁]
        simpa [hch] using hn
      obtain ⟨s', hrun, hempty, hleft, hpushed⟩ := ih s₁ hdrained hlength
      have hok : Drains s .take := trivial
      refine ⟨s', Lib.System.Reaches.trans (.tail .refl hok hstep) hrun, hempty, ?_, ?_⟩
      · rw [hleft, hs₁]
      · rw [hpushed, hs₁]

theorem Sound.all_answered (h : Sound s) (hleft : s.left = true) (hch : s.fsmMutateCh = []) :
    ∀ f ∈ s.pushed, f.id ≠ 0 → f.id ∈ s.replies.answered := by
  intro f hf hne
  rcases h.accounted f hf hne with hold | ⟨hstays, -⟩ | hqueue
  · exact hold
  · rw [hleft] at hstays
    simp at hstays
  · simp [queueIDs, hch] at hqueue

/-- One truthful answer for each future: what the queue, the answers and the FSM
thread's channel look like at any time. -/
structure Truthful (r : Raft) (s : Tenure) : Prop where
  increasing : s.inflight.Pairwise (fun f g => f.log.index < g.log.index)
  once : s.replies.answered.Nodup
  answered : s.left = true → s.fsmStopped = true ∨ s.fsmMutateCh = [] →
    ∀ f ∈ s.pushed, f.id ≠ 0 → f.id ∈ s.replies.answered
  finishes : s.left = true → ∃ s', (system r).Reaches Drains s s' ∧ s'.pushed = s.pushed ∧
    ∀ f ∈ s'.pushed, f.id ≠ 0 → f.id ∈ s'.replies.answered
  handed : ∀ batch ∈ s.fsmMutateCh, ∀ t ∈ batch, ∀ id, t.future = some id → id ∉ s.replies.answered
  committed : ∀ f ∈ s.pushed, (f.id, true) ∈ s.replies.answers →
    f.log.index ≤ s.commitIndex ∧ f.log ∈ s.processed ∧
      ∀ l ∈ s.processed, l.index = f.log.index → l = f.log
  final : ∀ id, (id, true) ∈ s.replies.attempts → (id, false) ∉ s.replies.answers

/-- Every leadership that starts with nothing applied beyond the last index gives each
of its futures one truthful answer, as long as the FSM thread does not leave before it
has emptied its channel. -/
theorem truthful_of_drains (hstart : r.lastApplied ≤ r.getLastIndex)
    (h : (system r).Reachable Drains s) : Truthful r s := by
  obtain ⟨s₀, ⟨hstate, rfl⟩, hrun⟩ := h
  obtain ⟨hs, hd⟩ := sound_of_reaches ⟨sound_enterLeader hstart hstate, by simp [Drained]⟩ hrun
  constructor
  case increasing => exact hs.sorted
  case once => exact hs.effective.once
  case answered =>
    intro hleft hdone
    apply hs.all_answered hleft
    rcases hdone with hstopped | hempty
    · exact (hd hstopped).1
    · exact hempty
  case finishes =>
    intro hleft
    obtain ⟨s', hrest, hempty, hleft', hpushed⟩ := exists_drained (r := r) s hd
    refine ⟨s', hrest, hpushed, ?_⟩
    exact (sound_of_reaches ⟨hs, hd⟩ hrest).1.all_answered (hleft'.trans hleft) hempty
  case handed =>
    intro batch hbatch t ht id hid hmem
    apply hs.queued.2 id _ hmem
    have hne := (hs.known id hmem).1
    simp only [queueIDs, List.mem_filter, List.mem_filterMap, List.mem_flatten, bne_iff_ne]
    exact ⟨⟨t, ⟨batch, hbatch, ht⟩, hid⟩, hne⟩
  case committed =>
    intro f hf hanswer
    obtain ⟨g, hg, heq, hmem, hle⟩ := hs.truthful f.id (.inr hanswer)
    have hsame : g = f := List.inj_on_of_nodup_map hs.once hg hf heq
    subst hsame
    refine ⟨hle, hmem, ?_⟩
    intro l hl hindex
    have hnodup : (s.processed.map Log.index).Nodup :=
      (List.pairwise_map.mpr hs.processed.1).imp (fun hlt => Nat.ne_of_lt hlt)
    exact List.inj_on_of_nodup_map hnodup hl hmem hindex
  case final =>
    intro id hattempt hanswer
    have hsuccess := hs.effective.succeeds id hattempt
    have heq := List.inj_on_of_nodup_map hs.effective.once hsuccess hanswer rfl
    simp at heq

/-- The leader of the voters A and B in its second term. -/
def ofTwo : Raft :=
  let configuration : Configuration := ⟨[⟨.voter, [1], [1]⟩, ⟨.voter, [2], [2]⟩]⟩
  { conf := { localID := [1], localAddr := [1] }
    logs := [{ index := 1, term := 1, type := .logConfiguration
               data := encodeConfiguration configuration }]
    currentTerm := 2, commitIndex := 1, lastApplied := 1, lastLogIndex := 1, lastLogTerm := 1
    state := .leader, main := .call .leader
    configurations :=
      { committed := configuration, committedIndex := 1, latest := configuration, latestIndex := 1 } }

/-- The leader is asked to remove itself, and the change is committed. -/
def removal : List (Tenure → TenureAction) :=
  [fun _ => .noop {}, fun _ => .loopTest {}, fun _ => .matched [2] 2, fun _ => .commit,
    fun _ => .loopTest {}, fun _ => .configurationChange ⟨.removeServer, [1], [], 0⟩ {},
    fun _ => .loopTest {}, fun _ => .matched [2] 3, fun _ => .commit]

/-- Nobody is left to answer a future. -/
theorem replies_of_gone {s : Tenure} (hmain : s.raft.main = .run) (hstopped : s.fsmStopped = true)
    (h : (system r).Reaches (fun _ _ => True) s s') : s'.replies = s.replies := by
  have hinvariant : s'.raft.main = .run ∧ s'.fsmStopped = true ∧ s'.replies = s.replies := by
    refine Lib.System.Reaches.invariant
      (P := fun s' => s'.raft.main = .run ∧ s'.fsmStopped = true ∧ s'.replies = s.replies) ?_ h
      ⟨hmain, hstopped, rfl⟩
    intro s₁ a s₂ ⟨hrun, hgone, hsame⟩ _ hstep
    cases a with
    | heartbeat term =>
      simp only [system, Tenure.step] at hstep
      split at hstep
      · simp at hstep
      · cases hstep
        exact ⟨hrun, hgone, hsame⟩
    | matched server index =>
      simp only [system, Tenure.step, Option.some.injEq] at hstep
      subst hstep
      exact ⟨hrun, hgone, hsame⟩
    | stopFSM =>
      simp only [system, Tenure.step] at hstep
      split at hstep
      · cases hstep
        exact ⟨hrun, rfl, hsame⟩
      · simp at hstep
    | noop env | loopTest env | apply logs env | configurationChange req env | commit
    | stepDown state term | take =>
      simp [system, Tenure.step, hrun, hgone] at hstep
  exact hinvariant.2.2

/-- The FSM thread takes the shutdown before the batch with the configuration change:
the client that asked for the removal is never answered. -/
theorem removal_unanswered :
    ∃ (s : Tenure) (f : LogFuture), (system ofTwo).Reachable (fun _ _ => True) s ∧ s.left = true ∧
      f ∈ s.pushed ∧ f.id ≠ 0 ∧
      ∀ s', (system ofTwo).Reaches (fun _ _ => True) s s' → f.id ∉ s'.replies.answered := by
  obtain ⟨s, hreach, hleft, hmain, hstopped, hanswered, hpushed⟩ : ∃ s : Tenure,
      (system ofTwo).Reachable (fun _ _ => True) s ∧ s.left = true ∧ s.raft.main = .run ∧
      s.fsmStopped = true ∧ s.replies.answered = [] ∧ s.pushed.map LogFuture.id = [0, 1] :=
    Lib.System.exists_reachable (s := { raft := ofTwo.enterLeader }) ⟨rfl, rfl⟩ (removal ++ [fun _ => .stopFSM, fun _ => .loopTest {}])
      (by decide +kernel)
  obtain ⟨f, hf, hid⟩ : ∃ f ∈ s.pushed, f.id = 1 := by
    have hmem : 1 ∈ s.pushed.map LogFuture.id := by simp [hpushed]
    obtain ⟨f, hf, hid⟩ := List.mem_map.mp hmem
    exact ⟨f, hf, hid⟩
  refine ⟨s, f, hreach, hleft, hf, by simp [hid], ?_⟩
  intro s' hrun'
  rw [replies_of_gone hmain hstopped hrun', hanswered]
  simp

instance (s : Tenure) : DecidablePred s.Drains
  | .stopFSM => inferInstanceAs (Decidable (s.fsmMutateCh = []))
  | .noop _ | .loopTest _ | .apply _ _ | .configurationChange _ _ | .commit | .matched _ _
  | .stepDown _ _ | .heartbeat _ | .take => isTrue trivial

theorem truthful_of_drains_removal :
    ∃ s : Tenure, (system ofTwo).Reachable Drains s ∧ Truthful ofTwo s ∧ s.left = true ∧
      s.fsmStopped = true ∧ s.replies.answers = [(1, true)] := by
  obtain ⟨s, hreach, hrest⟩ : ∃ s : Tenure, (system ofTwo).Reachable Drains s ∧ s.left = true ∧
      s.fsmStopped = true ∧ s.replies.answers = [(1, true)] :=
    Lib.System.exists_reachable (s := { raft := ofTwo.enterLeader }) ⟨rfl, rfl⟩
      (removal ++ [fun _ => .take, fun _ => .stopFSM, fun _ => .loopTest {}]) (by decide +kernel)
  exact ⟨s, hreach, truthful_of_drains (by decide) hreach, hrest⟩

end PerfRaft.Tenure
