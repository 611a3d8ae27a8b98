import PerfRaft.Proofs.NextIndex
import PerfRaft.Proofs.Writes

namespace PerfRaft

namespace Handover

variable {s s' : Handover} {k : Nat} {t : LeadershipTransfer}

/-- What one step of the server does in a leadership. -/
structure Belongs (s : Handover) (input : Input) (raft : Raft) : Prop where
  continues : Continues raft.getLastIndex (s.heard input) s.replState raft.replications
  noop : raft.main = .noop → s.raft.main = .noop
  last : s.raft.main = .noop ∨ refusable input = true ∨ raft.getLastIndex = s.raft.getLastIndex

theorem belongs_step {input : Input} {env : Env} {o : Outcome}
    (hbelongs : belongs s.raft input = true) (h : s.raft.stepUp env input = some o) :
    s.Belongs input o.raft := by
  cases input with
  | enter =>
    have hmain : s.raft.main = .noop := of_decide_eq_true hbelongs
    simp only [Raft.stepUp, Raft.enter, hmain, Option.some.injEq] at h
    subst h
    refine ⟨?_, fun _ => hmain, .inl hmain⟩
    have hsame := Raft.replications_dispatchLogs s.raft
      [{ log := { index := 0, term := 0, type := .logNoop } }] env
    change Continues _ _ s.raft.replications (Raft.dispatchLogs _ _ _).1.replications
    rw [hsame]
    exact Continues.refl _ _ _
  | loopTest =>
    obtain ⟨r', hr', rfl⟩ := Raft.stepUp_loopTest h
    have hstate : s.raft.state = .leader := of_decide_eq_true hbelongs
    unfold Raft.loopTest at hr'
    split at hr'
    · cases hr'
      exact ⟨Continues.refl _ _ _, by simp [hstate], .inr (.inr rfl)⟩
    · simp only [hstate, reduceCtorEq, if_false, Option.some.injEq] at hr'
      subst hr'
      exact ⟨Continues.refl _ _ _, by simp [Raft.leaveCandidate], .inr (.inr rfl)⟩
    · simp only [hstate, if_true, Option.some.injEq] at hr'
      subst hr'
      exact ⟨Continues.refl _ _ _, by simp, .inr (.inr rfl)⟩
    · cases hr'
  | apply futures =>
    obtain ⟨stepDown, -, -, rfl⟩ := Raft.stepUp_apply h
    unfold Raft.apply
    split
    · exact ⟨Continues.refl _ _ _, by simp, .inr (.inl rfl)⟩
    · refine ⟨?_, by simp, .inr (.inl rfl)⟩
      have hsame := Raft.replications_dispatchLogs s.raft futures env
      change Continues _ _ s.raft.replications (Raft.dispatchLogs _ _ _).1.replications
      rw [hsame]
      exact Continues.refl _ _ _
  | configurationChange req future =>
    obtain ⟨stepDown, -, -, ho, -⟩ := Raft.stepUp_configurationChange h
    rw [ho]
    exact ⟨Raft.continues_appendConfigurationEntry s.raft req future env _, by simp,
      .inr (.inl rfl)⟩
  | commit =>
    obtain ⟨stepDown, ls, rest, -, -, -, ho, -⟩ := Raft.stepUp_commit h
    have hstores := (Raft.advances_leaderCommit s.raft ls stepDown).stores
    obtain ⟨stepDown', tested, hmain⟩ := Raft.leaderCommit_main s.raft ls stepDown
    rw [ho]
    refine ⟨?_, by simp [hmain], .inr (.inr ?_)⟩
    · rw [Raft.replications_leaderCommit]
      exact Continues.refl _ _ _
    · rw [Raft.getLastIndex, hstores.lastLogIndex, hstores.lastSnapshotIndex]
      rfl
  | replication i j input =>
    have hi : i = 0 := of_decide_eq_true hbelongs
    subst hi
    obtain ⟨r', sends, hr', rfl⟩ := Raft.stepUp_replication h
    obtain ⟨ls, f, f', matched, hls, hf, hstep, rfl⟩ := Raft.replicate_cases hr'
    have hrepl : s.replState = ls.replState := Raft.replications_of_getElem? hls
    refine ⟨?_, fun hmain => hmain, .inr (.inr rfl)⟩
    dsimp only
    rw [Raft.replications_set hls]
    simp only [heard, hrepl, hf]
    exact Continues.set hf (FollowerReplication.learns_replicationStep hstep)
  | rpc | heartbeat | run | heartbeatTimer | preVote | vote | electionTimer | stepDown | crash
  | restart => cases hbelongs

/-- A next index `n` of the server `id` that is not a mere guess: it does not lie beyond
the last index at the time the replication state was set up, or beyond what the server
has acknowledged. -/
def Founded (s : Handover) (id : ServerID) (created n : Nat) : Prop :=
  n ≤ created + 1 ∨ ∃ index, (id, index) ∈ s.acknowledged ∧ n ≤ index + 1

/-- The transfer has the replication state of its target, and what it has read is
accounted for. -/
structure Placed (s : Handover) (t : LeadershipTransfer) : Prop where
  target : ∃ f, s.replState[t.repl]? = some f ∧ f.peer.id = t.id
  compared : ∀ n created, t.pc = .compare n → s.created[t.repl]? = some created →
    s.Founded t.id created n
  offered : ∀ last, t.pc = .offer last → last = s.raft.getLastIndex ∧
    ∃ index, (t.id, index) ∈ s.acknowledged ∧ last ≤ index

/-- Only the newest transfer is under way, and then the flag is set and nobody is about
to reset it. -/
structure Fair (s : Handover) : Prop where
  idle : s.raft.main = .noop → s.transfers = []
  created : s.created.length = s.replState.length
  founded : ∀ (j : Nat) (f : FollowerReplication) (c : Nat), s.replState[j]? = some f →
    s.created[j]? = some c →
      s.Founded f.peer.id c f.nextIndex
  placed : ∀ (k : Nat) (t : LeadershipTransfer), s.transfers[k]? = some t → s.Placed t
  guarded : ∀ (k : Nat) (t : LeadershipTransfer), s.transfers[k]? = some t → t.pc ≠ .done →
    k + 1 = s.transfers.length ∧ s.inProgress = true ∧ s.finishing = 0

/-- The loop of `leadershipTransfer` is about to end. -/
def passes (s : Handover) (t : LeadershipTransfer) : Bool :=
  match t.pc with
  | .compare n => decide (s.raft.getLastIndex < n)
  | _ => false

/-- The comparison with the last index is passed only when the leader has appended an
entry since the target's replication state was set up, and a transfer is begun only when
no earlier one has still to reset the flag. -/
def Heeds (s : Handover) : HandoverAction → Prop
  | .run k =>
    ∀ t ∈ s.transfers[k]?, s.passes t = true →
      ∀ created ∈ s.created[t.repl]?, created < s.raft.getLastIndex
  | .transfer _ => s.finishing = 0
  | _ => True

instance (s : Handover) (a : HandoverAction) : Decidable (s.Heeds a) :=
  match a with
  | .run k =>
    inferInstanceAs (Decidable (∀ t ∈ s.transfers[k]?, s.passes t = true →
      ∀ created ∈ s.created[t.repl]?, created < s.raft.getLastIndex))
  | .transfer _ => inferInstanceAs (Decidable (s.finishing = 0))
  | .input _ _ | .stop _ | .replicated _ _ | .offer _ | .settle => isTrue trivial

theorem Founded.mono {id : ServerID} {created n : Nat} (h : s.Founded id created n)
    (hack : s.acknowledged ⊆ s'.acknowledged) : s'.Founded id created n := by
  rcases h with h | ⟨index, hmem, hle⟩
  · exact .inl h
  · exact .inr ⟨index, hack hmem, hle⟩

theorem Fair.start (r : Raft) : Fair (start r) where
  idle _ := rfl
  created := List.length_replicate
  founded := by
    intro j f created hf hcreated
    have hcont := Raft.continues_startStopReplication r.setupLeaderState []
    have hnone : r.setupLeaderState.replications = [] := rfl
    rw [hnone] at hcont
    have hlast : created = r.getLastIndex :=
      List.eq_of_mem_replicate (List.mem_of_getElem? hcreated)
    rcases hcont.cases j f hf with ⟨g, hg, -⟩ | ⟨-, hnext⟩
    · simp at hg
    · refine .inl ?_
      rw [hlast, hnext]
      exact Nat.le_refl _
  placed := by
    intro k t ht
    simp [Handover.start] at ht
  guarded := by
    intro k t ht
    simp [Handover.start] at ht

/-- A transfer changes in a way that does not bring it back to life. -/
theorem Fair.set (h : s.Fair) (ht : s.transfers[k]? = some t) {t' : LeadershipTransfer}
    (hplaced : s.Placed t') (hdone : t'.pc ≠ .done → t.pc ≠ .done) :
    Fair { s with transfers := s.transfers.set k t' } where
  idle hmain := by
    rw [h.idle hmain] at ht
    cases ht
  created := h.created
  founded := h.founded
  placed := by
    intro i u hu
    rcases eq_or_ne k i with rfl | hne
    · rw [List.getElem?_set_self (List.getElem?_eq_some_iff.mp ht).1] at hu
      cases hu
      exact ⟨hplaced.target, hplaced.compared, hplaced.offered⟩
    · rw [List.getElem?_set_ne hne] at hu
      have hold := h.placed i u hu
      exact ⟨hold.target, hold.compared, hold.offered⟩
  guarded := by
    intro i u hu hlive
    rw [List.length_set]
    rcases eq_or_ne k i with rfl | hne
    · rw [List.getElem?_set_self (List.getElem?_eq_some_iff.mp ht).1] at hu
      cases hu
      exact h.guarded k t ht (hdone hlive)
    · rw [List.getElem?_set_ne hne] at hu
      exact h.guarded i u hu hlive

/-- The transfer under way ends; there is no other one. -/
theorem Fair.ended (h : s.Fair) (ht : s.transfers[k]? = some t) (hlive : t.pc ≠ .done) :
    Fair (s.ended k t) := by
  have hplaced := h.placed k t ht
  have hset : Fair { s with transfers := s.transfers.set k { t with pc := .done } } :=
    h.set ht ⟨hplaced.target, by simp, by simp⟩ (fun hne => absurd rfl hne)
  constructor
  case idle => exact hset.idle
  case created => exact hset.created
  case founded => exact hset.founded
  case placed =>
    intro i u hu
    have hold := hset.placed i u hu
    exact ⟨hold.target, hold.compared, hold.offered⟩
  case guarded =>
    intro i u hu hul
    obtain ⟨hi, -⟩ := hset.guarded i u hu hul
    obtain ⟨hk, -⟩ := h.guarded k t ht hlive
    rw [List.length_set] at hi
    have hik : i = k := by omega
    subst hik
    simp only [Handover.ended] at hu
    rw [List.getElem?_set_self (List.getElem?_eq_some_iff.mp ht).1] at hu
    cases hu
    exact absurd rfl hul

theorem Fair.proceed (h : s.Fair) {input : Input} {raft : Raft} (hb : s.Belongs input raft)
    (hfree : s.inProgress = true → refusable input = false) : Fair (s.proceed input raft) := by
  have hcreated (j c : Nat) (hj : j < s.replState.length)
      (hc : (s.proceed input raft).created[j]? = some c) : s.created[j]? = some c := by
    simp only [Handover.proceed] at hc
    rwa [List.getElem?_append_left (by rw [h.created]; exact hj)] at hc
  have hgrow : s.acknowledged ⊆ (s.proceed input raft).acknowledged :=
    List.subset_append_right _ _
  constructor
  case idle => exact fun hmain => h.idle (hb.noop hmain)
  case created =>
    have hlength := hb.continues.length
    simp only [Handover.proceed, Handover.replState, List.length_append, List.length_replicate]
    have hold := h.created
    simp only [Handover.replState] at hold hlength
    omega
  case founded =>
    intro j f' c hf' hc
    rcases hb.continues.cases j f' hf' with ⟨f, hf, hid, hnext⟩ | ⟨hj, hnext⟩
    · have hc' := hcreated j c (List.getElem?_eq_some_iff.mp hf).1 hc
      rw [hid]
      rcases hnext with hnext | ⟨index, hmem, hnext⟩
      · rcases (h.founded j f c hf hc').mono hgrow with hle | ⟨index, hmem, hle⟩
        · exact .inl (by omega)
        · exact .inr ⟨index, hmem, by omega⟩
      · exact .inr ⟨index, List.mem_append_left _ hmem, hnext⟩
    · have hlast : c = raft.getLastIndex := by
        simp only [Handover.proceed] at hc
        rw [List.getElem?_append_right (by rw [h.created]; exact hj)] at hc
        exact List.eq_of_mem_replicate (List.mem_of_getElem? hc)
      exact .inl (by rw [hnext, hlast])
  case placed =>
    intro k t ht
    change s.transfers[k]? = some t at ht
    have hold := h.placed k t ht
    obtain ⟨f, hf, hid⟩ := hold.target
    have hlt := (List.getElem?_eq_some_iff.mp hf).1
    constructor
    case target =>
      have hlt' : t.repl < raft.replications.length := Nat.lt_of_lt_of_le hlt hb.continues.length
      refine ⟨raft.replications[t.repl], List.getElem?_eq_getElem hlt', ?_⟩
      rcases hb.continues.cases t.repl _ (List.getElem?_eq_getElem hlt') with
        ⟨g, hg, hgid, -⟩ | ⟨hge, -⟩
      · rw [hf] at hg
        cases hg
        rw [hgid, hid]
      · omega
    case compared =>
      intro n c hpc hc
      exact (hold.compared n c hpc (hcreated _ c hlt hc)).mono hgrow
    case offered =>
      intro last hpc
      obtain ⟨hlast, index, hmem, hle⟩ := hold.offered last hpc
      obtain ⟨-, hprogress, -⟩ := h.guarded k t ht (by simp [hpc])
      refine ⟨?_, index, hgrow hmem, hle⟩
      rcases hb.last with hnoop | hrefusable | hsame
      · rw [h.idle hnoop] at ht
        cases ht
      · rw [hfree hprogress] at hrefusable
        cases hrefusable
      · rw [hlast]
        exact hsame.symm
  case guarded => exact h.guarded

theorem findIdx?_replIndex {ls : LeaderState} {id : ServerID} {j : Nat}
    (h : ls.replIndex? id = some j) : ∃ f, ls.replState[j]? = some f ∧ f.peer.id = id := by
  obtain ⟨hlt, hmatch, -⟩ := List.findIdx?_eq_some_iff_getElem.mp h
  simp only [Bool.and_eq_true, beq_iff_eq] at hmatch
  exact ⟨ls.replState[j], List.getElem?_eq_getElem hlt, hmatch.2⟩

/-- The main thread goes around its loop. -/
theorem Fair.loop (h : s.Fair) {main : MainThread} (hmain : main ≠ .noop) :
    Fair { s with raft := { s.raft with main := main } } where
  idle hnoop := absurd hnoop hmain
  created := h.created
  founded := h.founded
  placed := by
    intro k t ht
    have hold := h.placed k t ht
    exact ⟨hold.target, hold.compared, hold.offered⟩
  guarded := h.guarded

theorem Fair.transfer (h : s.Fair) (hfinishing : s.finishing = 0) {ls : LeaderState}
    {rest : List LeaderState} (hls : s.raft.leaderships = ls :: rest) (stepDown : Bool)
    (target : Option (ServerID × ServerAddress)) : Fair (s.transfer ls stepDown target) := by
  have hloop : Fair { s with raft := { s.raft with main := .leader stepDown false } } :=
    h.loop (by simp)
  unfold Handover.transfer
  dsimp only
  split
  · exact hloop
  rename_i hfree
  -- the flag is not set, so nothing is under way
  have hover (k : Nat) (t : LeadershipTransfer) (ht : s.transfers[k]? = some t) :
      t.pc = .done := by
    by_contra hlive
    exact hfree (h.guarded k t ht hlive).2.1
  split
  · constructor
    case idle => exact hloop.idle
    case created => exact hloop.created
    case founded => exact hloop.founded
    case placed =>
      intro k t ht
      have hold := hloop.placed k t ht
      exact ⟨hold.target, hold.compared, hold.offered⟩
    case guarded =>
      intro k t ht hlive
      exact absurd (hover k t ht) hlive
  · rename_i id address j htarget
    have hfound : ls.replIndex? id = some j := by
      unfold Raft.transferTarget at htarget
      split at htarget
      · cases htarget
      · rw [Option.map_eq_some_iff] at htarget
        obtain ⟨j', hj', heq⟩ := htarget
        cases heq
        exact hj'
    obtain ⟨f, hf, hid⟩ := findIdx?_replIndex hfound
    have hrepl : s.replState = ls.replState := by
      simp [Handover.replState, Raft.replications, hls]
    constructor
    case idle =>
      intro hnoop
      cases hnoop
    case created => exact hloop.created
    case founded => exact hloop.founded
    case placed =>
      intro k t ht
      rw [List.getElem?_append] at ht
      split at ht
      · have hold := h.placed k t ht
        exact ⟨hold.target, hold.compared, hold.offered⟩
      · obtain ⟨-, rfl⟩ := List.getElem?_eq_some_iff.mp ht
        refine ⟨⟨f, ?_, ?_⟩, by simp, by simp⟩
        · simp only [List.getElem_singleton]
          change s.replState[j]? = some f
          rw [hrepl, hf]
        · simpa using hid
    case guarded =>
      intro k t ht hlive
      rw [List.getElem?_append] at ht
      split at ht
      · exact absurd (hover k t ht) hlive
      · obtain ⟨hk, -⟩ := List.getElem?_eq_some_iff.mp ht
        simp only [List.length_singleton] at hk
        rw [List.length_append, List.length_singleton]
        exact ⟨by omega, rfl, hfinishing⟩

/-- What is compared with success has been acknowledged. -/
theorem Fair.offer (h : s.Fair) (ht : s.transfers[k]? = some t) {n : Nat}
    (hpc : t.pc = .compare n) (hlast : s.raft.getLastIndex < n)
    (hheeds : ∀ created ∈ s.created[t.repl]?, created < s.raft.getLastIndex) :
    ∃ index, (t.id, index) ∈ s.acknowledged ∧ s.raft.getLastIndex ≤ index := by
  have hplaced := h.placed k t ht
  obtain ⟨f, hf, -⟩ := hplaced.target
  have hlt : t.repl < s.created.length := by
    rw [h.created]
    exact (List.getElem?_eq_some_iff.mp hf).1
  have hcreated := List.getElem?_eq_getElem hlt
  have hbelow := hheeds _ hcreated
  rcases hplaced.compared n _ hpc hcreated with hle | ⟨index, hmem, hle⟩
  · omega
  · exact ⟨index, hmem, by omega⟩

theorem Fair.run (h : s.Fair) (ht : s.transfers[k]? = some t) (hheeds : s.Heeds (.run k))
    (hrun : s.runTransfer k t = some s') : s'.Fair := by
  have hplaced := h.placed k t ht
  unfold runTransfer at hrun
  split at hrun
  · rename_i hpc
    cases hrun
    split
    · exact h.ended ht (by simp [hpc])
    · exact h.set ht ⟨hplaced.target, by simp, by simp⟩ (by simp [hpc])
  · rename_i hpc
    rw [Option.map_eq_some_iff] at hrun
    obtain ⟨f, hf, rfl⟩ := hrun
    refine h.set ht ⟨hplaced.target, ?_, by simp⟩ (by simp [hpc])
    intro n created hn hcreated
    cases hn
    obtain ⟨g, hg, hid⟩ := hplaced.target
    have hfg : g = f := Option.some.inj (hg.symm.trans hf)
    subst hfg
    have hfounded := h.founded t.repl g created hg hcreated
    rwa [hid] at hfounded
  · rename_i n hpc
    cases hrun
    split
    · exact h.set ht ⟨hplaced.target, by simp, by simp⟩ (by simp [hpc])
    · rename_i hlast
      refine h.set ht ⟨hplaced.target, by simp, ?_⟩ (by simp [hpc])
      intro last hoffer
      cases hoffer
      have hlt : s.raft.getLastIndex < n := Nat.not_le.mp hlast
      obtain ⟨index, hmem, hle⟩ := h.offer ht hpc hlt (hheeds t ht (by simp [passes, hpc, hlt]))
      exact ⟨rfl, index, hmem, hle⟩
  · rename_i hpc
    split at hrun
    · cases hrun
      exact h.ended ht (by simp [hpc])
    · cases hrun
  · cases hrun

theorem Fair.step (h : s.Fair) {a : HandoverAction} (hheeds : s.Heeds a)
    (hstep : s.step a = some s') : s'.Fair := by
  cases a with
  | input input env =>
    simp only [Handover.step] at hstep
    split at hstep
    · cases hstep
    · rename_i hbelongs
      split at hstep
      · split at hstep
        · cases hstep
          exact h.loop (by simp)
        · cases hstep
      · rename_i hfree
        rw [Option.map_eq_some_iff] at hstep
        obtain ⟨o, ho, rfl⟩ := hstep
        refine h.proceed (belongs_step (by simpa using hbelongs) ho) ?_
        intro hprogress
        simpa [hprogress] using hfree
  | transfer target =>
    simp only [Handover.step] at hstep
    split at hstep
    · rename_i hls
      split at hstep
      · cases hstep
        exact h.transfer hheeds hls _ target
      · cases hstep
    · cases hstep
  | stop k =>
    simp only [Handover.step, Option.map_eq_some_iff] at hstep
    obtain ⟨t, ht, rfl⟩ := hstep
    have hplaced := h.placed k t ht
    exact h.set ht ⟨hplaced.target, hplaced.compared, hplaced.offered⟩ id
  | run k =>
    simp only [Handover.step, Option.bind_eq_some_iff] at hstep
    obtain ⟨t, ht, hrun⟩ := hstep
    exact h.run ht hheeds hrun
  | replicated k ok =>
    simp only [Handover.step] at hstep
    split at hstep
    · rename_i t ht
      split at hstep
      · rename_i hpc
        cases hstep
        split
        · exact h.set ht ⟨(h.placed k t ht).target, by simp, by simp⟩ (by simp [hpc])
        · exact h.ended ht (by simp [hpc])
      · cases hstep
    · cases hstep
  | offer k =>
    simp only [Handover.step] at hstep
    split at hstep
    · rename_i t ht
      split at hstep
      · rename_i hpc
        cases hstep
        exact h.ended ht (by simp [hpc])
      · cases hstep
    · cases hstep
  | settle =>
    simp only [Handover.step] at hstep
    split at hstep
    · rename_i hfinishing
      cases hstep
      refine ⟨h.idle, h.created, h.founded, ?_, ?_⟩
      · intro k t ht
        have hold := h.placed k t ht
        exact ⟨hold.target, hold.compared, hold.offered⟩
      · intro k t ht hlive
        obtain ⟨-, -, hzero⟩ := h.guarded k t ht hlive
        omega
    · cases hstep

theorem fair_of_reachable (h : system.Reachable Heeds s) : s.Fair := by
  refine h.invariant ?_ (fun _ _ _ hs hok hstep => hs.step hok hstep)
  rintro s ⟨r, -, -, rfl⟩
  exact Fair.start r

/-- In a leadership in which the leader has appended an entry since it set up the
target's replication state, and no transfer is begun before the flag of the last one has
been reset: whenever TimeoutNow is sent to a server, that server has acknowledged an index
that is not below the leader's last one. -/
theorem offered_caught_up (h : system.Reachable Heeds s) {last : Nat}
    (ht : s.transfers[k]? = some t) (hpc : t.pc = .offer last) :
    ∃ index, (t.id, index) ∈ s.acknowledged ∧ s.raft.getLastIndex ≤ index := by
  obtain ⟨hlast, index, hmem, hle⟩ := ((fair_of_reachable h).placed k t ht).offered last hpc
  rw [← hlast]
  exact ⟨index, hmem, hle⟩

theorem init_newLeader (servers : List Server) : system.init (start (newLeader servers)) :=
  ⟨newLeader servers, rfl, rfl, rfl⟩

def serve (input : Input) : Handover → HandoverAction := fun _ => .input input {}

/-- The only follower acknowledges the no-op. -/
def caughtUp : List (Handover → HandoverAction) :=
  [serve .enter, serve .loopTest, serve (.replication 0 0 .trigger), serve (.replication 0 0 .send),
    serve (.replication 0 0 (.reply (.response ⟨{}, 2, 2, true, false⟩)))]

/-- The goroutine runs from its start to the TimeoutNow call. -/
def runToOffer (k : Nat) : List (Handover → HandoverAction) :=
  [fun _ => .run k, fun _ => .run k, fun _ => .run k]

/-- The leadership is handed over to the follower, which has the whole log. -/
def handedOver : List (Handover → HandoverAction) :=
  caughtUp ++ (fun _ => .transfer none) :: runToOffer 0

theorem offered_caught_up_follower :
    ∃ s : Handover, ∃ t, s.transfers[0]? = some t ∧ t.id = [66] ∧ t.pc = .offer 2 ∧
      ∃ index, (t.id, index) ∈ s.acknowledged ∧ s.raft.getLastIndex ≤ index := by
  obtain ⟨s, hreach, t, ht, hid, hpc⟩ : ∃ s : Handover, system.Reachable Heeds s ∧
      ∃ t, s.transfers[0]? = some t ∧ t.id = [66] ∧ t.pc = .offer 2 :=
    Lib.System.exists_reachable (init_newLeader [voterNamed 65, voterNamed 66]) handedOver
      (by decide +kernel)
  exact ⟨s, t, ht, hid, hpc, offered_caught_up hreach ht hpc⟩

/-- A lone leader adds a voter and hands the leadership over to it at once: the next
index is past the last one before anything has been sent. -/
def handedToNewcomer : List (Handover → HandoverAction) :=
  [serve .enter, serve .loopTest, serve .commit, serve .loopTest,
    serve (.configurationChange ⟨.addVoter, [66], [66], 0⟩ 1), serve .loopTest,
    fun _ => .transfer (some ([66], [66]))] ++ runToOffer 0

/-- A transfer to an unknown server has failed, but its watcher resets the flag only
during the next transfer; an entry is then appended before TimeoutNow is sent. -/
def handedOverLate : List (Handover → HandoverAction) :=
  caughtUp ++
    [fun _ => .transfer (some ([67], [67])), serve .loopTest,
      fun _ => .transfer (some ([66], [66]))] ++
    runToOffer 0 ++
    [fun _ => .settle, serve .loopTest,
      serve (.apply [⟨1, { index := 0, term := 0, type := .logCommand }⟩])]

/-- TimeoutNow is sent to a server that has acknowledged nothing, and to one that lacks
the leader's last entry. -/
theorem offered_behind :
    (∃ s : Handover, system.Reachable (fun _ _ => True) s ∧
      ∃ t, s.transfers[0]? = some t ∧ t.id = [66] ∧ t.pc = .offer 3 ∧
        s.raft.getLastIndex = 3 ∧ s.acknowledged = []) ∧
    (∃ s : Handover, system.Reachable (fun _ _ => True) s ∧
      ∃ t, s.transfers[0]? = some t ∧ t.id = [66] ∧ t.pc = .offer 2 ∧
        s.raft.getLastIndex = 3 ∧ s.acknowledged = [([66], 2)]) :=
  ⟨Lib.System.exists_reachable (init_newLeader [voterNamed 65]) handedToNewcomer (by decide +kernel),
    Lib.System.exists_reachable (init_newLeader [voterNamed 65, voterNamed 66]) handedOverLate
      (by decide +kernel)⟩

end Handover

end PerfRaft
