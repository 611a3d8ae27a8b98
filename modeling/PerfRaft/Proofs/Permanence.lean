import PerfRaft.Proofs.StateMachine

namespace PerfRaft

open Lib Replicated

variable {d : Deployment} {c c' : Cluster}

open Cluster in
/-- A run of three servers: `A` has its no-op acknowledged, and then `B` leads term 3. -/
theorem secondElection_reaches : ∃ c c', threeServers.system.Reachable threeServers.Steady c ∧
    threeServers.system.Reaches threeServers.Steady c c' ∧
    ((c.nodes [65]).down = false ∧ (c.nodes [65]).state = .leader) ∧
    (∃ ls ∈ (c.nodes [65]).leaderships, 2 ≤ ls.commitment.commitIndex) ∧
    (c'.nodes [65]).stable.currentTerm = (c.nodes [65]).currentTerm ∧
    (c'.nodes [66]).state = .leader ∧ { index := 2, term := 2, type := .logNoop } ∈ (c'.nodes [66]).logs := by
  let b := voterNamed 66
  let test : Cluster → Action → Bool := fun _ a => a.routine && decide a.env.Faultless
  have htest : ∀ c a, test c a = true → threeServers.Steady c a :=
    fun c _ h => Action.routine_steady h threeServers c
  have hplays : threeServers.system.plays test
      (fun c => decide ((c.nodes [65]).down = false ∧ (c.nodes [65]).state = .leader) &&
        decide (∃ ls ∈ (c.nodes [65]).leaderships, 2 ≤ ls.commitment.commitIndex) &&
        threeServers.system.plays test
          (fun c' => decide ((c'.nodes [65]).stable.currentTerm = (c.nodes [65]).currentTerm ∧
            (c'.nodes [66]).state = .leader ∧
            { index := 2, term := 2, type := .logNoop } ∈ (c'.nodes [66]).logs)) c
          (campaign b ++ boot [67] ++ handle [67] 0 ++ [countVote b.id (voterNamed 67)]))
      threeServers.start acknowledgedNoop = true := by
    decide +kernel
  obtain ⟨c, hreach, hcheck⟩ := System.reaches_of_plays threeServers.Steady htest hplays
  simp only [Bool.and_eq_true, decide_eq_true_eq] at hcheck
  obtain ⟨⟨hleader, hcommit⟩, hrest⟩ := hcheck
  obtain ⟨c', hreach', hcheck'⟩ := System.reaches_of_plays threeServers.Steady htest hrest
  exact ⟨c, c', ⟨_, rfl, hreach⟩, hreach', hleader, hcommit, of_decide_eq_true hcheck'⟩

/-- Every run of the cluster is a run of the protocol. -/
theorem cluster_refines_protocol (h : d.system.Reachable d.Steady c) :
    ∃ a, Steps d.setting d.protocolStart a ∧ Refines d c a := by
  obtain ⟨_, rfl, hrun⟩ := h
  obtain ⟨a, hsteps, ha⟩ := (faithful_start d).run hrun
  exact ⟨a, hsteps, ha.refines⟩

theorem cluster_refines_protocol_three : ∃ c a,
    threeServers.system.Reachable threeServers.Steady c ∧ (c.nodes [66]).state = .leader ∧
    Steps threeServers.setting threeServers.protocolStart a ∧ Refines threeServers c a := by
  obtain ⟨_, c, hreachable, hrun, -, -, -, hstate, -⟩ := secondElection_reaches
  obtain ⟨a, ha⟩ := cluster_refines_protocol (hreachable.trans hrun)
  exact ⟨c, a, hreachable.trans hrun, hstate, ha⟩

/-- A leader that goes on in its term, over crashes and restarts too, only appends. -/
theorem leader_append_only (h : d.system.Reachable d.Steady c)
    (hrun : d.system.Reaches d.Steady c c') {id : ServerID} (hup : (c.nodes id).down = false)
    (hstate : (c.nodes id).state = .leader)
    (hterm : (c'.nodes id).stable.currentTerm = (c.nodes id).currentTerm) :
    (c.nodes id).logs <+: (c'.nodes id).logs := by
  obtain ⟨a, hfaithful⟩ := faithful_of_reachable h
  obtain ⟨a', hsteps, hfaithful'⟩ := hfaithful.run hrun
  have ha := hfaithful.refines
  have ha' := hfaithful'.refines
  have hg := ha.safe.grows hsteps
  obtain ⟨req, votes, latest, logs, hmem⟩ := (hfaithful.grounded.leading id).state hstate
  obtain ⟨w, hw, hleader, hwon, _⟩ := ha.chronicle.won _ _ _ _ _ _ (Cluster.mem_view.mp hmem)
  have hwon : w.term = (c.nodes id).currentTerm := hwon
  have hlog := ha.safe.logs.leading w hw
    (by rw [hleader, ha.term_eq hfaithful.grounded hup, hwon])
  have hlog' := ha'.safe.logs.leading w (hg.wins.subset hw)
    (by rw [hleader, (ha'.stores id).term, hterm, hwon])
  rw [hleader] at hlog hlog'
  rw [← (ha.stores id).log, ← (ha'.stores id).log, hlog, hlog']
  exact hg.leaderLog _

theorem leader_append_only_three : ∃ c c' : Cluster, (c.nodes [65]).state = .leader ∧
    (c'.nodes [66]).state = .leader ∧ (c.nodes [65]).logs <+: (c'.nodes [65]).logs := by
  obtain ⟨c, c', hreachable, hrun, ⟨hup, hleader⟩, -, hterm, hstate, -⟩ := secondElection_reaches
  exact ⟨c, c', hleader, hstate, leader_append_only hreachable hrun hup hleader hterm⟩

theorem Refines.on_majority {a : Protocol} (h : Refines d c a) (hgoverned : Governed d c a)
    {w : Win ServerID Log} {k i : Nat} (hcommitted : Committed d.configuration.voterIDs a w k)
    (hi : 1 ≤ i) (hle : i ≤ k) {e : Log} (he : (a.leaderLog w.term)[i - 1]? = some e) :
    ∃ Q, Majority d.configuration.voterIDs Q ∧ ∀ x ∈ Q, (c.nodes x).logs.getLog i = some e := by
  obtain ⟨Q, hQ, hkept⟩ := hgoverned.fixed.majority hcommitted
  refine ⟨Q, hQ, ?_⟩
  intro x hx
  rw [((h.regular_logs x).dense).getLog hi, ← (h.stores x).log]
  refine getElem?_of_isPrefix (hkept x hx) ?_
  rw [List.getElem?_take_of_lt (by omega), he]

/-- What a leader has committed stays on the disks of a majority of the voters. -/
theorem committed_on_majority (h : d.system.Reachable d.Steady c)
    (hrun : d.system.Reaches d.Steady c c') {id : ServerID} {ls : LeaderState}
    (hls : ls ∈ (c.nodes id).leaderships) {i : Nat} (hi : 1 ≤ i)
    (hcommit : i ≤ ls.commitment.commitIndex) :
    ∃ e, c.Held id ls.term i e ∧ ∃ Q, Majority d.configuration.voterIDs Q ∧
      ∀ x ∈ Q, (c'.nodes x).logs.getLog i = some e := by
  obtain ⟨a, hfaithful⟩ := faithful_of_reachable h
  obtain ⟨a', hsteps, hfaithful'⟩ := hfaithful.run hrun
  have hg := hfaithful.refines.safe.grows hsteps
  obtain ⟨w, e, -, hcommitted, he, hheld⟩ := hfaithful.committed_entry hls hi hcommit
  exact ⟨e, hheld, hfaithful'.refines.on_majority hfaithful'.governed (hcommitted.grows hg) hi hcommit
    (hg.getElem? he)⟩

theorem committed_on_majority_three : ∃ c c' : Cluster,
    threeServers.system.Reachable threeServers.Steady c ∧
    threeServers.system.Reaches threeServers.Steady c c' ∧ (c'.nodes [66]).state = .leader ∧
    ∃ ls ∈ (c.nodes [65]).leaderships, ∃ e, c.Held [65] ls.term 2 e ∧
      ∃ Q, Majority threeServers.configuration.voterIDs Q ∧
        ∀ x ∈ Q, (c'.nodes x).logs.getLog 2 = some e := by
  obtain ⟨c, c', hreachable, hrun, -, ⟨ls, hls, hcommit⟩, -, hstate, -⟩ := secondElection_reaches
  exact ⟨c, c', hreachable, hrun, hstate, ls, hls,
    committed_on_majority hreachable hrun hls (show 1 ≤ 2 by decide) hcommit⟩

/-- What a server has sent to its FSM, in a run that takes over a commit index for known
entries only, stays on the disks of a majority of the voters. -/
theorem applied_on_majority
    (h : d.system.Reachable (fun c act => d.Steady c act ∧ c.Vouched act) c)
    (hrun : d.system.Reaches d.Steady c c') {id : ServerID} {e : Log}
    (he : (id, .applied e) ∈ c.history) :
    ∃ Q, Majority d.configuration.voterIDs Q ∧
      ∀ x ∈ Q, (c'.nodes x).logs.getLog e.index = some e := by
  have hinv : ∃ a, Faithful d c a ∧ Decided d c a := by
    refine Deployment.invariant (P := fun c => ∃ a, Faithful d c a ∧ Decided d c a)
      ⟨d.protocolStart, faithful_start d, decided_start d⟩ ?_ h
    rintro c act o ⟨a, hf, hd⟩ ⟨hok, hv⟩ hdeliver ho
    obtain ⟨a', hsteps, hf'⟩ := hf.step hok hdeliver ho
    exact ⟨a', hf', hd.step hf.refines hf.grounded hf.governed hok.toPlain hv hdeliver ho hf'.refines
      (hf.refines.safe.grows hsteps)⟩
  obtain ⟨a, hf, hd⟩ := hinv
  obtain ⟨a', hsteps, hf'⟩ := hf.run hrun
  have hg := hf.refines.safe.grows hsteps
  obtain ⟨t, l, k, hsettled, hpos, hle, hget⟩ := hd.applied id e he
  rcases hsettled with hzero | ⟨-, w, n, hcommitted, -, hkn, hp⟩
  · omega
  · refine hf'.refines.on_majority hf'.governed (hcommitted.grows hg) hpos (hle.trans hkn) ?_
    refine hg.getElem? (getElem?_of_isPrefix hp ?_)
    rw [List.getElem?_take_of_lt (by omega), hget]

theorem applied_on_majority_three : ∃ c : Cluster,
    threeServers.system.Reachable (fun c act => threeServers.Steady c act ∧ c.Vouched act) c ∧
    ∃ e, ([66], .applied e) ∈ c.history ∧ e.index = 3 ∧
    ∃ Q, Majority threeServers.configuration.voterIDs Q ∧
      ∀ x ∈ Q, (c.nodes x).logs.getLog e.index = some e := by
  let e : Log := { (commandOf 1).log with index := 3, term := 2 }
  obtain ⟨c, hreach, hmem⟩ : ∃ c,
      threeServers.system.Reachable (fun c act => threeServers.Steady c act ∧ c.Vouched act) c ∧
      ([66], .applied e) ∈ c.history :=
    System.exists_reachable_of (fun _ _ h => Cluster.vouched_of_wary h threeServers) rfl appliedTwice
      (by decide +kernel)
  exact ⟨c, hreach, e, hmem, rfl, applied_on_majority hreach .refl hmem⟩

/-- No entry of a log is made up: it is the one the cluster was bootstrapped with, or a
leader has dispatched it. -/
theorem entries_dispatched (h : d.system.Reachable d.Steady c) {id : ServerID} {e : Log}
    (he : e ∈ (c.nodes id).logs) :
    e = d.entry ∨ ∃ leader entries, (leader, .dispatched entries) ∈ c.history ∧ e ∈ entries := by
  obtain ⟨a, hfaithful⟩ := faithful_of_reachable h
  have ha := hfaithful.refines
  have hvalid := ha.safe.logs.log id
  rw [← (ha.stores id).log] at he
  obtain ⟨i, hi⟩ := List.getElem?_of_mem he
  have hget : (a.leaderLog e.term)[i]? = some e := by
    refine getElem?_of_isPrefix (hvalid i e hi) ?_
    rw [List.getElem?_take_of_lt (Nat.lt_succ_self i), hi]
  rcases ha.safe.logs.origin hvalid he with hroot | ⟨w, hw, hterm⟩
  · rw [show e.term = d.setting.rootTerm from hroot, ha.safe.logs.root] at hget
    exact .inl (List.mem_singleton.mp (List.mem_of_getElem? hget))
  · have hterm : w.term = e.term := hterm
    rw [← hterm] at hget
    -- the leader had no entries of its own term when it was elected
    have hown : w.log.length ≤ i := by
      by_contra hlt
      obtain ⟨es, hled, _⟩ := ha.safe.logs.led w hw
      rw [hled, List.getElem?_append_left (by omega)] at hget
      have hfresh : e.term < w.term :=
        hfaithful.governed.fixed.fresh w hw e (List.mem_of_getElem? hget)
      omega
    obtain ⟨entries, hmem, hin⟩ := ha.chronicle.created w hw i e hown hget
    exact .inr ⟨w.leader, entries, hmem, hin⟩

theorem entries_dispatched_three : ∃ c : Cluster, ∃ e ∈ (c.nodes [66]).logs, e.type = .logNoop ∧
    (e = threeServers.entry ∨
      ∃ leader entries, (leader, .dispatched entries) ∈ c.history ∧ e ∈ entries) := by
  obtain ⟨_, c, hreachable, hrun, -, -, -, -, hmem⟩ := secondElection_reaches
  exact ⟨c, _, hmem, rfl, entries_dispatched (hreachable.trans hrun) hmem⟩

end PerfRaft
