import PerfRaft.Proofs.Counting

namespace PerfRaft

open Lib Replicated

variable {d : Deployment} {c c' : Cluster} {a : Protocol} {o : Outcome} {P : Win ServerID Log → Prop}

/-- Every step of a server is matched by steps of its node, when those who are set to
leader may be. -/
theorem Refines.step (h : Refines d c a) (hc : Grounded d c) {act : Action} (hok : act.Plain)
    (hwin : ∀ T req votes latest logs, .becameLeader T req votes latest logs ∈ o.events →
      Electable P a act.node)
    (hdeliver : c.deliverable (c.nodes act.node) act.input = true)
    (ho : (c.nodes act.node).step act.input act.env = some o) :
    ∃ a', Moves d.setting P act.node a a' ∧ Refines d (c.record act.node act.input o) a' := by
  obtain ⟨n, input, env⟩ := act
  obtain ⟨honMain, henv, hsnapshot⟩ := hok
  dsimp only at *
  cases hdown : (c.nodes n).down with
  | true =>
    obtain ⟨_, r', hr, rfl⟩ := Raft.step_down ho hdown
    exact h.restart hc ho hr rfl rfl (by simp [Outcome.Silent])
  | false =>
    cases Raft.effect_stepUp (Raft.step_up ho hdown) honMain hsnapshot with
    | restart hdown' => simp [hdown] at hdown'
    | idle hdata hterm hleaderships hevents hsends hsilent =>
      exact h.bump hc hdown ho hdata hleaderships hevents hsends hsilent.declines
    | requestVote req hinput hraft hevents hsends hsilent =>
      subst hinput
      exact h.requestVote hc hdown henv.1 hdeliver ho hraft hevents hsends hsilent
    | appendEntries req hinput hraft hevents hsends hresponse =>
      subst hinput
      exact h.appendEntries hc hdown henv hdeliver ho hraft hevents hsends hresponse
    | elect main hraft hevents hsends hsilent =>
      exact h.elect hc hdown henv.1 ho hraft hevents hsends hsilent
    | follow t hraft hevents hsends hsilent =>
      exact h.follow hc hdown henv.1 ho hraft hevents hsends hsilent
    | win locals ch votes hmain hch hpending hraft hevents hsends hsilent =>
      refine h.win hc hdown hmain hch hpending ?_ hraft hevents hsends hsilent
      exact hwin _ _ _ _ _ (by rw [hevents]; exact List.mem_singleton.mpr rfl)
    | setup hmain hraft hevents hsends hsilent =>
      exact h.setup hc hdown ho hmain hraft hevents hsends hsilent
    | dispatch futures stepDown hmain hne hdecodes hraft hevents hsends hsilent =>
      exact h.dispatch hc hdown henv ho hmain hne hdecodes hraft hevents hsends hsilent
    | configure req future configuration stepDown hinput hmain hnext hraft hevents hsends hsilent =>
      subst hinput
      exact h.configure hc hdown henv ho hmain hnext hraft hevents hsends hsilent
    | commit ls rest stepDown hmain hleaderships hraft hevents hsends hsilent =>
      exact h.commit hc hdown ho hraft hevents hsends hsilent
    | leave stepDown hmain hstate hraft hevents hsends hsilent =>
      exact h.leave hc hdown ho hraft hevents hsends hsilent
    | replicate k j inp hinput hstep hevents hsilent =>
      subst hinput
      exact h.replicate hc hdown ho hstep hevents hsilent

/-- The protocol before the first start of any server. -/
def Deployment.protocolStart (d : Deployment) : Protocol where
  term := fun id => (d.server id).stable.currentTerm
  log := fun id => (d.server id).logs
  reqs := fun _ _ => none
  votes := ∅
  wins := []
  leaderLog := fun t => if t = 1 then [d.entry] else []
  msgs := ∅
  acks := ∅

theorem Deployment.regular_entry (d : Deployment) : LogStore.Regular [d.entry] := by
  constructor
  · intro i e he
    obtain ⟨rfl, rfl⟩ : i = 0 ∧ d.entry = e := by
      cases i with
      | zero => exact ⟨rfl, Option.some.inj he⟩
      | succ i => simp at he
    exact d.entry_index
  · intro e he
    rw [List.mem_singleton.mp he]
    have hconf := d.entry_configuration
    unfold Log.configuration? at hconf
    unfold Log.decodes
    split <;> simp_all

theorem init_start (d : Deployment) : Init d.setting d.protocolStart := by
  refine ⟨?_, fun _ _ => rfl, rfl, rfl, rfl, fun t ht => if_neg ht, rfl, rfl⟩
  intro id
  unfold Deployment.protocolStart Deployment.server
  dsimp only
  split
  · exact .inr rfl
  · exact .inl rfl

theorem no_leadership_start (d : Deployment) (id : ServerID) :
    (d.start.nodes id).leaderships = [] := by
  unfold Deployment.start Deployment.server
  dsimp only
  split <;> rfl

theorem refines_start (d : Deployment) : Refines d d.start d.protocolStart := by
  constructor
  case safe => exact (init_start d).safe
  case regular =>
    intro t
    unfold Deployment.protocolStart
    dsimp only
    split
    · exact d.regular_entry
    · exact ⟨by intro i e he; simp at he, by simp⟩
  case stores =>
    intro id
    refine ⟨rfl, rfl, ?_, ?_, ?_⟩ <;> unfold Deployment.start Deployment.server <;> dsimp only <;>
      split <;> simp
  case standing =>
    intro id locals tested ch hmain
    unfold Deployment.start Deployment.server at hmain
    dsimp only at hmain
    split at hmain <;> simp at hmain
  case owns =>
    intro id ls hls
    simp [no_leadership_start] at hls
  case ballots =>
    exact ⟨by simp [Cluster.Voted, Deployment.start], by simp [Deployment.protocolStart]⟩
  case mail =>
    exact ⟨by simp [Deployment.start], by simp [Deployment.start], by simp [Deployment.start]⟩
  case chronicle =>
    exact ⟨by simp [Deployment.start], by simp [Deployment.protocolStart],
      by simp [Deployment.start], by simp [Deployment.protocolStart]⟩

/-- All that is known of a cluster with fixed voters. -/
structure Faithful (d : Deployment) (c : Cluster) (a : Protocol) : Prop where
  grounded : Grounded d c
  franchise : Franchise d c
  refines : Refines d c a
  governed : Governed d c a

theorem faithful_start (d : Deployment) : Faithful d d.start d.protocolStart := by
  refine ⟨grounded_start d, franchise_start d, refines_start d, (init_start d).fixed _, ?_⟩
  intro id ls hls
  simp [no_leadership_start] at hls

theorem Faithful.step (h : Faithful d c a) {act : Action} (hok : d.Steady c act)
    (hdeliver : c.deliverable (c.nodes act.node) act.input = true)
    (ho : (c.nodes act.node).step act.input act.env = some o) :
    ∃ a', Steps d.setting a a' ∧ Faithful d (c.record act.node act.input o) a' := by
  obtain ⟨a', hm, hr'⟩ := h.refines.step h.grounded hok.toPlain
    (fun _ _ _ _ _ hmem => h.governed.electable h.refines h.grounded h.franchise hdeliver ho hmem)
    hdeliver ho
  exact ⟨a', hm.steps, h.grounded.step hok.toPlain ho, h.franchise.step hok hdeliver ho, hr',
    h.governed.step h.refines h.grounded h.franchise hok hdeliver ho hm hr'⟩

/-- What a run of the cluster makes of the protocol. -/
theorem Faithful.run (h : Faithful d c a) (hrun : d.system.Reaches d.Steady c c') :
    ∃ a', Steps d.setting a a' ∧ Faithful d c' a' := by
  induction hrun with
  | refl => exact ⟨a, .refl, h⟩
  | tail _ hok hstep ih =>
    obtain ⟨a', hsteps, ha'⟩ := ih
    obtain ⟨o, hdeliver, ho, rfl⟩ := Cluster.step_cases hstep
    obtain ⟨a'', hsteps', ha''⟩ := ha'.step hok hdeliver ho
    exact ⟨a'', hsteps.trans hsteps', ha''⟩

theorem faithful_of_reachable (h : d.system.Reachable d.Steady c) : ∃ a, Faithful d c a := by
  obtain ⟨c₀, rfl, hrun⟩ := h
  obtain ⟨a, _, ha⟩ := (faithful_start d).run hrun
  exact ⟨a, ha⟩

/-- An entry of a dense log is where its index says. -/
theorem LogStore.Dense.mem {l : LogStore} (h : l.Dense) {e : Log} (he : e ∈ l) :
    l[e.index - 1]? = some e ∧ 1 ≤ e.index := by
  obtain ⟨i, hi⟩ := List.getElem?_of_mem he
  have hindex := h i e hi
  have hpred : e.index - 1 = i := by omega
  rw [hpred]
  exact ⟨hi, by omega⟩

/-- Log matching: two servers that have an entry with the same index and the same term
have the same entries at all indexes up to this one. -/
theorem log_matching (h : d.system.Reachable d.Steady c) {id id' : ServerID} {e e' : Log}
    (he : e ∈ (c.nodes id).logs) (he' : e' ∈ (c.nodes id').logs) (hindex : e.index = e'.index)
    (hterm : e.term = e'.term) :
    ∀ j, 1 ≤ j → j ≤ e.index → ∃ x, (c.nodes id).logs.getLog j = some x ∧
      (c.nodes id').logs.getLog j = some x := by
  obtain ⟨a, hfaithful⟩ := faithful_of_reachable h
  have ha := hfaithful.refines
  have hdense := (ha.regular_logs id).dense
  have hdense' := (ha.regular_logs id').dense
  obtain ⟨hget, hpos⟩ := hdense.mem he
  obtain ⟨hget', _⟩ := hdense'.mem he'
  rw [← hindex] at hget'
  have hvalid := ha.safe.logs.log id
  have hvalid' := ha.safe.logs.log id'
  rw [(ha.stores id).log] at hvalid
  rw [(ha.stores id').log] at hvalid'
  have htake := hvalid.take_eq hvalid' hget hget' hterm
  intro j hj hle
  have hlt := (List.getElem?_eq_some_iff.mp hget).1
  have hsome := List.getElem?_eq_getElem (show j - 1 < (c.nodes id).logs.length by omega)
  refine ⟨_, (hdense.getLog hj).trans hsome, (hdense'.getLog hj).trans ?_⟩
  rw [← hsome, ← List.getElem?_take_of_lt (show j - 1 < e.index - 1 + 1 by omega), ← htake,
    List.getElem?_take_of_lt (by omega)]

theorem Action.routine_steady {a : Action} (h : (a.routine && decide a.env.Faultless) = true)
    (d : Deployment) (c : Cluster) : d.Steady c a := by
  obtain ⟨hroutine, henv⟩ := Bool.and_eq_true_iff.mp h
  obtain ⟨honMain, hfixed⟩ := Action.routine_fixed hroutine d c
  refine ⟨⟨honMain, of_decide_eq_true henv, ?_⟩, hfixed⟩
  intro req hinput
  simp [Action.routine, hinput] at hroutine

open Cluster in
/-- `A` leads term 2 and has its no-op acknowledged by `B`. -/
def acknowledgedNoop : List (Cluster → Action) :=
  let a := voterNamed 65
  let b := voterNamed 66
  firstNoop ++ [goroutine a.id 0 0 .trigger, goroutine a.id 0 0 .send] ++ handle b.id 0 ++
    [hear a.id 0 0]

/-- The no-op of the first leader, at the leader and at the other server of its quorum. -/
theorem log_matching_three :
    ∃ c, threeServers.system.Reachable threeServers.Steady c ∧
      ∃ e ∈ (c.nodes [65]).logs, ∃ e' ∈ (c.nodes [66]).logs, e.index = 2 ∧ e.index = e'.index ∧
        e.term = e'.term ∧ ∃ x, (c.nodes [65]).logs.getLog 1 = some x ∧
          (c.nodes [66]).logs.getLog 1 = some x := by
  let noop : Log := { index := 2, term := 2, type := .logNoop }
  obtain ⟨c, hreachable, hleader, hfollower⟩ : ∃ c,
      threeServers.system.Reachable threeServers.Steady c ∧
      noop ∈ (c.nodes [65]).logs ∧ noop ∈ (c.nodes [66]).logs :=
    System.exists_reachable_of (fun c _ h => Action.routine_steady h threeServers c) rfl
      acknowledgedNoop (by decide +kernel)
  exact ⟨c, hreachable, noop, hleader, noop, hfollower, rfl, rfl, rfl,
    log_matching hreachable hleader hfollower rfl rfl 1 (by decide) (by decide)⟩

/-- The leader `id` of the term `T` has held `e` at the index `i`: in the log it was
elected with, or as an entry it has appended. -/
def Cluster.Held (c : Cluster) (id : ServerID) (T i : Nat) (e : Log) : Prop :=
  (∃ req votes latest logs, (id, .becameLeader T req votes latest logs) ∈ c.history ∧
    LogStore.getLog logs i = some e) ∨
  (∃ entries, (id, .dispatched entries) ∈ c.history ∧ e ∈ entries ∧ e.term = T ∧ e.index = i)

/-- What the commitment of a leadership has counted is committed in the protocol. -/
theorem Owns.committed {id : ServerID} {ls : LeaderState} {w : Win ServerID Log} {A : Server → Prop}
    {U V : List ServerID} (hw : Owns a id w ls) (hcounted : Counted d A (Majority V) a U ls)
    (hpos : ls.commitment.commitIndex ≠ 0) : Committed V a w ls.commitment.commitIndex := by
  rcases hcounted.tracks.committed with hzero | ⟨hstart, Q, hQ, hacked⟩
  · exact absurd hzero hpos
  · refine ⟨hw.won, ?_, Q, hQ, ?_⟩
    · rw [hw.start] at hstart
      omega
    · rw [hw.term]
      exact hacked

namespace Refines

theorem held_iff (h : Refines d c a) {w : Win ServerID Log} (hw : w ∈ a.wins) {i : Nat} (hi : 1 ≤ i)
    {e : Log} : c.Held w.leader w.term i e ↔ (a.leaderLog w.term)[i - 1]? = some e := by
  obtain ⟨es, hled, hes⟩ := h.safe.logs.led w hw
  have hdense : LogStore.Dense w.log :=
    (h.regular w.term).dense.of_isPrefix (by rw [hled]; exact List.prefix_append _ _)
  constructor
  · rintro (⟨req, votes, latest, logs, hmem, hget⟩ | ⟨entries, hmem, he, hterm, hindex⟩)
    · obtain ⟨w', hw', _, hterm, rfl⟩ := h.chronicle.won _ _ _ _ _ _ hmem
      obtain rfl := h.safe.terms.backed.unique hw' hw hterm
      rw [hdense.getLog hi] at hget
      rw [hled, List.getElem?_append_left (List.getElem?_eq_some_iff.mp hget).1]
      exact hget
    · obtain ⟨_, _, _, _, _, hget, _⟩ := h.chronicle.dispatched _ _ hmem e he
      rw [hterm, hindex] at hget
      exact hget
  · intro hget
    by_cases hlt : i - 1 < w.log.length
    · obtain ⟨req, votes, latest, hmem⟩ := h.chronicle.elected w hw
      rw [hled, List.getElem?_append_left hlt] at hget
      exact .inl ⟨req, votes, latest, w.log, hmem, (hdense.getLog hi).trans hget⟩
    · obtain ⟨entries, hmem, he⟩ := h.chronicle.created w hw (i - 1) e (by omega) hget
      have hindex := (h.regular w.term).dense (i - 1) e hget
      rw [hled, List.getElem?_append_right (by omega)] at hget
      exact .inr ⟨entries, hmem, he, hes e (List.mem_of_getElem? hget), by omega⟩

/-- A leader has the log it was elected with. -/
theorem leader_log (h : Refines d c a) (hc : Grounded d c) {id : ServerID}
    (hup : (c.nodes id).down = false) (hstate : (c.nodes id).state = .leader) :
    ∃ w ∈ a.wins, w.term = (c.nodes id).currentTerm ∧ w.log <+: (c.nodes id).logs := by
  obtain ⟨req, votes, latest, logs, hmem⟩ := (hc.leading id).state hstate
  obtain ⟨w, hw, hleader, hterm, _⟩ := h.chronicle.won _ _ _ _ _ _ (Cluster.mem_view.mp hmem)
  refine ⟨w, hw, hterm, ?_⟩
  obtain ⟨es, hled, _⟩ := h.safe.logs.led w hw
  have hlog := h.safe.logs.leading w hw (by rw [hleader, h.term_eq hc hup]; exact hterm.symm)
  rw [← (h.stores id).log, ← hleader, hlog, hled]
  exact List.prefix_append _ _

end Refines

/-- What the commitment of a leadership has passed is committed in the protocol, and the
leader has held it. -/
theorem Faithful.committed_entry (h : Faithful d c a) {id : ServerID} {ls : LeaderState}
    (hls : ls ∈ (c.nodes id).leaderships) {i : Nat} (hi : 1 ≤ i)
    (hcommit : i ≤ ls.commitment.commitIndex) :
    ∃ w e, Owns a id w ls ∧ Committed d.configuration.voterIDs a w ls.commitment.commitIndex ∧
      (a.leaderLog w.term)[i - 1]? = some e ∧ c.Held id ls.term i e := by
  obtain ⟨w, hw⟩ := h.refines.owns id ls hls
  have hcommitted := hw.committed (h.governed.counted id ls hls) (by omega)
  have hle := h.governed.fixed.committed_le hcommitted
  obtain ⟨e, he⟩ : ∃ e, (a.leaderLog w.term)[i - 1]? = some e :=
    ⟨_, List.getElem?_eq_getElem (by omega)⟩
  refine ⟨w, e, hw, hcommitted, he, ?_⟩
  rw [← hw.leader, ← hw.term]
  exact (h.refines.held_iff hw.won hi).mpr he

/-- Leader completeness: once the commitment of a leader of some term has passed an
index, what this leader has there is settled, and every server set to leader of a later
term has it. -/
theorem leader_completeness (h : d.system.Reachable d.Steady c)
    (hrun : d.system.Reaches d.Steady c c') {id : ServerID} {ls : LeaderState}
    (hls : ls ∈ (c.nodes id).leaderships) {i : Nat} (hi : 1 ≤ i)
    (hcommit : i ≤ ls.commitment.commitIndex) :
    ∃ e, c.Held id ls.term i e ∧ (∀ e', c'.Held id ls.term i e' → e' = e) ∧
      ((c.nodes id).stable.currentTerm = ls.term → (c.nodes id).logs.getLog i = some e) ∧
      (∀ id' T' req votes latest logs, (id', .becameLeader T' req votes latest logs) ∈ c'.history →
        ls.term < T' → LogStore.getLog logs i = some e) ∧
      (∀ id', (c'.nodes id').down = false → (c'.nodes id').state = .leader →
        ls.term < (c'.nodes id').currentTerm → (c'.nodes id').logs.getLog i = some e) := by
  obtain ⟨a, hfaithful⟩ := faithful_of_reachable h
  obtain ⟨a', hsteps, hfaithful'⟩ := hfaithful.run hrun
  have ha := hfaithful.refines
  have ha' := hfaithful'.refines
  have hg := ha.safe.grows hsteps
  obtain ⟨w, e, hw, hcommitted, he, hheld⟩ := hfaithful.committed_entry hls hi hcommit
  have hle := hfaithful.governed.fixed.committed_le hcommitted
  have hlater : ∀ w' ∈ a'.wins, w.term < w'.term → w'.log[i - 1]? = some e := by
    intro w' hw' hlt
    have hp := hfaithful.governed.fixed.complete hfaithful'.governed.fixed hg hcommitted hw' hlt
    rw [List.prefix_iff_getElem?.mp hp (i - 1) (by rw [List.length_take]; omega),
      List.getElem_take, ← List.getElem?_eq_getElem, he]
  have hdense : ∀ w' ∈ a'.wins, LogStore.Dense w'.log := by
    intro w' hw'
    obtain ⟨es, hled, _⟩ := ha'.safe.logs.led w' hw'
    exact (ha'.regular w'.term).dense.of_isPrefix (by rw [hled]; exact List.prefix_append _ _)
  refine ⟨e, hheld, ?_, ?_, ?_, ?_⟩
  · intro e' he'
    rw [← hw.leader, ← hw.term, ha'.held_iff (hg.wins.subset hw.won) hi, hg.getElem? he] at he'
    exact (Option.some.inj he').symm
  · intro hterm
    rw [((ha.regular_logs id).dense).getLog hi, ← (ha.stores id).log, ← hw.leader,
      ha.safe.logs.leading w hw.won (by rw [hw.leader, (ha.stores id).term, hterm, hw.term]), he]
  · intro id' T' req votes latest logs hmem hlt
    obtain ⟨w', hw', _, hterm, rfl⟩ := ha'.chronicle.won _ _ _ _ _ _ hmem
    rw [(hdense w' hw').getLog hi]
    exact hlater w' hw' (by rw [hw.term, hterm]; exact hlt)
  · intro id' hup hstate hlt
    obtain ⟨w', hw', hterm, hp⟩ := ha'.leader_log hfaithful'.grounded hup hstate
    have hget := hlater w' hw' (by rw [hw.term, hterm]; exact hlt)
    have hlen := (List.getElem?_eq_some_iff.mp hget).1
    rw [((ha'.regular_logs id').dense).getLog hi, List.prefix_iff_getElem?.mp hp _ hlen,
      ← List.getElem?_eq_getElem hlen, hget]

open Cluster in
/-- Then `B` is elected in term 3 with the vote of `C`. -/
def secondElection : List (Cluster → Action) :=
  let b := voterNamed 66
  let c := voterNamed 67
  acknowledgedNoop ++ campaign b ++ boot c.id ++ handle c.id 0 ++ [countVote b.id c]

/-- The commitment of the first leader has passed its no-op, and the leader of the next
term has it. -/
theorem leader_completeness_three :
    ∃ c, threeServers.system.Reachable threeServers.Steady c ∧
      ∃ ls ∈ (c.nodes [65]).leaderships, 2 ≤ ls.commitment.commitIndex ∧
      ∃ T' req votes latest logs, ([66], .becameLeader T' req votes latest logs) ∈ c.history ∧
        ls.term < T' ∧ ∃ e, c.Held [65] ls.term 2 e ∧ LogStore.getLog logs 2 = some e := by
  obtain ⟨c, hreachable, ls, hls, hcommit, ⟨id, event⟩, hmem, rfl, hlt⟩ : ∃ c,
      threeServers.system.Reachable threeServers.Steady c ∧
      ∃ ls ∈ (c.nodes [65]).leaderships, 2 ≤ ls.commitment.commitIndex ∧
        ∃ p ∈ c.history, p.1 = [66] ∧ ls.term < p.2.wonTerm.getD 0 :=
    System.exists_reachable_of (fun c _ h => Action.routine_steady h threeServers c) rfl
      secondElection (by decide +kernel)
  obtain ⟨e, hheld, _, _, hlater, _⟩ :=
    leader_completeness hreachable .refl hls (show 1 ≤ 2 by decide) hcommit
  cases event with
  | becameLeader T' req votes latest logs =>
    exact ⟨c, hreachable, ls, hls, hcommit, T', req, votes, latest, logs, hmem, hlt, e, hheld,
      hlater _ _ _ _ _ _ hmem hlt⟩
  | _ => simp [Event.wonTerm] at hlt

end PerfRaft
