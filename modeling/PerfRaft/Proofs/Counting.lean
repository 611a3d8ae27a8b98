import PerfRaft.Proofs.LeaderSimulation

namespace PerfRaft

open Lib Replicated

variable {d : Deployment} {c : Cluster} {a a' : Protocol} {n : ServerID} {input : Input} {env : Env}
  {o : Outcome} {r r' : Raft} {A : Server → Prop} {K K' : List ServerID → Prop}
  {U U' : List ServerID} {ls ls' : LeaderState} {s s' : FollowerReplication} {matched : Option Nat}

/-- A leadership that counts the votes of `U` has counted nothing that was not
acknowledged, and what it takes for committed a quorum has, as `K` says. -/
structure Counted (d : Deployment) (A : Server → Prop) (K : List ServerID → Prop) (a : Protocol)
    (U : List ServerID) (ls : LeaderState) : Prop where
  distinct : U.Nodup
  quorum : ∀ Q, Majority U Q → K Q
  located : ∀ s, A s → s.id ∈ U → s.address = (d.conf s.id).localAddr
  tracks : ls.commitment.Tracks U K (Acked a ls.term)
  replicates : ∀ s ∈ ls.replState, s.Replicates A ls.term

theorem Acked.down {T : Nat} (x : ServerID) (j k : Nat) (hj : j ≤ k) (h : Acked a T x k) :
    Acked a T x j := h.le hj

namespace Counted

theorem grows (h : Counted d A K a U ls) (hg : Grows a a') (hK : ∀ Q, K Q → K' Q) :
    Counted d A K' a' U ls :=
  ⟨h.distinct, fun Q hQ => hK Q (h.quorum Q hQ), h.located,
    h.tracks.mono hK (fun _ _ hk => hk.grows hg), h.replicates⟩

/-- What a change of a leadership leaves alone. -/
theorem keep (h : Counted d A K a U ls) (hterm : ls'.term = ls.term)
    (htracks : ls'.commitment.Tracks U K (Acked a ls.term))
    (hreplicates : ∀ s ∈ ls'.replState, s.Replicates A ls.term) : Counted d A K a U ls' :=
  ⟨h.distinct, h.quorum, h.located, by rw [hterm]; exact htracks, by rw [hterm]; exact hreplicates⟩

theorem matchServer (h : Counted d A K a U ls) {id : ServerID} {k : Nat}
    (hk : id ∈ U → Acked a ls.term id k) :
    (ls.commitment.matchServer id k).Tracks U K (Acked a ls.term) :=
  h.tracks.matchServer h.distinct h.quorum Acked.down hk

/-- An index is matched when the peer has acknowledged it. -/
theorem acked_matched (h : Counted d A K a U ls) (hr : Refines d c a) {k j : Nat}
    {inp : ReplicationInput} {s s' : FollowerReplication} {sends : List (Server × Command)}
    {index : Nat} (hdeliver : c.deliverable (c.nodes n) (.replication k j inp) = true)
    (hls : (c.nodes n).leaderships[k]? = some ls) (hs : ls.replState[j]? = some s)
    (hstep : (c.nodes n).replicationStep s inp = some (s', some index, sends))
    (hvoter : s.peer.id ∈ U) : Acked a ls.term s.peer.id index := by
  obtain ⟨p, req, resp, e, hheard, hsuccess, he, rfl, hterm, hpeer, hA⟩ :=
    Raft.replicationStep_matched (h.replicates s (List.mem_of_getElem? hs)) hstep
  have hanswered : c.answered p.address (.appendEntries req) (.appendEntries resp) = true := by
    rcases hheard with ⟨i, final, hpc, rfl⟩ | ⟨rest, hinflight, rfl⟩
    · simpa [Cluster.deliverable, hls, hs, hpc] using hdeliver
    · simpa [Cluster.deliverable, hls, hs, hinflight] using hdeliver
  simp only [Cluster.answered, List.any_eq_true, decide_eq_true_eq] at hanswered
  obtain ⟨reply, hreply, rfl⟩ := hanswered
  obtain ⟨id, haddr, hacked⟩ := hr.mail.answers _ hreply req resp rfl rfl hsuccess e he
  have hid : id = s.peer.id := by
    rw [← hpeer] at hvoter ⊢
    exact d.localAddr _ _ (haddr.trans (h.located p hA hvoter))
  rw [← hterm, ← hid]
  exact hacked

/-- A goroutine of the leadership takes a step. -/
theorem replicate (h : Counted d A K a U ls) (hr : Refines d c a) {k j : Nat}
    {inp : ReplicationInput} {sends : List (Server × Command)}
    (hdeliver : c.deliverable (c.nodes n) (.replication k j inp) = true)
    (hls : (c.nodes n).leaderships[k]? = some ls) (hs : ls.replState[j]? = some s)
    (hterm : ls'.term = ls.term) (hrepl : ls'.replState = ls.replState.set j s')
    (hcommitment : ls'.commitment = match matched with
      | none => ls.commitment
      | some index => ls.commitment.matchServer s.peer.id index)
    (hstep : (c.nodes n).replicationStep s inp = some (s', matched, sends)) :
    Counted d A K a U ls' := by
  refine h.keep hterm ?_ ?_
  · rw [hcommitment]
    cases matched with
    | none => exact h.tracks
    | some index => exact h.matchServer (h.acked_matched hr hdeliver hls hs hstep)
  · rw [hrepl]
    intro s₁ hs₁
    rcases List.mem_or_eq_of_mem_set hs₁ with hold | rfl
    · exact h.replicates s₁ hold
    · exact Raft.replicates_replicationStep (h.replicates s (List.mem_of_getElem? hs))
        (hr.stores n).snapshots hstep

/-- The head of the leaderships gives up its futures when it has committed. -/
theorem commit (h : Counted d A K a U ls) (ch : Bool) (inflight : List LogFuture) :
    Counted d A K a U
      { ls with commitment := { ls.commitment with commitCh := ch }, inflight := inflight } :=
  h.keep rfl ⟨h.tracks.keys, h.tracks.matched, h.tracks.committed⟩ h.replicates

/-- The goroutines of a leadership are told to stop. -/
theorem leave (h : Counted d A K a U ls) :
    Counted d A K a U
      { ls with
        inflight := []
        replState := ls.replState.map (fun s =>
          if s.stopCh.isNone then { s with stopCh := some 0 } else s) } := by
  refine h.keep rfl h.tracks ?_
  intro s hs
  obtain ⟨s₀, hs₀, rfl⟩ := List.mem_map.mp hs
  have h₀ := h.replicates s₀ hs₀
  split
  · exact ⟨h₀.term, h₀.peer, h₀.call, h₀.snapshot, h₀.pipeline, h₀.pipelineSend, h₀.inflight⟩
  · exact h₀

/-- Another configuration, from now on. -/
theorem setConfiguration (h : Counted d A K a U ls) (hU : U'.Nodup) (hK : ∀ Q, Majority U' Q → K Q)
    (hA : ∀ s, A s → s.id ∈ U' → s.address = (d.conf s.id).localAddr)
    {configuration : Configuration} (hvoters : configuration.voterIDs = U') :
    Counted d A K a U' { ls with commitment := ls.commitment.setConfiguration configuration } :=
  ⟨hU, hK, hA, h.tracks.setConfiguration hU hK Acked.down (.inr hvoters), h.replicates⟩

/-- Goroutines are started and stopped as the latest configuration says. -/
theorem startStop (h : Counted d A K a U ls) (hterm : ls.term = r.currentTerm)
    (hservers : ∀ s ∈ r.configurations.latest.servers, A s) :
    Counted d A K a U
      { ls with
        replState := (r.configurations.latest.servers.foldl r.startReplication ls.replState).map
          r.stopReplication } := by
  refine h.keep rfl h.tracks ?_
  have hreplicates := h.replicates
  rw [hterm] at hreplicates ⊢
  exact Raft.replicates_startStop hservers hreplicates

/-- A leadership that has just been set up. -/
theorem setup (hU : U.Nodup) (hK : ∀ Q, Majority U Q → K Q)
    (hA : ∀ s, A s → s.id ∈ U → s.address = (d.conf s.id).localAddr)
    (hlatest : r.configurations.latest.voterIDs = [] ∨ r.configurations.latest.voterIDs = U)
    (hservers : ∀ s ∈ r.configurations.latest.servers, A s) :
    ∃ ls, r.enterLeader.leaderships = ls :: r.leaderships ∧ Counted d A K a U ls :=
  ⟨_, rfl, hU, hK, hA, Commitment.tracks_newCommitment hU hlatest _,
    Raft.replicates_startStop (r := r.setupLeaderState) hservers (by simp)⟩

/-- The head of the leaderships, after `dispatchLogs` has counted what it has stored. -/
theorem dispatchLogs {Q : LeaderState → Prop} {futures : List LogFuture} (hcached : r.Cached)
    (hdense : r.logs.Dense) (henv : env.storeLogs = true) (h : ∀ ls ∈ r.leaderships, Q ls)
    (hhead : ∀ ls rest inflight, r.leaderships = ls :: rest → Q ls →
      Q { ls with
        inflight := inflight
        commitment := ls.commitment.matchServer r.localID
          (r.logs ++ r.newLogs futures env).length }) :
    ∀ ls ∈ (r.dispatchLogs futures env).1.leaderships, Q ls := by
  rw [Raft.dispatchLogs_eq hcached hdense futures henv]
  exact forall_modifyHead h (fun ls rest hls hQ => hhead ls rest _ hls hQ)

end Counted

/-- A leader has acknowledged what it has appended. -/
theorem Refines.acked_dispatched (h : Refines d (c.record n input o) a') {futures : List LogFuture}
    (hcached : (c.nodes n).Cached) (hdense : (c.nodes n).logs.Dense) (henv : env.storeLogs = true)
    (hne : futures ≠ []) (hevents : o.events = ((c.nodes n).dispatchLogs futures env).2) :
    Acked a' (c.nodes n).currentTerm n
      ((c.nodes n).logs ++ (c.nodes n).newLogs futures env).length := by
  rw [Raft.dispatchLogs_eq hcached hdense futures henv] at hevents
  have hlen : futures.length - 1 < ((c.nodes n).newLogs futures env).length := by
    rw [Raft.newLogs_length]
    exact Nat.sub_lt (List.length_pos_iff.mpr hne) Nat.one_pos
  have hget := List.getElem?_eq_getElem hlen
  generalize ((c.nodes n).newLogs futures env)[futures.length - 1] = e at hget
  have hmem := List.mem_of_getElem? hget
  obtain ⟨_, _, _, _, _, _, hacked⟩ := h.chronicle.dispatched n _
    (Cluster.mem_record_history.mpr (.inl ⟨rfl, by rw [hevents]; exact List.mem_singleton.mpr rfl⟩))
    e hmem
  have hindex := Raft.dense_newLogs hdense futures ((c.nodes n).logs.length + (futures.length - 1)) e
    (by rw [List.getElem?_append_right (Nat.le_add_right _ _), Nat.add_sub_cancel_left]; exact hget)
  rw [Raft.newLogs_term e hmem] at hacked
  refine hacked.le ?_
  rw [List.length_append, Raft.newLogs_length, hindex]
  omega

/-- Who is set to leader has not won its term before. -/
theorem Refines.standing_win (h : Refines d c a) (hc : Grounded d c)
    (ho : (c.nodes n).step input env = some o) {T : Nat} {req : RequestVoteRequest}
    {votes : List ServerID} {latest : Configuration} {logs : LogStore}
    (hmem : .becameLeader T req votes latest logs ∈ o.events) :
    T = a.term n ∧ ∀ w ∈ a.wins, w.leader = n → w.term ≠ a.term n := by
  cases hdown : (c.nodes n).down with
  | true =>
    obtain ⟨_, r', _, rfl⟩ := Raft.step_down ho hdown
    simp at hmem
  | false =>
    obtain ⟨voter, result, locals, hinput, hmain, hvote⟩ :=
      Raft.becameLeader_vote (Raft.step_up ho hdown) hdown hmem rfl
    obtain ⟨ch, hch, _, _, _, he, _⟩ := Raft.vote_events hvote hmem
    cases he
    have hrequested : ch.req.term = (c.nodes n).currentTerm :=
      ((hc.recorded n).pending locals true hmain (.inl rfl)).1 ch hch
    have hterm := h.term_eq hc hdown
    refine ⟨hterm.symm, ?_⟩
    intro w hw hleader hwterm
    have := (h.standing n locals true ch hmain hch).1 w hw hleader
    omega

/-- The voters stay the same: those who are elected, and the configurations there are. -/
structure Franchise (d : Deployment) (c : Cluster) : Prop where
  elections : c.Elections d
  fits : c.Configured d.Fits

theorem Franchise.step (h : Franchise d c) {act : Action} (hok : d.Steady c act)
    (hdeliver : c.deliverable (c.nodes act.node) act.input = true)
    (ho : (c.nodes act.node).step act.input act.env = some o) :
    Franchise d (c.record act.node act.input o) where
  elections := h.elections.step ⟨hok.onMainThread.calm true _, hok.fixedVoters⟩ hdeliver ho
  fits := h.fits.step hdeliver (hok.fixedVoters.introduces hok.noSnapshot) ho

theorem franchise_start (d : Deployment) : Franchise d d.start :=
  ⟨d.elections_start, d.configured_start d.fits_configuration⟩

theorem nodup_voterIDs (d : Deployment) : d.configuration.voterIDs.Nodup :=
  d.checked_configuration.distinct

/-- The voters of the latest configuration, and their addresses. -/
theorem Franchise.voterIDs_latest (h : Franchise d c) (n : ServerID) :
    ((c.nodes n).configurations.latest.voterIDs = [] ∨
      (c.nodes n).configurations.latest.voterIDs = d.configuration.voterIDs) ∧
    ∀ s ∈ (c.nodes n).configurations.latest.servers, d.Addressed s := by
  rcases (h.fits.nodes n).latest with hnone | ⟨hvoters, haddressed⟩
  · rw [hnone]
    exact ⟨.inl rfl, by simp⟩
  · refine ⟨.inr ?_, haddressed⟩
    unfold Configuration.voterIDs
    rw [hvoters]

/-- Every election is won with a majority of the voters of the deployment. -/
def Deployment.Quorum (d : Deployment) (w : Win ServerID Log) : Prop :=
  Majority d.configuration.voterIDs w.quorum

/-- With fixed voters, the protocol is safe and each leadership has counted what the
voters have acknowledged. -/
structure Governed (d : Deployment) (c : Cluster) (a : Protocol) : Prop where
  fixed : Fixed d.setting d.configuration.voterIDs a
  counted : ∀ id, ∀ ls ∈ (c.nodes id).leaderships,
    Counted d d.Addressed (Majority d.configuration.voterIDs) a d.configuration.voterIDs ls

namespace Governed

/-- Who has a majority may win: no other server can have one. -/
theorem electable (h : Governed d c a) (hr : Refines d c a) (hc : Grounded d c) (hf : Franchise d c)
    (hdeliver : c.deliverable (c.nodes n) input = true) (ho : (c.nodes n).step input env = some o)
    {T : Nat} {req : RequestVoteRequest} {votes : List ServerID} {latest : Configuration}
    {logs : LogStore} (hmem : .becameLeader T req votes latest logs ∈ o.events) :
    Electable d.Quorum a n := by
  obtain ⟨rfl, hown⟩ := hr.standing_win hc ho hmem
  obtain ⟨hmajority, hvotes⟩ := hf.elections.won (a := ⟨n, input, env⟩) hdeliver ho hmem
  have hgiven : ∀ v ∈ votes, ∃ x ∈ a.votes, x.voter = v ∧ x.candidate = n ∧ x.term = a.term n := by
    intro v hv
    obtain ⟨x, hx, hvoter, hxterm, hcand⟩ := hr.ballots.voted _ _ _ (hvotes v hv)
    exact ⟨x, hx, hvoter, d.localAddr _ _ hcand, hxterm⟩
  exact ⟨votes, hgiven, h.fixed.unwon hmajority hgiven hown, hmajority⟩

/-- The leaderships of the server that takes a step. -/
theorem counted_step (h : Governed d c a) (hr : Refines d c a) (hc : Grounded d c)
    (hf : Franchise d c) {act : Action} (hok : d.Steady c act)
    (hdeliver : c.deliverable (c.nodes act.node) act.input = true)
    (ho : (c.nodes act.node).step act.input act.env = some o)
    (hr' : Refines d (c.record act.node act.input o) a') (hg : Grows a a') :
    ∀ ls ∈ o.raft.leaderships, Counted d d.Addressed (Majority d.configuration.voterIDs) a'
      d.configuration.voterIDs ls := by
  obtain ⟨n, input, env⟩ := act
  obtain ⟨⟨honMain, henv, hsnapshot⟩, hfixed⟩ := hok
  dsimp only at *
  have hold : ∀ ls ∈ (c.nodes n).leaderships, Counted d d.Addressed
      (Majority d.configuration.voterIDs) a' d.configuration.voterIDs ls :=
    fun ls hls => (h.counted n ls hls).grows hg (fun _ hQ => hQ)
  have hlatest := hf.voterIDs_latest n
  cases hup : (c.nodes n).down with
  | true =>
    obtain ⟨_, r', hr, rfl⟩ := Raft.step_down ho hup
    rw [(Raft.started_newRaft hr).leaderships]
    simp
  | false =>
    have hcached := hr.cached hup
    have hdense := (hr.regular_logs n).dense
    have hstored : ∀ futures : List LogFuture, futures ≠ [] → (c.nodes n).heads = true →
        o.events = ((c.nodes n).dispatchLogs futures env).2 →
        ∀ ls ∈ ((c.nodes n).dispatchLogs futures env).1.leaderships, Counted d d.Addressed
          (Majority d.configuration.voterIDs) a' d.configuration.voterIDs ls := by
      intro futures hne hheads hevents
      refine Counted.dispatchLogs hcached hdense henv.2.1 hold ?_
      intro ls rest inflight hls hcounted
      refine hcounted.keep rfl (hcounted.matchServer (fun _ => ?_)) hcounted.replicates
      rw [hc.localID, term_of_headTerm ((hc.headship n).head hheads) hls]
      exact hr'.acked_dispatched hcached hdense henv.2.1 hne hevents
    cases (Raft.effect_stepUp (Raft.step_up ho hup) honMain hsnapshot).leadStep hup henv.1 with
    | same hleaderships =>
      rw [hleaderships]
      exact hold
    | setup hmain hraft =>
      obtain ⟨ls, hleaderships, hcounted⟩ := Counted.setup (d := d) (a := a') (nodup_voterIDs d)
        (fun _ hQ => hQ) (fun _ hA hid => hA hid) hlatest.1 hlatest.2
      rw [hraft, hleaderships]
      exact List.forall_mem_cons.mpr ⟨hcounted, hold⟩
    | dispatch futures stepDown hmain hne hraft hevents =>
      have hheads : (c.nodes n).heads = true := by
        rcases hmain with hmain | hmain <;> simp [Raft.heads, hmain]
      rw [hraft]
      exact hstored futures hne hheads hevents
    | configure req future configuration stepDown hinput hmain hnext hraft hevents =>
      have hheads : (c.nodes n).heads = true := by simp [Raft.heads, hmain]
      simp only [Raft.appendConfigurationEntry, hnext] at hraft hevents
      have hin := hfixed.introduces hsnapshot
      rw [hinput] at hin
      obtain ⟨⟨hvoters, haddressed⟩, _⟩ := hin configuration hnext
      have hcounted := hstored _ (by simp) hheads hevents
      rw [hraft]
      refine forall_modifyHead (forall_modifyHead hcounted ?_) ?_
      · intro ls rest _ hcounted
        refine hcounted.setConfiguration hcounted.distinct hcounted.quorum hcounted.located ?_
        unfold Configuration.voterIDs
        rw [hvoters]
      · intro ls rest hls hcounted
        exact hcounted.startStop (hc.head_configured hheads hls) haddressed
    | commit ls stepDown hraft =>
      rw [hraft, Raft.leaderships_leaderCommit]
      refine forall_modifyHead hold ?_
      exact fun head rest _ hcounted => hcounted.commit _ _
    | leave hraft =>
      rw [hraft, (Raft.leaveLeader_frame (c.nodes n) env).2.2]
      refine forall_modifyHead hold ?_
      exact fun head rest _ hcounted => hcounted.leave
    | replicate k j inp hinput hstep =>
      subst hinput
      obtain ⟨ls, s, s', matched, hls, hs, hrep, hraft⟩ := Raft.replicate_cases hstep
      rw [hraft]
      intro ls₁ hls₁
      rcases List.mem_or_eq_of_mem_set hls₁ with hmem | rfl
      · exact hold ls₁ hmem
      · have hcounted := h.counted n ls (List.mem_of_getElem? hls)
        refine Counted.grows ?_ hg (fun _ hQ => hQ)
        exact hcounted.replicate hr hdeliver hls hs rfl rfl rfl hrep

theorem step (h : Governed d c a) (hr : Refines d c a) (hc : Grounded d c) (hf : Franchise d c)
    {act : Action} (hok : d.Steady c act)
    (hdeliver : c.deliverable (c.nodes act.node) act.input = true)
    (ho : (c.nodes act.node).step act.input act.env = some o)
    (hm : Moves d.setting d.Quorum act.node a a')
    (hr' : Refines d (c.record act.node act.input o) a') :
    Governed d (c.record act.node act.input o) a' := by
  have hg := hr.safe.grows hm.steps
  constructor
  · refine h.fixed.steps hm.steps ?_
    intro w hw
    rcases hm.wins w hw with hold | ⟨_, hQ⟩
    · exact h.fixed.quorate w hold
    · exact hQ
  · intro id
    by_cases hid : id = act.node
    · subst hid
      rw [Cluster.record_nodes_self]
      exact h.counted_step hr hc hf hok hdeliver ho hr' hg
    · rw [Cluster.record_nodes_ne _ _ _ hid]
      exact fun ls hls => (h.counted id ls hls).grows hg (fun _ hQ => hQ)

end Governed

end PerfRaft
