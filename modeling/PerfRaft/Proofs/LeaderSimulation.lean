import PerfRaft.Proofs.Simulation

namespace PerfRaft

open Lib Replicated

variable {d : Deployment} {c : Cluster} {a a' : Protocol} {n : ServerID} {input : Input} {env : Env}
  {o : Outcome} {r r' : Raft} {P : Win ServerID Log → Prop}

theorem lastTermOf_dense {l : LogStore} (h : l.Dense) : Raft.lastTermOf l = some (lastStamp l) := by
  unfold Raft.lastTermOf
  rw [h.lastIndex]
  split
  · rename_i hpos
    rw [h.getLog hpos, lastStamp, List.getLast?_eq_getElem?,
      List.getElem?_eq_getElem (Nat.sub_lt hpos Nat.one_pos)]
    rfl
  · rename_i hzero
    rw [List.length_eq_zero_iff.mp (Nat.eq_zero_of_not_pos hzero)]
    rfl

/-- A restart reads what is on disk. -/
theorem Stores.restart {id : ServerID} (h : Stores a id r) (hregular : r.logs.Regular)
    (hr : Raft.newRaft r.conf r.stable r.logs r.snapshots env = some r') : Stores a id r' := by
  have hstarted := Raft.started_newRaft hr
  obtain ⟨-, lastLogTerm, r₁, -, hrestore, hscan⟩ := Raft.newRaft_some hr
  rw [h.snapshots] at hrestore
  simp only [Raft.restoreSnapshot, Option.some.injEq] at hrestore
  constructor
  case term =>
    rw [hstarted.stable]
    exact h.term
  case log =>
    rw [hstarted.logs]
    exact h.log
  case snapshots =>
    rw [hstarted.snapshots]
    exact h.snapshots
  case cached =>
    intro _
    refine ⟨⟨?_, ?_⟩, ?_⟩
    · rw [hstarted.lastLogIndex, hstarted.logs, hregular.dense.lastIndex]
    · have hlast := hstarted.lastLogTerm
      rw [lastTermOf_dense hregular.dense] at hlast
      rw [hstarted.logs]
      exact (Option.some.inj hlast).symm
    · rw [Raft.scanConfigurations_push hscan, ← hrestore]
  case unborn =>
    intro hzero
    rw [hstarted.stable] at hzero
    obtain ⟨hlogs, _⟩ := h.unborn hzero
    rw [hstarted.logs]
    refine ⟨hlogs, fun _ => ?_⟩
    rw [← hrestore, hlogs] at hscan
    cases hscan
    rfl

/-- What holds of every leadership holds after a change of the one set up last that
keeps it. -/
theorem forall_modifyHead {Q : LeaderState → Prop} {l : List LeaderState}
    {f : LeaderState → LeaderState} (h : ∀ ls ∈ l, Q ls)
    (hhead : ∀ ls rest, l = ls :: rest → Q ls → Q (f ls)) : ∀ ls ∈ l.modifyHead f, Q ls := by
  cases l with
  | nil => simp
  | cons head rest =>
    intro ls hls
    rw [List.modifyHead_cons] at hls
    rcases List.mem_cons.mp hls with rfl | hls
    · exact hhead head rest rfl (h head List.mem_cons_self)
    · exact h ls (List.mem_cons_of_mem _ hls)

/-- The leaderships of a server are its own when the one set up last stays so. -/
theorem owns_modifyHead {l : List LeaderState} {f : LeaderState → LeaderState}
    (h : ∀ ls ∈ l, ∃ w, Owns a n w ls)
    (hhead : ∀ ls rest w, l = ls :: rest → Owns a n w ls → Owns a n w (f ls)) :
    ∀ ls ∈ l.modifyHead f, ∃ w, Owns a n w ls :=
  forall_modifyHead h (fun ls rest hl hw => hw.imp (fun w hw => hhead ls rest w hl hw))

theorem term_of_headTerm {T : Nat} {ls : LeaderState} {rest : List LeaderState}
    (h : r.headTerm = some T) (hls : r.leaderships = ls :: rest) : ls.term = T := by
  unfold Raft.headTerm at h
  rw [hls] at h
  exact Option.some.inj h

/-- A leader changes its configuration in the leadership of its term. -/
theorem Grounded.head_configured (hc : Grounded d c) (hheads : (c.nodes n).heads = true)
    {futures : List LogFuture} {configuration : Configuration} {i : Nat} {ls : LeaderState}
    {rest : List LeaderState}
    (hls : ((((c.nodes n).dispatchLogs futures env).1.setLatestConfiguration configuration
      i).modifyLeaderState (fun ls =>
        { ls with commitment := ls.commitment.setConfiguration configuration })).leaderships =
      ls :: rest) :
    ls.term = ((c.nodes n).dispatchLogs futures env).1.currentTerm := by
  refine term_of_headTerm ?_ hls
  rw [Raft.headTerm_modifyLeaderState _ (by intro _; rfl)]
  refine (Raft.headTerm_dispatchLogs (c.nodes n) futures env).trans ?_
  rw [(Raft.sameTerm_dispatchLogs (c.nodes n) futures env).currentTerm]
  exact (hc.headship n).head hheads

theorem Raft.leaveLeader_frame (r : Raft) (env : Env) :
    r.SameData (r.leaveLeader env) ∧ (r.leaveLeader env).stable = r.stable ∧
      (r.leaveLeader env).leaderships = r.leaderships.modifyHead (fun ls =>
        { ls with
          inflight := []
          replState := ls.replState.map (fun s =>
            if s.stopCh.isNone then { s with stopCh := some 0 } else s) }) := by
  unfold leaveLeader
  dsimp only
  split <;> exact ⟨⟨rfl, rfl, rfl, rfl, rfl, rfl, rfl, rfl, rfl⟩, rfl, rfl⟩

namespace Refines

/-- A step of which the protocol takes no notice. -/
theorem stutter (h : Refines d c a) (hc : Grounded d c) (ho : (c.nodes n).step input env = some o)
    (hstores : Stores a n o.raft) (howns : ∀ ls ∈ o.raft.leaderships, ∃ w, Owns a n w ls)
    (hevents : ∀ e ∈ o.events, Raft.kind e = .apply ∨ Raft.kind e = .commit)
    (hsends : ∀ p ∈ o.sends, (∀ req, p.2 ≠ .requestVote req) ∧ ∀ req, p.2 ≠ .appendEntries req)
    (hsilent : o.Silent) :
    ∃ a', Moves d.setting P n a a' ∧ Refines d (c.record n input o) a' := by
  have hm := Moves.refl d.setting P n a
  have hg := h.safe.grows hm.steps
  refine ⟨a, hm, h.record hm h.regular hstores (h.standing_step hc ho) howns
    (h.ballots.quiet rfl ?_) (h.mail.declined hg ?_ ?_ hsilent.declines)
    (h.chronicle.quiet hg rfl rfl ?_)⟩
  · intro e he
    rcases hevents e he with hk | hk <;> simp [hk]
  · exact fun p hp req hreq => absurd hreq ((hsends p hp).1 req)
  · exact fun p hp req hreq => absurd hreq ((hsends p hp).2 req)
  · intro e he
    rcases hevents e he with hk | hk <;> simp [hk]

theorem restart (h : Refines d c a) (hc : Grounded d c)
    (ho : (c.nodes n).step input env = some o)
    (hraft : Raft.newRaft (c.nodes n).conf (c.nodes n).stable (c.nodes n).logs
      (c.nodes n).snapshots env = some o.raft)
    (hevents : o.events = []) (hsends : o.sends = []) (hsilent : o.Silent) :
    ∃ a', Moves d.setting P n a a' ∧ Refines d (c.record n input o) a' := by
  refine h.stutter hc ho ((h.stores n).restart (h.regular_logs n) hraft) ?_ (by simp [hevents])
    (by simp [hsends]) hsilent
  rw [(Raft.started_newRaft hraft).leaderships]
  simp

/-- A leadership is set up with the log it was won with. -/
theorem setup (h : Refines d c a) (hc : Grounded d c) (hup : (c.nodes n).down = false)
    (ho : (c.nodes n).step input env = some o) (hmain : (c.nodes n).main = .call .leader)
    (hraft : o.raft = (c.nodes n).enterLeader) (hevents : o.events = []) (hsends : o.sends = [])
    (hsilent : o.Silent) :
    ∃ a', Moves d.setting P n a a' ∧ Refines d (c.record n input o) a' := by
  have hcached := h.cached hup
  obtain ⟨req, votes, latest, hmem⟩ := (hc.headship n).fresh
    (show (c.nodes n).elected = true by simp [Raft.elected, hmain])
  obtain ⟨w, hw, hleader, hterm, hlog⟩ := h.chronicle.won _ _ _ _ _ _ (Cluster.mem_view.mp hmem)
  refine h.stutter hc ho ?_ ?_ (by simp [hevents]) (by simp [hsends]) hsilent
  · rw [hraft]
    exact (h.stores n).setLeaderships _ _
  · intro ls hls
    rw [hraft] at hls
    rcases List.mem_cons.mp hls with rfl | hls
    · refine ⟨w, hw, hleader, hterm, ?_, ?_⟩
      · have hindex : (c.nodes n).getLastIndex = w.log.length := by
          rw [hcached.getLastIndex]
          exact congrArg List.length hlog.symm
        exact congrArg (· + 1) hindex
      · exact Raft.stamped_startStop (r := (c.nodes n).setupLeaderState) (by simp)
    · exact h.owns n ls hls

/-- What `leaderCommit` records beside the entries it applies. -/
theorem commit (h : Refines d c a) (hc : Grounded d c) (hup : (c.nodes n).down = false)
    {ls : LeaderState} {stepDown : Bool} (ho : (c.nodes n).step input env = some o)
    (hraft : o.raft = ((c.nodes n).leaderCommit ls stepDown).1)
    (hevents : o.events = ((c.nodes n).leaderCommit ls stepDown).2) (hsends : o.sends = [])
    (hsilent : o.Silent) :
    ∃ a', Moves d.setting P n a a' ∧ Refines d (c.record n input o) a' := by
  have hadvances := Raft.advances_leaderCommit (c.nodes n) ls stepDown
  have hstable := (Raft.sameTerm_leaderCommit (c.nodes n) ls stepDown).stable
  refine h.stutter hc ho ?_ ?_ ?_ (by simp [hsends]) hsilent
  · rw [hraft]
    refine (h.stores n).same hup hadvances.stores (by rw [hstable]) ?_ ?_ rfl
    · rcases hadvances.configurations with hsame | ⟨_, hsettle⟩
      · rw [hsame]
      · rw [hsettle]
        rfl
    · rw [hstable]
      exact (h.stores n).term
  · rw [hraft, Raft.leaderships_leaderCommit]
    refine owns_modifyHead (h.owns n) ?_
    intro head rest w _ hw
    exact ⟨hw.won, hw.leader, hw.term, hw.start, hw.stamped⟩
  · intro e he
    rw [hevents] at he
    rcases Raft.leaderCommit_events he with rfl | hk
    · exact .inr rfl
    · exact .inl hk

theorem leave (h : Refines d c a) (hc : Grounded d c) (hup : (c.nodes n).down = false)
    (ho : (c.nodes n).step input env = some o) (hraft : o.raft = (c.nodes n).leaveLeader env)
    (hevents : o.events = []) (hsends : o.sends = []) (hsilent : o.Silent) :
    ∃ a', Moves d.setting P n a a' ∧ Refines d (c.record n input o) a' := by
  obtain ⟨hdata, hstable, hleaderships⟩ := Raft.leaveLeader_frame (c.nodes n) env
  rw [← hraft] at hdata hstable hleaderships
  refine h.stutter hc ho ?_ ?_ (by simp [hevents]) (by simp [hsends]) hsilent
  · refine (h.stores n).same hup hdata.sameStores (by rw [hstable]) (by rw [hdata.configurations]) ?_ rfl
    rw [hstable]
    exact (h.stores n).term
  · rw [hleaderships]
    refine owns_modifyHead (h.owns n) ?_
    intro head rest w _ hw
    refine ⟨hw.won, hw.leader, hw.term, hw.start, ?_⟩
    intro s hs
    obtain ⟨s₀, hs₀, rfl⟩ := List.mem_map.mp hs
    have h₀ := hw.stamped s₀ hs₀
    split <;> exact h₀

/-- A leader appends entries of its term. -/
theorem append (h : Refines d c a) (hc : Grounded d c) (hup : (c.nodes n).down = false)
    (es : List Log) (ho : (c.nodes n).step input env = some o)
    (hleads : (c.nodes n).main.leads = true) (hlogs : o.raft.logs = (c.nodes n).logs ++ es)
    (hstable : o.raft.stable = (c.nodes n).stable) (hsnapshots : o.raft.snapshots = (c.nodes n).snapshots)
    (hcached : o.raft.Cached) (hterm : ∀ e ∈ es, e.term = (c.nodes n).currentTerm)
    (hdense : LogStore.Dense ((c.nodes n).logs ++ es)) (hdecodes : ∀ e ∈ es, e.decodes = true)
    (howns : ∀ ls ∈ o.raft.leaderships, ∃ w, Owns a n w ls)
    (hevents : o.events = [.dispatched es]) (hsends : o.sends = []) (hsilent : o.Silent) :
    ∃ a', Moves d.setting P n a a' ∧ Refines d (c.record n input o) a' := by
  have hcur := h.term_eq hc hup
  have hlog := (h.stores n).log
  obtain ⟨w₀, hw₀, hleader, hwterm⟩ := h.won hc hup hleads
  have hroot : 1 < a.term n := by
    rw [← hwterm]
    exact (h.safe.terms.win w₀ hw₀).2
  have hwhole : (c.nodes n).logs = a.leaderLog (a.term n) := by
    rw [← hlog, ← hwterm, ← h.safe.logs.leading w₀ hw₀ (by rw [hleader, hwterm]), hleader]
  have hm : Moves d.setting P n a (a.append n es) := by
    refine (Moves.refl _ _ n a).append rfl ⟨w₀, hw₀, hleader, hwterm⟩ ?_
    intro e he
    rw [hcur]
    exact hterm e he
  have hg := h.safe.grows hm.steps
  have hnew : (a.append n es).leaderLog (a.term n) = (c.nodes n).logs ++ es := by
    rw [← hlog]
    exact Function.update_self ..
  refine ⟨_, hm, h.record hm ?_ ?_ (h.standing_step hc ho) ?_ (h.ballots.quiet rfl ?_)
    (h.mail.declined hg (by simp [hsends]) (by simp [hsends]) hsilent.declines)
    (h.chronicle.record hg (by simp [hevents]) (fun w hw => .inl hw) ?_ ?_)⟩
  · intro t
    by_cases ht : t = a.term n
    · rw [ht, hnew]
      exact (h.regular_logs n).append hdense hdecodes
    · have hsame : (a.append n es).leaderLog t = a.leaderLog t := Function.update_of_ne ht _ _
      rw [hsame]
      exact h.regular t
  · refine ⟨?_, ?_, ?_, fun _ => hcached, ?_⟩
    · rw [hstable]
      exact (h.stores n).term
    · rw [hlogs, ← hlog]
      exact Function.update_self ..
    · rw [hsnapshots]
      exact (h.stores n).snapshots
    · intro hzero
      rw [hstable, ← (h.stores n).term] at hzero
      omega
  · intro ls hls
    obtain ⟨w, hw⟩ := howns ls hls
    exact ⟨w, hw.grows hg⟩
  · intro e he
    rw [hevents] at he
    rw [List.mem_singleton.mp he]
    simp [Raft.kind]
  · intro entries hmem e he
    rw [hevents] at hmem
    simp only [List.mem_singleton, Event.dispatched.injEq] at hmem
    subst hmem
    obtain ⟨i, hi⟩ := List.getElem?_of_mem he
    have hget : ((c.nodes n).logs ++ entries)[(c.nodes n).logs.length + i]? = some e := by
      rw [List.getElem?_append_right (Nat.le_add_right _ _), Nat.add_sub_cancel_left]
      exact hi
    have hindex := hdense _ e hget
    obtain ⟨es', hled, _⟩ := h.safe.logs.led w₀ hw₀
    have hlen := congrArg List.length hled
    rw [hwterm, ← hwhole, List.length_append] at hlen
    refine ⟨w₀, hw₀, hleader, by rw [hwterm, hcur, hterm e he], by omega, ?_, ?_⟩
    · rw [hterm e he, ← hcur, hnew, hindex]
      exact hget
    · rw [hterm e he, ← hcur]
      refine ⟨_, Set.mem_insert _ _, rfl, rfl, ?_⟩
      have hlt := (List.getElem?_eq_some_iff.mp hget).1
      simp only [hlog]
      omega
  · intro w hw i e hi he
    by_cases hown : w.term = a.term n
    · rw [hown, hnew] at he
      by_cases hlt : i < (c.nodes n).logs.length
      · rw [List.getElem?_append_left hlt, hwhole] at he
        exact .inl ⟨hw, hown ▸ he⟩
      · rw [List.getElem?_append_right (by omega)] at he
        refine .inr ⟨?_, es, ?_, List.mem_of_getElem? he⟩
        · rw [← hleader]
          exact h.safe.terms.leader_unique hw hw₀ (hown.trans hwterm.symm)
        · rw [hevents]
          exact List.mem_singleton.mpr rfl
    · have hsame : (a.append n es).leaderLog w.term = a.leaderLog w.term :=
        Function.update_of_ne hown _ _
      rw [hsame] at he
      exact .inl ⟨hw, he⟩

/-- `dispatchLogs` keeps the leaderships. -/
theorem owns_dispatchLogs {futures : List LogFuture} (hcached : (c.nodes n).Cached)
    (hdense : (c.nodes n).logs.Dense) (henv : env.storeLogs = true)
    (howns : ∀ ls ∈ (c.nodes n).leaderships, ∃ w, Owns a n w ls) :
    ∀ ls ∈ ((c.nodes n).dispatchLogs futures env).1.leaderships, ∃ w, Owns a n w ls := by
  rw [Raft.dispatchLogs_eq hcached hdense futures henv]
  refine owns_modifyHead howns ?_
  intro ls rest w hls hw
  exact ⟨hw.won, hw.leader, hw.term, (Commitment.startIndex_matchServer _ _ _).trans hw.start,
    hw.stamped⟩

theorem dispatch (h : Refines d c a) (hc : Grounded d c) (hup : (c.nodes n).down = false)
    (henv : env.Faultless) {futures : List LogFuture} {stepDown : Bool}
    (ho : (c.nodes n).step input env = some o)
    (hmain : (c.nodes n).main = .noop ∨ (c.nodes n).main = .leader stepDown true)
    (hne : futures ≠ []) (hdecodes : ∀ f ∈ futures, f.log.decodes = true)
    (hraft : o.raft = { ((c.nodes n).dispatchLogs futures env).1 with main := .leader stepDown false })
    (hevents : o.events = ((c.nodes n).dispatchLogs futures env).2) (hsends : o.sends = [])
    (hsilent : o.Silent) :
    ∃ a', Moves d.setting P n a a' ∧ Refines d (c.record n input o) a' := by
  have hcached := h.cached hup
  have hdense := (h.regular_logs n).dense
  have hleads : (c.nodes n).main.leads = true := by
    rcases hmain with hmain | hmain <;> simp [MainThread.leads, hmain]
  have hdispatch := Raft.dispatchLogs_eq hcached hdense futures henv.2.1
  refine h.append hc hup ((c.nodes n).newLogs futures env) ho hleads ?_ ?_ ?_ ?_ Raft.newLogs_term (Raft.dense_newLogs hdense futures)
    (Raft.newLogs_decodes hdecodes) ?_ ?_ hsends hsilent
  · rw [hraft, hdispatch]
  · rw [hraft, hdispatch]
  · rw [hraft, hdispatch]
  · have hcached' := Raft.cached_dispatchLogs hcached hdense hne henv.2.1
    rw [hraft]
    exact ⟨⟨hcached'.lastLogIndex, hcached'.lastLogTerm⟩, hcached'.lastSnapshotIndex⟩
  · rw [hraft]
    exact owns_dispatchLogs hcached hdense henv.2.1 (h.owns n)
  · rw [hevents, hdispatch]

theorem decodes_configurationEntry (r : Raft) (configuration : Configuration) :
    (r.configurationEntry configuration).decodes = true := by
  unfold Raft.configurationEntry
  split <;> rfl

theorem configure (h : Refines d c a) (hc : Grounded d c) (hup : (c.nodes n).down = false)
    (henv : env.Faultless) {req : ConfigurationChangeRequest} {future : Nat}
    {configuration : Configuration} {stepDown : Bool}
    (ho : (c.nodes n).step input env = some o) (hmain : (c.nodes n).main = .leader stepDown true)
    (hnext : nextConfiguration (c.nodes n).configurations.latest
      (c.nodes n).configurations.latestIndex req = .ok configuration)
    (hraft : o.raft =
      { ((c.nodes n).appendConfigurationEntry req future env).1 with main := .leader stepDown false })
    (hevents : o.events = ((c.nodes n).appendConfigurationEntry req future env).2)
    (hsends : o.sends = []) (hsilent : o.Silent) :
    ∃ a', Moves d.setting P n a a' ∧ Refines d (c.record n input o) a' := by
  have hcached := h.cached hup
  have hdense := (h.regular_logs n).dense
  have hheads : (c.nodes n).heads = true := by simp [Raft.heads, hmain]
  have hleads : (c.nodes n).main.leads = true := by simp [MainThread.leads, hmain]
  simp only [Raft.appendConfigurationEntry, hnext] at hraft hevents
  generalize hfutures : [(⟨future, (c.nodes n).configurationEntry configuration⟩ : LogFuture)] = futures
    at hraft hevents
  have hdispatch := Raft.dispatchLogs_eq hcached hdense futures henv.2.1
  refine h.append hc hup ((c.nodes n).newLogs futures env) ho hleads ?_ ?_ ?_ ?_ Raft.newLogs_term
    (Raft.dense_newLogs hdense _) (Raft.newLogs_decodes ?_) ?_ ?_ hsends hsilent
  · rw [hraft, hdispatch]
    rfl
  · rw [hraft, hdispatch]
    rfl
  · rw [hraft, hdispatch]
    rfl
  · have hcached' := Raft.cached_dispatchLogs hcached hdense
      (show futures ≠ [] by simp [← hfutures]) henv.2.1
    rw [hraft]
    generalize ((c.nodes n).dispatchLogs futures env).1 = r₁ at hcached' ⊢
    exact ⟨⟨hcached'.lastLogIndex, hcached'.lastLogTerm⟩, hcached'.lastSnapshotIndex⟩
  · intro f hf
    rw [← hfutures] at hf
    rw [List.mem_singleton.mp hf]
    exact decodes_configurationEntry _ _
  · rw [hraft]
    refine owns_modifyHead (owns_modifyHead
      (owns_dispatchLogs hcached hdense henv.2.1 (h.owns n)) ?_) ?_
    · intro ls rest w _ hw
      exact ⟨hw.won, hw.leader, hw.term, (Commitment.startIndex_recalculate _).trans hw.start,
        hw.stamped⟩
    · intro ls rest w hls hw
      have hterm := hc.head_configured hheads hls
      refine ⟨hw.won, hw.leader, hw.term, hw.start, ?_⟩
      intro s hs
      have hstamped := hw.stamped
      rw [hterm] at hstamped ⊢
      exact Raft.stamped_startStop
        (r := (((c.nodes n).dispatchLogs futures env).1.setLatestConfiguration configuration
          ((c.nodes n).getLastIndex + 1)).modifyLeaderState _) hstamped s hs
  · rw [hevents, hdispatch]

theorem owns_replicate (h : Refines d c a) {k j : Nat} {inp : ReplicationInput}
    {sends : List (Server × Command)} (hstep : (c.nodes n).replicate k j inp = some (r', sends)) :
    ∀ ls ∈ r'.leaderships, ∃ w, Owns a n w ls := by
  obtain ⟨ls, s, s', matched, hls, hs, hrep, rfl⟩ := Raft.replicate_cases hstep
  obtain ⟨w, hw⟩ := h.owns n ls (List.mem_of_getElem? hls)
  intro ls₁ hls₁
  rcases List.mem_or_eq_of_mem_set hls₁ with hold | rfl
  · exact h.owns n ls₁ hold
  · refine ⟨w, hw.won, hw.leader, hw.term, ?_, ?_⟩
    · cases matched with
      | none => exact hw.start
      | some index => exact (Commitment.startIndex_matchServer _ _ _).trans hw.start
    · intro s₁ hs₁
      rcases List.mem_or_eq_of_mem_set hs₁ with hold | rfl
      · exact hw.stamped s₁ hold
      · exact (Raft.replicationStep_currentTerm hrep).trans
          (hw.stamped s (List.mem_of_getElem? hs))

/-- A goroutine sends what the log holds now, in the term of its leadership. -/
theorem replicate (h : Refines d c a) (hc : Grounded d c) (hup : (c.nodes n).down = false)
    {k j : Nat} {inp : ReplicationInput} (ho : (c.nodes n).step input env = some o)
    (hstep : (c.nodes n).replicate k j inp = some (o.raft, o.sends))
    (hevents : o.events = []) (hsilent : o.Silent) :
    ∃ a', Moves d.setting P n a a' ∧ Refines d (c.record n input o) a' := by
  have howns := h.owns_replicate hstep
  obtain ⟨ls, s, s', matched, hls, hs, hrep, hraft⟩ := Raft.replicate_cases hstep
  obtain ⟨w, hw⟩ := h.owns n ls (List.mem_of_getElem? hls)
  have hterm := hw.stamped s (List.mem_of_getElem? hs)
  have hstores : Stores a n o.raft := by
    rw [hraft]
    exact (h.stores n).setLeaderships _ _
  by_cases hsent : ∃ peer req, o.sends = [(peer, .appendEntries req)]
  · obtain ⟨peer, req, hsends⟩ := hsent
    obtain ⟨hreq, last, hdesc⟩ : req.term = ls.term ∧ ∃ last, req.Describes (c.nodes n).logs last := by
      rcases Raft.replicationStep_sends hrep (by rw [hsends]; exact List.mem_singleton.mpr rfl) with
        ⟨_, _, _, hsetup, hcmd⟩ | hcmd | ⟨_, hcmd⟩
      · cases hcmd
        exact ⟨(Raft.setupAppendEntries_cases hsetup).2.2.2.1.trans hterm,
          Raft.setupAppendEntries_describes (h.regular_logs n).dense (h.cached hup).lastSnapshotIndex
            hsetup⟩
      · cases hcmd
        exact ⟨hterm, 0, Raft.heartbeatRequest_describes _ s⟩
      · simp at hcmd
    have hm : Moves d.setting P n a (a.cut n ls.term last) := by
      refine (Moves.refl _ _ n a).cut ⟨w, hw.won, hw.leader, hw.term⟩ ?_
      rw [(h.stores n).log]
      exact hdesc.last_le
    have hg := h.safe.grows hm.steps
    refine ⟨_, hm, h.record hm h.regular (hstores.frame rfl rfl) (h.standing_step hc ho) ?_
      (h.ballots.quiet rfl (by simp [hevents])) (h.mail.declined hg ?_ ?_ hsilent.declines)
      (h.chronicle.quiet hg rfl rfl (by simp [hevents]))⟩
    · intro ls₁ hls₁
      obtain ⟨w₁, hw₁⟩ := howns ls₁ hls₁
      exact ⟨w₁, hw₁.grows hg⟩
    · simp [hsends]
    · intro p hp req' hreq'
      rw [hsends] at hp
      rw [List.mem_singleton.mp hp] at hreq'
      cases hreq'
      refine ⟨_, Set.mem_insert _ _, hreq.symm, ?_⟩
      rw [(h.stores n).log]
      exact hdesc
  · refine h.stutter hc ho hstores howns (by simp [hevents]) ?_ hsilent
    intro p hp
    have hone := Raft.replicationStep_one hrep p hp
    obtain ⟨peer, cmd⟩ := p
    rcases Raft.replicationStep_sends hrep hp with ⟨_, _, _, _, rfl⟩ | rfl | ⟨_, rfl⟩
    · exact absurd ⟨_, _, hone⟩ hsent
    · exact absurd ⟨_, _, hone⟩ hsent
    · exact ⟨by simp, by simp⟩

end Refines

end PerfRaft
