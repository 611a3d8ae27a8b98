import PerfRaft.Proofs.Grounded
import PerfRaft.Proofs.Refinement

namespace PerfRaft

open Lib Replicated

variable {d : Deployment} {c : Cluster} {a a' : Protocol} {n : ServerID} {input : Input} {env : Env}
  {o : Outcome} {P : Win ServerID Log → Prop}

namespace Refines

theorem term_eq (h : Refines d c a) (hc : Grounded d c) (hup : (c.nodes n).down = false) :
    a.term n = (c.nodes n).currentTerm :=
  (h.stores n).term.trans ((hc.recorded n).term hup).symm

theorem regular_logs (h : Refines d c a) (n : ServerID) : (c.nodes n).logs.Regular := by
  rw [← (h.stores n).log]
  exact regular_of_valid h.regular (h.safe.logs.log n)

theorem cached (h : Refines d c a) (hup : (c.nodes n).down = false) : (c.nodes n).Cached :=
  (h.stores n).cached hup

theorem standing_step (h : Refines d c a) (hc : Grounded d c)
    (ho : (c.nodes n).step input env = some o) : Standing a.wins n o.raft := by
  refine (h.standing n).step ?_ ?_ ho
  · intro hup w hw hleader
    rw [← h.term_eq hc hup, ← hleader]
    exact (h.safe.terms.win w hw).1
  · intro hup hzero
    refine ((h.stores n).unborn ?_).2 hup
    rw [← (h.stores n).term, h.term_eq hc hup, hzero]

/-- Whoever acts as a leader has won its term in the protocol. -/
theorem won (h : Refines d c a) (hc : Grounded d c) (hup : (c.nodes n).down = false)
    (hleads : (c.nodes n).main.leads = true) : ∃ w ∈ a.wins, w.leader = n ∧ w.term = a.term n := by
  obtain ⟨req, votes, latest, logs, hmem⟩ := (hc.leading n).thread hleads
  obtain ⟨w, hw, hleader, hterm, _⟩ := h.chronicle.won _ _ _ _ _ _ (Cluster.mem_view.mp hmem)
  exact ⟨w, hw, hleader, hterm.trans (h.term_eq hc hup).symm⟩

/-- A step that changes neither the log nor the leaderships of a server. -/
theorem control (h : Refines d c a) (hup : (c.nodes n).down = false)
    (hm : Moves d.setting P n a a') (hdata : (c.nodes n).SameData o.raft)
    (hleaderships : o.raft.leaderships = (c.nodes n).leaderships)
    (hmono : (c.nodes n).stable.currentTerm ≤ o.raft.stable.currentTerm)
    (hterm : a'.term n = o.raft.stable.currentTerm) (hlog : a'.log n = a.log n)
    (hregular : ∀ t, LogStore.Regular (a'.leaderLog t)) (hstanding : Standing a'.wins n o.raft)
    (hballots : Ballots d (c.record n input o) a') (hmail : Mail d (c.record n input o) a')
    (hchronicle : Chronicle (c.record n input o) a') : Refines d (c.record n input o) a' := by
  refine h.record hm hregular ?_ hstanding ?_ hballots hmail hchronicle
  · exact (h.stores n).same hup hdata.sameStores hmono (by rw [hdata.configurations]) hterm hlog
  · intro ls hls
    rw [hleaderships] at hls
    obtain ⟨w, hw⟩ := h.owns n ls hls
    exact ⟨w, hw.grows (h.safe.grows hm.steps)⟩

/-- A step that takes over a term at most. -/
theorem bump (h : Refines d c a) (hc : Grounded d c) (hup : (c.nodes n).down = false)
    (ho : (c.nodes n).step input env = some o) (hdata : (c.nodes n).SameData o.raft)
    (hleaderships : o.raft.leaderships = (c.nodes n).leaderships) (hevents : o.events = [])
    (hsends : ∀ p ∈ o.sends, ∃ req, p.2 = .requestPreVote req) (hdeclines : o.Declines) :
    ∃ a', Moves d.setting P n a a' ∧ Refines d (c.record n input o) a' := by
  have hmono : (c.nodes n).stable.currentTerm ≤ o.raft.stable.currentTerm :=
    ((hc.recorded n).persisted ho).mono
  have hm : Moves d.setting P n a (a.bump n o.raft.stable.currentTerm) := by
    refine (Moves.refl _ _ n a).bump ?_
    rw [(h.stores n).term]
    exact hmono
  have hg := h.safe.grows hm.steps
  refine ⟨_, hm, h.control hup hm hdata hleaderships hmono (Function.update_self ..) rfl h.regular
    (h.standing_step hc ho) (h.ballots.quiet rfl (by simp [hevents]))
    (h.mail.declined hg ?_ ?_ hdeclines) (h.chronicle.quiet hg rfl rfl (by simp [hevents]))⟩
  · intro p hp req hreq
    obtain ⟨req', hpre⟩ := hsends p hp
    simp [hpre] at hreq
  · intro p hp req hreq
    obtain ⟨req', hpre⟩ := hsends p hp
    simp [hpre] at hreq

theorem upToDate_of_cached {r : Raft} (hcached : r.Cached) {R : LogStore} {i t : Nat}
    (hi : i = R.length) (ht : t = lastStamp R) (h : r.upToDate i t = true) :
    UpToDate r.logs R := by
  unfold Raft.upToDate at h
  rw [hcached.getLastEntry, hi, ht] at h
  simp only [Bool.not_eq_true', Bool.or_eq_false_iff, Bool.and_eq_false_iff,
    decide_eq_false_iff_not] at h
  unfold UpToDate
  omega

/-- A server that gives no vote in a term has given none in the protocol. -/
theorem votes_fresh (h : Refines d c a) (hc : Grounded d c) {T : Nat}
    (hT : (c.nodes n).stable.currentTerm ≤ T)
    (hnew : ¬((c.nodes n).stable.lastVoteTerm = T ∧ (c.nodes n).stable.lastVoteCand.isSome)) :
    ∀ x ∈ a.votes, x.voter = n → x.term ≠ T := by
  intro x hx hvoter hterm
  obtain ⟨hne, hvoted⟩ := h.ballots.votes x hx
  rw [hvoter] at hvoted
  have hrecorded := hc.recorded n
  have hbound : (c.nodes n).stable.lastVoteTerm ≤ (c.nodes n).stable.currentTerm := hrecorded.bound
  rcases hrecorded.granted _ _ (Cluster.mem_view.mpr hvoted) (d.named _ hne) with hlt | ⟨heq, hcand⟩
  · have hlt' : x.term < (c.nodes n).stable.lastVoteTerm := hlt
    omega
  · have hcand' : (c.nodes n).stable.lastVoteCand = some (d.conf x.candidate).localAddr := hcand
    have heq' : x.term = (c.nodes n).stable.lastVoteTerm := heq
    exact hnew ⟨by omega, by simp [hcand']⟩

/-- A vote request is answered. -/
theorem requestVote (h : Refines d c a) (hc : Grounded d c) (hup : (c.nodes n).down = false)
    (henv : env.writes = []) {req : RequestVoteRequest}
    (hdeliver : c.deliverable (c.nodes n) (.rpc (.requestVote req)) = true)
    (ho : (c.nodes n).step (.rpc (.requestVote req)) env = some o)
    (hraft : o.raft = { ((c.nodes n).requestVote req env).1 with main := (c.nodes n).main.again })
    (hevents : o.events = ((c.nodes n).requestVote req env).2.2) (hsends : o.sends = [])
    (hsilent : o.Silent) :
    ∃ a', Moves d.setting P n a a' ∧ Refines d (c.record n (.rpc (.requestVote req)) o) a' := by
  have hdata : (c.nodes n).SameData o.raft := by
    rw [hraft]
    exact (Raft.sameData_requestVote (c.nodes n) req env).setMain _
  have hleaderships : o.raft.leaderships = (c.nodes n).leaderships := by
    rw [hraft]
    exact (Raft.rpcEffect_requestVote (c.nodes n) req env).leaderships
  have hmono : (c.nodes n).stable.currentTerm ≤ o.raft.stable.currentTerm :=
    ((hc.recorded n).persisted ho).mono
  have hterm : (c.nodes n).currentTerm = (c.nodes n).stable.currentTerm :=
    (hc.recorded n).term hup
  have hstanding := h.standing_step hc ho
  have hvotes := Raft.votes_requestVote (c.nodes n) henv req
  rw [← hevents] at hvotes
  generalize ((c.nodes n).requestVote req env).1 = r', hev : o.events = events at hraft hvotes
  -- once the term is taken over
  have hbumped : ∀ r₁ : Raft, r₁.currentTerm = req.term →
      (r₁ = c.nodes n ∨ ((c.nodes n).currentTerm < req.term ∧ r₁ = (c.nodes n).toTerm req.term)) →
      r₁.stable.currentTerm = req.term ∧ a.term n ≤ req.term := by
    intro r₁ hcur hr₁
    rw [(h.stores n).term]
    rcases hr₁ with rfl | ⟨hlt, rfl⟩
    · exact ⟨hterm.symm.trans hcur, by omega⟩
    · exact ⟨rfl, by omega⟩
  cases hvotes with
  | ignore | refuse hlt =>
    exact h.bump hc hup ho hdata hleaderships hev (by simp [hsends]) hsilent.declines
  | again _ hcur hr₁ hvote hcand =>
    obtain ⟨hstable, hle⟩ := hbumped _ hcur hr₁
    have hm : Moves d.setting P n a (a.bump n req.term) := (Moves.refl _ _ n a).bump hle
    have hg := h.safe.grows hm.steps
    refine ⟨_, hm, h.control hup hm hdata hleaderships hmono ?_ rfl h.regular hstanding
      (h.ballots.record Set.Subset.rfl ?_ fun _ hx => .inl hx)
      (h.mail.declined hg (by simp [hsends]) (by simp [hsends]) hsilent.declines)
      (h.chronicle.quiet hg rfl rfl (by simp [hev, Raft.kind]))⟩
    · rw [hraft]
      exact (Function.update_self ..).trans hstable.symm
    · intro T b hmem
      simp only [hev, List.mem_singleton, Event.voteGranted.injEq] at hmem
      obtain ⟨rfl, rfl⟩ := hmem
      have hgiven := Cluster.mem_view.mp (hc.recalled n _ hcand)
      have hlast : (c.view n).raft.stable.lastVoteTerm = req.term := hvote
      rw [hlast] at hgiven
      exact h.ballots.voted _ _ _ hgiven
  | grant r₁ hcur hr₁ hnew hlog =>
    obtain ⟨hstable, hle⟩ := hbumped r₁ hcur hr₁
    obtain ⟨e, he, _, hcmd⟩ := Cluster.sent_iff.mp hdeliver
    obtain ⟨m, R, hne, hreq, hcand, hindex, hlastTerm⟩ := h.mail.requests e he req hcmd
    have hself : (a.bump n req.term).term n = req.term := Function.update_self ..
    have hm : Moves d.setting P n a ((a.bump n req.term).grant n m R) := by
      refine ((Moves.refl _ _ n a).bump hle).grant ?_ ?_ ?_
      · rw [hself]
        exact hreq
      · rw [hself]
        exact h.votes_fresh hc ((h.stores n).term ▸ hle) hnew
      · have hup := upToDate_of_cached (h.cached hup) hindex hlastTerm hlog
        rw [← (h.stores n).log] at hup
        exact hup
    have hg := h.safe.grows hm.steps
    refine ⟨_, hm, h.control hup hm hdata hleaderships hmono ?_ rfl h.regular hstanding
      (h.ballots.record hg.votes ?_ ?_)
      (h.mail.declined hg (by simp [hsends]) (by simp [hsends]) hsilent.declines)
      (h.chronicle.quiet hg rfl rfl (by simp [hev, Raft.kind]))⟩
    · rw [hraft]
      exact hself.trans hstable.symm
    · intro T b hmem
      simp only [hev, List.mem_cons, reduceCtorEq, Event.voteGranted.injEq, List.not_mem_nil,
        or_false, false_or] at hmem
      obtain ⟨rfl, rfl⟩ := hmem
      exact ⟨_, Set.mem_insert _ _, rfl, hself, hcand.symm⟩
    · intro x hx
      rcases hx with rfl | hx
      · refine .inr ⟨rfl, hne, ?_⟩
        simp [hev, hself, hcand]
      · exact .inl hx

variable {req : AppendEntriesRequest}

/-- A request is accepted: the server takes over the term and the entries. -/
theorem accept (h : Refines d c a) (hc : Grounded d c) (hup : (c.nodes n).down = false)
    (henv : env.writes = []) {m : Msg Log} {r₁ : Raft}
    (ho : (c.nodes n).step (.rpc (.appendEntries req)) env = some o)
    (hraft : o.raft = { ((c.nodes n).appendEntries req env).1 with main := (c.nodes n).main.again })
    (hevents : o.events = ((c.nodes n).appendEntries req env).2.2) (hsends : o.sends = [])
    (hm : m ∈ a.msgs) (hmterm : m.term = req.term) (hdescribes : req.Describes m.log m.last)
    (hle : (c.nodes n).currentTerm ≤ req.term)
    (haccepts : (c.nodes n).Accepts req env m.log m.last r₁) :
    ∃ a', Moves d.setting P n a a' ∧ Refines d (c.record n (.rpc (.appendEntries req)) o) a' := by
  have hcontrol := Raft.sameControl_appendEntries (c.nodes n) req env hle
  obtain ⟨_, _, hstable, hdata⟩ := Raft.followLeader_nil hup henv hle
  have hterm := hstable ((hc.recorded n).term hup)
  have hself : (a.bump n req.term).term n = req.term := Function.update_self ..
  have hmoves : Moves d.setting P n a ((a.bump n req.term).accept n m) := by
    refine ((Moves.refl _ _ n a).bump ?_).accept rfl hm (hself.trans hmterm.symm)
    rw [h.term_eq hc hup]
    exact hle
  have hg := h.safe.grows hmoves.steps
  refine ⟨_, hmoves, h.record hmoves h.regular ?_ (h.standing_step hc ho) ?_
    (h.ballots.quiet rfl ?_) (h.mail.record hg (by simp [hsends]) (by simp [hsends]) ?_)
    (h.chronicle.quiet hg rfl rfl ?_)⟩
  · rw [hraft]
    constructor
    case term =>
      dsimp only
      rw [hcontrol.stable, hterm]
      exact hself
    case log =>
      have hlogs := haccepts.logs_eq
      rw [← hmterm, ← (h.stores n).log] at hlogs
      exact (Function.update_self ..).trans hlogs.symm
    case snapshots =>
      dsimp only
      rw [hcontrol.snapshots, hdata.snapshots]
      exact (h.stores n).snapshots
    case cached =>
      intro _
      have hcached := haccepts.cached_eq (h.cached hup)
      exact ⟨⟨hcached.lastLogIndex, hcached.lastLogTerm⟩, hcached.lastSnapshotIndex⟩
    case unborn =>
      intro hzero
      dsimp only at hzero
      rw [hcontrol.stable, hterm] at hzero
      obtain ⟨w, hw, hwterm⟩ := h.safe.terms.msg m hm
      have hroot := (h.safe.terms.win w hw).2
      have hpos : req.term = 0 := hzero
      rw [hwterm, hmterm, hpos] at hroot
      exact absurd hroot (Nat.not_lt_zero _)
  · intro ls hls
    have hleaderships := (Raft.rpcEffect_appendEntries (c.nodes n) req env).1.leaderships
    rw [hraft] at hls
    dsimp only at hls
    rw [hleaderships] at hls
    obtain ⟨w, hw⟩ := h.owns n ls hls
    exact ⟨w, hw.grows hg⟩
  · intro e he
    rw [hevents] at he
    obtain ⟨l, rfl⟩ := Raft.appendEntries_events he
    simp [Raft.kind]
  · intro reply hreply req' resp hcmd _ _ e he
    obtain ⟨_, hserver, hinput⟩ := mem_replyTo hreply
    have hsame : req' = req := by
      rcases hinput with heq | ⟨_, heq, _⟩
      · rw [hcmd] at heq
        simpa using heq.symm
      · simp at heq
    subst hsame
    refine ⟨n, ?_, _, Set.mem_insert _ _, rfl, hmterm, ?_⟩
    · rw [hserver]
      exact (hc.localAddr n).symm
    · have hdense := (regular_of_valid h.regular (h.safe.logs.msgs m hm)).dense
      exact (hdescribes.last_index hdense he).le
  · intro e he
    rw [hevents] at he
    obtain ⟨l, rfl⟩ := Raft.appendEntries_events he
    simp [Raft.kind]

theorem declines_of_refuses
    (hresponse : o.response = none ∨ o.response = some ((c.nodes n).appendEntries req env).2.1)
    (hrefuses : Raft.Refuses ((c.nodes n).appendEntries req env).2.1) : o.Declines := by
  intro resp hresp
  rcases hresponse with hnone | hsome
  · simp [hresp] at hnone
  · rw [hresp] at hsome
    exact hrefuses resp (Option.some.inj hsome).symm

/-- A request on its way is one of the protocol, and is refused or accepted. -/
theorem appendEntries_cases (h : Refines d c a) (hup : (c.nodes n).down = false)
    (henv : env.Faultless)
    (hdeliver : c.deliverable (c.nodes n) (.rpc (.appendEntries req)) = true) :
    ∃ m ∈ a.msgs, m.term = req.term ∧ req.Describes m.log m.last ∧
      (((c.nodes n).SameData ((c.nodes n).appendEntries req env).1 ∧
          Raft.Refuses ((c.nodes n).appendEntries req env).2.1 ∧
          ((c.nodes n).appendEntries req env).2.2 = []) ∨
        ((c.nodes n).currentTerm ≤ req.term ∧ ∃ r₁, (c.nodes n).Accepts req env m.log m.last r₁)) := by
  obtain ⟨e, he, _, hcmd⟩ := Cluster.sent_iff.mp hdeliver
  obtain ⟨m, hm, hmterm, hdescribes⟩ := h.mail.appends e he req hcmd
  have hregular := h.regular_logs n
  have hvalid := h.safe.logs.msgs m hm
  have hregular' := regular_of_valid h.regular hvalid
  have hmatch : Matching (c.nodes n).logs m.log := by
    rw [← (h.stores n).log]
    exact (h.safe.logs.log n).matching hvalid
  refine ⟨m, hm, hmterm, hdescribes, ?_⟩
  rcases Raft.appendEntries_described hup henv (h.cached hup) hregular.dense hregular'.dense hmatch
      hregular'.decodes hdescribes with
    ⟨_, hsame, hrefuses, hnone⟩ | ⟨hle, ⟨hsame, hrefuses, hnone⟩ | haccepts⟩
  · refine .inl ⟨?_, hrefuses, hnone⟩
    rw [hsame]
    exact .refl _
  · refine .inl ⟨?_, hrefuses, hnone⟩
    rw [hsame]
    exact Raft.sameData_followLeader _ req env
  · exact .inr ⟨hle, haccepts⟩

theorem appendEntries (h : Refines d c a) (hc : Grounded d c) (hup : (c.nodes n).down = false)
    (henv : env.Faultless)
    (hdeliver : c.deliverable (c.nodes n) (.rpc (.appendEntries req)) = true)
    (ho : (c.nodes n).step (.rpc (.appendEntries req)) env = some o)
    (hraft : o.raft = { ((c.nodes n).appendEntries req env).1 with main := (c.nodes n).main.again })
    (hevents : o.events = ((c.nodes n).appendEntries req env).2.2) (hsends : o.sends = [])
    (hresponse : o.response = none ∨ o.response = some ((c.nodes n).appendEntries req env).2.1) :
    ∃ a', Moves d.setting P n a a' ∧ Refines d (c.record n (.rpc (.appendEntries req)) o) a' := by
  obtain ⟨m, hm, hmterm, hdescribes, ⟨hdata, hrefuses, hnone⟩ | ⟨hle, r₁, haccepts⟩⟩ :=
    h.appendEntries_cases hup henv hdeliver
  · refine h.bump hc hup ho ?_ ?_ (hevents.trans hnone) (by simp [hsends])
      (declines_of_refuses hresponse hrefuses)
    · rw [hraft]
      exact hdata.setMain _
    · rw [hraft]
      exact (Raft.rpcEffect_appendEntries (c.nodes n) req env).1.leaderships
  · exact h.accept hc hup henv.1 ho hraft hevents hsends hm hmterm hdescribes hle haccepts

/-- A candidate hears of a newer term. -/
theorem follow (h : Refines d c a) (hc : Grounded d c) (hup : (c.nodes n).down = false)
    (henv : env.writes = []) {t : Nat} (ho : (c.nodes n).step input env = some o)
    (hraft : o.raft = (((c.nodes n).setState .follower).setCurrentTerm t env.writes).leaveCandidate)
    (hevents : o.events = []) (hsends : o.sends = []) (hsilent : o.Silent) :
    ∃ a', Moves d.setting P n a a' ∧ Refines d (c.record n input o) a' := by
  refine h.bump hc hup ho ?_ ?_ hevents (by simp [hsends]) hsilent.declines
  · rw [hraft]
    exact (Raft.sameData_follow _ .follower t env.writes).leaveCandidate
  · rw [hraft, henv, Raft.setCurrentTerm_nil]
    rfl

/-- The vote request of a server that runs for the next term. -/
theorem requested_voteRequest (h : Refines d c a) (hc : Grounded d c)
    (hup : (c.nodes n).down = false) (hne : n ≠ [])
    (hreq : a'.reqs n ((c.nodes n).currentTerm + 1) = some (c.nodes n).logs) :
    Requested d a' (c.nodes n).nextTerm.voteRequest := by
  have hcached := (h.cached hup).sameData (Raft.sameData_nextTerm (c.nodes n))
  refine ⟨n, (c.nodes n).logs, hne, hreq, ?_, ?_, ?_⟩
  · rw [Raft.candidateBytes_voteRequest]
    exact hc.localAddr n
  · exact congrArg Prod.fst hcached.getLastEntry
  · exact congrArg Prod.snd hcached.getLastEntry

/-- A server runs for the next term, and votes for itself when it is a voter. -/
theorem elect (h : Refines d c a) (hc : Grounded d c) (hup : (c.nodes n).down = false)
    (henv : env.writes = []) {main : MainThread} (ho : (c.nodes n).step input env = some o)
    (hraft : o.raft = { ((c.nodes n).electSelf env).1 with main := main })
    (hevents : o.events = ((c.nodes n).electSelf env).2.2.2)
    (hsends : o.sends = ((c.nodes n).electSelf env).2.2.1) (hsilent : o.Silent) :
    ∃ a', Moves d.setting P n a a' ∧ Refines d (c.record n input o) a' := by
  obtain ⟨r', asked, events, he, hall, hr'⟩ := Raft.electSelf_nil hup henv
  have hdata : (c.nodes n).SameData o.raft := by
    rw [hraft]
    exact (Raft.sameData_electSelf hup env).setMain _
  rw [he] at hraft hevents hsends
  dsimp only at hraft hevents hsends
  have hterm := h.term_eq hc hup
  have hmono : (c.nodes n).stable.currentTerm ≤ o.raft.stable.currentTerm :=
    ((hc.recorded n).persisted ho).mono
  have hstanding := h.standing_step hc ho
  have hne := hc.named n hup
  have haddr := hc.localAddr n
  have hself : (a.bump n ((c.nodes n).currentTerm + 1)).term n = (c.nodes n).currentTerm + 1 :=
    Function.update_self ..
  have hstable : o.raft.stable.currentTerm = (c.nodes n).currentTerm + 1 := by
    rw [hraft]
    rcases hr' with ⟨_, rfl⟩ | ⟨_, rfl⟩
    · rfl
    · rfl
  have hleaderships : o.raft.leaderships = (c.nodes n).leaderships := by
    rw [hraft]
    rcases hr' with ⟨_, rfl⟩ | ⟨_, rfl⟩
    · rfl
    · rfl
  have hask : Moves d.setting P n a ((a.bump n ((c.nodes n).currentTerm + 1)).ask n) := by
    refine ((Moves.refl _ _ n a).bump (by omega)).ask ?_
    rw [hself]
    -- no request of a term to come
    cases hreq : a.reqs n ((c.nodes n).currentTerm + 1) with
    | none => exact hreq
    | some R =>
      have := h.safe.terms.req _ _ _ hreq
      omega
  have hreq : ((a.bump n ((c.nodes n).currentTerm + 1)).ask n).reqs n
      ((c.nodes n).currentTerm + 1) = some (c.nodes n).logs := by
    rw [← (h.stores n).log]
    unfold Replicated.State.ask
    simp only [hself, Function.update_self]
    rfl
  have hkind : ∀ e ∈ o.events, Raft.kind e = .vote := by
    intro e hmem
    rw [hevents] at hmem
    rw [hall e hmem]
    rfl
  have hother : ∀ e ∈ o.events, Raft.kind e ≠ .win ∧ Raft.kind e ≠ .dispatch :=
    fun e hmem => by simp [hkind e hmem]
  have hmail : ∀ a' : Protocol, Grows a a' →
      a'.reqs n ((c.nodes n).currentTerm + 1) = some (c.nodes n).logs →
      Mail d (c.record n input o) a' := by
    intro a' hg hreq'
    refine h.mail.declined hg ?_ ?_ hsilent.declines
    · intro p hp req hcmd
      rw [hsends] at hp
      obtain ⟨server, _, rfl⟩ := List.mem_map.mp hp
      cases hcmd
      exact h.requested_voteRequest hc hup hne hreq'
    · intro p hp req hcmd
      rw [hsends] at hp
      obtain ⟨server, _, rfl⟩ := List.mem_map.mp hp
      simp at hcmd
  rcases hr' with ⟨hnil, rfl⟩ | ⟨hsome, rfl⟩
  · have hg := h.safe.grows hask.steps
    exact ⟨_, hask, h.control hup hask hdata hleaderships hmono (hself.trans hstable.symm) rfl
      h.regular hstanding (h.ballots.quiet rfl (by simp [hevents, hnil])) (hmail _ hg hreq)
      (h.chronicle.quiet hg rfl rfl hother)⟩
  · have hm : Moves d.setting P n a
        (((a.bump n ((c.nodes n).currentTerm + 1)).ask n).grant n n (c.nodes n).logs) := by
      refine hask.grant ?_ ?_ ?_
      · rw [← hreq]
        exact congrArg _ hself
      · intro x hx hvoter hxterm
        have hle := h.safe.terms.vote x hx
        rw [hvoter, hterm] at hle
        have hxterm' : x.term = (c.nodes n).currentTerm + 1 := hxterm.trans hself
        omega
      · rw [← (h.stores n).log]
        exact UpToDate.refl _
    have hg := h.safe.grows hm.steps
    obtain ⟨e, hmem⟩ := List.exists_mem_of_ne_nil _ hsome
    have hgranted : .voteGranted ((c.nodes n).currentTerm + 1) (d.conf n).localAddr ∈ o.events := by
      rw [hevents, ← haddr, ← hall e hmem]
      exact hmem
    refine ⟨_, hm, h.control hup hm hdata hleaderships hmono (hself.trans hstable.symm) rfl
      h.regular hstanding (h.ballots.record hg.votes ?_ ?_) (hmail _ hg hreq)
      (h.chronicle.quiet hg rfl rfl hother)⟩
    · intro T b hmem'
      rw [hevents] at hmem'
      have heq := hall _ hmem'
      simp only [Event.voteGranted.injEq] at heq
      obtain ⟨rfl, rfl⟩ := heq
      exact ⟨_, Set.mem_insert _ _, rfl, hself, haddr.symm⟩
    · intro x hx
      rcases hx with rfl | hx
      · refine .inr ⟨rfl, hne, ?_⟩
        have hxterm : ((a.bump n ((c.nodes n).currentTerm + 1)).ask n).term n =
            (c.nodes n).currentTerm + 1 := hself
        simp only [hxterm]
        exact hgranted
      · exact .inl hx

/-- An election is won. -/
theorem win (h : Refines d c a) (hc : Grounded d c) (hup : (c.nodes n).down = false)
    {locals : Candidacy} {ch : VoteChannel} {votes : List ServerID}
    (hmain : (c.nodes n).main = .candidate locals true) (hch : locals.voteCh = some ch)
    (hpending : ch.pending ≠ []) (helectable : Electable P a n)
    (hraft : o.raft = (((c.nodes n).setState .leader).setLeader (c.nodes n).localAddr
      (c.nodes n).localID).leaveCandidate)
    (hevents : o.events = [.becameLeader (c.nodes n).currentTerm ch.req votes
      (c.nodes n).configurations.latest (c.nodes n).logs])
    (hsends : o.sends = []) (hsilent : o.Silent) :
    ∃ a', Moves d.setting P n a a' ∧ Refines d (c.record n input o) a' := by
  have hterm := h.term_eq hc hup
  have hrequested : ch.req.term = (c.nodes n).currentTerm :=
    ((hc.recorded n).pending locals true hmain (.inl rfl)).1 ch hch
  obtain ⟨_, hlater⟩ := h.standing n locals true ch hmain hch
  obtain ⟨Q, hgiven, hunwon, hP⟩ := helectable
  have hmem : .becameLeader (c.nodes n).currentTerm ch.req votes
      (c.nodes n).configurations.latest (c.nodes n).logs ∈ o.events := by
    rw [hevents]
    exact List.mem_singleton.mpr rfl
  have hm : Moves d.setting P n a (a.win n Q) := by
    refine (Moves.refl _ _ n a).win ?_ hgiven hunwon hP
    rw [hterm, ← hrequested]
    exact hlater hpending
  have hg := h.safe.grows hm.steps
  refine ⟨_, hm, h.control hup hm ?_ ?_ ?_ ?_ rfl ?_ ?_ (h.ballots.quiet rfl ?_)
    (h.mail.declined hg (by simp [hsends]) (by simp [hsends]) hsilent.declines)
    (h.chronicle.record hg ?_ ?_ (by simp [hevents]) ?_)⟩
  · rw [hraft]
    refine ((Raft.sameData_setState (c.nodes n) .leader).trans ?_).leaveCandidate
    exact ⟨rfl, rfl, rfl, rfl, rfl, rfl, rfl, rfl, rfl⟩
  · rw [hraft]
    rfl
  · rw [hraft]
    exact Nat.le_refl _
  · rw [hraft]
    exact (h.stores n).term
  · intro t
    by_cases ht : t = a.term n
    · subst ht
      unfold Replicated.State.win
      simp only [Function.update_self]
      exact regular_of_valid h.regular (h.safe.logs.log n)
    · unfold Replicated.State.win
      simp only [Function.update_of_ne ht]
      exact h.regular t
  · intro locals' tested ch' hmain'
    rw [hraft] at hmain'
    simp [Raft.leaveCandidate] at hmain'
  · intro e he
    rw [hevents] at he
    rw [List.mem_singleton.mp he]
    simp [Raft.kind]
  · intro T req votes' latest logs hwon
    rw [hevents] at hwon
    simp only [List.mem_singleton, Event.becameLeader.injEq] at hwon
    obtain ⟨rfl, _, _, _, rfl⟩ := hwon
    exact ⟨_, List.mem_cons_self, rfl, hterm, (h.stores n).log⟩
  · intro w hw
    rcases List.mem_cons.mp hw with rfl | hw
    · refine .inr ⟨rfl, ch.req, votes, (c.nodes n).configurations.latest, ?_⟩
      simp only [hterm, (h.stores n).log]
      exact hmem
    · exact .inl hw
  · intro w hw i e hi he
    refine .inl ?_
    unfold Replicated.State.win at he
    simp only at he
    rcases List.mem_cons.mp hw with rfl | hw
    · rw [Function.update_self] at he
      exact absurd (List.getElem?_eq_some_iff.mp he).1 (Nat.not_lt.mpr hi)
    · rw [Function.update_of_ne (hunwon w hw)] at he
      exact ⟨hw, he⟩

end Refines

end PerfRaft
