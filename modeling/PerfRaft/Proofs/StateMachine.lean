import Mathlib.Data.List.TakeWhile
import PerfRaft.Proofs.Applied
import PerfRaft.Proofs.Safety

namespace PerfRaft

open Lib Replicated

namespace Raft

variable {r : Raft} {futures : List LogFuture} {e : Log}

/-- What the loop of `processLogs` sends to the FSM it has taken at an index. -/
theorem readAt_of_processLoop {idxs : List Nat} {batch : List CommitTuple} {t : CommitTuple}
    (h : t ∈ (r.processLoop futures idxs batch).batches.flatten) :
    t ∈ batch ∨ ∃ idx ∈ idxs, r.readAt futures idx = some t.log := by
  induction idxs generalizing batch with
  | nil =>
    unfold processLoop at h
    dsimp only at h
    split at h
    · simp at h
    · exact .inl (by simpa using h)
  | cons idx rest ih =>
    have hlater : ∀ {batch' : List CommitTuple},
        t ∈ (r.processLoop futures rest batch').batches.flatten →
        t ∈ batch' ∨ ∃ i ∈ idx :: rest, r.readAt futures i = some t.log := by
      intro batch' ht
      rcases ih ht with hbatch | ⟨i, hi, hread⟩
      · exact .inl hbatch
      · exact .inr ⟨i, List.mem_cons_of_mem _ hi, hread⟩
    unfold processLoop at h
    dsimp only at h
    split at h
    · simp at h
    · rename_i l hl
      have hnew : ∀ t' ∈ r.prepareLog l ((futures.find? (fun f => f.log.index == idx)).map LogFuture.id),
          t'.log = l := by
        intro t' ht'
        rw [prepareLog_eq] at ht'
        split at ht'
        · cases ht'
          rfl
        · simp at ht'
      split at h
      · exact hlater h
      · rename_i t' ht'
        have hread : t = t' → ∃ i ∈ idx :: rest, r.readAt futures i = some t.log := by
          rintro rfl
          rw [hnew t ht']
          exact ⟨idx, List.mem_cons_self, hl⟩
        split at h
        · rw [List.flatten_cons, List.mem_append, List.mem_append, List.mem_singleton] at h
          rcases h with (hbatch | hlast) | hrest
          · exact .inl hbatch
          · exact .inr (hread hlast)
          · rcases hlater hrest with hnone | hfound
            · simp at hnone
            · exact .inr hfound
        · rcases hlater h with hbatch | hfound
          · rcases List.mem_append.mp hbatch with hbatch | hlast
            · exact .inl hbatch
            · exact .inr (hread (List.mem_singleton.mp hlast))
          · exact .inr hfound

theorem applied_processLogs {index : Nat} (h : .applied e ∈ (r.processLogs index futures).2.events) :
    ∃ i, 1 ≤ i ∧ i ≤ index ∧ r.readAt futures i = some e := by
  have hevents : ∀ p : Processed, .applied e ∈ p.events → ∃ t ∈ p.batches.flatten, t.log = e := by
    intro p hp
    obtain ⟨t, ht, heq⟩ := List.mem_map.mp hp
    cases heq
    exact ⟨t, ht, rfl⟩
  unfold processLogs at h
  split at h
  · simp [Processed.events] at h
  · have hloop : .applied e ∈ (r.processLoop futures
        (List.range' (r.lastApplied + 1) (index - r.lastApplied)) []).events := by
      dsimp only at h
      split at h <;> exact h
    obtain ⟨t, ht, rfl⟩ := hevents _ hloop
    rcases readAt_of_processLoop ht with hnone | ⟨i, hi, hread⟩
    · simp at hnone
    · rw [List.mem_range'_1] at hi
      exact ⟨i, by omega, by omega, hread⟩

/-- A follower applies entries of its log up to the commit index it takes over. -/
theorem applied_followCommit {k : Nat} (h : .applied e ∈ (r.followCommit k).2) :
    r.commitIndex < k ∧ ∃ i, 1 ≤ i ∧ i ≤ min k r.getLastIndex ∧ r.logs.getLog i = some e := by
  unfold followCommit at h
  split at h
  · rename_i hraise
    refine ⟨hraise.2, ?_⟩
    dsimp only at h
    split at h
    · exact applied_processLogs h
    · exact applied_processLogs h
  · simp at h

theorem commitIndex_followCommit (r : Raft) (k : Nat) :
    (r.followCommit k).1.commitIndex =
      if r.commitIndex < k then min k r.getLastIndex else r.commitIndex := by
  unfold followCommit
  split
  · rename_i hraise
    rw [if_pos hraise.2]
    dsimp only
    rw [processLogs_eq]
    split <;> rfl
  · rename_i hkeep
    rw [if_neg (fun hlt => hkeep ⟨Nat.zero_lt_of_lt hlt, hlt⟩)]

theorem logs_setLeaderCommit (r : Raft) (k : Nat) : (r.setLeaderCommit k).1.logs = r.logs := by
  unfold setLeaderCommit
  dsimp only
  split <;> rfl

/-- A leader applies entries up to the commit index of its commitment, from its queue
of futures or from its log. -/
theorem applied_leaderCommit {ls : LeaderState} {stepDown : Bool}
    (h : .applied e ∈ (r.leaderCommit ls stepDown).2) :
    ∃ i, 1 ≤ i ∧ i ≤ ls.commitment.commitIndex ∧
      ((∃ f ∈ ls.inflight, f.log = e ∧ e.index = i) ∨ r.logs.getLog i = some e) := by
  unfold leaderCommit at h
  dsimp only at h
  rw [List.mem_cons] at h
  rcases h with h | h
  · simp at h
  unfold processGroup at h
  split at h
  · simp [Processed.events] at h
  · rename_i last hlast
    obtain ⟨i, hpos, hle, hread⟩ := applied_processLogs h
    have hgroup : ∀ f ∈ groupReady ls ls.commitment.commitIndex,
        f ∈ ls.inflight ∧ f.log.index ≤ ls.commitment.commitIndex := by
      intro f hf
      exact ⟨(List.takeWhile_prefix _).subset hf, by simpa using List.mem_takeWhile_imp hf⟩
    refine ⟨i, hpos, hle.trans (hgroup last (List.mem_of_getLast? hlast)).2, ?_⟩
    have hindex := readAt_index hread
    unfold readAt at hread
    cases hf : futureAt (groupReady ls ls.commitment.commitIndex) i with
    | none =>
      rw [hf] at hread
      rw [← logs_setLeaderCommit r ls.commitment.commitIndex]
      exact .inr hread
    | some f =>
      rw [hf] at hread
      exact .inl ⟨f, (hgroup f (List.mem_of_find?_eq_some hf)).1, Option.some.inj hread, hindex⟩

theorem commitIndex_leaderCommit (r : Raft) (ls : LeaderState) (stepDown : Bool) :
    (r.leaderCommit ls stepDown).1.commitIndex = ls.commitment.commitIndex := by
  rw [leaderCommit_frame]

end Raft

variable {req : AppendEntriesRequest}

theorem AppendEntriesRequest.Describes.last_eq {L : LogStore} {last : Nat}
    (h : req.Describes L last) : last = req.prevLogEntry + req.entries.length := by
  have hprev := h.prev_le
  rw [h.entries, List.length_drop, List.length_take, Nat.min_eq_left h.last_le]
  omega

/-- A request says what the log is that it was cut from, up to its last entry. -/
theorem AppendEntriesRequest.Describes.agree {L L' : LogStore}
    {last last' : Nat} (h : req.Describes L last) (h' : req.Describes L' last')
    (hmatch : Matching L L') : last = last' ∧ L.take last = L'.take last := by
  have hentries := h.entries.symm.trans h'.entries
  obtain rfl : last = last' := h.last_eq.trans h'.last_eq.symm
  refine ⟨rfl, ?_⟩
  by_cases hzero : last = 0
  · simp [hzero]
  have hle := h.last_le
  have hle' := h'.last_le
  have hget := List.getElem?_eq_getElem (show last - 1 < L.length by omega)
  have hget' := List.getElem?_eq_getElem (show last - 1 < L'.length by omega)
  have hstamp : stamp L[last - 1] = stamp L'[last - 1] := by
    by_cases hprev : req.prevLogEntry = last
    · have hterm := h.prevTerm (by omega)
      have hterm' := h'.prevTerm (by omega)
      rw [hprev, hget] at hterm
      rw [hprev, hget'] at hterm'
      exact Option.some.inj (hterm.trans hterm'.symm)
    · have hpos := h.prev_le
      have hat : ∀ {M : LogStore}, ((M.take last).drop req.prevLogEntry)[last - 1 - req.prevLogEntry]? =
          M[last - 1]? := by
        intro M
        rw [List.getElem?_drop, List.getElem?_take_of_lt (by omega)]
        congr 1
        omega
      have heq := congrArg (fun l : List Log => l[last - 1 - req.prevLogEntry]?) hentries
      simp only [hat, hget, hget', Option.some.injEq] at heq
      rw [heq]
  have htake := hmatch (last - 1) _ _ hget hget' hstamp
  have hsucc : last - 1 + 1 = last := by omega
  rwa [hsucc] at htake

variable {d : Deployment} {c : Cluster} {a a' : Protocol} {n : ServerID} {input : Input} {env : Env}
  {o : Outcome}

/-- An entry is committed, as far as somebody knows. -/
def Settles (d : Deployment) (a : Protocol) (e : Log) : Prop :=
  ∃ t l k, Settled d.configuration.voterIDs a t l k ∧ 1 ≤ e.index ∧ e.index ≤ k ∧ l[e.index - 1]? = some e

/-- A request of a leader is cut from a log of which the leader knows that it is
committed as far as the request says. -/
def Pledged (d : Deployment) (a : Protocol) (req : AppendEntriesRequest) : Prop :=
  ∃ L last, Valid a.leaderLog L ∧ req.Describes L last ∧
    Settled d.configuration.voterIDs a req.term L req.leaderCommitIndex

/-- A future in the queue of a leader of the term `t` is about an entry of its log. -/
def OfLeader (a : Protocol) (t : Nat) (f : LogFuture) : Prop :=
  1 ≤ f.log.index ∧ (a.leaderLog t)[f.log.index - 1]? = some f.log

theorem Grounded.durable (hc : Grounded d c) (hup : (c.nodes n).down = false) :
    (c.nodes n).currentTerm = (c.nodes n).stable.currentTerm :=
  (hc.recorded n).term hup

/-- What the servers take for committed is committed. -/
structure Decided (d : Deployment) (c : Cluster) (a : Protocol) : Prop where
  nodes : ∀ id, (c.nodes id).down = false →
    Settled d.configuration.voterIDs a (c.nodes id).stable.currentTerm (c.nodes id).logs (c.nodes id).commitIndex
  inflight : ∀ id, ∀ ls ∈ (c.nodes id).leaderships, ∀ f ∈ ls.inflight, OfLeader a ls.term f
  requests : ∀ e ∈ c.network, e.leading = true → ∀ req, e.command = .appendEntries req →
    Pledged d a req
  applied : ∀ id e, (id, .applied e) ∈ c.history → Settles d a e

theorem Settles.grows {e : Log} (h : Settles d a e) (hg : Grows a a') : Settles d a' e := by
  obtain ⟨t, l, k, hl, hrest⟩ := h
  exact ⟨t, l, k, hl.grows hg, hrest⟩

theorem Pledged.grows (h : Pledged d a req) (hg : Grows a a') :
    Pledged d a' req := by
  obtain ⟨L, last, hvalid, hdescribes, hsettled⟩ := h
  exact ⟨L, last, hvalid.mono hg.leaderLog, hdescribes, hsettled.grows hg⟩

/-- Two entries at one index that are committed are the same. -/
theorem Settles.unique (h : Fixed d.setting d.configuration.voterIDs a) {e e' : Log} (he : Settles d a e) (he' : Settles d a e')
    (hindex : e.index = e'.index) : e = e' := by
  obtain ⟨t, l, k, hl, hpos, hle, hget⟩ := he
  obtain ⟨t', l', k', hl', _, hle', hget'⟩ := he'
  have htake := h.settled_agree hl hl' hle (hindex ▸ hle')
  rw [← hindex] at hget'
  rw [← List.getElem?_take_of_lt (show e.index - 1 < e.index by omega), htake,
    List.getElem?_take_of_lt (by omega), hget'] at hget
  exact (Option.some.inj hget).symm

namespace Decided

theorem record (h : Decided d c a) (hg : Grows a a')
    (hnode : o.raft.down = false →
      Settled d.configuration.voterIDs a' o.raft.stable.currentTerm o.raft.logs o.raft.commitIndex)
    (hinflight : ∀ ls ∈ o.raft.leaderships, ∀ f ∈ ls.inflight, OfLeader a' ls.term f)
    (hsends : ∀ p ∈ o.sends, Cluster.leads (c.nodes n) p.2 = true → ∀ req,
      p.2 = .appendEntries req → Pledged d a' req)
    (happlied : ∀ e, .applied e ∈ o.events → Settles d a' e) :
    Decided d (c.record n input o) a' := by
  constructor
  case nodes =>
    intro id
    by_cases hid : id = n
    · subst hid
      rw [Cluster.record_nodes_self]
      exact hnode
    · rw [Cluster.record_nodes_ne _ _ _ hid]
      exact fun hup => (h.nodes id hup).grows hg
  case inflight =>
    intro id
    by_cases hid : id = n
    · subst hid
      rw [Cluster.record_nodes_self]
      exact hinflight
    · rw [Cluster.record_nodes_ne _ _ _ hid]
      intro ls hls f hf
      obtain ⟨hpos, hget⟩ := h.inflight id ls hls f hf
      exact ⟨hpos, hg.getElem? hget⟩
  case requests =>
    intro e he hleading req hcmd
    rcases Cluster.mem_record_network he with ⟨peer, hmem, _, hleads⟩ | hold
    · exact hsends _ hmem (hleads.symm.trans hleading) req hcmd
    · exact (h.requests e hold hleading req hcmd).grows hg
  case applied =>
    intro id e he
    rcases Cluster.mem_record_history.mp he with ⟨_, hnew⟩ | hold
    · exact happlied e hnew
    · exact (h.applied id e hold).grows hg

theorem keeps (h : Decided d c a) (hg : Grows a a') (hup : (c.nodes n).down = false)
    (hmono : (c.nodes n).stable.currentTerm ≤ o.raft.stable.currentTerm)
    (hlogs : (c.nodes n).logs <+: o.raft.logs) (hcommit : o.raft.commitIndex = (c.nodes n).commitIndex) :
    Settled d.configuration.voterIDs a' o.raft.stable.currentTerm o.raft.logs o.raft.commitIndex := by
  rw [hcommit]
  exact ((h.nodes n hup).grows hg).mono hmono ((List.take_prefix _ _).trans hlogs) (Nat.le_refl _)

theorem queued (h : Decided d c a) (hg : Grows a a') (n : ServerID) :
    ∀ ls ∈ (c.nodes n).leaderships, ∀ f ∈ ls.inflight, OfLeader a' ls.term f := by
  intro ls hls f hf
  obtain ⟨hpos, hget⟩ := h.inflight n ls hls f hf
  exact ⟨hpos, hg.getElem? hget⟩

/-- A step that changes neither the log nor the leaderships of a server. -/
theorem quiet (h : Decided d c a) (hg : Grows a a') (hup : (c.nodes n).down = false)
    (hmono : (c.nodes n).stable.currentTerm ≤ o.raft.stable.currentTerm)
    (hdata : (c.nodes n).SameData o.raft)
    (hleaderships : o.raft.leaderships = (c.nodes n).leaderships)
    (hsends : ∀ p ∈ o.sends, ∀ req, p.2 ≠ .appendEntries req)
    (hevents : ∀ e ∈ o.events, Raft.kind e ≠ .apply) : Decided d (c.record n input o) a' := by
  refine h.record hg (fun _ => ?_) ?_ ?_ ?_
  · exact h.keeps hg hup hmono (by rw [hdata.logs]) hdata.commitIndex
  · rw [hleaderships]
    exact h.queued hg n
  · exact fun p hp _ req hreq => absurd hreq (hsends p hp req)
  · exact fun e he => absurd rfl (hevents _ he)

end Decided

/-- A change of the leadership set up last that puts nothing into its queue of futures
but what has the property. -/
theorem inflight_modifyHead {P : Nat → LogFuture → Prop} {l : List LeaderState}
    {f : LeaderState → LeaderState} (h : ∀ ls ∈ l, ∀ x ∈ ls.inflight, P ls.term x)
    (hterm : ∀ ls, (f ls).term = ls.term)
    (hf : ∀ ls rest, l = ls :: rest → ∀ x ∈ (f ls).inflight, x ∈ ls.inflight ∨ P ls.term x) :
    ∀ ls ∈ l.modifyHead f, ∀ x ∈ ls.inflight, P ls.term x := by
  cases l with
  | nil => simp
  | cons head rest =>
    intro ls hls x hx
    rw [List.modifyHead_cons] at hls
    rcases List.mem_cons.mp hls with rfl | hls
    · rw [hterm]
      rcases hf head rest rfl x hx with hold | hnew
      · exact h head List.mem_cons_self x hold
      · exact hnew
    · exact h ls (List.mem_cons_of_mem _ hls) x hx

/-- A commit index may be taken over from a request that the leader of its term has
made, as far as the request has entries or the receiver has no others. -/
def Cluster.Vouched (c : Cluster) (a : Action) : Prop :=
  ∀ req, a.input = .rpc (.appendEntries req) →
    (c.nodes a.node).commitIndex < req.leaderCommitIndex →
    (∃ e ∈ c.network, e.command = .appendEntries req ∧ e.leading = true) ∧
      (req.leaderCommitIndex ≤ req.prevLogEntry + req.entries.length ∨
        (c.nodes a.node).getLastIndex ≤ req.prevLogEntry + req.entries.length)

namespace Decided

theorem restart (h : Decided d c a) (hg : Grows a a')
    (hraft : Raft.newRaft (c.nodes n).conf (c.nodes n).stable (c.nodes n).logs
      (c.nodes n).snapshots env = some o.raft)
    (hevents : o.events = []) (hsends : o.sends = []) : Decided d (c.record n input o) a' := by
  have hstarted := Raft.started_newRaft hraft
  refine h.record hg (fun _ => .inl hstarted.commitIndex) ?_ (by simp [hsends]) (by simp [hevents])
  rw [hstarted.leaderships]
  simp

/-- What a server knows to be committed after it has accepted a request. -/
theorem settled_accept (h : Decided d c a) (hr : Refines d c a) (hgoverned : Governed d c a)
    (hup : (c.nodes n).down = false)
    (hterm : (c.nodes n).currentTerm = (c.nodes n).stable.currentTerm)
    {m : Msg Log} {r₁ : Raft}
    (hm : m ∈ a.msgs) (hmterm : m.term = req.term) (hdescribes : req.Describes m.log m.last)
    (hle : (c.nodes n).currentTerm ≤ req.term)
    (haccepts : (c.nodes n).Accepts req env m.log m.last r₁)
    (hv : c.Vouched ⟨n, .rpc (.appendEntries req), env⟩) :
    Settled d.configuration.voterIDs a req.term r₁.logs (r₁.followCommit req.leaderCommitIndex).1.commitIndex := by
  have hlogs : r₁.logs = accepted (c.nodes n).logs m := by
    rw [haccepts.logs, ← hmterm]
  have hcommit : r₁.commitIndex = (c.nodes n).commitIndex := by
    rw [haccepts.same]
    exact (Raft.sameData_followLeader (c.nodes n) req env).commitIndex
  rw [Raft.commitIndex_followCommit, hcommit]
  split
  · rename_i hraise
    obtain ⟨⟨e, he, hcmd, hleading⟩, hcovered⟩ := hv req rfl hraise
    obtain ⟨L, last, hvalid, hdescribes', hsettled⟩ := h.requests e he hleading req hcmd
    obtain ⟨rfl, htake⟩ := hdescribes'.agree hdescribes (hvalid.matching (hr.safe.logs.msgs m hm))
    rw [(haccepts.stays_cached (hr.cached hup)).getLastIndex, hlogs]
    have hidx : min req.leaderCommitIndex (accepted (c.nodes n).logs m).length ≤ m.last := by
      rcases hcovered with hcovered | hcovered
      · rw [← hdescribes.last_eq] at hcovered
        omega
      · rw [← hdescribes.last_eq, (hr.cached hup).getLastIndex] at hcovered
        have hlen : (accepted (c.nodes n).logs m).length ≤ m.last := by
          unfold accepted
          split
          · exact hcovered
          · rw [List.length_take]
            omega
        omega
    refine hsettled.mono (Nat.le_refl _) ?_ (Nat.min_le_left _ _)
    refine (List.take_prefix_take_left hidx).trans ?_
    rw [htake]
    exact prefix_accepted _ m
  · rw [hlogs]
    refine Settled.mono (hgoverned.fixed.settled_accepted (h.nodes n hup) hm ?_) ?_ (List.take_prefix _ _)
      (Nat.le_refl _)
    · rw [← hterm, hmterm]
      exact hle
    · rw [← hterm]
      exact hle

theorem appendEntries (h : Decided d c a) (hr : Refines d c a) (hc : Grounded d c)
    (hgoverned : Governed d c a) (hg : Grows a a') (hup : (c.nodes n).down = false) (henv : env.Faultless)
    (hdeliver : c.deliverable (c.nodes n) (.rpc (.appendEntries req)) = true)
    (hv : c.Vouched ⟨n, .rpc (.appendEntries req), env⟩)
    (hmono : (c.nodes n).stable.currentTerm ≤ o.raft.stable.currentTerm)
    (hraft : o.raft = { ((c.nodes n).appendEntries req env).1 with main := (c.nodes n).main.again })
    (hevents : o.events = ((c.nodes n).appendEntries req env).2.2) (hsends : o.sends = []) :
    Decided d (c.record n (.rpc (.appendEntries req)) o) a' := by
  have hleaderships : o.raft.leaderships = (c.nodes n).leaderships := by
    rw [hraft]
    exact (Raft.rpcEffect_appendEntries (c.nodes n) req env).1.leaderships
  obtain ⟨m, hm, hmterm, hdescribes, ⟨hdata, _, hnone⟩ | ⟨hle, r₁, haccepts⟩⟩ :=
    hr.appendEntries_cases hup henv hdeliver
  · refine h.quiet hg hup hmono ?_ hleaderships (by simp [hsends]) (by simp [hevents, hnone])
    rw [hraft]
    exact hdata.setMain _
  · have hterm := hc.durable hup
    have hsettled := h.settled_accept hr hgoverned hup hterm hm hmterm hdescribes hle haccepts hv
    have hcontrol := Raft.sameControl_appendEntries (c.nodes n) req env hle
    obtain ⟨_, _, hstable, _⟩ := Raft.followLeader_nil hup henv.1 hle
    refine h.record hg (fun _ => ?_) ?_ (by simp [hsends]) ?_
    · have hlogs : o.raft.logs = r₁.logs := by
        rw [hraft, haccepts.appended, Raft.followCommit_eq]
      have hcommit : o.raft.commitIndex = (r₁.followCommit req.leaderCommitIndex).1.commitIndex := by
        rw [hraft, haccepts.appended]
      have hcur : o.raft.stable.currentTerm = req.term := by
        rw [hraft]
        dsimp only
        rw [hcontrol.stable, hstable hterm]
      rw [hlogs, hcommit, hcur]
      exact hsettled.grows hg
    · rw [hleaderships]
      exact h.queued hg n
    · intro e he
      rw [hevents, haccepts.appended] at he
      obtain ⟨hraise, i, hpos, hi, hget⟩ := Raft.applied_followCommit he
      rw [Raft.commitIndex_followCommit, if_pos hraise] at hsettled
      have hindex := LogStore.index_of_getLog hget
      have hdense : r₁.logs.Dense := by
        rw [haccepts.logs, ← (hr.stores n).log, ← hmterm]
        exact (regular_of_valid hr.regular
          ((hr.safe.logs.log n).accepted (hr.safe.logs.msgs m hm))).dense
      rw [hdense.getLog hpos] at hget
      exact ⟨_, _, _, hsettled.grows hg, by omega, by omega, by rw [hindex]; exact hget⟩

/-- What `dispatchLogs` puts into the queue of the leader is in its log. -/
theorem queued_dispatchLogs (h : Decided d c a) (hr : Refines d c a) (hc : Grounded d c)
    (hr' : Refines d (c.record n input o) a') (hg : Grows a a') (hup : (c.nodes n).down = false)
    (henv : env.Faultless) {futures : List LogFuture} (hleads : (c.nodes n).main.leads = true)
    (hheads : (c.nodes n).heads = true) (hstable : o.raft.stable = (c.nodes n).stable)
    (hlogs : o.raft.logs = (c.nodes n).logs ++ (c.nodes n).newLogs futures env) :
    ∀ ls ∈ ((c.nodes n).dispatchLogs futures env).1.leaderships, ∀ f ∈ ls.inflight,
      OfLeader a' ls.term f := by
  rw [Raft.dispatchLogs_eq (hr.cached hup) (hr.regular_logs n).dense futures henv.2.1]
  refine inflight_modifyHead (h.queued hg n) (fun _ => rfl) ?_
  intro ls rest hls f hf
  have hterm : ls.term = (c.nodes n).currentTerm := term_of_headTerm ((hc.headship n).head hheads) hls
  rcases List.mem_append.mp hf with hold | hnew
  · exact .inl hold
  · obtain ⟨i, hi⟩ := List.getElem?_of_mem hnew
    have hindex := (Raft.stampLogs_getElem? _ _ futures hi).1
    have hget : ((c.nodes n).newLogs futures env)[i]? = some f.log := by
      simp only [Raft.newLogs, List.getElem?_map, hi, Option.map_some]
    obtain ⟨w, hw, hleader, hwterm⟩ := hr.won hc hup hleads
    have hstores := hr'.stores n
    rw [Cluster.record_nodes_self] at hstores
    have hwhole := hr'.safe.logs.leading w (hg.wins.subset hw)
      (by rw [hleader, hstores.term, hstable, ← (hr.stores n).term, hwterm])
    rw [hleader, hstores.log, hlogs, hwterm, hr.term_eq hc hup, ← hterm] at hwhole
    refine .inr ⟨by omega, ?_⟩
    rw [← hwhole, List.getElem?_append_right (by omega), ← hget]
    congr 1
    omega

theorem dispatch (h : Decided d c a) (hr : Refines d c a) (hc : Grounded d c)
    (hr' : Refines d (c.record n input o) a') (hg : Grows a a') (hup : (c.nodes n).down = false)
    (henv : env.Faultless) {futures : List LogFuture} {stepDown : Bool}
    (hmain : (c.nodes n).main = .noop ∨ (c.nodes n).main = .leader stepDown true)
    (hraft : o.raft = { ((c.nodes n).dispatchLogs futures env).1 with main := .leader stepDown false })
    (hevents : o.events = ((c.nodes n).dispatchLogs futures env).2) (hsends : o.sends = []) :
    Decided d (c.record n input o) a' := by
  have hheads : (c.nodes n).heads = true := by
    rcases hmain with hmain | hmain <;> simp [Raft.heads, hmain]
  have hleads : (c.nodes n).main.leads = true := by
    rcases hmain with hmain | hmain <;> simp [MainThread.leads, hmain]
  have hdispatch := Raft.dispatchLogs_eq (hr.cached hup) (hr.regular_logs n).dense futures henv.2.1
  have hstable : o.raft.stable = (c.nodes n).stable := by rw [hraft, hdispatch]
  have hlogs : o.raft.logs = (c.nodes n).logs ++ (c.nodes n).newLogs futures env := by
    rw [hraft, hdispatch]
  refine h.record hg (fun _ => ?_) ?_ (by simp [hsends]) (by simp [hevents, hdispatch])
  · refine h.keeps hg hup (by rw [hstable]) (by rw [hlogs]; exact List.prefix_append _ _) ?_
    rw [hraft, hdispatch]
  · have hqueued := h.queued_dispatchLogs hr hc hr' hg hup henv hleads hheads hstable hlogs
    rw [hraft]
    exact hqueued

theorem configure (h : Decided d c a) (hr : Refines d c a) (hc : Grounded d c)
    (hr' : Refines d (c.record n input o) a') (hg : Grows a a') (hup : (c.nodes n).down = false)
    (henv : env.Faultless) {req : ConfigurationChangeRequest} {future : Nat}
    {configuration : Configuration} {stepDown : Bool} (hmain : (c.nodes n).main = .leader stepDown true)
    (hnext : nextConfiguration (c.nodes n).configurations.latest
      (c.nodes n).configurations.latestIndex req = .ok configuration)
    (hraft : o.raft =
      { ((c.nodes n).appendConfigurationEntry req future env).1 with main := .leader stepDown false })
    (hevents : o.events = ((c.nodes n).appendConfigurationEntry req future env).2)
    (hsends : o.sends = []) : Decided d (c.record n input o) a' := by
  simp only [Raft.appendConfigurationEntry, hnext] at hraft hevents
  generalize [(⟨future, (c.nodes n).configurationEntry configuration⟩ : LogFuture)] = futures
    at hraft hevents
  have hdispatch := Raft.dispatchLogs_eq (hr.cached hup) (hr.regular_logs n).dense futures henv.2.1
  have hstable : o.raft.stable = (c.nodes n).stable := by
    rw [hraft, hdispatch]
    rfl
  have hlogs : o.raft.logs = (c.nodes n).logs ++ (c.nodes n).newLogs futures env := by
    rw [hraft, hdispatch]
    rfl
  refine h.record hg (fun _ => ?_) ?_ (by simp [hsends]) (by simp [hevents, hdispatch])
  · refine h.keeps hg hup (by rw [hstable]) (by rw [hlogs]; exact List.prefix_append _ _) ?_
    rw [hraft, hdispatch]
    rfl
  · have hqueued := h.queued_dispatchLogs hr hc hr' hg hup henv
      (by simp [MainThread.leads, hmain]) (by simp [Raft.heads, hmain]) hstable hlogs
    rw [hraft]
    generalize ((c.nodes n).dispatchLogs futures env).1 = r₁ at hqueued ⊢
    refine inflight_modifyHead (inflight_modifyHead hqueued (fun _ => rfl) ?_) (fun _ => rfl) ?_
    · exact fun _ _ _ f hf => .inl hf
    · exact fun _ _ _ f hf => .inl hf

/-- A leader commits what a majority has acknowledged. -/
theorem commit (h : Decided d c a) (hr : Refines d c a) (hc : Grounded d c)
    (hgoverned : Governed d c a) (hg : Grows a a') (hup : (c.nodes n).down = false) {ls : LeaderState} {rest : List LeaderState} {stepDown : Bool}
    (hmain : (c.nodes n).main = .leader stepDown true)
    (hleaderships : (c.nodes n).leaderships = ls :: rest)
    (hraft : o.raft = ((c.nodes n).leaderCommit ls stepDown).1)
    (hevents : o.events = ((c.nodes n).leaderCommit ls stepDown).2) (hsends : o.sends = []) :
    Decided d (c.record n input o) a' := by
  have hmem : ls ∈ (c.nodes n).leaderships := by
    rw [hleaderships]
    exact List.mem_cons_self
  obtain ⟨w, hw⟩ := hr.owns n ls hmem
  have hterm : ls.term = (c.nodes n).currentTerm := term_of_headTerm
    ((hc.headship n).head (show (c.nodes n).heads = true by simp [Raft.heads, hmain])) hleaderships
  have hlog : (c.nodes n).logs = a.leaderLog ls.term := by
    rw [← (hr.stores n).log, ← hw.leader, hr.safe.logs.leading w hw.won, hw.term]
    rw [hw.leader, hr.term_eq hc hup, hw.term, hterm]
  have hstable := (Raft.sameTerm_leaderCommit (c.nodes n) ls stepDown).stable
  have hsettled : Settled d.configuration.voterIDs a (c.nodes n).stable.currentTerm (c.nodes n).logs
      ls.commitment.commitIndex := by
    by_cases hzero : ls.commitment.commitIndex = 0
    · exact .inl hzero
    · have hcommitted := hw.committed (hgoverned.counted n ls hmem) hzero
      have hle := hgoverned.fixed.committed_le hcommitted
      rw [hw.term, ← hlog] at hle
      refine .inr ⟨hle, w, _, hcommitted, ?_, Nat.le_refl _, ?_⟩
      · rw [hw.term, hterm, hc.durable hup]
      · rw [hw.term, ← hlog]
        exact List.take_prefix _ _
  refine h.record hg (fun _ => ?_) ?_ (by simp [hsends]) ?_
  · rw [hraft, hstable, (Raft.advances_leaderCommit (c.nodes n) ls stepDown).stores.logs,
      Raft.commitIndex_leaderCommit]
    exact hsettled.grows hg
  · rw [hraft, Raft.leaderships_leaderCommit]
    refine inflight_modifyHead (h.queued hg n) (fun _ => rfl) ?_
    exact fun _ _ _ f hf => .inl (List.mem_of_mem_drop hf)
  · intro e he
    rw [hevents] at he
    obtain ⟨i, hpos, hle, hfound⟩ := Raft.applied_leaderCommit he
    rcases hfound with ⟨f, hf, rfl, hindex⟩ | hget
    · obtain ⟨_, hget⟩ := h.inflight n ls hmem f hf
      rw [← hlog] at hget
      exact ⟨_, _, _, hsettled.grows hg, by omega, by omega, hget⟩
    · have hindex := LogStore.index_of_getLog hget
      rw [(hr.regular_logs n).dense.getLog hpos] at hget
      exact ⟨_, _, _, hsettled.grows hg, by omega, by omega, by rw [hindex]; exact hget⟩

/-- A leader pledges what it knows to be committed. -/
theorem replicate (h : Decided d c a) (hr : Refines d c a) (hc : Grounded d c) (hg : Grows a a')
    (hup : (c.nodes n).down = false) {k j : Nat} {inp : ReplicationInput}
    (hstep : (c.nodes n).replicate k j inp = some (o.raft, o.sends)) (hevents : o.events = []) :
    Decided d (c.record n input o) a' := by
  obtain ⟨ls, s, s', matched, hls, hs, hrep, hraft⟩ := Raft.replicate_cases hstep
  refine h.record hg (fun _ => ?_) ?_ ?_ (by simp [hevents])
  · refine h.keeps hg hup ?_ ?_ ?_ <;> rw [hraft]
  · rw [hraft]
    intro ls' hls' f hf
    rcases List.mem_or_eq_of_mem_set hls' with hold | rfl
    · exact h.queued hg n ls' hold f hf
    · exact h.queued hg n ls (List.mem_of_getElem? hls) f hf
  · intro p hp hleads req hreq
    obtain ⟨peer, cmd⟩ := p
    obtain rfl : cmd = .appendEntries req := hreq
    simp only [Cluster.leads, Bool.and_eq_true, decide_eq_true_eq] at hleads
    have hvalid : Valid a'.leaderLog (c.nodes n).logs := by
      rw [← (hr.stores n).log]
      exact (hr.safe.logs.log n).mono hg.leaderLog
    have hsettled := (h.nodes n hup).grows hg
    rw [← hc.durable hup, hleads.2] at hsettled
    rcases Raft.replicationStep_sends hrep hp with ⟨_, _, _, hsetup, hcmd⟩ | hcmd | ⟨_, hcmd⟩
    · cases hcmd
      obtain ⟨last, hdescribes⟩ := Raft.setupAppendEntries_describes (hr.regular_logs n).dense
        (hr.cached hup).lastSnapshotIndex hsetup
      refine ⟨_, last, hvalid, hdescribes, ?_⟩
      rw [(Raft.setupAppendEntries_cases hsetup).2.2.2.2.2]
      exact hsettled
    · cases hcmd
      exact ⟨_, 0, hvalid, Raft.heartbeatRequest_describes _ s, .inl rfl⟩
    · simp at hcmd

theorem elect (h : Decided d c a) (hg : Grows a a') (hup : (c.nodes n).down = false)
    (henv : env.writes = []) {main : MainThread}
    (hmono : (c.nodes n).stable.currentTerm ≤ o.raft.stable.currentTerm)
    (hraft : o.raft = { ((c.nodes n).electSelf env).1 with main := main })
    (hevents : o.events = ((c.nodes n).electSelf env).2.2.2)
    (hsends : o.sends = ((c.nodes n).electSelf env).2.2.1) : Decided d (c.record n input o) a' := by
  have hdata := (Raft.sameData_electSelf hup env).setMain main
  rw [← hraft] at hdata
  obtain ⟨r', asked, events, he, hall, hr'⟩ := Raft.electSelf_nil hup henv
  rw [he] at hraft hevents hsends
  refine h.quiet hg hup hmono hdata ?_ ?_ ?_
  · rw [hraft]
    rcases hr' with ⟨_, rfl⟩ | ⟨_, rfl⟩ <;> rfl
  · intro p hp req
    rw [hsends] at hp
    obtain ⟨server, _, rfl⟩ := List.mem_map.mp hp
    simp
  · intro e hmem
    rw [hevents] at hmem
    rw [hall e hmem]
    simp [Raft.kind]

theorem step (h : Decided d c a) (hr : Refines d c a) (hc : Grounded d c) (hgoverned : Governed d c a)
    {act : Action} (hok : act.Plain) (hv : c.Vouched act)
    (hdeliver : c.deliverable (c.nodes act.node) act.input = true)
    (ho : (c.nodes act.node).step act.input act.env = some o)
    (hr' : Refines d (c.record act.node act.input o) a') (hg : Grows a a') :
    Decided d (c.record act.node act.input o) a' := by
  obtain ⟨n, input, env⟩ := act
  obtain ⟨honMain, henv, hsnapshot⟩ := hok
  dsimp only at *
  have hmono : (c.nodes n).stable.currentTerm ≤ o.raft.stable.currentTerm :=
    ((hc.recorded n).persisted ho).mono
  cases hup : (c.nodes n).down with
  | true =>
    obtain ⟨_, r', hr, rfl⟩ := Raft.step_down ho hup
    exact h.restart hg hr rfl rfl
  | false =>
    cases Raft.effect_stepUp (Raft.step_up ho hup) honMain hsnapshot with
    | restart hdown => simp [hup] at hdown
    | idle hdata hterm hleaderships hevents hsends hsilent =>
      refine h.quiet hg hup hmono hdata hleaderships ?_ (by simp [hevents])
      intro p hp req hreq
      obtain ⟨_, hpre⟩ := hsends p hp
      simp [hpre] at hreq
    | requestVote req hinput hraft hevents hsends hsilent =>
      refine h.quiet hg hup hmono ?_ ?_ (by simp [hsends]) ?_
      · rw [hraft]
        exact (Raft.sameData_requestVote (c.nodes n) req env).setMain _
      · rw [hraft]
        exact (Raft.rpcEffect_requestVote (c.nodes n) req env).leaderships
      · intro e he
        rw [hevents] at he
        simp [Raft.kind_requestVote he]
    | appendEntries req hinput hraft hevents hsends hresponse =>
      subst hinput
      exact h.appendEntries hr hc hgoverned hg hup henv hdeliver hv hmono hraft hevents hsends
    | elect main hraft hevents hsends hsilent =>
      exact h.elect hg hup henv.1 hmono hraft hevents hsends
    | follow t hraft hevents hsends hsilent =>
      refine h.quiet hg hup hmono ?_ ?_ (by simp [hsends]) (by simp [hevents])
      · rw [hraft]
        exact (Raft.sameData_follow _ .follower t env.writes).leaveCandidate
      · rw [hraft, henv.1, Raft.setCurrentTerm_nil]
        rfl
    | win locals ch votes hmain hch hpending hraft hevents hsends hsilent =>
      refine h.quiet hg hup hmono ?_ ?_ (by simp [hsends]) (by simp [hevents, Raft.kind])
      · rw [hraft]
        refine ((Raft.sameData_setState (c.nodes n) .leader).trans ?_).leaveCandidate
        exact ⟨rfl, rfl, rfl, rfl, rfl, rfl, rfl, rfl, rfl⟩
      · rw [hraft]
        rfl
    | setup hmain hraft hevents hsends hsilent =>
      refine h.record hg (fun _ => ?_) ?_ (by simp [hsends]) (by simp [hevents])
      · exact h.keeps hg hup hmono (by rw [hraft]; exact List.prefix_rfl) (by rw [hraft]; rfl)
      · rw [hraft]
        intro ls hls f hf
        rcases List.mem_cons.mp hls with rfl | hold
        · simp at hf
        · exact h.queued hg n ls hold f hf
    | dispatch futures stepDown hmain hne hdecodes hraft hevents hsends hsilent =>
      exact h.dispatch hr hc hr' hg hup henv hmain hraft hevents hsends
    | configure req future configuration stepDown hinput hmain hnext hraft hevents hsends hsilent =>
      exact h.configure hr hc hr' hg hup henv hmain hnext hraft hevents hsends
    | commit ls rest stepDown hmain hleaderships hraft hevents hsends hsilent =>
      exact h.commit hr hc hgoverned hg hup hmain hleaderships hraft hevents hsends
    | leave stepDown hmain hstate hraft hevents hsends hsilent =>
      obtain ⟨hdata, hstable, hleaderships⟩ := Raft.leaveLeader_frame (c.nodes n) env
      rw [← hraft] at hdata hstable hleaderships
      refine h.record hg (fun _ => ?_) ?_ (by simp [hsends]) (by simp [hevents])
      · exact h.keeps hg hup hmono (by rw [hdata.logs]) hdata.commitIndex
      · rw [hleaderships]
        exact inflight_modifyHead (h.queued hg n) (fun _ => rfl) (by simp)
    | replicate k j inp hinput hstep hevents hsilent =>
      exact h.replicate hr hc hg hup hstep hevents

end Decided

theorem decided_start (d : Deployment) : Decided d d.start d.protocolStart := by
  refine ⟨?_, ?_, by simp [Deployment.start], by simp [Deployment.start]⟩
  · intro id hup
    unfold Deployment.start Deployment.server at hup
    dsimp only at hup
    split at hup <;> simp at hup
  · intro id ls hls
    simp [no_leadership_start] at hls

/-- State machine safety, when no commit index is taken over for entries that are not
known to be those of the leader: whatever two servers send to their FSMs at one index is
the same entry. -/
theorem state_machine_safety
    (h : d.system.Reachable (fun c act => d.Steady c act ∧ c.Vouched act) c) {id id' : ServerID}
    {e e' : Log} (he : (id, .applied e) ∈ c.history) (he' : (id', .applied e') ∈ c.history)
    (hindex : e.index = e'.index) : e = e' := by
  have hinv : ∃ a, Faithful d c a ∧ Decided d c a := by
    refine Deployment.invariant (P := fun c => ∃ a, Faithful d c a ∧ Decided d c a) ?_ ?_ h
    · exact ⟨d.protocolStart, faithful_start d, decided_start d⟩
    · rintro c act o ⟨a, hf, hd⟩ ⟨hok, hv⟩ hdeliver ho
      obtain ⟨a', hsteps, hf'⟩ := hf.step hok hdeliver ho
      exact ⟨a', hf', hd.step hf.refines hf.grounded hf.governed hok.toPlain hv hdeliver ho hf'.refines
        (hf.refines.safe.grows hsteps)⟩
  obtain ⟨a, hf, hd⟩ := hinv
  exact (hd.applied id e he).unique hf.governed.fixed (hd.applied id' e' he') hindex

/-- No fault and no configuration change, and the commit index of a request, if it is
news, is for entries of the leader. -/
def Cluster.wary (c : Cluster) (a : Action) : Bool :=
  a.routine && decide a.env.Faultless && a.input.append?.all (fun req =>
    decide ((c.nodes a.node).commitIndex < req.leaderCommitIndex →
      (∃ e ∈ c.network, e.command = .appendEntries req ∧ e.leading = true) ∧
        (req.leaderCommitIndex ≤ req.prevLogEntry + req.entries.length ∨
          (c.nodes a.node).getLastIndex ≤ req.prevLogEntry + req.entries.length)))

theorem Cluster.vouched_of_wary {a : Action} (h : c.wary a = true) (d : Deployment) :
    d.Steady c a ∧ c.Vouched a := by
  obtain ⟨hroutine, hall⟩ := Bool.and_eq_true_iff.mp h
  refine ⟨Action.routine_steady hroutine d c, ?_⟩
  intro req hinput hraise
  rw [hinput] at hall
  exact of_decide_eq_true hall hraise

open Cluster in
/-- `A` leads term 2, has its no-op and a command acknowledged by `B` and commits them,
and `B` hears of it. -/
def appliedTwice : List (Cluster → Action) :=
  let a := voterNamed 65
  let b := voterNamed 66
  firstNoop ++ [act a.id (.apply [commandOf 1]), act a.id .loopTest, goroutine a.id 0 0 .trigger,
    goroutine a.id 0 0 .send] ++ handle b.id 0 ++ [hear a.id 0 0, act a.id .commit,
    goroutine a.id 0 0 .trigger, goroutine a.id 0 0 .send] ++ handle b.id 0

/-- The command reaches the FSM of the leader and that of a follower. -/
theorem state_machine_safety_three :
    ∃ c, threeServers.system.Reachable
        (fun c act => threeServers.Steady c act ∧ c.Vouched act) c ∧
      ∃ e e', ([65], .applied e) ∈ c.history ∧ ([66], .applied e') ∈ c.history ∧ e.index = 3 ∧
        e.index = e'.index ∧ e = e' := by
  let e : Log := { (commandOf 1).log with index := 3, term := 2 }
  have hplays : threeServers.system.plays Cluster.wary
      (fun c => decide (([65], .applied e) ∈ c.history) && decide (([66], .applied e) ∈ c.history))
      threeServers.start appliedTwice = true := by
    decide +kernel
  obtain ⟨c, hreach, hcheck⟩ := System.reaches_of_plays
    (fun c act => threeServers.Steady c act ∧ c.Vouched act)
    (fun _ _ h => Cluster.vouched_of_wary h threeServers) hplays
  simp only [Bool.and_eq_true, decide_eq_true_eq] at hcheck
  exact ⟨c, ⟨_, rfl, hreach⟩, e, e, hcheck.1, hcheck.2, rfl, rfl,
    state_machine_safety ⟨_, rfl, hreach⟩ hcheck.1 hcheck.2 rfl⟩

open Cluster in
/-- `C` leads term 2 and has a no-op and a command that nobody else has. `A` is elected
in term 3 with `B`. Its goroutine for `C` reads the last index before `A` stores its
no-op, and makes its request after `A` has committed a command with `B`. -/
def overtakenCommit : List (Cluster → Action) :=
  let a := voterNamed 65
  let b := voterNamed 66
  let c := voterNamed 67
  boot c.id ++ boot b.id ++ campaign c ++ handle b.id 0 ++ [countVote c.id b] ++ lead c.id ++
    [act c.id (.apply [commandOf 2]), act c.id .loopTest] ++
    boot a.id ++ campaign a ++ recampaign a ++ handle b.id 0 ++ [countVote a.id b] ++
    [act a.id .run, act a.id .enter, goroutine a.id 0 1 .trigger, act a.id .enter, act a.id .loopTest,
      act a.id (.apply [commandOf 1]), act a.id .loopTest, goroutine a.id 0 0 .trigger,
      goroutine a.id 0 0 .send] ++ handle b.id 0 ++ [hear a.id 0 0, act a.id .commit,
      goroutine a.id 0 1 .send, deliver c.id 0]

/-- A follower with entries of its own takes them for committed, and its FSM gets
another command than that of the leader. -/
theorem applied_differ :
    ∃ c, threeServers.system.Reachable threeServers.Steady c ∧
      ∃ e e', ([65], .applied e) ∈ c.history ∧ ([67], .applied e') ∈ c.history ∧
        e.index = e'.index ∧ e ≠ e' := by
  let e : Log := { (commandOf 1).log with index := 3, term := 3 }
  let e' : Log := { (commandOf 2).log with index := 3, term := 2 }
  have hplays : threeServers.system.plays (fun _ a => a.routine && decide a.env.Faultless)
      (fun c => decide (([65], .applied e) ∈ c.history) && decide (([67], .applied e') ∈ c.history))
      threeServers.start overtakenCommit = true := by
    decide +kernel
  obtain ⟨c, hreach, hcheck⟩ := System.reaches_of_plays threeServers.Steady
    (fun c _ h => Action.routine_steady h threeServers c) hplays
  simp only [Bool.and_eq_true, decide_eq_true_eq] at hcheck
  exact ⟨c, ⟨_, rfl, hreach⟩, e, e', hcheck.1, hcheck.2, rfl, by decide⟩

end PerfRaft
