import PerfRaft.Lib.Simulation
import PerfRaft.Proofs.Commitments
import PerfRaft.Proofs.Effects
import PerfRaft.Proofs.Headship
import PerfRaft.Proofs.Replicas
import PerfRaft.Proofs.Writes

namespace PerfRaft

open Lib Replicated

/-- The replication protocol a deployment implements. -/
def Deployment.setting (d : Deployment) : Setting Log where
  rootTerm := 1
  root := [d.entry]
  root_stamp := fun e he => by rw [List.mem_singleton.mp he]; exact d.entry_term

/-- The states of that protocol. -/
abbrev Protocol := Replicated.State ServerID Log

/-- The entries are numbered from 1, and the configurations among them can be decoded. -/
structure LogStore.Regular (l : LogStore) : Prop where
  dense : l.Dense
  decodes : ∀ e ∈ l, e.decodes = true

theorem LogStore.Regular.append {l es : LogStore} (h : l.Regular) (hd : LogStore.Dense (l ++ es))
    (hes : ∀ e ∈ es, e.decodes = true) : LogStore.Regular (l ++ es) := by
  refine ⟨hd, ?_⟩
  intro e he
  rcases List.mem_append.mp he with he | he
  · exact h.decodes e he
  · exact hes e he

/-- So are the logs that come from leaders with such logs. -/
theorem regular_of_valid {leaderLog : Nat → LogStore} (h : ∀ t, (leaderLog t).Regular) {l : LogStore}
    (hl : Valid leaderLog l) : l.Regular := by
  have hpart : ∀ i e, l[i]? = some e → LogStore.Dense (l.take (i + 1)) ∧ e.decodes = true := by
    intro i e he
    have hp := hl i e he
    refine ⟨(h _).dense.of_isPrefix hp, (h _).decodes e (hp.subset ?_)⟩
    exact List.mem_of_getElem? (by rw [List.getElem?_take_of_lt (Nat.lt_succ_self i)]; exact he)
  constructor
  · intro i e he
    exact (hpart i e he).1 i e (by rw [List.getElem?_take_of_lt (Nat.lt_succ_self i)]; exact he)
  · intro e he
    obtain ⟨i, hi⟩ := List.getElem?_of_mem he
    exact (hpart i e hi).2

variable {d : Deployment} {c : Cluster} {a a' : Protocol} {id n : ServerID} {r r' : Raft}
  {input : Input} {o : Outcome}

/-- The term and the log of a server are on its disk. -/
structure Stores (a : Protocol) (id : ServerID) (r : Raft) : Prop where
  term : a.term id = r.stable.currentTerm
  log : a.log id = r.logs
  snapshots : r.snapshots = []
  cached : r.down = false → r.Cached
  unborn : r.stable.currentTerm = 0 →
    r.logs = [] ∧ (r.down = false → r.configurations.latest = {})

theorem Stores.frame (h : Stores a id r) (hterm : a'.term id = a.term id)
    (hlog : a'.log id = a.log id) : Stores a' id r :=
  ⟨hterm.trans h.term, hlog.trans h.log, h.snapshots, h.cached, h.unborn⟩

theorem Stores.setLeaderships (h : Stores a id r) (leaderships : List LeaderState) (main : MainThread) :
    Stores a id { r with leaderships := leaderships, main := main } :=
  ⟨h.term, h.log, h.snapshots, fun hup => ⟨⟨(h.cached hup).lastLogIndex, (h.cached hup).lastLogTerm⟩,
    (h.cached hup).lastSnapshotIndex⟩, h.unborn⟩

/-- A step that leaves the stores alone, of a server that runs. -/
theorem Stores.same (h : Stores a id r) (hup : r.down = false) (hs : r.SameStores r')
    (hmono : r.stable.currentTerm ≤ r'.stable.currentTerm)
    (hlatest : r'.configurations.latest = r.configurations.latest)
    (hterm : a'.term id = r'.stable.currentTerm) (hlog : a'.log id = a.log id) :
    Stores a' id r' where
  term := hterm
  log := by rw [hlog, hs.logs]; exact h.log
  snapshots := by rw [hs.snapshots]; exact h.snapshots
  cached := by
    intro _
    have hc := h.cached hup
    refine ⟨⟨?_, ?_⟩, ?_⟩
    · rw [hs.lastLogIndex, hs.logs, hc.lastLogIndex]
    · rw [hs.lastLogTerm, hs.logs, hc.lastLogTerm]
    · rw [hs.lastSnapshotIndex, hc.lastSnapshotIndex]
  unborn := by
    intro hzero
    obtain ⟨hlogs, hnone⟩ := h.unborn (by omega)
    rw [hs.logs, hlatest]
    exact ⟨hlogs, fun _ => hnone hup⟩

/-- A candidate has not won the term it waits for votes of, which is not the first
one when there are votes to wait for. -/
def Standing (wins : List (Win ServerID Log)) (id : ServerID) (r : Raft) : Prop :=
  ∀ locals tested ch, r.main = .candidate locals tested → locals.voteCh = some ch →
    (∀ w ∈ wins, w.leader = id → w.term < ch.req.term) ∧ (ch.pending ≠ [] → 2 ≤ ch.req.term)

theorem standing_electSelf {wins : List (Win ServerID Log)} {env : Env} {ch : VoteChannel}
    (hup : r.down = false) (hch : (r.electSelf env).2.1 = some ch)
    (hwins : ∀ w ∈ wins, w.leader = id → w.term ≤ r.currentTerm)
    (hunborn : r.currentTerm = 0 → r.configurations.latest = {}) :
    (∀ w ∈ wins, w.leader = id → w.term < ch.req.term) ∧ (ch.pending ≠ [] → 2 ≤ ch.req.term) := by
  obtain ⟨rfl, _⟩ := Raft.electSelf_voteCh hup hch
  refine ⟨fun w hw hid => Nat.lt_succ_of_le (hwins w hw hid), ?_⟩
  intro hpending
  have hpos : r.currentTerm ≠ 0 := by
    intro hzero
    apply hpending
    simp only [hunborn hzero]
    rfl
  exact Nat.succ_le_succ (Nat.one_le_iff_ne_zero.mpr hpos)

theorem Standing.step {wins : List (Win ServerID Log)} {env : Env} (h : Standing wins id r)
    (hwins : r.down = false → ∀ w ∈ wins, w.leader = id → w.term ≤ r.currentTerm)
    (hunborn : r.down = false → r.currentTerm = 0 → r.configurations.latest = {})
    (ho : r.step input env = some o) : Standing wins id o.raft := by
  intro locals tested ch hm hsome
  obtain ⟨hup, hcampaign⟩ := Raft.campaigns_step ho hm
  cases hcampaign with
  | ask hmain hc hraft hevents => simp [hc] at hsome
  | start hmain hc hraft hevents =>
    rw [hc] at hsome
    exact standing_electSelf hup hsome (hwins hup) (hunborn hup)
  | elect c₀ req waiting hmain hpre hwaiting hc hraft hevents =>
    rw [hc] at hsome
    exact standing_electSelf hup hsome (hwins hup) (hunborn hup)
  | countPreVote c₀ req waiting voter granted hmain hpre hc hraft hevents =>
    rw [hc] at hsome
    exact h c₀ true ch hmain hsome
  | countVote c₀ ch₀ voter result hmain hinput hch hmem hc hraft hevents =>
    rw [hc] at hsome
    simp only [Candidacy.countVote, Option.some.injEq] at hsome
    obtain ⟨hold, hpending⟩ := h c₀ true ch₀ hmain hch
    rw [← hsome]
    exact ⟨hold, fun _ => hpending (List.ne_nil_of_mem hmem)⟩
  | test hmain hstate hraft hevents => exact h locals false ch hmain hsome
  | rpc cmd hinput hmain hraft hevents => exact h locals true ch hmain hsome
  | heartbeat req tested hinput hmain hraft hevents => exact h locals tested ch hmain hsome
  | beside tested leaderships down hmain hraft hevents => exact h locals tested ch hmain hsome

/-- A leadership of the server `id` comes from the election `w`, and its goroutines send
requests of its term. -/
structure Owns (a : Protocol) (id : ServerID) (w : Win ServerID Log) (ls : LeaderState) : Prop where
  won : w ∈ a.wins
  leader : w.leader = id
  term : w.term = ls.term
  start : ls.commitment.startIndex = w.log.length + 1
  stamped : ∀ s ∈ ls.replState, s.currentTerm = ls.term

theorem Owns.grows {w : Win ServerID Log} {ls : LeaderState} (h : Owns a id w ls)
    (hg : Grows a a') : Owns a' id w ls :=
  ⟨hg.wins.subset h.won, h.leader, h.term, h.start, h.stamped⟩

/-- The server `n` may win its term: with votes that were given to it, when nobody else
has won this term, and as `P` says of an election. -/
def Electable (P : Win ServerID Log → Prop) (a : Protocol) (n : ServerID) : Prop :=
  ∃ Q, (∀ v ∈ Q, ∃ x ∈ a.votes, x.voter = v ∧ x.candidate = n ∧ x.term = a.term n) ∧
    (∀ w ∈ a.wins, w.term ≠ a.term n) ∧ P ⟨n, a.term n, a.log n, Q⟩

/-- The votes of the protocol are those in the history. -/
structure Ballots (d : Deployment) (c : Cluster) (a : Protocol) : Prop where
  voted : ∀ v T b, c.Voted v T b →
    ∃ x ∈ a.votes, x.voter = v ∧ x.term = T ∧ (d.conf x.candidate).localAddr = b
  votes : ∀ x ∈ a.votes, x.candidate ≠ [] ∧
    c.Voted x.voter x.term (d.conf x.candidate).localAddr

theorem Ballots.record (h : Ballots d c a) (hgrow : a.votes ⊆ a'.votes)
    (hvoted : ∀ T b, .voteGranted T b ∈ o.events →
      ∃ x ∈ a'.votes, x.voter = n ∧ x.term = T ∧ (d.conf x.candidate).localAddr = b)
    (hvotes : ∀ x ∈ a'.votes, x ∈ a.votes ∨ (x.voter = n ∧ x.candidate ≠ [] ∧
      .voteGranted x.term (d.conf x.candidate).localAddr ∈ o.events)) :
    Ballots d (c.record n input o) a' := by
  constructor
  · intro v T b hv
    rcases Cluster.mem_record_history.mp hv with ⟨rfl, hnew⟩ | hold
    · exact hvoted T b hnew
    · obtain ⟨x, hx, hrest⟩ := h.voted v T b hold
      exact ⟨x, hgrow hx, hrest⟩
  · intro x hx
    rcases hvotes x hx with hold | ⟨hvoter, hne, hnew⟩
    · exact ⟨(h.votes x hold).1, (h.votes x hold).2.record _ _ _⟩
    · exact ⟨hne, Cluster.mem_record_history.mpr (.inl ⟨hvoter, hnew⟩)⟩

theorem Ballots.quiet (h : Ballots d c a) (heq : a'.votes = a.votes)
    (hevents : ∀ e ∈ o.events, Raft.kind e ≠ .vote) : Ballots d (c.record n input o) a' :=
  h.record heq.ge (fun _ _ hmem => absurd rfl (hevents _ hmem)) (fun _ hx => .inl (heq ▸ hx))

/-- A vote request was made with the log of its sender. -/
def Requested (d : Deployment) (a : Protocol) (req : RequestVoteRequest) : Prop :=
  ∃ m R, m ≠ [] ∧ a.reqs m req.term = some R ∧
    Raft.candidateBytes req = (d.conf m).localAddr ∧
    req.lastLogIndex = R.length ∧ req.lastLogTerm = lastStamp R

/-- An AppendEntries request is one of the protocol. -/
def Sends (a : Protocol) (req : AppendEntriesRequest) : Prop :=
  ∃ m ∈ a.msgs, m.term = req.term ∧ req.Describes m.log m.last

/-- The server at an address has acknowledged a request. -/
def Confirms (d : Deployment) (a : Protocol) (server : ServerAddress) (req : AppendEntriesRequest) :
    Prop :=
  ∀ e, req.entries.getLast? = some e →
    ∃ id, (d.conf id).localAddr = server ∧ Acked a req.term id e.index

/-- What is on its way is known to the protocol. -/
structure Mail (d : Deployment) (c : Cluster) (a : Protocol) : Prop where
  requests : ∀ e ∈ c.network, ∀ req, e.command = .requestVote req → Requested d a req
  appends : ∀ e ∈ c.network, ∀ req, e.command = .appendEntries req → Sends a req
  answers : ∀ reply ∈ c.replies, ∀ req resp, reply.command = .appendEntries req →
    reply.response = .appendEntries resp → resp.success = true → Confirms d a reply.server req

theorem Mail.record (h : Mail d c a) (hg : Grows a a')
    (hrequests : ∀ p ∈ o.sends, ∀ req, p.2 = .requestVote req → Requested d a' req)
    (happends : ∀ p ∈ o.sends, ∀ req, p.2 = .appendEntries req → Sends a' req)
    (hanswers : ∀ reply ∈ Cluster.replyTo (c.nodes n) input o.response, ∀ req resp,
      reply.command = .appendEntries req → reply.response = .appendEntries resp →
      resp.success = true → Confirms d a' reply.server req) :
    Mail d (c.record n input o) a' := by
  constructor
  · intro e he req hcmd
    rcases Cluster.mem_record_network he with ⟨peer, hmem, _⟩ | hold
    · exact hrequests _ hmem req hcmd
    · obtain ⟨m, R, hne, hreq, hrest⟩ := h.requests e hold req hcmd
      exact ⟨m, R, hne, hg.reqs _ _ _ hreq, hrest⟩
  · intro e he req hcmd
    rcases Cluster.mem_record_network he with ⟨peer, hmem, _⟩ | hold
    · exact happends _ hmem req hcmd
    · obtain ⟨m, hm, hrest⟩ := h.appends e hold req hcmd
      exact ⟨m, hg.msgs hm, hrest⟩
  · intro reply hreply req resp hcmd hresp hsuccess
    simp only [Cluster.record, List.mem_append] at hreply
    rcases hreply with hnew | hold
    · exact hanswers reply hnew req resp hcmd hresp hsuccess
    · intro e he
      obtain ⟨id, haddr, hacked⟩ := h.answers reply hold req resp hcmd hresp hsuccess e he
      exact ⟨id, haddr, hacked.grows hg⟩

/-- The answer to a request is the one in the outcome. -/
theorem mem_replyTo {reply : Reply} {response : Option Response}
    (h : reply ∈ Cluster.replyTo r input response) :
    response = some reply.response ∧ reply.server = r.localAddr ∧
      (input = .rpc reply.command ∨
        ∃ req, input = .heartbeat req ∧ reply.command = .appendEntries req) := by
  unfold Cluster.replyTo at h
  split at h
  · rw [List.mem_singleton.mp h]
    exact ⟨rfl, rfl, .inl rfl⟩
  · rename_i req resp
    rw [List.mem_singleton.mp h]
    exact ⟨rfl, rfl, .inr ⟨req, rfl, rfl⟩⟩
  · simp at h

/-- No request is answered with success. -/
def Outcome.Declines (o : Outcome) : Prop :=
  ∀ resp, o.response = some (.appendEntries resp) → resp.success = false

theorem Outcome.Silent.declines (h : o.Silent) : o.Declines := fun resp hresp => absurd hresp (h resp)

theorem Mail.declined (h : Mail d c a) (hg : Grows a a')
    (hrequests : ∀ p ∈ o.sends, ∀ req, p.2 = .requestVote req → Requested d a' req)
    (happends : ∀ p ∈ o.sends, ∀ req, p.2 = .appendEntries req → Sends a' req)
    (hdeclines : o.Declines) : Mail d (c.record n input o) a' := by
  refine h.record hg hrequests happends ?_
  intro reply hreply req resp _ hresp hsuccess
  obtain ⟨hresponse, _⟩ := mem_replyTo hreply
  rw [hresp] at hresponse
  rw [hdeclines resp hresponse] at hsuccess
  simp at hsuccess

/-- An entry is one that the server `id` has appended, and stored, as a leader. -/
def Created (a : Protocol) (id : ServerID) (e : Log) : Prop :=
  ∃ w ∈ a.wins, w.leader = id ∧ w.term = e.term ∧ w.log.length < e.index ∧
    (a.leaderLog e.term)[e.index - 1]? = some e ∧ Acked a e.term id e.index

theorem Created.grows {e : Log} (h : Created a id e) (hg : Grows a a') : Created a' id e := by
  obtain ⟨w, hw, hleader, hterm, hlt, he, hacked⟩ := h
  exact ⟨w, hg.wins.subset hw, hleader, hterm, hlt, hg.getElem? he, hacked.grows hg⟩

/-- The elections of the protocol and what their leaders have appended are in the
history. -/
structure Chronicle (c : Cluster) (a : Protocol) : Prop where
  won : ∀ id T req votes latest logs, (id, .becameLeader T req votes latest logs) ∈ c.history →
    ∃ w ∈ a.wins, w.leader = id ∧ w.term = T ∧ w.log = logs
  elected : ∀ w ∈ a.wins, ∃ req votes latest,
    (w.leader, .becameLeader w.term req votes latest w.log) ∈ c.history
  dispatched : ∀ id entries, (id, .dispatched entries) ∈ c.history → ∀ e ∈ entries, Created a id e
  created : ∀ w ∈ a.wins, ∀ i e, w.log.length ≤ i → (a.leaderLog w.term)[i]? = some e →
    ∃ entries, (w.leader, .dispatched entries) ∈ c.history ∧ e ∈ entries

theorem Chronicle.record (h : Chronicle c a) (hg : Grows a a')
    (hwon : ∀ T req votes latest logs, .becameLeader T req votes latest logs ∈ o.events →
      ∃ w ∈ a'.wins, w.leader = n ∧ w.term = T ∧ w.log = logs)
    (helected : ∀ w ∈ a'.wins, w ∈ a.wins ∨ (w.leader = n ∧ ∃ req votes latest,
      .becameLeader w.term req votes latest w.log ∈ o.events))
    (hdispatched : ∀ entries, .dispatched entries ∈ o.events → ∀ e ∈ entries, Created a' n e)
    (hcreated : ∀ w ∈ a'.wins, ∀ i e, w.log.length ≤ i → (a'.leaderLog w.term)[i]? = some e →
      (w ∈ a.wins ∧ (a.leaderLog w.term)[i]? = some e) ∨
        (w.leader = n ∧ ∃ entries, .dispatched entries ∈ o.events ∧ e ∈ entries)) :
    Chronicle (c.record n input o) a' := by
  constructor
  · intro id T req votes latest logs hmem
    rcases Cluster.mem_record_history.mp hmem with ⟨rfl, hnew⟩ | hold
    · exact hwon T req votes latest logs hnew
    · obtain ⟨w, hw, hrest⟩ := h.won id T req votes latest logs hold
      exact ⟨w, hg.wins.subset hw, hrest⟩
  · intro w hw
    rcases helected w hw with hold | ⟨hleader, req, votes, latest, hnew⟩
    · obtain ⟨req, votes, latest, hmem⟩ := h.elected w hold
      exact ⟨req, votes, latest, Cluster.mem_record_history.mpr (.inr hmem)⟩
    · exact ⟨req, votes, latest, Cluster.mem_record_history.mpr (.inl ⟨hleader, hnew⟩)⟩
  · intro id entries hmem e he
    rcases Cluster.mem_record_history.mp hmem with ⟨rfl, hnew⟩ | hold
    · exact hdispatched entries hnew e he
    · exact (h.dispatched id entries hold e he).grows hg
  · intro w hw i e hi he
    rcases hcreated w hw i e hi he with ⟨hold, he⟩ | ⟨hleader, entries, hnew, hmem⟩
    · obtain ⟨entries, hmem, hin⟩ := h.created w hold i e hi he
      exact ⟨entries, Cluster.mem_record_history.mpr (.inr hmem), hin⟩
    · exact ⟨entries, Cluster.mem_record_history.mpr (.inl ⟨hleader, hnew⟩), hmem⟩

theorem Chronicle.quiet (h : Chronicle c a) (hg : Grows a a') (hwins : a'.wins = a.wins)
    (hlogs : a'.leaderLog = a.leaderLog)
    (hevents : ∀ e ∈ o.events, Raft.kind e ≠ .win ∧ Raft.kind e ≠ .dispatch) :
    Chronicle (c.record n input o) a' := by
  refine h.record hg ?_ (fun w hw => .inl (hwins ▸ hw)) ?_ ?_
  · exact fun _ _ _ _ _ hmem => absurd rfl (hevents _ hmem).1
  · exact fun _ hmem => absurd rfl (hevents _ hmem).2
  · exact fun w hw i e _ he => .inl ⟨hwins ▸ hw, hlogs ▸ he⟩

/-- The cluster `c` is in the state `a` of the protocol. -/
structure Refines (d : Deployment) (c : Cluster) (a : Protocol) : Prop where
  safe : Safe d.setting a
  regular : ∀ t, LogStore.Regular (a.leaderLog t)
  stores : ∀ id, Stores a id (c.nodes id)
  standing : ∀ id, Standing a.wins id (c.nodes id)
  owns : ∀ id, ∀ ls ∈ (c.nodes id).leaderships, ∃ w, Owns a id w ls
  ballots : Ballots d c a
  mail : Mail d c a
  chronicle : Chronicle c a

/-- What is to be shown of a step: that the server that takes it and what it tells are
in the new state. -/
theorem Refines.record {P : Win ServerID Log → Prop} (h : Refines d c a)
    (hm : Moves d.setting P n a a')
    (hregular : ∀ t, LogStore.Regular (a'.leaderLog t)) (hstores : Stores a' n o.raft)
    (hstanding : Standing a'.wins n o.raft)
    (howns : ∀ ls ∈ o.raft.leaderships, ∃ w, Owns a' n w ls)
    (hballots : Ballots d (c.record n input o) a') (hmail : Mail d (c.record n input o) a')
    (hchronicle : Chronicle (c.record n input o) a') : Refines d (c.record n input o) a' := by
  have hg := h.safe.grows hm.steps
  refine ⟨h.safe.moves hm, hregular, ?_, ?_, ?_, hballots, hmail, hchronicle⟩
  · intro id
    by_cases hid : id = n
    · subst hid
      rw [Cluster.record_nodes_self]
      exact hstores
    · rw [Cluster.record_nodes_ne _ _ _ hid]
      exact (h.stores id).frame (hm.term id hid) (hm.log id hid)
  · intro id
    by_cases hid : id = n
    · subst hid
      rw [Cluster.record_nodes_self]
      exact hstanding
    · rw [Cluster.record_nodes_ne _ _ _ hid]
      intro locals tested ch hmain hch
      obtain ⟨hold, hpending⟩ := h.standing id locals tested ch hmain hch
      refine ⟨fun w hw hleader => hold w ?_ hleader, hpending⟩
      exact (hm.wins w hw).resolve_right (fun hown => hid (hleader.symm.trans hown.1))
  · intro id
    by_cases hid : id = n
    · subst hid
      rw [Cluster.record_nodes_self]
      exact howns
    · rw [Cluster.record_nodes_ne _ _ _ hid]
      intro ls hls
      obtain ⟨w, hw⟩ := h.owns id ls hls
      exact ⟨w, hw.grows hg⟩

end PerfRaft
