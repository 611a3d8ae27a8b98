import PerfRaft.Lib.Quorum
import PerfRaft.Proofs.ClusterRuns
import PerfRaft.Proofs.Majority
import PerfRaft.Proofs.VoteDurability

namespace PerfRaft

open Lib

namespace Raft

variable {r : Raft} {env : Env} {o : Outcome} {c : Candidacy}

theorem castVote_answer {req : RequestVoteRequest} {resp : RequestVoteResponse} {ws : List Write}
    (hresp : resp.granted = false) (h : (r.castVote req resp env ws).2.1.granted = true) :
    .voteGranted req.term (candidateBytes req) ∈ (r.castVote req resp env ws).2.2 := by
  unfold castVote at h ⊢
  split at h
  · rename_i hvoted
    rw [if_pos hvoted]
    split at h
    · rename_i hsame
      rw [if_pos hsame]
      simp
    · simp [hresp] at h
  · rename_i hvoted
    rw [if_neg hvoted]
    split at h
    · simp [hresp] at h
    · rename_i hlog
      rw [if_neg hlog]
      split at h
      · simp [hresp] at h
      · simp

/-- A vote that is granted in an answer is recorded. -/
theorem requestVote_answer {req : RequestVoteRequest}
    (h : (r.requestVote req env).2.1.granted = true) :
    .voteGranted req.term (candidateBytes req) ∈ (r.requestVote req env).2.2 := by
  obtain ⟨_, hr | ⟨-, -, hr⟩ | ⟨_, -, -, hr | ⟨-, hr⟩⟩, hresp⟩ := requestVote_cases r req env <;>
    rw [hr] at h ⊢
  · simp [hresp] at h
  · exact castVote_answer hresp h
  · simp [hresp] at h
  · exact castVote_answer hresp h

/-- When the loop of `electSelf` comes through, our own vote is recorded if we are a
voter. -/
theorem askVoters_self {req : RequestVoteRequest} {ws : List Write} {servers : List Server}
    (hok : (r.askVoters req ws servers).2.1 = true) {s : Server} (hs : s ∈ servers)
    (hvoter : s.suffrage = .voter) (hid : s.id = r.localID) :
    .voteGranted req.term req.header.addr ∈ (r.askVoters req ws servers).2.2.2 := by
  induction servers generalizing r ws with
  | nil => simp at hs
  | cons server rest ih =>
    unfold askVoters at hok ⊢
    split at hok
    · rename_i hsuffrage
      rw [if_pos hsuffrage]
      rcases List.mem_cons.mp hs with rfl | hs
      · exact absurd hvoter hsuffrage
      · exact ih hok hs hid
    · rename_i hsuffrage
      rw [if_neg hsuffrage]
      split at hok
      · rename_i hself
        rw [if_pos hself]
        split at hok
        · simp at hok
        · simp
      · rename_i hself
        rw [if_neg hself]
        rcases List.mem_cons.mp hs with rfl | hs
        · exact absurd hid hself
        · exact ih hok hs hid

/-- A server that is a voter has voted for itself when it waits for votes. -/
theorem electSelf_self (hup : r.down = false) {ch : VoteChannel}
    (h : (r.electSelf env).2.1 = some ch) {s : Server} (hs : s ∈ ch.pending)
    (hid : s.id = r.localID) : .voteGranted ch.req.term r.localAddr ∈ (r.electSelf env).2.2.2 := by
  obtain ⟨rfl, _⟩ := electSelf_voteCh hup h
  rcases electSelf_cases r env hup with ⟨r', _, _, _, he⟩ | ⟨r', ok, asked, events, ha, _, he⟩
  · simp [he] at h
  · rw [he] at h ⊢
    cases ok with
    | false => simp at h
    | true =>
      simp only [Configuration.voters, List.mem_filter, beq_iff_eq] at hs
      have hok : (r.nextTerm.askVoters r.nextTerm.voteRequest env.writes.tail
          r.configurations.latest.servers).2.1 = true := by rw [ha]
      have hself := askVoters_self hok hs.1 hs.2 hid
      rw [ha] at hself
      exact hself

/-- The electorate is the fixed one, or empty before a configuration is known. -/
def FixedElectorate (V : List Server) (_ : Raft) (_ : Bool) (V' : List Server) : Prop :=
  V' = [] ∨ V' = V

theorem electorate_fixed {V : List Server} (h : r.Configured (fun c => c.voters = V))
    (r' : Raft) : Electorate (FixedElectorate V) r r' := by
  have hlatest : r.configurations.latest.voters = [] ∨ r.configurations.latest.voters = V := by
    rcases h.latest with hnone | hV
    · rw [hnone]
      exact .inl rfl
    · exact .inr hV
  refine ⟨fun _ _ _ => hlatest, fun _ _ _ _ _ _ _ hV => hV, ?_⟩
  intro c V' _ hne hV'
  rcases hV' with rfl | rfl
  · exact absurd rfl hne
  · rcases hlatest with h' | h'
    · rw [h']
      exact List.nil_sublist _
    · rw [h']

/-- The address in a vote request is that of its sender. -/
theorem candidateBytes_voteRequest (r : Raft) : candidateBytes r.voteRequest = r.localAddr := by
  unfold candidateBytes voteRequest getRPCHeader localAddr
  split <;> simp_all

end Raft

/-- Every configuration in use has the voters `V`. -/
def VotersAre (V : List Server) (c : Configuration) : Prop := c.voters = V

namespace Cluster

variable {d : Deployment} {c : Cluster} {a : Action} {o : Outcome}

/-- A vote recorded at `v` in a run. -/
def Voted (c : Cluster) (v : ServerID) (T : Nat) (candidate : Bytes) : Prop :=
  (v, .voteGranted T candidate) ∈ c.history

theorem Voted.record {v : ServerID} {T : Nat} {candidate : Bytes} (h : c.Voted v T candidate)
    (id : ServerID) (input : Input) (o : Outcome) : (c.record id input o).Voted v T candidate :=
  mem_record_history.mpr (.inr h)

/-- The votes a candidate has counted were given to it. -/
def CountsVotes (c : Cluster) (id : ServerID) (r : Raft) : Prop :=
  ∀ locals tested ch, r.main = .candidate locals tested → locals.voteCh = some ch →
    Raft.candidateBytes ch.req = r.localAddr ∧
      (∀ v ∈ locals.votes, c.Voted v ch.req.term r.localAddr) ∧
      (∀ s ∈ ch.pending, s.id = id → c.Voted id ch.req.term r.localAddr)

/-- What holds in a cluster with the voters `V` of its elections: an answer that
grants a vote was given by the server it comes from, and every leader was elected
by a majority. -/
structure Elections (d : Deployment) (c : Cluster) : Prop where
  conf : ∀ id, (c.nodes id).conf = d.conf id
  named : ∀ id, (c.nodes id).down = false → id ≠ []
  configured : c.Configured (VotersAre d.configuration.voters)
  recorded : ∀ id, Recorded (c.view id)
  tally : ∀ id, (c.nodes id).Tally (Raft.FixedElectorate d.configuration.voters)
  counts : ∀ id, c.CountsVotes id (c.nodes id)
  replies : ∀ reply ∈ c.replies, ∀ req resp, reply.command = .requestVote req →
    reply.response = .requestVote resp → resp.granted = true →
    ∃ id, (d.conf id).localAddr = reply.server ∧ c.Voted id req.term (Raft.candidateBytes req)
  wins : ∀ id T req votes latest logs, (id, .becameLeader T req votes latest logs) ∈ c.history →
    id ≠ [] ∧ Majority d.configuration.voterIDs votes ∧
      ∀ v ∈ votes, c.Voted v T (d.conf id).localAddr

/-- The steps the elections of a cluster with fixed voters can stand: no heartbeat
raises the term while `runCandidate` waits, and no configuration with other voters
is brought in. -/
def Elects (d : Deployment) (c : Cluster) (a : Action) : Prop :=
  (c.nodes a.node).Calm true a.input ∧
    Introduces (VotersAre d.configuration.voters) (c.nodes a.node) a.input

end Cluster

namespace Deployment

variable (d : Deployment)

theorem checked_configuration : d.configuration.Checked := checked_of_checkConfiguration d.checked

theorem address_of_voter {s : Server} (h : s ∈ d.configuration.voters) :
    s.address = (d.conf s.id).localAddr :=
  d.addresses s (List.mem_of_mem_filter h)

variable {d}

theorem localID_of_conf {r : Raft} {id : ServerID} (h : r.conf = d.conf id) : r.localID = id := by
  unfold Raft.localID
  rw [h]
  exact d.localID id

theorem localAddr_of_conf {r : Raft} {id : ServerID} (h : r.conf = d.conf id) :
    r.localAddr = (d.conf id).localAddr := by
  unfold Raft.localAddr
  rw [h]

variable (d)

/-- A server that runs has a name. -/
theorem named_step {r : Raft} {id : ServerID} {input : Input} {env : Env} {o : Outcome}
    (hconf : r.conf = d.conf id) (hnamed : r.down = false → id ≠ [])
    (ho : r.step input env = some o) : id ≠ [] := by
  cases hdown : r.down with
  | false => exact hnamed hdown
  | true =>
    obtain ⟨_, r', hr, _⟩ := Raft.step_down ho hdown
    have hvalid := (Raft.started_newRaft hr).valid
    rw [hconf] at hvalid
    intro hid
    have hlocal := d.localID id
    rw [hid] at hlocal hvalid
    simp [Raft.validateConfig, hlocal] at hvalid

end Deployment

namespace Cluster

variable {d : Deployment} {c : Cluster} {a : Action} {o : Outcome}

theorem Elections.localID (h : Elections d c) (id : ServerID) : (c.nodes id).localID = id :=
  Deployment.localID_of_conf (h.conf id)

theorem Elections.localAddr (h : Elections d c) (id : ServerID) :
    (c.nodes id).localAddr = (d.conf id).localAddr :=
  Deployment.localAddr_of_conf (h.conf id)

/-- The awaited votes are those of voters. -/
theorem Elections.pending (h : Elections d c) {id : ServerID} {locals : Candidacy} {tested : Bool}
    {ch : VoteChannel} (hmain : (c.nodes id).main = .candidate locals tested)
    (hch : locals.voteCh = some ch) : ∀ s ∈ ch.pending, s ∈ d.configuration.voters := by
  intro s hs
  obtain ⟨V, hV, hcounted⟩ := h.tally id locals tested hmain
  have hsV := (hcounted.pending ch hch).1.subset hs
  rcases hV with rfl | rfl
  · simp at hsV
  · exact hsV

/-- A vote that counts was given by the voter. -/
theorem Elections.vote_given (h : Elections d c) {id : ServerID} {locals : Candidacy}
    {ch : VoteChannel} {voter : Server} {result : CallResult RequestVoteResponse}
    (hdeliver : c.deliverable (c.nodes id) (.vote voter result) = true)
    (hmain : (c.nodes id).main = .candidate locals true) (hch : locals.voteCh = some ch)
    (hmem : voter ∈ ch.pending)
    (hgranted : ((c.nodes id).voteAnswer ch.req voter result).2 = true) :
    c.Voted voter.id ch.req.term (c.nodes id).localAddr := by
  obtain ⟨hcand, _, hown⟩ := h.counts id locals true ch hmain hch
  by_cases hself : voter.id = (c.nodes id).localID
  · rw [h.localID] at hself
    rw [hself]
    exact hown voter hmem hself
  · cases result with
    | failed => simp [Raft.voteAnswer, hself] at hgranted
    | response resp =>
      simp only [Raft.voteAnswer, if_neg hself] at hgranted
      simp only [deliverable, hmain, hch, hself, decide_false, Bool.false_or, answered,
        List.any_eq_true, decide_eq_true_eq] at hdeliver
      obtain ⟨reply, hreply, rfl⟩ := hdeliver
      obtain ⟨id', haddr, hvoted⟩ := h.replies _ hreply ch.req resp rfl rfl hgranted
      have hvoter := d.address_of_voter (h.pending hmain hch voter hmem)
      have hid : id' = voter.id := d.localAddr _ _ (haddr.trans hvoter)
      rw [hcand] at hvoted
      exact hid ▸ hvoted

theorem CountsVotes.record {id : ServerID} {r : Raft} (h : c.CountsVotes id r) (id' : ServerID)
    (input : Input) (o : Outcome) : (c.record id' input o).CountsVotes id r := by
  intro locals tested ch hmain hch
  obtain ⟨hcand, hvotes, hown⟩ := h locals tested ch hmain hch
  exact ⟨hcand, fun v hv => (hvotes v hv).record _ _ _, fun s hs hid => (hown s hs hid).record _ _ _⟩

/-- A new election has only its own vote. -/
theorem counts_electSelf {id : ServerID} {r : Raft} {env : Env} {input : Input} {locals : Candidacy}
    (hup : r.down = false) (hid : r.localID = id) (hvotes : locals.votes = [])
    (hch : locals.voteCh = (r.electSelf env).2.1) (hevents : o.events = (r.electSelf env).2.2.2)
    {ch : VoteChannel} (hsome : locals.voteCh = some ch) :
    Raft.candidateBytes ch.req = r.localAddr ∧
      (∀ v ∈ locals.votes, (c.record id input o).Voted v ch.req.term r.localAddr) ∧
      (∀ s ∈ ch.pending, s.id = id → (c.record id input o).Voted id ch.req.term r.localAddr) := by
  rw [hch] at hsome
  refine ⟨?_, by simp [hvotes], ?_⟩
  · rw [(Raft.electSelf_voteCh hup hsome).1]
    exact Raft.candidateBytes_voteRequest r.nextTerm
  · intro s hs hself
    refine mem_record_history.mpr (.inl ⟨rfl, ?_⟩)
    rw [hevents]
    exact Raft.electSelf_self hup hsome hs (hself.trans hid.symm)

/-- What a candidate has counted stays given, and one more vote is. -/
theorem Elections.counts_step (h : Elections d c)
    (hdeliver : c.deliverable (c.nodes a.node) a.input = true)
    (ho : (c.nodes a.node).step a.input a.env = some o) :
    (c.record a.node a.input o).CountsVotes a.node o.raft := by
  intro locals tested ch hm hsome
  obtain ⟨hup, hcampaign⟩ := Raft.campaigns_step ho hm
  have haddr : o.raft.localAddr = (c.nodes a.node).localAddr := by
    unfold Raft.localAddr
    rw [Raft.conf_step ho]
  have hkeep : ∀ tested₀, (c.nodes a.node).main = .candidate locals tested₀ →
      Raft.candidateBytes ch.req = o.raft.localAddr ∧
        (∀ v ∈ locals.votes, (c.record a.node a.input o).Voted v ch.req.term o.raft.localAddr) ∧
        (∀ s ∈ ch.pending, s.id = a.node →
          (c.record a.node a.input o).Voted a.node ch.req.term o.raft.localAddr) := by
    intro tested₀ hmain
    rw [haddr]
    exact (h.counts a.node).record a.node a.input o locals tested₀ ch hmain hsome
  cases hcampaign with
  | ask hmain hc hraft hevents => simp [hc] at hsome
  | start hmain hc hraft hevents =>
    rw [haddr]
    exact counts_electSelf hup (h.localID _) (by rw [hc]) (by rw [hc]) hevents hsome
  | elect c₀ req waiting hmain hpre hwaiting hc hraft hevents =>
    obtain ⟨V, _, hcounted⟩ := h.tally a.node c₀ true hmain
    have hidle := hcounted.idle (hcounted.exclusive (by simp [hpre]))
    rw [haddr]
    exact counts_electSelf hup (h.localID _) (by rw [hc]; exact hidle) (by rw [hc]) hevents hsome
  | countPreVote c₀ req waiting voter granted hmain hpre hc hraft hevents =>
    obtain ⟨V, _, hcounted⟩ := h.tally a.node c₀ true hmain
    have hnone := hcounted.exclusive (by simp [hpre])
    rw [hc] at hsome
    simp [Candidacy.countPreVote, hnone] at hsome
  | countVote c₀ ch₀ voter result hmain hinput hch hmem hc hraft hevents =>
    obtain ⟨hcand, hvotes, hown⟩ := (h.counts a.node).record a.node a.input o c₀ true ch₀ hmain hch
    rw [hc] at hsome ⊢
    simp only [Candidacy.countVote, Option.some.injEq] at hsome
    rw [← hsome, haddr]
    refine ⟨hcand, ?_, fun s hs => hown s (List.mem_of_mem_erase hs)⟩
    intro v hv
    simp only [Candidacy.countVote] at hv
    split at hv
    · rename_i hgranted
      rcases List.mem_cons.mp hv with rfl | hv
      · rw [hinput] at hdeliver
        exact (h.vote_given hdeliver hmain hch hmem hgranted).record _ _ _
      · exact hvotes v hv
    · exact hvotes v hv
  | test hmain hstate hraft hevents => exact hkeep false hmain
  | rpc cmd hinput hmain hraft hevents => exact hkeep true hmain
  | heartbeat req tested hinput hmain hraft hevents => exact hkeep tested hmain
  | beside tested leaderships down hmain hraft hevents => exact hkeep tested hmain

/-- An answer that grants a vote comes with the record of the vote. -/
theorem Elections.replies_step (h : Elections d c)
    (ho : (c.nodes a.node).step a.input a.env = some o) :
    ∀ reply ∈ (c.record a.node a.input o).replies, ∀ req resp, reply.command = .requestVote req →
      reply.response = .requestVote resp → resp.granted = true →
      ∃ id, (d.conf id).localAddr = reply.server ∧
        (c.record a.node a.input o).Voted id req.term (Raft.candidateBytes req) := by
  intro reply hreply req resp hcmd hresp hgranted
  simp only [record, List.mem_append] at hreply
  rcases hreply with hnew | hold
  · unfold replyTo at hnew
    split at hnew
    · rename_i cmd resp' hinput hresponse
      simp only [List.mem_singleton] at hnew
      subst hnew
      obtain ⟨rfl⟩ : cmd = .requestVote req := hcmd
      obtain ⟨rfl⟩ : resp' = .requestVote resp := hresp
      refine ⟨a.node, (h.localAddr a.node).symm, mem_record_history.mpr (.inl ⟨rfl, ?_⟩)⟩
      have hup : (c.nodes a.node).down = false := by
        cases hdown : (c.nodes a.node).down with
        | false => rfl
        | true =>
          obtain ⟨hi, _⟩ := Raft.step_down ho hdown
          simp [hi] at hinput
      rw [hinput] at ho
      obtain ⟨_, _, _, hevents, hresponse'⟩ := Raft.stepUp_rpc (Raft.step_up ho hup)
      rw [hresponse] at hresponse'
      split at hresponse'
      · simp at hresponse'
      · simp only [Option.some.injEq] at hresponse'
        rw [hevents]
        unfold Raft.processRPC at hresponse' ⊢
        split at hresponse'
        · simp at hresponse'
        · rename_i hheader
          rw [if_neg hheader]
          simp only [Response.requestVote.injEq] at hresponse'
          rw [hresponse'] at hgranted
          exact Raft.requestVote_answer hgranted
    · simp only [List.mem_singleton] at hnew
      subst hnew
      simp at hcmd
    · simp at hnew
  · obtain ⟨id, haddr, hvoted⟩ := h.replies reply hold req resp hcmd hresp hgranted
    exact ⟨id, haddr, hvoted.record _ _ _⟩

theorem Elections.named_step (h : Elections d c)
    (ho : (c.nodes a.node).step a.input a.env = some o) : a.node ≠ [] :=
  d.named_step (h.conf _) (h.named _) ho

theorem Elections.distinct (h : Elections d c) (id : ServerID) :
    (c.nodes id).configurations.latest.Distinct := by
  have hV : d.configuration.Distinct := d.checked_configuration.distinct
  rcases (h.configured.nodes id).latest with hnone | hvoters
  · rw [hnone]
    exact List.nodup_nil
  · unfold Configuration.Distinct Configuration.voterIDs at hV ⊢
    rw [hvoters]
    exact hV

/-- A new leader was elected by a majority of the voters. -/
theorem Elections.won (h : Elections d c)
    (hdeliver : c.deliverable (c.nodes a.node) a.input = true)
    (ho : (c.nodes a.node).step a.input a.env = some o)
    {T : Nat} {req : RequestVoteRequest} {votes : List ServerID} {latest : Configuration}
    {logs : LogStore} (hmem : .becameLeader T req votes latest logs ∈ o.events) :
    Majority d.configuration.voterIDs votes ∧
      ∀ v ∈ votes, c.Voted v T (d.conf a.node).localAddr := by
  have hterm : T = req.term := (h.recorded a.node).pending.won ho hmem
  obtain ⟨_, V, hV, hnodup, hvoters, hlen⟩ := (h.tally a.node).won ho hmem
  have hV : V = d.configuration.voters := by
    rcases hV with rfl | rfl
    · exfalso
      cases votes with
      | nil => simp at hlen
      | cons v rest => simpa using hvoters v (by simp)
    · rfl
  rw [hV] at hvoters hlen
  refine ⟨⟨hnodup, hvoters, by simpa [Configuration.voterIDs] using hlen⟩, ?_⟩
  cases hdown : (c.nodes a.node).down with
  | true =>
    obtain ⟨_, r', _, rfl⟩ := Raft.step_down ho hdown
    simp at hmem
  | false =>
    obtain ⟨voter, result, locals, hinput, hmain, hvote⟩ :=
      Raft.becameLeader_vote (Raft.step_up ho hdown) hdown hmem rfl
    obtain ⟨ch, hch, hpending, _, _, he, _⟩ := Raft.vote_events hvote hmem
    cases he
    obtain ⟨_, hvotes, _⟩ := h.counts a.node locals true ch hmain hch
    intro v hv
    rw [hterm, ← h.localAddr]
    simp only [Candidacy.countVote] at hv
    split at hv
    · rename_i hgranted
      rcases List.mem_cons.mp hv with rfl | hv
      · rw [hinput] at hdeliver
        exact h.vote_given hdeliver hmain hch hpending hgranted
      · exact hvotes v hv
    · exact hvotes v hv

theorem Elections.step (h : Elections d c) (hok : Elects d c a)
    (hdeliver : c.deliverable (c.nodes a.node) a.input = true)
    (ho : (c.nodes a.node).step a.input a.env = some o) :
    Elections d (c.record a.node a.input o) where
  conf := record_nodes (P := fun id r => r.conf = d.conf id)
    ((Raft.conf_step ho).trans (h.conf a.node)) h.conf
  named := record_nodes (P := fun id r => r.down = false → id ≠ []) (fun _ => h.named_step ho) h.named
  configured := h.configured.step hdeliver hok.2 ho
  recorded := by
    intro id
    by_cases hid : id = a.node
    · subst hid
      rw [view_record_self]
      refine (h.recorded a.node).step (a := (a.input, a.env)) hok.1 ?_
      have ho' : (c.view a.node).raft.step a.input a.env = some o := ho
      simp [serverSystem, ServerRun.step, ho']
    · rw [view_record_ne _ _ _ hid]
      exact h.recorded id
  tally := record_nodes (P := fun _ r => r.Tally (Raft.FixedElectorate d.configuration.voters))
    ((h.tally a.node).step (h.distinct a.node) ho
      (Raft.electorate_fixed (h.configured.nodes a.node) o.raft)) h.tally
  counts := record_nodes (P := fun id r => (c.record a.node a.input o).CountsVotes id r)
    (h.counts_step hdeliver ho) (fun id => (h.counts id).record a.node a.input o)
  replies := h.replies_step ho
  wins := by
    intro id T req votes latest logs hmem
    rcases mem_record_history.mp hmem with ⟨rfl, hnew⟩ | hold
    · obtain ⟨hmajority, hvotes⟩ := h.won hdeliver ho hnew
      exact ⟨h.named_step ho, hmajority, fun v hv => (hvotes v hv).record _ _ _⟩
    · obtain ⟨hid, hmajority, hvotes⟩ := h.wins id T req votes latest logs hold
      exact ⟨hid, hmajority, fun v hv => (hvotes v hv).record _ _ _⟩

/-- No two servers are elected in one term: the two majorities have a voter in
common, who votes once. -/
theorem Elections.unique (h : Elections d c) {id₁ id₂ : ServerID} {T : Nat}
    {req₁ req₂ : RequestVoteRequest} {votes₁ votes₂ : List ServerID}
    {latest₁ latest₂ : Configuration} {logs₁ logs₂ : LogStore}
    (h₁ : (id₁, .becameLeader T req₁ votes₁ latest₁ logs₁) ∈ c.history)
    (h₂ : (id₂, .becameLeader T req₂ votes₂ latest₂ logs₂) ∈ c.history) : id₁ = id₂ := by
  obtain ⟨hne₁, hmajority₁, hvotes₁⟩ := h.wins _ _ _ _ _ _ h₁
  obtain ⟨hne₂, hmajority₂, hvotes₂⟩ := h.wins _ _ _ _ _ _ h₂
  obtain ⟨v, hv₁, hv₂⟩ := hmajority₁.inter hmajority₂
  refine d.localAddr _ _ ((h.recorded v).unique T _ _ ?_ ?_ (d.named _ hne₁) (d.named _ hne₂))
  · exact mem_view.mpr (hvotes₁ v hv₁)
  · exact mem_view.mpr (hvotes₂ v hv₂)

end Cluster

namespace Deployment

variable {d : Deployment} {c : Cluster}

theorem elections_start (d : Deployment) : Cluster.Elections d d.start := by
  have hnode : ∀ id, (d.start.nodes id).conf = d.conf id ∧ (d.start.nodes id).down = true ∧
      (d.start.nodes id).main = .run := by
    intro id
    unfold start server
    dsimp only
    split <;> exact ⟨rfl, rfl, rfl⟩
  refine ⟨fun id => (hnode id).1, ?_, d.configured_start rfl, ?_, ?_, ?_, by simp [start],
    by simp [start]⟩
  · intro id hup
    simp [(hnode id).2.1] at hup
  · intro id
    refine Recorded.init ?_
    simp only [serverSystem, Cluster.view, start, server, List.filterMap_nil]
    split
    · exact ⟨d.conf id, 1, [d.entry], [], rfl⟩
    · exact ⟨d.conf id, 0, [], [], rfl⟩
  · intro id
    exact Raft.tally_of_main (by simp [(hnode id).2.2])
  · intro id locals tested ch hmain
    simp [(hnode id).2.2] at hmain

theorem elections_of_reachable {ok : Cluster → Action → Prop}
    (hok : ∀ c a, ok c a → Cluster.Elects d c a) (h : d.system.Reachable ok c) :
    Cluster.Elections d c :=
  invariant (elections_start d) (fun c a _ hP hac hdeliver ho => hP.step (hok c a hac) hdeliver ho) h

end Deployment

/-- Every RPC goes to the main thread. -/
def Action.OnMainThread (a : Action) : Prop := ∀ req, a.input ≠ .heartbeat req

theorem Action.OnMainThread.calm {a : Action} (h : a.OnMainThread) (pre : Bool) (r : Raft) :
    r.Calm pre a.input := by
  intro hnewer
  unfold Input.newerHeartbeat at hnewer
  split at hnewer
  · rename_i req hinput
    exact absurd hinput (h req)
  · simp at hnewer

/-- The configurations brought in by a step have the voters of the deployment. -/
def Deployment.FixedVoters (d : Deployment) (c : Cluster) (a : Action) : Prop :=
  Cluster.Introduces (VotersAre d.configuration.voters) (c.nodes a.node) a.input

/-- In every run of a cluster with fixed voters and the RPCs on the main thread, at
most one server is ever set to leader of a term. -/
theorem election_safety {d : Deployment} {c : Cluster}
    (h : d.system.Reachable (fun c a => a.OnMainThread ∧ d.FixedVoters c a) c)
    {id₁ id₂ : ServerID} {T : Nat} {req₁ req₂ : RequestVoteRequest} {votes₁ votes₂ : List ServerID}
    {latest₁ latest₂ : Configuration} {logs₁ logs₂ : LogStore}
    (h₁ : (id₁, .becameLeader T req₁ votes₁ latest₁ logs₁) ∈ c.history)
    (h₂ : (id₂, .becameLeader T req₂ votes₂ latest₂ logs₂) ∈ c.history) : id₁ = id₂ :=
  (Deployment.elections_of_reachable (fun _ _ hok => ⟨hok.1.calm true _, hok.2⟩) h).unique h₁ h₂

/-- No heartbeat fast path, no snapshot and no configuration change. -/
def Action.routine (a : Action) : Bool :=
  match a.input with
  | .heartbeat _ | .configurationChange _ _ | .rpc (.installSnapshot _) => false
  | _ => true

theorem Action.routine_fixed {a : Action} (h : a.routine = true) (d : Deployment) (c : Cluster) :
    a.OnMainThread ∧ d.FixedVoters c a := by
  obtain ⟨id, input, env⟩ := a
  refine ⟨fun req heq => by simp_all [routine], ?_⟩
  unfold Deployment.FixedVoters Cluster.Introduces
  split <;> simp_all [routine]

open Cluster in
/-- `A` is elected with the vote of `B`. -/
def firstElection : List (Cluster → Action) :=
  let a := voterNamed 65
  let b := voterNamed 66
  boot a.id ++ boot b.id ++ campaign a ++ handle b.id 0 ++ [countVote a.id b]

/-- Whoever else is set to leader of the term `A` has won is `A`. -/
theorem election_safety_three :
    ∃ c, threeServers.system.Reachable
        (fun c a => a.OnMainThread ∧ threeServers.FixedVoters c a) c ∧
      ∃ id T req votes latest logs, (id, .becameLeader T req votes latest logs) ∈ c.history ∧
        ∀ id' req' votes' latest' logs',
          (id', .becameLeader T req' votes' latest' logs') ∈ c.history → id = id' := by
  obtain ⟨c, hreachable, ⟨id, e⟩, hmem, hp⟩ : ∃ c, threeServers.system.Reachable
      (fun c a => a.OnMainThread ∧ threeServers.FixedVoters c a) c ∧
      ∃ p ∈ c.history, Raft.kind p.2 = .win :=
    System.exists_reachable_of (fun c _ h => Action.routine_fixed h threeServers c) rfl firstElection
      (by decide +kernel)
  cases e with
  | becameLeader T req votes latest logs =>
    exact ⟨c, hreachable, id, T, req, votes, latest, logs, hmem,
      fun _ _ _ _ _ hmem' => election_safety hreachable hmem hmem'⟩
  | _ => simp [Raft.kind] at hp

end PerfRaft
