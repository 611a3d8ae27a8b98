import PerfRaft.Proofs.Candidacy
import PerfRaft.Proofs.Configured

namespace PerfRaft

open Lib

/-- No two voters share an ID. -/
def Configuration.Distinct (c : Configuration) : Prop := c.voterIDs.Nodup

instance (c : Configuration) : Decidable c.Distinct := inferInstanceAs (Decidable c.voterIDs.Nodup)

theorem checkServers_ok {configuration : Configuration} {servers : List Server}
    {idSet : List ServerID} {addressSet : List ServerAddress} {voters : Nat}
    (h : checkServers configuration servers idSet addressSet voters = .ok ()) :
    (servers.map Server.id).Nodup ∧ (servers.map Server.address).Nodup ∧
      (∀ s ∈ servers, s.id ≠ [] ∧ s.address ≠ [] ∧ s.id ∉ idSet ∧ s.address ∉ addressSet) ∧
      0 < voters + (servers.filter (fun s => s.suffrage == .voter)).length := by
  induction servers generalizing idSet addressSet voters with
  | nil =>
    unfold checkServers at h
    split at h
    · simp at h
    · simpa using Nat.pos_of_ne_zero ‹_›
  | cons server rest ih =>
    unfold checkServers at h
    split at h
    · simp at h
    split at h
    · simp at h
    split at h
    · simp at h
    split at h
    · simp at h
    rename_i hid haddr hidSet haddrSet
    obtain ⟨hids, haddrs, hrest, hvoters⟩ := ih h
    refine ⟨?_, ?_, ?_, ?_⟩
    · simp only [List.map_cons, List.nodup_cons, List.mem_map, not_exists, not_and]
      exact ⟨fun s hs heq => (hrest s hs).2.2.1 (by simp [heq]), hids⟩
    · simp only [List.map_cons, List.nodup_cons, List.mem_map, not_exists, not_and]
      exact ⟨fun s hs heq => (hrest s hs).2.2.2 (by simp [heq]), haddrs⟩
    · intro s hs
      rcases List.mem_cons.mp hs with rfl | hs
      · exact ⟨hid, haddr, hidSet, haddrSet⟩
      · obtain ⟨h1, h2, h3, h4⟩ := hrest s hs
        exact ⟨h1, h2, fun hm => h3 (List.mem_cons_of_mem _ hm), fun hm => h4 (List.mem_cons_of_mem _ hm)⟩
    · by_cases hv : server.suffrage = .voter
      · simp only [hv, if_true] at hvoters
        simp only [List.filter_cons, hv, beq_self_eq_true, if_true, List.length_cons]
        omega
      · simp only [hv, if_false] at hvoters
        simp only [List.filter_cons, beq_iff_eq, hv, if_false]
        exact hvoters

/-- What `checkConfiguration` accepts. -/
structure Configuration.Checked (c : Configuration) : Prop where
  ids : (c.servers.map Server.id).Nodup
  addresses : (c.servers.map Server.address).Nodup
  named : ∀ s ∈ c.servers, s.id ≠ [] ∧ s.address ≠ []
  voters : c.voters ≠ []

theorem checked_of_checkConfiguration {c : Configuration} (h : checkConfiguration c = .ok ()) :
    c.Checked := by
  obtain ⟨hids, haddrs, hnamed, hvoters⟩ := checkServers_ok h
  refine ⟨hids, haddrs, fun s hs => ⟨(hnamed s hs).1, (hnamed s hs).2.1⟩, ?_⟩
  intro hnil
  unfold Configuration.voters at hnil
  simp [hnil] at hvoters

theorem Configuration.Checked.distinct {c : Configuration} (h : c.Checked) : c.Distinct :=
  h.ids.sublist (List.filter_sublist.map Server.id)

/-- The old peers format names the voters by their addresses. -/
theorem Configuration.Checked.distinct_peers {c c' : Configuration} (h : c.Checked)
    (hc : decodePeers (encodePeers c) = some c') : c'.Distinct := by
  simp only [encodePeers, decodePeers, Option.some.injEq] at hc
  have haddrs : (c.voters.map Server.address).Nodup :=
    h.addresses.sublist (List.filter_sublist.map Server.address)
  have hids : c'.voterIDs = c.voters.map Server.address := by
    rw [← hc]
    simp [Configuration.voterIDs, Configuration.voters, List.filter_map, Function.comp_def]
  unfold Configuration.Distinct
  rw [hids]
  exact haddrs

theorem checkConfiguration_of_nextConfiguration {current c : Configuration} {i : Nat}
    {change : ConfigurationChangeRequest} (h : nextConfiguration current i change = .ok c) :
    checkConfiguration c = .ok () := by
  unfold nextConfiguration at h
  split at h
  · simp at h
  · dsimp only at h
    split at h
    · simp at h
    · rename_i hcheck
      cases h
      exact hcheck

namespace Raft

variable {r r' : Raft} {env : Env} {o : Outcome} {c : Candidacy}

/-- The entry of an accepted change carries a configuration with distinct voters,
in either format. -/
theorem carries_configurationEntry (r : Raft) {c : Configuration} (h : c.Checked) :
    Carries Configuration.Distinct [r.configurationEntry c] := by
  intro e he c' hc'
  simp only [List.mem_singleton] at he
  rw [he] at hc'
  unfold configurationEntry at hc'
  split at hc'
  · exact h.distinct_peers (by simpa [Log.configuration?] using hc')
  · simp only [Log.configuration?, encodeConfiguration, decodeConfiguration, Option.some.injEq] at hc'
    exact hc' ▸ h.distinct

/-- The configurations other servers send are good. -/
def Receives (G : Configuration → Prop) : Input → Prop
  | .rpc (.appendEntries a) => Carries G a.entries
  | .heartbeat a => Carries G a.entries
  | .rpc (.installSnapshot req) => ∀ c i, requestConfiguration req = some (c, i) → G c
  | _ => True

theorem brings_distinct {input : Input} (h : Receives Configuration.Distinct input) :
    Brings Configuration.Distinct r input := by
  cases input with
  | rpc cmd =>
    cases cmd with
    | appendEntries req => exact h
    | installSnapshot req => exact h
    | _ => trivial
  | heartbeat req => exact h
  | configurationChange req future =>
    intro c hc
    have hchecked := checked_of_checkConfiguration (checkConfiguration_of_nextConfiguration hc)
    exact ⟨hchecked.distinct, carries_configurationEntry r hchecked⟩
  | _ => trivial

/-- The state of the tally of `runCandidate` over the electorate `V`: the votes
counted are those of different members, and the ones still awaited are of others. -/
structure Counted (V : List Server) (c : Candidacy) : Prop where
  distinct : (V.map Server.id).Nodup
  needed : c.votesNeeded = V.length / 2 + 1
  count : c.grantedVotes = c.votes.length
  nodup : c.votes.Nodup
  voters : ∀ id ∈ c.votes, id ∈ V.map Server.id
  asked : ∀ req waiting, c.prevoteCh = some (req, waiting) → waiting.Sublist V
  pending : ∀ ch, c.voteCh = some ch → ch.pending.Sublist V ∧ ∀ s ∈ ch.pending, s.id ∉ c.votes
  idle : c.voteCh = none → c.votes = []
  exclusive : c.prevoteCh.isSome → c.voteCh = none

/-- Some electorate of which `K` holds is counted over. -/
def Tally (K : Raft → Bool → List Server → Prop) (r : Raft) : Prop :=
  ∀ c tested, r.main = .candidate c tested → ∃ V, K r tested V ∧ Counted V c

/-- A step keeps `K`: it holds of the latest configuration when `runCandidate`
starts, it goes on to hold, and an election after a pre-vote asks no one else. -/
structure Electorate (K : Raft → Bool → List Server → Prop) (r r' : Raft) : Prop where
  start : ∀ c, r.main = .call .candidate → r'.main = .candidate c false →
    K r' false r.configurations.latest.voters
  keep : ∀ c c' tested tested' V, r.main = .candidate c tested →
    r'.main = .candidate c' tested' → K r tested V → K r' tested' V
  asked : ∀ c V, r.main = .candidate c true → V ≠ [] → K r true V →
    r.configurations.latest.voters.Sublist V

/-- A new election starts with no votes counted. -/
theorem counted_electSelf (hup : r.down = false) {V : List Server}
    (hdistinct : (V.map Server.id).Nodup) (hsub : r.configurations.latest.voters.Sublist V)
    (hneeded : c.votesNeeded = V.length / 2 + 1) (hvotes : c.votes = [])
    (hcount : c.grantedVotes = 0) (hch : c.voteCh = (r.electSelf env).2.1)
    (hpre : c.prevoteCh = none) : Counted V c := by
  refine ⟨hdistinct, hneeded, by simp [hvotes, hcount], by simp [hvotes], by simp [hvotes],
    by simp [hpre], ?_, fun _ => hvotes, by simp [hpre]⟩
  intro ch hsome
  obtain ⟨rfl, _⟩ := electSelf_voteCh hup (hch ▸ hsome)
  exact ⟨hsub, by simp [hvotes]⟩

theorem Counted.countPreVote {V : List Server} (h : Counted V c)
    (hpre : c.prevoteCh = some (req, waiting)) (voter : Server) (granted : Bool) :
    Counted V (c.countPreVote req (waiting.erase voter) granted) := by
  refine ⟨h.distinct, h.needed, h.count, h.nodup, h.voters, ?_, h.pending, h.idle,
    fun _ => h.exclusive (by simp [hpre])⟩
  intro req' waiting' hpre'
  simp only [Candidacy.countPreVote, Option.some.injEq, Prod.mk.injEq] at hpre'
  rw [← hpre'.2]
  exact List.erase_sublist.trans (h.asked req waiting hpre)

/-- One more vote is counted. -/
theorem Counted.countVote {V : List Server} (h : Counted V c) (hch : c.voteCh = some ch)
    (hmem : voter ∈ ch.pending) (granted : Bool) : Counted V (c.countVote ch voter granted) := by
  obtain ⟨hsub, hfresh⟩ := h.pending ch hch
  have hids : (ch.pending.map Server.id).Nodup := h.distinct.sublist (hsub.map Server.id)
  have hvoter : voter.id ∈ V.map Server.id := List.mem_map_of_mem (hsub.subset hmem)
  have hnone : c.prevoteCh = none := by
    cases hpre : c.prevoteCh with
    | none => rfl
    | some x => simp [h.exclusive (by simp [hpre])] at hch
  have hother : ∀ s ∈ ch.pending.erase voter, s.id ≠ voter.id := by
    intro s hs heq
    have hs' := List.mem_of_mem_erase hs
    have hsv : s = voter := List.inj_on_of_nodup_map hids hs' hmem heq
    have hnodup : ch.pending.Nodup := hids.of_map
    rw [hsv] at hs
    exact hnodup.not_mem_erase hs
  cases granted with
  | false =>
    refine ⟨h.distinct, h.needed, h.count, h.nodup, h.voters, h.asked, ?_,
      by simp [Candidacy.countVote], by simp [Candidacy.countVote, hnone]⟩
    intro ch' hch'
    simp only [Candidacy.countVote, Option.some.injEq] at hch'
    rw [← hch']
    exact ⟨List.erase_sublist.trans hsub, fun s hs => hfresh s (List.mem_of_mem_erase hs)⟩
  | true =>
    refine ⟨h.distinct, h.needed, by simp [Candidacy.countVote, h.count], ?_, ?_, h.asked, ?_,
      by simp [Candidacy.countVote], by simp [Candidacy.countVote, hnone]⟩
    · simp only [Candidacy.countVote, if_true, List.nodup_cons]
      exact ⟨hfresh voter hmem, h.nodup⟩
    · intro id hid
      simp only [Candidacy.countVote, if_true, List.mem_cons] at hid
      rcases hid with rfl | hid
      · exact hvoter
      · exact h.voters id hid
    · intro ch' hch'
      simp only [Candidacy.countVote, Option.some.injEq] at hch'
      rw [← hch']
      refine ⟨List.erase_sublist.trans hsub, ?_⟩
      intro s hs
      simp only [Candidacy.countVote, if_true, List.mem_cons, not_or]
      exact ⟨hother s hs, hfresh s (List.mem_of_mem_erase hs)⟩

section

variable {K : Raft → Bool → List Server → Prop}

theorem tally_of_main (h : ∀ c tested, r.main ≠ .candidate c tested) : Tally K r :=
  fun c tested hmain => absurd hmain (h c tested)

theorem Tally.step (ht : Tally K r) (hdistinct : r.configurations.latest.Distinct)
    (h : r.step input env = some o) (he : Electorate K r o.raft) : Tally K o.raft := by
  intro c tested hm
  obtain ⟨hup, hcampaign⟩ := campaigns_step h hm
  have hkeep : ∀ c₀ tested₀, r.main = .candidate c₀ tested₀ →
      ∃ V, K r tested₀ V ∧ K o.raft tested V ∧ Counted V c₀ := by
    intro c₀ tested₀ hmain
    obtain ⟨V, hK, hcounted⟩ := ht c₀ tested₀ hmain
    exact ⟨V, hK, he.keep c₀ c tested₀ tested V hmain hm hK, hcounted⟩
  cases hcampaign with
  | ask hmain hc hraft hevents =>
    refine ⟨_, he.start c hmain hm, ?_⟩
    rw [hc]
    exact ⟨hdistinct, rfl, rfl, by simp, by simp,
      fun _ _ heq => by cases heq; exact List.Sublist.refl _, by simp, fun _ => rfl, fun _ => rfl⟩
  | start hmain hc hraft hevents =>
    refine ⟨_, he.start c hmain hm, ?_⟩
    rw [hc]
    exact counted_electSelf hup hdistinct (List.Sublist.refl _) rfl rfl rfl rfl rfl
  | elect c₀ req waiting hmain hpre hwaiting hc hraft hevents =>
    obtain ⟨V, hK, hK', hcounted⟩ := hkeep c₀ true hmain
    refine ⟨V, hK', ?_⟩
    have hidle := hcounted.idle (hcounted.exclusive (by simp [hpre]))
    have hcount : c₀.grantedVotes = 0 := by rw [hcounted.count, hidle]; rfl
    have hV : V ≠ [] := by
      rintro rfl
      exact hwaiting (List.sublist_nil.mp (hcounted.asked req waiting hpre))
    rw [hc]
    exact counted_electSelf hup hcounted.distinct (he.asked c₀ V hmain hV hK) hcounted.needed hidle
      hcount rfl rfl
  | countPreVote c₀ req waiting voter granted hmain hpre hc hraft hevents =>
    obtain ⟨V, _, hK', hcounted⟩ := hkeep c₀ true hmain
    rw [hc]
    exact ⟨V, hK', hcounted.countPreVote hpre voter granted⟩
  | countVote c₀ ch voter result hmain hinput hch hmem hc hraft hevents =>
    obtain ⟨V, _, hK', hcounted⟩ := hkeep c₀ true hmain
    rw [hc]
    exact ⟨V, hK', hcounted.countVote hch hmem _⟩
  | test hmain hstate hraft hevents =>
    obtain ⟨V, _, hK', hcounted⟩ := hkeep c false hmain
    exact ⟨V, hK', hcounted⟩
  | rpc cmd hinput hmain hraft hevents =>
    obtain ⟨V, _, hK', hcounted⟩ := hkeep c true hmain
    exact ⟨V, hK', hcounted⟩
  | heartbeat req tested hinput hmain hraft hevents =>
    obtain ⟨V, _, hK', hcounted⟩ := hkeep c tested hmain
    exact ⟨V, hK', hcounted⟩
  | beside tested leaderships down hmain hraft hevents =>
    obtain ⟨V, _, hK', hcounted⟩ := hkeep c tested hmain
    exact ⟨V, hK', hcounted⟩

/-- An election is won with the votes of a majority of the electorate. -/
theorem Tally.won {logs : LogStore} (ht : Tally K r) (h : r.step input env = some o)
    (hmem : .becameLeader T req votes latest logs ∈ o.events) :
    latest = r.configurations.latest ∧ ∃ V, K r true V ∧ votes.Nodup ∧
      (∀ id ∈ votes, id ∈ V.map Server.id) ∧ V.length < 2 * votes.length := by
  cases hdown : r.down with
  | true =>
    obtain ⟨_, r', _, rfl⟩ := step_down h hdown
    simp at hmem
  | false =>
    obtain ⟨voter, result, c, _, hmain, hv⟩ := becameLeader_vote (step_up h hdown) hdown hmem rfl
    obtain ⟨ch, hch, hpending, _, hwon, he, _⟩ := vote_events hv hmem
    cases he
    obtain ⟨V, hK, hcounted⟩ := ht c true hmain
    have hnow := hcounted.countVote hch hpending (r.voteAnswer ch.req voter result).2
    refine ⟨rfl, V, hK, hnow.nodup, hnow.voters, ?_⟩
    have hneeded := hnow.needed
    have hcount := hnow.count
    omega

end

theorem latest_processConfigurationLogEntries (hnone : ∀ e ∈ entries, e.configuration? = none) :
    (r.processConfigurationLogEntries entries).1.configurations.latest =
      r.configurations.latest := by
  refine processConfigurationLogEntries_induct
    (P := fun r' => r'.configurations.latest = r.configurations.latest) rfl ?_
  intro r' entry hmem hr'
  have he := hnone entry hmem
  unfold processConfigurationLogEntry
  unfold Log.configuration? at he
  dsimp only
  split <;> simp_all [setCommittedConfiguration]

theorem latest_storeEntries
    (hsteady : ∀ e ∈ entries, e.configuration? = none ∧ r.configurations.latestIndex < e.index)
    (env : Env) : (r.storeEntries entries env).raft.configurations.latest = r.configurations.latest := by
  refine storeEntries_induct
    (P := fun r' => r'.configurations.latest = r.configurations.latest) rfl ?_ ?_ ?_
  · intro entry hmem
    unfold cut
    rw [if_neg (Nat.not_le.mpr (hsteady entry hmem).2)]
  · intro r' rest hsub hr'
    exact (latest_processConfigurationLogEntries (fun e he => (hsteady e (hsub e he)).1)).trans hr'
  · intro r' index term hr'
    exact hr'

theorem latest_followCommit (r : Raft) (i : Nat) :
    (r.followCommit i).1.configurations.latest = r.configurations.latest := by
  unfold followCommit
  split
  · dsimp only
    rw [processLogs_eq]
    split <;> rfl
  · rfl

/-- An AppendEntries request of the own term that leaves the latest configuration
of a candidate alone. -/
def SteadyAppend (r : Raft) (a : AppendEntriesRequest) : Prop :=
  a.term = r.currentTerm → r.candidateFromLeadershipTransfer = true →
    ∀ e ∈ a.entries, e.configuration? = none ∧ r.configurations.latestIndex < e.index

theorem latest_appendEntries (hsteady : SteadyAppend r a)
    (hstate : (r.appendEntries a env).1.state = .candidate) :
    (r.appendEntries a env).1.configurations.latest = r.configurations.latest := by
  rcases Nat.lt_or_ge a.term r.currentTerm with hlt | hge
  · rw [(appendEntries_stale hlt env).1]
  · have hcontrol := sameControl_appendEntries r a env hge
    have hdata := sameData_followLeader r a env
    rw [hcontrol.state] at hstate
    -- a candidate that stays one was made by a leadership transfer
    have hkeep : ¬(r.currentTerm < a.term ∨
        (r.state ≠ .follower ∧ r.candidateFromLeadershipTransfer = false)) := by
      intro hcond
      unfold followLeader at hstate
      simp only [if_pos hcond] at hstate
      have hfollower := (rpcEffect_follow r hge env.writes).2
      split at hstate
      · simp [hfollower] at hstate
      · simp [setLeader, hfollower] at hstate
    have hentries : ∀ e ∈ a.entries,
        e.configuration? = none ∧ (r.followLeader a env).configurations.latestIndex < e.index := by
      rw [hdata.configurations]
      have hrstate : r.state = .candidate := by
        rcases (rpcEffect_followLeader r a env hge).2 with h | h
        · exact h ▸ hstate
        · simp [h] at hstate
      refine hsteady (by omega) ?_
      by_contra hflag
      exact hkeep (.inr ⟨by simp [hrstate], by simpa using hflag⟩)
    unfold appendEntries
    dsimp only
    rw [if_neg (Nat.not_lt.mpr hge), ← hdata.configurations]
    split
    · rfl
    · split
      · rfl
      · have hstore := latest_storeEntries hentries env
        split
        · rename_i r' hs
          rw [hs] at hstore
          exact hstore
        · rename_i r' hs
          rw [hs] at hstore
          exact hstore
        · rename_i r' hs
          rw [hs] at hstore
          exact (latest_followCommit r' a.leaderCommitIndex).trans hstore

theorem latest_installSnapshot (hterm : req.term ≠ r.currentTerm)
    (hstate : (r.installSnapshot req env).1.state = .candidate) :
    (r.installSnapshot req env).1.configurations.latest = r.configurations.latest := by
  unfold installSnapshot at hstate ⊢
  split at hstate
  · rename_i hv
    rw [if_pos hv]
  rename_i hv
  rw [if_neg hv]
  split at hstate
  · rename_i hlt
    rw [if_pos hlt]
  · rename_i hge
    have hlt : r.currentTerm < req.term := by omega
    have hfollower : (r.followSnapshot req env).state = .follower := by
      have h := (rpcEffect_follow r hlt.le env.writes).2
      unfold followSnapshot
      simp only [if_pos hlt]
      split
      · exact h
      · exact h
    have hreceive := (sameThreads_receiveSnapshot (r.followSnapshot req env) req env).state
    dsimp only at hstate
    split at hstate
    · simp [hfollower] at hstate
    · split at hstate
      · rename_i r' hr
        rw [hr] at hreceive
        exact absurd (hstate.symm.trans (hreceive.trans hfollower)) (by simp)
      · rename_i r' hr
        rw [hr] at hreceive
        exact absurd (hstate.symm.trans (hreceive.trans hfollower)) (by simp)

/-- The steps that leave the electorate of a candidate alone: RPCs come to the main
thread, a candidate gets no InstallSnapshot of its own term, and no AppendEntries
of its own term that would change its configuration. -/
def SteadyElectorate (r : Raft) : Input → Prop
  | .heartbeat _ => False
  | .rpc (.appendEntries a) => (∃ c, r.main = .candidate c true) → SteadyAppend r a
  | .rpc (.installSnapshot req) => (∃ c, r.main = .candidate c true) → req.term ≠ r.currentTerm
  | _ => True

/-- An RPC that leaves a candidate a candidate leaves its configuration alone. -/
theorem latest_processRPC (hsteady : SteadyElectorate r (.rpc cmd))
    (hmain : ∃ c, r.main = .candidate c true)
    (hstate : (r.processRPC cmd env).1.state = .candidate) :
    (r.processRPC cmd env).1.configurations.latest = r.configurations.latest := by
  unfold processRPC at hstate ⊢
  split at hstate
  · rename_i hheader
    rw [if_pos hheader]
  · rename_i hheader
    rw [if_neg hheader]
    cases cmd with
    | appendEntries req => exact latest_appendEntries (hsteady hmain) hstate
    | requestVote req => exact congrArg Configurations.latest (sameData_requestVote r req env).configurations
    | requestPreVote req => rfl
    | installSnapshot req => exact latest_installSnapshot (hsteady hmain) hstate
    | timeoutNow req => rfl

/-- The electorate is that of the latest configuration, unless the loop is about to
end. -/
def CurrentElectorate (r : Raft) (tested : Bool) (V : List Server) : Prop :=
  (tested = true ∨ r.state = .candidate) → V = r.configurations.latest.voters

theorem electorate_current (hsteady : SteadyElectorate r input) (h : r.step input env = some o) :
    Electorate CurrentElectorate r o.raft where
  start := by
    intro c hmain hm _
    obtain ⟨hup, hcampaign⟩ := campaigns_step h hm
    cases hcampaign with
    | ask hmain' hc hraft hevents => rw [hraft]
    | start hmain' hc hraft hevents =>
      rw [hraft]
      simp only [(sameData_electSelf hup env).configurations]
    | _ => simp_all
  keep := by
    intro c c' tested tested' V hmain hm hV ht
    obtain ⟨hup, hcampaign⟩ := campaigns_step h hm
    cases hcampaign with
    | ask hmain' => simp [hmain'] at hmain
    | start hmain' => simp [hmain'] at hmain
    | elect c₀ req waiting hmain' hpre hwaiting hc hraft hevents =>
      rw [hmain'] at hmain
      cases hmain
      rw [hraft]
      simp only [(sameData_electSelf hup env).configurations]
      exact hV (.inl rfl)
    | countPreVote c₀ req waiting voter granted hmain' hpre hc hraft hevents =>
      rw [hmain'] at hmain
      cases hmain
      rw [hraft]
      exact hV (.inl rfl)
    | countVote c₀ ch voter result hmain' hinput hch hmem hc hraft hevents =>
      rw [hmain'] at hmain
      cases hmain
      rw [hraft]
      exact hV (.inl rfl)
    | test hmain' hstate hraft hevents =>
      rw [hraft]
      exact hV (.inr hstate)
    | rpc cmd hinput hmain' hraft hevents =>
      rw [hmain'] at hmain
      cases hmain
      rw [hraft] at ht ⊢
      have hstate : (r.processRPC cmd env).1.state = .candidate := by simpa using ht
      have hlatest := latest_processRPC (hinput ▸ hsteady) ⟨_, hmain'⟩ hstate
      simp only [hlatest]
      exact hV (.inl rfl)
    | heartbeat req tested hinput hmain' hraft hevents =>
      rw [hinput] at hsteady
      exact hsteady.elim
    | beside tested leaderships down hmain' hraft hevents =>
      rw [hmain'] at hmain
      cases hmain
      rw [hraft] at ht ⊢
      exact hV ht
  asked := by
    intro c V hmain _ hV
    rw [hV (.inl rfl)]

end Raft

/-- The condition on the steps of a run: what is received has distinct voters, and
the electorate of a candidate is left alone. -/
def SteadyElection (s : ServerRun) (a : Input × Env) : Prop :=
  Raft.Receives Configuration.Distinct a.1 ∧ s.raft.SteadyElectorate a.1

/-- In every run of a server with distinct voters in every configuration, with the
RPCs on the main thread and the electorate of a candidate left alone, the voters
that were counted for a new leader are different ones and form a majority of its
latest configuration. -/
theorem leader_has_majority {s₀ s : ServerRun} (hinit : serverSystem.init s₀)
    (hstores : s₀.raft.Configured Configuration.Distinct)
    (h : serverSystem.Reaches SteadyElection s₀ s)
    {T : Nat} {req : RequestVoteRequest} {votes : List ServerID} {latest : Configuration}
    {logs : LogStore} (hmem : .becameLeader T req votes latest logs ∈ s.history) :
    votes.Nodup ∧ (∀ id ∈ votes, id ∈ latest.voterIDs) ∧
      latest.voters.length < 2 * votes.length := by
  have hinv := h.invariant
    (P := fun s => (s.raft.Configured Configuration.Distinct ∧
        s.raft.Tally Raft.CurrentElectorate) ∧
      ∀ T req votes latest logs, .becameLeader T req votes latest logs ∈ s.history →
        votes.Nodup ∧ (∀ id ∈ votes, id ∈ latest.voterIDs) ∧
          latest.voters.length < 2 * votes.length) ?_ ?_
  · exact hinv.2 T req votes latest logs hmem
  · intro s a s' ⟨⟨hconf, htally⟩, hwins⟩ hok hs
    obtain ⟨o, ho, rfl⟩ := serverSystem_step hs
    have hdistinct : s.raft.configurations.latest.Distinct := by
      rcases hconf.latest with hnone | hgood
      · rw [hnone]
        exact List.nodup_nil
      · exact hgood
    refine ⟨⟨hconf.step (Raft.brings_distinct hok.1) ho,
      htally.step hdistinct ho (Raft.electorate_current hok.2 ho)⟩, ?_⟩
    intro T req votes latest logs he
    rcases List.mem_append.mp he with he | he
    · obtain ⟨rfl, V, hV, hmajority⟩ := htally.won ho he
      rw [hV (.inl rfl)] at hmajority
      exact hmajority
    · exact hwins T req votes latest logs he
  · obtain ⟨conf, currentTerm, logs, snapshots, rfl⟩ := hinit
    exact ⟨⟨hstores, Raft.tally_of_main (by simp)⟩, by simp⟩

/-- Whether an input is not a request of another server, or entries with good
configurations. -/
def Input.quiet : Input → Bool
  | .rpc (.appendEntries a) =>
    a.entries.all (fun e => e.configuration?.all (fun c => decide c.Distinct))
  | .rpc _ | .heartbeat _ => false
  | _ => true

theorem steadyElection_of_quiet {s : ServerRun} {a : Input × Env} (h : a.1.quiet = true)
    (htransfer : s.raft.candidateFromLeadershipTransfer = false) : SteadyElection s a := by
  obtain ⟨input, env⟩ := a
  cases input with
  | rpc cmd =>
    cases cmd with
    | appendEntries a =>
      refine ⟨?_, ?_⟩
      · intro e he c hc
        simpa [hc] using List.all_eq_true.mp h e he
      · intro _ _ htrue
        rw [htransfer] at htrue
        cases htrue
    | _ => simp [Input.quiet] at h
  | heartbeat req => simp [Input.quiet] at h
  | _ => exact ⟨trivial, trivial⟩

/-- A server takes over a configuration of three voters and is elected by two of them. -/
theorem leader_has_majority_grown :
    ∃ s, serverSystem.init pairStart ∧ pairStart.raft.Configured Configuration.Distinct ∧
      serverSystem.Reaches SteadyElection pairStart s ∧
      ∃ T req votes latest logs,
        .becameLeader T req votes latest logs ∈ s.history ∧ latest.voters.length = 3 ∧
          votes.Nodup ∧ (∀ id ∈ votes, id ∈ latest.voterIDs) ∧
            latest.voters.length < 2 * votes.length := by
  have hplays : serverSystem.plays
      (fun s a => a.1.quiet && !s.raft.candidateFromLeadershipTransfer)
      (fun s => s.history.any (fun e => match e with
        | .becameLeader _ _ _ latest _ => decide (latest.voters.length = 3)
        | _ => false)) pairStart (electedByNewcomer [] 3) = true := by
    decide +kernel
  obtain ⟨s, hreach, hcheck⟩ := System.reaches_of_plays SteadyElection
    (fun _ _ h => steadyElection_of_quiet (Bool.and_eq_true_iff.mp h).1
      (by simpa using (Bool.and_eq_true_iff.mp h).2)) hplays
  have hinit : serverSystem.init pairStart := ⟨_, _, _, _, rfl⟩
  have hstores : pairStart.raft.Configured Configuration.Distinct := by
    refine ⟨.inl rfl, .inl rfl, ?_, by simp [pairStart, loneStart]⟩
    intro e he c hc
    rw [List.mem_singleton.mp he] at hc
    simp only [Log.configuration?, encodeConfiguration, decodeConfiguration, Option.some.injEq] at hc
    rw [← hc]
    decide
  obtain ⟨e, hmem, hp⟩ := List.any_eq_true.mp hcheck
  cases e with
  | becameLeader T req votes latest logs =>
    exact ⟨s, hinit, hstores, hreach, T, req, votes, latest, logs, hmem, of_decide_eq_true hp,
      leader_has_majority hinit hstores hreach hmem⟩
  | _ => simp at hp

/-- Three servers with pre-vote. -/
def preVoters : Deployment :=
  namedDeployment { localID := [], localAddr := [] }
    [voterNamed 65, voterNamed 66, voterNamed 67] checked_three rfl address_three

open Cluster in
/-- `A` leads term 2 and everybody has its no-op. `A` then adds the voter `D`. `B`
and `C` lose contact, and `B` grants `C` a pre-vote. Before `C` takes it from the
channel, TimeoutNow arrives at `C`, and after it the new configuration. -/
def growingElectorate : List (Cluster → Action) :=
  let a := voterNamed 65
  let b := voterNamed 66
  let c := voterNamed 67
  let ask (s : Server) := [act s.id .heartbeatTimer, act s.id .run, act s.id .enter,
    act s.id .loopTest, countPreVote s.id s, act s.id .loopTest]
  let elect (s v : Server) := [countPreVote s.id v, act s.id .loopTest, countVote s.id s,
    act s.id .loopTest] ++ handle v.id 0 ++ [countVote s.id v]
  let copy (j : Nat) (s : Server) := [goroutine a.id 0 j .trigger, goroutine a.id 0 j .send] ++
    handle s.id 0
  boot a.id ++ boot b.id ++ boot c.id ++ ask a ++ handle b.id 0 ++ elect a b ++ lead a.id ++
    copy 0 b ++ copy 1 c ++ [hear a.id 0 0, hear a.id 0 1, act a.id .commit, act a.id .loopTest,
      act a.id (.configurationChange ⟨.addVoter, [68], [68], 0⟩ 0), act a.id .loopTest] ++
    ask b ++ ask c ++ handle b.id 0 ++
    [fun _ => { node := c.id, input := .rpc (.timeoutNow ⟨{}⟩) }, act c.id .loopTest] ++
    copy 1 c ++ elect c b

def Input.isHeartbeat : Input → Bool
  | .heartbeat _ => true
  | _ => false

/-- An election was won without a majority of the voters. -/
def Event.byMinority : Event → Bool
  | .becameLeader _ _ votes latest _ => !decide (latest.voters.length < 2 * votes.length)
  | _ => false

/-- After TimeoutNow a candidate can take over a larger configuration of its own
term and win with the votes that were enough in the old one. -/
theorem leader_without_majority :
    ∃ c, preVoters.system.Reachable (fun _ a => ∀ req, a.input ≠ .heartbeat req) c ∧
      ∃ id T req votes latest logs,
        (id, .becameLeader T req votes latest logs) ∈ c.history ∧
          ¬ latest.voters.length < 2 * votes.length := by
  have htest : ∀ (_ : Cluster) (a : Action), (!a.input.isHeartbeat) = true →
      ∀ req, a.input ≠ .heartbeat req :=
    fun _ _ h req heq => by simp [heq, Input.isHeartbeat] at h
  obtain ⟨c, hreach, ⟨id, e⟩, hmem, hp⟩ : ∃ c,
      preVoters.system.Reachable (fun _ a => ∀ req, a.input ≠ .heartbeat req) c ∧
      ∃ p ∈ c.history, p.2.byMinority = true :=
    System.exists_reachable_of htest rfl growingElectorate (by decide +kernel)
  cases e with
  | becameLeader T req votes latest logs =>
    exact ⟨c, hreach, id, T, req, votes, latest, logs, hmem, by simpa [Event.byMinority] using hp⟩
  | _ => simp [Event.byMinority] at hp

end PerfRaft
