import PerfRaft.Lib.Quorum
import PerfRaft.Proofs.Majority

namespace PerfRaft

open Lib

/-- Editing servers that are not kept leaves those that are. -/
theorem filter_editFirst {p keep : Server → Bool} {f : Server → Option Server}
    (hp : ∀ s, p s = true → keep s = false) (hf : ∀ s, p s = true → ∀ s' ∈ f s, keep s' = false)
    {servers servers' : List Server} (h : editFirst p f servers = some servers') :
    servers'.filter keep = servers.filter keep := by
  induction servers generalizing servers' with
  | nil => simp [editFirst] at h
  | cons server rest ih =>
    unfold editFirst at h
    split at h
    · rename_i hserver
      cases h
      have hnone : (f server).toList.filter keep = [] := by
        apply List.filter_eq_nil_iff.mpr
        intro s' hs'
        simp [hf server hserver s' (Option.mem_toList.mp hs')]
      rw [List.filter_append, hnone, List.nil_append, List.filter_cons_of_neg (by simp [hp _ hserver])]
    · simp only [Option.map_eq_some_iff] at h
      obtain ⟨rest', hrest, rfl⟩ := h
      rw [List.filter_cons, List.filter_cons, ih hrest]

/-- The loops of `nextConfiguration` touch no server listed under another ID. -/
theorem changeServers_others (servers : List Server) (change : ConfigurationChangeRequest) :
    (changeServers servers change).filter (fun s => s.id != change.serverID) =
      servers.filter (fun s => s.id != change.serverID) := by
  have hedit (p : Server → Bool) (f : Server → Option Server) (otherwise : List Server)
      (hp : ∀ s, p s = true → s.id = change.serverID)
      (hf : ∀ s, p s = true → ∀ s' ∈ f s, s'.id = change.serverID)
      (hnone : otherwise.filter (fun s => s.id != change.serverID) =
        servers.filter (fun s => s.id != change.serverID)) :
      ((editFirst p f servers).getD otherwise).filter (fun s => s.id != change.serverID) =
        servers.filter (fun s => s.id != change.serverID) := by
    cases h : editFirst p f servers with
    | none => exact hnone
    | some servers' =>
      exact filter_editFirst (fun s hs => by simp [hp s hs]) (fun s hs s' hs' => by simp [hf s hs s' hs']) h
  unfold changeServers
  cases hcommand : change.command with
  | addVoter =>
    apply hedit _ _ _ (fun s hs => by simpa using hs) ?_ (by simp)
    intro s hs s' hs'
    simp only [Option.mem_def, Option.some.injEq] at hs'
    rw [← hs']
    split
    · simpa using hs
    · rfl
  | addNonvoter =>
    apply hedit _ _ _ (fun s hs => by simpa using hs) ?_ (by simp)
    intro s hs s' hs'
    simp only [Option.mem_def, Option.some.injEq] at hs'
    rw [← hs']
    split
    · simpa using hs
    · rfl
  | demoteVoter =>
    apply hedit _ _ _ (fun s hs => by simpa using hs) ?_ rfl
    intro s hs s' hs'
    cases hs'
    simpa using hs
  | removeServer =>
    apply hedit _ _ _ (fun s hs => by simpa using hs) ?_ rfl
    intro s hs s' hs'
    cases hs'
  | promote =>
    have hp : ∀ s : Server, (s.id == change.serverID && s.suffrage == .staging) = true →
        s.id = change.serverID := by
      intro s hs
      simp only [Bool.and_eq_true, beq_iff_eq] at hs
      exact hs.1
    apply hedit _ _ _ hp ?_ rfl
    intro s hs s' hs'
    cases hs'
    exact hp s hs

theorem servers_of_nextConfiguration {current next : Configuration} {i : Nat}
    {change : ConfigurationChangeRequest} (h : nextConfiguration current i change = .ok next) :
    next.servers = changeServers current.servers change := by
  unfold nextConfiguration at h
  split at h
  · simp at h
  · dsimp only at h
    split at h
    · simp at h
    · cases h
      rfl

/-- Whether another ID is one of a voter is read from the servers kept. -/
theorem mem_voterIDs_of_ne {c : Configuration} {x id : ServerID} (hx : x ≠ id) :
    x ∈ c.voterIDs ↔
      ∃ s ∈ c.servers.filter (fun s => s.id != id), s.suffrage = .voter ∧ s.id = x := by
  simp only [Configuration.voterIDs, Configuration.voters, List.mem_map, List.mem_filter,
    beq_iff_eq, bne_iff_ne]
  constructor
  · rintro ⟨s, ⟨hs, hvoter⟩, rfl⟩
    exact ⟨s, ⟨hs, hx⟩, hvoter, rfl⟩
  · rintro ⟨s, ⟨hs, _⟩, hvoter, rfl⟩
    exact ⟨s, ⟨hs, hvoter⟩, rfl⟩

theorem voterIDs_of_nextConfiguration {current next : Configuration} {i : Nat}
    {change : ConfigurationChangeRequest} (h : nextConfiguration current i change = .ok next)
    {x : ServerID} (hx : x ≠ change.serverID) : x ∈ current.voterIDs ↔ x ∈ next.voterIDs := by
  rw [mem_voterIDs_of_ne hx, mem_voterIDs_of_ne hx, servers_of_nextConfiguration h,
    changeServers_others]

/-- A change that `nextConfiguration` accepts gives a configuration that passes the
check again, whose voters differ in one server at most, so that majorities of both
overlap, and in which the other servers are as before, in their order. A change
made against another index is refused. -/
theorem nextConfiguration_overlaps (current : Configuration)
    (hcurrent : checkConfiguration current = .ok ()) (currentIndex : Nat)
    (change : ConfigurationChangeRequest) :
    (∀ next, nextConfiguration current currentIndex change = .ok next →
      checkConfiguration next = .ok () ∧ next.Checked ∧
      (∀ x, x ≠ change.serverID → (x ∈ current.voterIDs ↔ x ∈ next.voterIDs)) ∧
      (∀ Q Q', Majority current.voterIDs Q → Majority next.voterIDs Q' → ∃ x ∈ Q, x ∈ Q') ∧
      next.servers.filter (fun s => s.id != change.serverID) =
        current.servers.filter (fun s => s.id != change.serverID)) ∧
    (change.prevIndex ≠ 0 → change.prevIndex ≠ currentIndex →
      nextConfiguration current currentIndex change =
        .error (.changedSince change.prevIndex currentIndex)) := by
  constructor
  · intro next hnext
    have hchecked := checked_of_checkConfiguration (checkConfiguration_of_nextConfiguration hnext)
    have hiff : ∀ x, x ≠ change.serverID → (x ∈ current.voterIDs ↔ x ∈ next.voterIDs) :=
      fun x hx => voterIDs_of_nextConfiguration hnext hx
    refine ⟨checkConfiguration_of_nextConfiguration hnext, hchecked, hiff, ?_, ?_⟩
    · intro Q Q' hQ hQ'
      exact hQ.inter_of_iff hQ' (checked_of_checkConfiguration hcurrent).distinct hchecked.distinct hiff
    · rw [servers_of_nextConfiguration hnext, changeServers_others]
  · intro hzero hne
    unfold nextConfiguration
    rw [if_pos ⟨Nat.pos_of_ne_zero hzero, hne⟩]

/-- With one of three voters demoted, the two left meet any two of the three. -/
theorem nextConfiguration_overlaps_demoted :
    nextConfiguration threeServers.configuration 4
        { command := .demoteVoter, serverID := [65], prevIndex := 4 } =
      .ok ⟨[{ voterNamed 65 with suffrage := .nonvoter }, voterNamed 66, voterNamed 67]⟩ ∧
    ∀ Q, Majority threeServers.configuration.voterIDs Q → ∃ x ∈ Q, x ∈ [[66], [67]] := by
  refine ⟨by decide, fun Q hQ => ?_⟩
  have h := (nextConfiguration_overlaps threeServers.configuration (by decide) 4
    { command := .demoteVoter, serverID := [65], prevIndex := 4 }).1 _ rfl
  exact h.2.2.2.1 Q [[66], [67]] hQ ⟨by decide, by decide, by decide⟩

/-- The request to add the voter `B`. -/
def addVoterB : ConfigurationChangeRequest := { command := .addVoter, serverID := [66], serverAddress := [66] }

/-- The servers that are counted in the commitment. -/
def Commitment.voters (c : Commitment) : List ServerID := c.matchIndexes.map Prod.fst

theorem mem_voters_setConfiguration (c : Commitment) (configuration : Configuration) (id : ServerID) :
    id ∈ (c.setConfiguration configuration).voters ↔ id ∈ configuration.voterIDs := by
  have hkeys : (c.setConfiguration configuration).voters = configuration.voterIDs.dedup := by
    unfold Commitment.voters Commitment.setConfiguration Commitment.recalculate
    split
    · simp [Function.comp_def]
    · split <;> simp [Function.comp_def]
  rw [hkeys, List.mem_dedup]

/-- The peers with a goroutine that was not told to stop. -/
def replicatedPeers (repl : List FollowerReplication) : List ServerID :=
  (repl.filter (fun s => s.stopCh.isNone)).map (fun s => s.peer.id)

theorem mem_replicatedPeers {repl : List FollowerReplication} {id : ServerID} :
    id ∈ replicatedPeers repl ↔ ∃ s ∈ repl, s.stopCh.isNone = true ∧ s.peer.id = id := by
  simp [replicatedPeers, and_assoc]

namespace Raft

variable {r : Raft} {repl : List FollowerReplication} {id : ServerID}

theorem mem_peers_startReplication (r : Raft) (repl : List FollowerReplication) (server : Server) :
    id ∈ replicatedPeers (r.startReplication repl server) ↔
      id ∈ replicatedPeers repl ∨ (id ≠ r.localID ∧ server.id = id) := by
  unfold startReplication
  split
  · rename_i hlocal
    refine ⟨.inl, ?_⟩
    rintro (h | ⟨hne, rfl⟩)
    · exact h
    · exact absurd hlocal hne
  · rename_i hlocal
    split
    · -- the goroutine of a known peer goes on under the same ID
      rename_i hknown
      have hmap : replicatedPeers (repl.map (fun s =>
          if s.stopCh.isNone ∧ s.peer.id = server.id ∧ s.peer.address ≠ server.address then
            { s with peer := server } else s)) = replicatedPeers repl := by
        unfold replicatedPeers
        rw [List.filter_map, List.map_map]
        have hstop : (fun s : FollowerReplication => s.stopCh.isNone) ∘ (fun s =>
            if s.stopCh.isNone ∧ s.peer.id = server.id ∧ s.peer.address ≠ server.address then
              { s with peer := server } else s) = fun s => s.stopCh.isNone := by
          funext s
          simp only [Function.comp_apply]
          split <;> rfl
        rw [hstop]
        apply List.map_congr_left
        intro s _
        simp only [Function.comp_apply]
        split
        · rename_i h
          exact h.2.1.symm
        · rfl
      rw [hmap]
      refine ⟨.inl, ?_⟩
      rintro (h | ⟨_, rfl⟩)
      · exact h
      · obtain ⟨s, hs, hp⟩ := List.any_eq_true.mp hknown
        simp only [Bool.and_eq_true, beq_iff_eq] at hp
        exact mem_replicatedPeers.mpr ⟨s, hs, hp.1, hp.2⟩
    · rw [mem_replicatedPeers, mem_replicatedPeers]
      constructor
      · rintro ⟨s, hs, hrun, rfl⟩
        rcases List.mem_append.mp hs with hs | hs
        · exact .inl ⟨s, hs, hrun, rfl⟩
        · rw [List.mem_singleton] at hs
          rw [hs]
          exact .inr ⟨hlocal, rfl⟩
      · rintro (⟨s, hs, h⟩ | ⟨_, rfl⟩)
        · exact ⟨s, List.mem_append_left _ hs, h⟩
        · exact ⟨_, List.mem_append_right _ (List.mem_singleton.mpr rfl), rfl, rfl⟩

theorem mem_peers_foldl (r : Raft) (servers : List Server) (repl : List FollowerReplication) :
    id ∈ replicatedPeers (servers.foldl r.startReplication repl) ↔
      id ∈ replicatedPeers repl ∨ (id ≠ r.localID ∧ ∃ s ∈ servers, s.id = id) := by
  induction servers generalizing repl with
  | nil => simp
  | cons server rest ih =>
    rw [List.foldl_cons, ih, mem_peers_startReplication, or_assoc, ← and_or_left]
    simp only [List.mem_cons, exists_eq_or_imp]

theorem stopReplication_running (r : Raft) (s : FollowerReplication) :
    (r.stopReplication s).peer = s.peer ∧ ((r.stopReplication s).stopCh.isNone = true ↔
      s.stopCh.isNone = true ∧
        (s.peer.id ≠ r.localID ∧ ∃ server ∈ r.configurations.latest.servers, server.id = s.peer.id)) := by
  have hany : r.configurations.latest.servers.any
        (fun server => server.id != r.localID && server.id == s.peer.id) = true ↔
      s.peer.id ≠ r.localID ∧ ∃ server ∈ r.configurations.latest.servers, server.id = s.peer.id := by
    simp only [List.any_eq_true, Bool.and_eq_true, bne_iff_ne, beq_iff_eq]
    constructor
    · rintro ⟨server, hmem, hne, heq⟩
      exact ⟨heq ▸ hne, server, hmem, heq⟩
    · rintro ⟨hne, server, hmem, heq⟩
      exact ⟨server, hmem, heq ▸ hne, heq⟩
  unfold stopReplication
  split
  · rename_i h
    refine ⟨rfl, nofun, fun hrun => ?_⟩
    rw [hany.mpr hrun.2] at h
    exact absurd h.2 (by simp)
  · rename_i h
    refine ⟨rfl, fun hrun => ⟨hrun, hany.mp ?_⟩, fun hrun => hrun.1⟩
    simpa using fun hnone => h ⟨hrun, hnone⟩

/-- `startStopReplication` leaves goroutines for the other servers of the latest
configuration. -/
theorem mem_peers_startStop (r : Raft) (repl : List FollowerReplication) :
    id ∈ replicatedPeers ((r.configurations.latest.servers.foldl r.startReplication repl).map
        r.stopReplication) ↔
      id ≠ r.localID ∧ ∃ s ∈ r.configurations.latest.servers, s.id = id := by
  have hmap : id ∈ replicatedPeers ((r.configurations.latest.servers.foldl r.startReplication repl).map
        r.stopReplication) ↔
      id ∈ replicatedPeers (r.configurations.latest.servers.foldl r.startReplication repl) ∧
        (id ≠ r.localID ∧ ∃ s ∈ r.configurations.latest.servers, s.id = id) := by
    rw [mem_replicatedPeers, mem_replicatedPeers]
    constructor
    · rintro ⟨s', hs', hrun, rfl⟩
      obtain ⟨s, hs, rfl⟩ := List.mem_map.mp hs'
      obtain ⟨hpeer, hiff⟩ := stopReplication_running r s
      rw [hpeer]
      exact ⟨⟨s, hs, (hiff.mp hrun).1, rfl⟩, (hiff.mp hrun).2⟩
    · rintro ⟨⟨s, hs, hrun, rfl⟩, hin⟩
      obtain ⟨hpeer, hiff⟩ := stopReplication_running r s
      exact ⟨r.stopReplication s, List.mem_map_of_mem hs, hiff.mpr ⟨hrun, hin⟩, by rw [hpeer]⟩
  rw [hmap, mem_peers_foldl]
  exact ⟨fun h => h.2, fun h => ⟨.inr h, h⟩⟩

/-- A leadership counts the voters of the latest configuration and replicates to its
other servers. -/
structure InStep (r : Raft) (ls : LeaderState) : Prop where
  voters : ∀ id, id ∈ ls.commitment.voters ↔ id ∈ r.configurations.latest.voterIDs
  peers : ∀ id, id ∈ replicatedPeers ls.replState ↔
    id ≠ r.localID ∧ ∃ s ∈ r.configurations.latest.servers, s.id = id

/-- The configurations, the voters counted and the peers replicated to are the same. -/
structure Unaffected (r r' : Raft) : Prop where
  configurations : r'.configurations = r.configurations
  leaderships : ∀ ls ls', r.leaderships.head? = some ls → r'.leaderships.head? = some ls' →
    (∀ id, id ∈ ls'.commitment.voters ↔ id ∈ ls.commitment.voters) ∧
      ∀ id, id ∈ replicatedPeers ls'.replState ↔ id ∈ replicatedPeers ls.replState

theorem dispatchLogs_unstored {ls : LeaderState} {rest : List LeaderState}
    (hls : r.leaderships = ls :: rest) (applyLogs : List LogFuture) {env : Env}
    (henv : env.storeLogs = false) :
    ∃ inflight, (r.dispatchLogs applyLogs env).1 =
      { r.setState .follower with leaderships := { ls with inflight := inflight } :: rest } := by
  unfold dispatchLogs modifyLeaderState
  simp only [henv, if_true, hls, List.modifyHead_cons]
  exact ⟨_, rfl⟩

/-- Counting the voters of the latest configuration and starting and stopping the
goroutines puts a leadership in step. -/
theorem inStep_startStopReplication {ls : LeaderState} {rest : List LeaderState}
    (hls : r.leaderships = ls :: rest)
    (hvoters : ∀ id, id ∈ ls.commitment.voters ↔ id ∈ r.configurations.latest.voterIDs) :
    ∃ ls', r.startStopReplication = { r with leaderships := ls' :: rest } ∧
      InStep r.startStopReplication ls' := by
  unfold startStopReplication modifyLeaderState
  rw [hls, List.modifyHead_cons]
  exact ⟨_, rfl, hvoters, fun id => mem_peers_startStop r ls.replState⟩

/-- What an accepted change does when its entry could not be stored: it is taken over
all the same, at the index after the last one. -/
theorem appendConfigurationEntry_unstored {ls : LeaderState} {rest : List LeaderState}
    (hls : r.leaderships = ls :: rest) {req : ConfigurationChangeRequest} {configuration : Configuration}
    (hnext : nextConfiguration r.configurations.latest r.configurations.latestIndex req =
      .ok configuration) (future : Nat) {env : Env} (henv : env.storeLogs = false) :
    ∃ ls', (r.appendConfigurationEntry req future env).1 =
        { r.setState .follower with
          configurations := { r.configurations with
            latest := configuration, latestIndex := r.getLastIndex + 1 }
          leaderships := ls' :: rest } ∧
      InStep (r.appendConfigurationEntry req future env).1 ls' := by
  unfold appendConfigurationEntry
  rw [hnext]
  obtain ⟨inflight, hdispatch⟩ := dispatchLogs_unstored hls
    [⟨future, r.configurationEntry configuration⟩] henv
  dsimp only
  rw [hdispatch]
  obtain ⟨ls', heq, hstep⟩ := inStep_startStopReplication (r := { r.setState .follower with
      configurations := { r.configurations with
        latest := configuration, latestIndex := r.getLastIndex + 1 }
      leaderships := { ls with
        inflight := inflight, commitment := ls.commitment.setConfiguration configuration } :: rest })
    rfl (fun id => mem_voters_setConfiguration _ _ id)
  exact ⟨ls', heq, hstep⟩

/-- A change whose entry cannot be stored keeps the committed configuration. It is
without effect altogether if and only if it gives the latest configuration again and
this one already has the index after the last one. That is never so for a leader that
takes changes, whose latest configuration is committed and hence not beyond its last
index. -/
theorem unstored_change_unaffected (r : Raft) {ls : LeaderState} {rest : List LeaderState}
    (hls : r.leaderships = ls :: rest) (hstep : r.InStep ls) (req : ConfigurationChangeRequest)
    (configuration : Configuration)
    (hnext : nextConfiguration r.configurations.latest r.configurations.latestIndex req =
      .ok configuration) (future : Nat) {env : Env} (henv : env.storeLogs = false) :
    (r.appendConfigurationEntry req future env).1.configurations.committed = r.configurations.committed ∧
      (r.appendConfigurationEntry req future env).1.configurations.committedIndex =
        r.configurations.committedIndex ∧
      (r.Unaffected (r.appendConfigurationEntry req future env).1 ↔
        configuration = r.configurations.latest ∧ r.configurations.latestIndex = r.getLastIndex + 1) ∧
      (r.configurationChangeChIfStable = true → r.configurations.committedIndex ≤ r.getLastIndex →
        ¬ r.Unaffected (r.appendConfigurationEntry req future env).1) := by
  obtain ⟨ls', heq, hstep'⟩ := appendConfigurationEntry_unstored hls hnext future henv
  generalize (r.appendConfigurationEntry req future env).1 = r' at *
  have hconf : r'.configurations =
      { r.configurations with latest := configuration, latestIndex := r.getLastIndex + 1 } := by rw [heq]
  have hls' : r'.leaderships = ls' :: rest := by rw [heq]
  have hlocal : r'.localID = r.localID := by rw [heq]; rfl
  have hgiven (h : r.Unaffected r') :
      configuration = r.configurations.latest ∧ r.configurations.latestIndex = r.getLastIndex + 1 := by
    have hsame := hconf.symm.trans h.configurations
    exact ⟨congrArg Configurations.latest hsame, (congrArg Configurations.latestIndex hsame).symm⟩
  refine ⟨by rw [hconf], by rw [hconf], ⟨hgiven, ?_⟩, ?_⟩
  · rintro ⟨hlatest, hindex⟩
    have hsame : r'.configurations = r.configurations := by
      rw [hconf, hlatest, ← hindex]
    refine ⟨hsame, ?_⟩
    intro ls₁ ls₂ h₁ h₂
    rw [hls] at h₁
    rw [hls'] at h₂
    cases h₁
    cases h₂
    constructor
    · intro id
      rw [hstep'.voters, hstep.voters, hsame]
    · intro id
      rw [hstep'.peers, hstep.peers, hsame, hlocal]
  · intro hstable hcommitted h
    have hlatest := latestIndex_of_stable hstable
    have hbeyond := (hgiven h).2
    omega

/-- A leadership of `A` that counts `A` and `B` and replicates to `B`. -/
def leadingB : LeaderState :=
  { term := 2, commitment := { matchIndexes := [([65], 2), ([66], 0)], startIndex := 2 }
    replState := [{ peer := voterNamed 66, currentTerm := 2, nextIndex := 3 }] }

/-- A leader whose latest configuration, with the voter `B`, is already at the index
after its last entry. -/
def holdingB : Raft :=
  { conf := { localID := [65], localAddr := [65] }, state := .leader, lastLogIndex := 2
    configurations :=
      { committed := ⟨[voterNamed 65]⟩, committedIndex := 1
        latest := ⟨[voterNamed 65, voterNamed 66]⟩, latestIndex := 3 }
    leaderships := [leadingB] }

theorem unstored_change_unaffected_again :
    holdingB.Unaffected (holdingB.appendConfigurationEntry addVoterB 0 { storeLogs := false }).1 := by
  have hstep : holdingB.InStep leadingB := by
    refine ⟨fun id => Iff.rfl, fun id => ?_⟩
    have hmem : id ∈ replicatedPeers leadingB.replState ↔ id = [66] := List.mem_singleton
    rw [hmem]
    constructor
    · rintro rfl
      exact ⟨by decide, voterNamed 66, by decide, rfl⟩
    · rintro ⟨hne, s, hs, rfl⟩
      simp only [holdingB, List.mem_cons, List.not_mem_nil, or_false] at hs
      rcases hs with rfl | rfl
      · exact absurd rfl hne
      · rfl
  exact (unstored_change_unaffected holdingB rfl hstep addVoterB ⟨[voterNamed 65, voterNamed 66]⟩ (by decide) 0
    rfl).2.2.1.mpr (by decide)

end Raft

/-- The only voter is elected and commits its no-op. -/
def loneLeader : List (ServerRun → Input × Env) :=
  loneElection ++ [Input.run, .enter, .enter, .loopTest, .commit, .loopTest].map (fun input _ => (input, ({} : Env)))

set_option synthInstance.maxSize 500 in
/-- The log store fails when the leader is to add the voter `B`. Its log is the same,
but `B` is in its latest configuration, counted for commitment and replicated to. -/
theorem unstored_change_takes_effect :
    ∃ s s', serverSystem.Reachable (fun _ _ => True) s ∧ s.raft.state = .leader ∧
      nextConfiguration s.raft.configurations.latest s.raft.configurations.latestIndex addVoterB =
        .ok ⟨[voterNamed 65, voterNamed 66]⟩ ∧
      s.step (.configurationChange addVoterB 0, { storeLogs := false }) = some s' ∧
      s'.raft.logs = s.raft.logs ∧
      s'.raft.configurations.latest = ⟨[voterNamed 65, voterNamed 66]⟩ ∧
      s.raft.configurations.latest = ⟨[voterNamed 65]⟩ ∧
      s'.raft.leaderships.map (fun ls => (ls.commitment.voters, replicatedPeers ls.replState)) =
        [([[65], [66]], [[66]])] ∧
      s.raft.leaderships.map (fun ls => (ls.commitment.voters, replicatedPeers ls.replState)) =
        [([[65]], [])] := by
  simp only [exists_and_left]
  exact System.exists_reachable (s := loneStart) ⟨_, _, _, _, rfl⟩ loneLeader (by decide +kernel)

end PerfRaft
