import PerfRaft.Schedule

namespace PerfRaft.Raft

variable {r : Raft}

/-- What both vote handlers ask before they look at the vote recorded: the sender
may vote, it is the leader known, if there is one, and neither its term nor its
last entry is older than ours. -/
structure Supports (r : Raft) (header : RPCHeader) (term lastLogIndex lastLogTerm : Nat) : Prop where
  member : r.configurations.latest.servers ≠ [] →
    inConfiguration r.configurations.latest header.id = true
  leader : r.leaderAddr ≠ [] → r.leaderAddr = header.addr
  term : r.currentTerm ≤ term
  voter : r.configurations.latest.servers ≠ [] → hasVote r.configurations.latest header.id = true
  last : r.upToDate lastLogIndex lastLogTerm = true

theorem requestPreVote_supported (r : Raft) (req : RequestPreVoteRequest) :
    (r.requestPreVote req).granted = true ↔
      r.Supports req.header req.term req.lastLogIndex req.lastLogTerm := by
  unfold requestPreVote
  dsimp only
  split
  · rename_i h
    exact ⟨nofun, fun hs => absurd (hs.member h.1) (by simp [h.2])⟩
  rename_i hmember
  split
  · rename_i h
    exact ⟨nofun, fun hs => absurd (hs.leader h.1) h.2⟩
  rename_i hleader
  split
  · rename_i h
    exact ⟨nofun, fun hs => absurd hs.term (by omega)⟩
  rename_i hterm
  split
  · rename_i h
    refine ⟨fun hgranted => ?_, fun hs => absurd (hs.voter h.1) (by simp [h.2])⟩
    split at hgranted <;> cases hgranted
  rename_i hvoter
  split
  · rename_i h
    refine ⟨fun hgranted => ?_, fun hs => absurd hs.last (by simpa using h)⟩
    split at hgranted <;> cases hgranted
  rename_i hlast
  refine iff_of_true rfl ⟨?_, ?_, by omega, ?_, by simpa using hlast⟩
  · intro hne
    simpa using fun h => hmember ⟨hne, h⟩
  · intro hne
    by_contra h
    exact hleader ⟨hne, h⟩
  · intro hne
    simpa using fun h => hvoter ⟨hne, h⟩

theorem headD_ok {ws : List Write} (h : ∀ w ∈ ws, w = .ok) : ws.headD .ok = .ok := by
  cases ws with
  | nil => rfl
  | cons w ws => exact h w List.mem_cons_self

theorem setCurrentTerm_ok {ws : List Write} (h : ∀ w ∈ ws, w = .ok) (r : Raft) (t : Nat) :
    r.setCurrentTerm t ws = { r with currentTerm := t, stable := { r.stable with currentTerm := t } } := by
  unfold setCurrentTerm
  rw [headD_ok h]
  rfl

/-- The rest of the handler, where no vote is recorded for the term: only the last
entry decides. -/
theorem castVote_supported {req : RequestVoteRequest} {resp : RequestVoteResponse} {env : Env}
    {ws : List Write} (hresp : resp.granted = false)
    (hnone : ¬(r.stable.lastVoteTerm = req.term ∧ r.stable.lastVoteCand.isSome))
    (hws : ∀ w ∈ ws, w = .ok) :
    (r.castVote req resp env ws).2.1.granted = true ↔
      r.upToDate req.lastLogIndex req.lastLogTerm = true := by
  unfold castVote
  rw [if_neg hnone]
  split
  · rename_i h
    exact ⟨fun hgranted => by simp [hresp] at hgranted, fun hs => by simp [hs] at h⟩
  · rename_i h
    have hok : (r.persistVote req.term (candidateBytes req) ws).2 = true := by
      unfold persistVote
      dsimp only
      rw [headD_ok hws, if_neg (by simp), headD_ok (fun w hw => hws w (List.mem_of_mem_tail hw))]
      rfl
    split
    · rename_i heq
      rw [heq] at hok
      cases hok
    · exact iff_of_true rfl (by simpa using h)

/-- A vote request from a named sender that is not part of a leadership transfer,
where no vote is recorded for its term and the writes succeed. -/
theorem requestVote_supported {req : RequestVoteRequest} {env : Env} (hup : r.down = false)
    (hid : req.header.id ≠ []) (haddr : req.header.addr ≠ [])
    (htransfer : req.leadershipTransfer = false) (henv : ∀ w ∈ env.writes, w = .ok)
    (hnone : ¬(r.stable.lastVoteTerm = req.term ∧ r.stable.lastVoteCand.isSome)) :
    (r.requestVote req env).2.1.granted = true ↔
      r.Supports req.header req.term req.lastLogIndex req.lastLogTerm := by
  have hcandidate : candidateBytes req = req.header.addr := if_pos haddr
  unfold requestVote
  dsimp only
  rw [hcandidate]
  split
  · rename_i h
    exact ⟨nofun, fun hs => absurd (hs.member h.2.1) (by simp [h.2.2])⟩
  rename_i hmember
  split
  · rename_i h
    exact ⟨nofun, fun hs => absurd (hs.leader h.1) h.2.1⟩
  rename_i hleader
  split
  · rename_i h
    exact ⟨nofun, fun hs => absurd hs.term (by omega)⟩
  rename_i hterm
  -- the new term and role leave what the rest of the handler reads
  have hrest (r' : Raft) (resp : RequestVoteResponse) (ws : List Write) (hdown : r'.down = false)
      (hresp : resp.granted = false) (hstable : r'.stable.lastVoteTerm = r.stable.lastVoteTerm ∧
        r'.stable.lastVoteCand = r.stable.lastVoteCand)
      (hentry : r'.getLastEntry = r.getLastEntry) (hws : ∀ w ∈ ws, w = .ok) :
      (if r'.down then (r', resp, [])
        else if req.header.id ≠ [] ∧ r.configurations.latest.servers ≠ [] ∧
          hasVote r.configurations.latest req.header.id = false then (r', resp, [])
        else r'.castVote req resp env ws).2.1.granted = true ↔
        r.Supports req.header req.term req.lastLogIndex req.lastLogTerm := by
    have hlast : ∀ i t, r'.upToDate i t = r.upToDate i t := fun i t => by unfold upToDate; rw [hentry]
    rw [hdown, if_neg (by simp)]
    split
    · rename_i h
      refine ⟨fun hgranted => ?_, fun hs => absurd (hs.voter h.2.1) (by simp [h.2.2])⟩
      simp [hresp] at hgranted
    rename_i hvoter
    rw [castVote_supported hresp (by rw [hstable.1, hstable.2]; exact hnone) hws, hlast]
    refine ⟨fun hupToDate => ⟨?_, ?_, by omega, ?_, hupToDate⟩, fun hs => hs.last⟩
    · intro hne
      simpa using fun h => hmember ⟨hid, hne, h⟩
    · intro hne
      by_contra h
      exact hleader ⟨hne, h, htransfer⟩
    · intro hne
      simpa using fun h => hvoter ⟨hid, hne, h⟩
  by_cases hnew : r.currentTerm < req.term
  · rw [if_pos hnew, setCurrentTerm_ok henv]
    exact hrest _ _ _ hup rfl ⟨rfl, rfl⟩ rfl (fun w hw => henv w (List.mem_of_mem_tail hw))
  · rw [if_neg hnew]
    exact hrest r _ _ hup rfl ⟨rfl, rfl⟩ rfl henv

theorem processRPC_requestPreVote (r : Raft) (req : RequestPreVoteRequest) (env : Env) :
    (r.processRPC (.requestPreVote req) env).1 = r := by
  unfold processRPC
  split <;> rfl

/-- A pre-vote is granted if and only if the vote would be, where none is recorded
for the term, and asking for one changes nothing. -/
theorem preVote_predicts_vote (r : Raft) (pre : RequestPreVoteRequest) (req : RequestVoteRequest)
    (env : Env) (hup : r.down = false) (hid : req.header.id ≠ []) (haddr : req.header.addr ≠ [])
    (hpreID : pre.header.id = req.header.id) (hpreAddr : pre.header.addr = req.header.addr)
    (hterm : pre.term = req.term) (hindex : pre.lastLogIndex = req.lastLogIndex)
    (hlogTerm : pre.lastLogTerm = req.lastLogTerm) (htransfer : req.leadershipTransfer = false)
    (henv : ∀ w ∈ env.writes, w = .ok) :
    (¬(r.stable.lastVoteTerm = req.term ∧ r.stable.lastVoteCand.isSome) →
      ((r.requestPreVote pre).granted = true ↔ (r.requestVote req env).2.1.granted = true)) ∧
      (∀ env o, r.step (.rpc (.requestPreVote pre)) env = some o →
        o.raft = { r with main := r.main.again }) := by
  constructor
  · intro hnone
    rw [requestPreVote_supported, requestVote_supported hup hid haddr htransfer henv hnone, hterm, hindex,
      hlogTerm]
    constructor
    · intro hs
      exact ⟨hpreID ▸ hs.member, hpreAddr ▸ hs.leader, hs.term, hpreID ▸ hs.voter, hs.last⟩
    · intro hs
      exact ⟨hpreID ▸ hs.member, hpreAddr ▸ hs.leader, hs.term, hpreID ▸ hs.voter, hs.last⟩
  · intro env o ho
    unfold step at ho
    rw [hup, if_neg (by simp)] at ho
    dsimp only [stepUp] at ho
    split at ho
    · cases ho
      simp only [processRPC_requestPreVote]
    · cases ho

/-- A server of three that knows of no leader, with its log up to entry 3. -/
def leaderless : Raft :=
  { conf := { localID := [66], localAddr := [66] }, currentTerm := 1, lastLogIndex := 3, lastLogTerm := 1
    configurations := { latest := threeServers.configuration, latestIndex := 1 } }

theorem preVote_predicts_vote_granted :
    (leaderless.requestVote { header := { id := [65], addr := [65] }, term := 2, candidate := [65]
                              lastLogIndex := 3, lastLogTerm := 1 } {}).2.1.granted = true :=
  (preVote_predicts_vote leaderless
    { header := { id := [65], addr := [65] }, term := 2, lastLogIndex := 3, lastLogTerm := 1 } _ {}
    rfl (by decide) (by decide) rfl rfl rfl rfl rfl rfl (by simp)).1 (by decide) |>.mp (by decide)

end PerfRaft.Raft
