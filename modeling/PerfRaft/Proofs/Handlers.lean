import PerfRaft.Proofs.Elections
import PerfRaft.Proofs.Requests

namespace PerfRaft

open Lib Replicated

namespace Raft

variable {r r' : Raft} {env : Env}

/-- Take over the term `t` as a follower. -/
def toTerm (r : Raft) (t : Nat) : Raft :=
  { r.setState .follower with
    stable := { r.stable with currentTerm := t }
    currentTerm := t }

theorem setCurrentTerm_nil (r : Raft) (t : Nat) :
    r.setCurrentTerm t [] =
      { r with stable := { r.stable with currentTerm := t }, currentTerm := t } := by
  simp [setCurrentTerm, write, Write.applied]

theorem persistVote_nil (r : Raft) (term : Nat) (candidate : Bytes) :
    r.persistVote term candidate [] = ({ r with stable := r.stable.vote term candidate }, true) := by
  simp [persistVote, write, Write.applied, StableStore.vote]

/-- What `requestVote` does when no write fails, from the server `r` to `r'`. -/
inductive Votes (r : Raft) (req : RequestVoteRequest) (env : Env) : Raft → List Event → Prop where
  | ignore : Votes r req env r []
  | refuse (hlt : r.currentTerm < req.term) : Votes r req env (r.toTerm req.term) []
  /-- The vote is on disk already. -/
  | again (r₁ : Raft) (hterm : r₁.currentTerm = req.term)
      (hr₁ : r₁ = r ∨ (r.currentTerm < req.term ∧ r₁ = r.toTerm req.term))
      (hvote : r.stable.lastVoteTerm = req.term)
      (hcand : r.stable.lastVoteCand = some (candidateBytes req)) :
      Votes r req env r₁ [.voteGranted req.term (candidateBytes req)]
  | grant (r₁ : Raft) (hterm : r₁.currentTerm = req.term)
      (hr₁ : r₁ = r ∨ (r.currentTerm < req.term ∧ r₁ = r.toTerm req.term))
      (hnew : ¬(r.stable.lastVoteTerm = req.term ∧ r.stable.lastVoteCand.isSome))
      (hlog : r.upToDate req.lastLogIndex req.lastLogTerm = true) :
      Votes r req env
        { r₁ with stable := r₁.stable.vote req.term (candidateBytes req), lastContact := env.now }
        [.voteChecked req.term (candidateBytes req), .voteGranted req.term (candidateBytes req)]

theorem votes_castVote (r₁ : Raft) {req : RequestVoteRequest} {resp : RequestVoteResponse}
    (hterm : r₁.currentTerm = req.term)
    (hr₁ : r₁ = r ∨ (r.currentTerm < req.term ∧ r₁ = r.toTerm req.term)) :
    Votes r req env (r₁.castVote req resp env []).1 (r₁.castVote req resp env []).2.2 := by
  have hstable : r₁.stable.lastVoteTerm = r.stable.lastVoteTerm ∧
      r₁.stable.lastVoteCand = r.stable.lastVoteCand := by
    rcases hr₁ with rfl | ⟨_, rfl⟩
    · exact ⟨rfl, rfl⟩
    · exact ⟨rfl, rfl⟩
  have hlast : r₁.upToDate = r.upToDate := by
    rcases hr₁ with rfl | ⟨_, rfl⟩
    · rfl
    · rfl
  have hrefuse : Votes r req env r₁ [] := by
    rcases hr₁ with rfl | ⟨hlt, rfl⟩
    · exact .ignore
    · exact .refuse hlt
  unfold castVote
  rw [hstable.1, hstable.2, hlast]
  split
  · rename_i hvoted
    split
    · rename_i hsame
      exact .again r₁ hterm hr₁ hvoted.1 hsame
    · exact hrefuse
  · rename_i hvoted
    split
    · exact hrefuse
    · rename_i hlog
      rw [persistVote_nil]
      exact .grant r₁ hterm hr₁ hvoted (by simpa using hlog)

theorem votes_requestVote (r : Raft) (henv : env.writes = []) (req : RequestVoteRequest) :
    Votes r req env (r.requestVote req env).1 (r.requestVote req env).2.2 := by
  obtain ⟨_, hr | ⟨heq, -, hr⟩ | ⟨_, hlt, rfl, hr | ⟨-, hr⟩⟩, -⟩ := requestVote_cases r req env <;>
    rw [hr]
  · exact .ignore
  · rw [henv]
    exact votes_castVote r heq (.inl rfl)
  · rw [henv, setCurrentTerm_nil]
    exact .refuse hlt
  · rw [henv, setCurrentTerm_nil]
    exact votes_castVote (r.toTerm req.term) rfl (.inr ⟨hlt, rfl⟩)

/-- The loop of `electSelf` when no write fails: at most our own vote is written. -/
theorem askVoters_nil (r : Raft) (req : RequestVoteRequest) (servers : List Server) :
    ∃ r' asked events, r.askVoters req [] servers = (r', true, asked, events) ∧
      (∀ e ∈ events, e = .voteGranted req.term req.header.addr) ∧
      ((events = [] ∧ r' = r) ∨ (events ≠ [] ∧
        r' = { r with stable := r.stable.vote req.term req.header.addr })) := by
  induction servers generalizing r with
  | nil => exact ⟨r, [], [], rfl, by simp, .inl ⟨rfl, rfl⟩⟩
  | cons server rest ih =>
    unfold askVoters
    split
    · exact ih r
    · split
      · rw [persistVote_nil]
        obtain ⟨r', asked, events, hask, hall, hr'⟩ :=
          ih { r with stable := r.stable.vote req.term req.header.addr }
        simp only [List.drop_nil, hask]
        refine ⟨r', asked, _, rfl, ?_, .inr ⟨by simp, ?_⟩⟩
        · intro e he
          rcases List.mem_cons.mp he with rfl | he
          · rfl
          · exact hall e he
        · rcases hr' with ⟨_, rfl⟩ | ⟨_, rfl⟩
          · rfl
          · rfl
      · obtain ⟨r', asked, events, hask, hrest⟩ := ih r
        simp only [hask]
        exact ⟨r', server :: asked, events, rfl, hrest⟩

/-- `electSelf` when no write fails. -/
theorem electSelf_nil (hup : r.down = false) (henv : env.writes = []) :
    ∃ (r' : Raft) (asked : List Server) (events : List Event), r.electSelf env =
        (r', some ⟨r.nextTerm.voteRequest, r.configurations.latest.voters⟩,
          asked.map (fun server => (server, .requestVote r.nextTerm.voteRequest)), events) ∧
      (∀ e ∈ events, e = .voteGranted (r.currentTerm + 1) r.localAddr) ∧
      ((events = [] ∧ r' = r.nextTerm) ∨ (events ≠ [] ∧
        r' = { r.nextTerm with
          stable := r.nextTerm.stable.vote (r.currentTerm + 1) r.localAddr })) := by
  have hnext : r.setCurrentTerm (r.currentTerm + 1) [] = r.nextTerm := setCurrentTerm_nil r _
  have hdown : r.nextTerm.down = false := hup
  obtain ⟨r', asked, events, hask, hall, hr'⟩ :=
    askVoters_nil r.nextTerm r.nextTerm.voteRequest r.configurations.latest.servers
  have hlatest : r.nextTerm.configurations = r.configurations := rfl
  have hconf : r'.configurations = r.configurations := by
    rcases hr' with ⟨_, rfl⟩ | ⟨_, rfl⟩
    · rfl
    · rfl
  refine ⟨r', asked, events, ?_, hall, hr'⟩
  simp only [electSelf, henv, hnext, hdown, hlatest, List.tail_nil, hask, hconf, Bool.false_eq_true,
    if_false, if_true]

/-- The head of `appendEntries` when no write fails. -/
theorem followLeader_nil (hup : r.down = false) (henv : env.writes = [])
    {a : AppendEntriesRequest} (hle : r.currentTerm ≤ a.term) :
    (r.followLeader a env).down = false ∧ (r.followLeader a env).currentTerm = a.term ∧
      (r.currentTerm = r.stable.currentTerm →
        (r.followLeader a env).stable = { r.stable with currentTerm := a.term }) ∧
      SameData r (r.followLeader a env) := by
  refine ⟨?_, ?_, fun hterm => ?_, sameData_followLeader r a env⟩
  all_goals
    unfold followLeader
    rw [henv, setCurrentTerm_nil]
    dsimp only
    split
  · rw [if_neg (by simp [setState, setLeader, hup])]
    exact hup
  · rw [if_neg (by simp [hup])]
    exact hup
  · rw [if_neg (by simp [setState, setLeader, hup])]
    rfl
  · rename_i hno
    rw [if_neg (by simp [hup])]
    simp only [setLeader]
    omega
  · rw [if_neg (by simp [setState, setLeader, hup])]
    rfl
  · rename_i hno
    rw [if_neg (by simp [hup])]
    have heq : a.term = r.stable.currentTerm := by omega
    rw [heq]
    rfl

theorem LastCached.sameData (h : LastCached r) (hs : SameData r r') : LastCached r' where
  lastLogIndex := by rw [hs.lastLogIndex, hs.logs, h.lastLogIndex]
  lastLogTerm := by rw [hs.lastLogTerm, hs.logs, h.lastLogTerm]

theorem Cached.sameData (h : Cached r) (hs : SameData r r') : Cached r' where
  toLastCached := h.toLastCached.sameData hs
  lastSnapshotIndex := by rw [hs.lastSnapshotIndex, h.lastSnapshotIndex]

/-- Moving the commit index touches neither the log nor the threads. -/
theorem followCommit_eq (r : Raft) (leaderCommitIndex : Nat) :
    (r.followCommit leaderCommitIndex).1 =
      { r with
        commitIndex := (r.followCommit leaderCommitIndex).1.commitIndex
        configurations := (r.followCommit leaderCommitIndex).1.configurations
        lastApplied := (r.followCommit leaderCommitIndex).1.lastApplied
        down := (r.followCommit leaderCommitIndex).1.down } := by
  unfold followCommit
  split
  · dsimp only
    rw [processLogs_eq]
    split <;> rfl
  · rfl

theorem verifyPrevious_sameData (h : SameData r r') (req : AppendEntriesRequest) :
    r'.verifyPrevious req = r.verifyPrevious req := by
  unfold verifyPrevious getLastEntry
  rw [h.logs, h.lastLogIndex, h.lastLogTerm, h.lastSnapshotIndex, h.lastSnapshotTerm]

/-- A request is not answered with success. -/
def Refuses (response : Response) : Prop := ∀ resp, response = .appendEntries resp → resp.success = false

variable {req : AppendEntriesRequest}

/-- A request whose previous entry is not found leaves everything but the term and
the leader as it was. -/
theorem appendEntries_refused (hup : r.down = false)
    (henv : env.writes = []) (hle : r.currentTerm ≤ req.term) (hprev : r.verifyPrevious req = false) :
    r.appendEntries req env =
      (r.followLeader req env, .appendEntries
        { header := r.getRPCHeader, term := req.term, lastLog := r.getLastIndex, noRetryBackoff := true },
        []) := by
  obtain ⟨hfup, -, -, hdata⟩ := followLeader_nil hup henv hle
  rw [← verifyPrevious_sameData hdata] at hprev
  simp [appendEntries, Nat.not_lt.mpr hle, hfup, hprev]

/-- The server `r` accepts the request: `r₁` is the server when the entries are
stored, before the commit index moves. -/
structure Accepts (r : Raft) (req : AppendEntriesRequest) (env : Env) (L : LogStore) (last : Nat)
    (r₁ : Raft) : Prop where
  logs : r₁.logs = accepted r.logs ⟨req.term, L, last⟩
  cached : LastCached r₁
  same : r₁ = { r.followLeader req env with
    logs := r₁.logs, lastLogIndex := r₁.lastLogIndex, lastLogTerm := r₁.lastLogTerm
    configurations := r₁.configurations }
  appended : r.appendEntries req env =
    ({ (r₁.followCommit req.leaderCommitIndex).1 with lastContact := env.now },
      .appendEntries
        { header := r.getRPCHeader, term := req.term, lastLog := r.getLastIndex, success := true },
      (r₁.followCommit req.leaderCommitIndex).2)

theorem accepts_of_agrees {L : LogStore} {last : Nat}
    (hup : r.down = false) (henv : env.Faultless) (hc : LastCached r) (hd : r.logs.Dense)
    (hdL : L.Dense) (hmatch : Matching r.logs L) (hdecodes : ∀ e ∈ L, e.decodes = true)
    (hreq : req.Describes L last) (hle : r.currentTerm ≤ req.term)
    (hprev : r.verifyPrevious req = true)
    (hagree : r.logs.take req.prevLogEntry = L.take req.prevLogEntry) :
    ∃ r₁, Accepts r req env L last r₁ := by
  obtain ⟨hfup, -, -, hdata⟩ := followLeader_nil hup henv.1 hle
  have hlogs := hdata.logs
  rw [← verifyPrevious_sameData hdata] at hprev
  obtain ⟨r₁, hstored, hcached, hlogs₁, hsame⟩ := storeEntries_described (hc.sameData hdata)
    (by rw [hlogs]; exact hd) hdL (by rw [hlogs]; exact hmatch) hdecodes hreq henv
    (by rw [hlogs]; exact hagree) req.term
  rw [hlogs] at hlogs₁
  refine ⟨r₁, hlogs₁, hcached, hsame, ?_⟩
  simp [appendEntries, Nat.not_lt.mpr hle, hfup, hprev, hstored]

theorem accepts_of_verifyPrevious {L : LogStore} {last : Nat}
    (hup : r.down = false) (henv : env.Faultless) (hc : Cached r) (hd : r.logs.Dense)
    (hdL : L.Dense) (hmatch : Matching r.logs L) (hdecodes : ∀ e ∈ L, e.decodes = true)
    (hreq : req.Describes L last) (hle : r.currentTerm ≤ req.term)
    (hprev : r.verifyPrevious req = true) : ∃ r₁, Accepts r req env L last r₁ :=
  accepts_of_agrees hup henv hc.toLastCached hd hdL hmatch hdecodes hreq hle hprev
    (take_eq_of_verifyPrevious hc.toLastCached hc.previousWithin hd hmatch hreq hprev)

theorem Accepts.stays_cached {L : LogStore} {last : Nat} {r₁ : Raft}
    (h : Accepts r req env L last r₁) (hc : Cached r) : Cached r₁ where
  toLastCached := h.cached
  lastSnapshotIndex := by
    rw [h.same]
    exact (sameData_followLeader r req env).lastSnapshotIndex.trans hc.lastSnapshotIndex

/-- `appendEntries` on a request cut from the log `L`, when no store fails. -/
theorem appendEntries_described {L : LogStore} {last : Nat}
    (hup : r.down = false) (henv : env.Faultless) (hc : Cached r) (hd : r.logs.Dense)
    (hdL : L.Dense) (hmatch : Matching r.logs L) (hdecodes : ∀ e ∈ L, e.decodes = true)
    (hreq : req.Describes L last) :
    (req.term < r.currentTerm ∧ (r.appendEntries req env).1 = r ∧
        Refuses (r.appendEntries req env).2.1 ∧ (r.appendEntries req env).2.2 = []) ∨
      (r.currentTerm ≤ req.term ∧
        (((r.appendEntries req env).1 = r.followLeader req env ∧
            Refuses (r.appendEntries req env).2.1 ∧ (r.appendEntries req env).2.2 = []) ∨
          ∃ r₁, Accepts r req env L last r₁)) := by
  unfold Refuses
  by_cases hlt : req.term < r.currentTerm
  · refine .inl ⟨hlt, ?_⟩
    simp [appendEntries, hlt]
  · have hle := Nat.not_lt.mp hlt
    refine .inr ⟨hle, ?_⟩
    cases hprev : r.verifyPrevious req with
    | false =>
      rw [appendEntries_refused hup henv.1 hle hprev]
      exact .inl ⟨rfl, fun resp h => by cases h; rfl, rfl⟩
    | true =>
      exact .inr (accepts_of_verifyPrevious hup henv hc hd hdL hmatch hdecodes hreq hle hprev)

theorem Accepts.logs_eq {L : LogStore} {last : Nat} {r₁ : Raft}
    (h : Accepts r req env L last r₁) :
    (r.appendEntries req env).1.logs = accepted r.logs ⟨req.term, L, last⟩ := by
  rw [h.appended, followCommit_eq]
  exact h.logs

theorem Accepts.cached_eq {L : LogStore} {last : Nat} {r₁ : Raft}
    (h : Accepts r req env L last r₁) (hc : Cached r) : Cached (r.appendEntries req env).1 := by
  have hcached := h.stays_cached hc
  rw [h.appended, followCommit_eq]
  exact ⟨⟨hcached.lastLogIndex, hcached.lastLogTerm⟩, hcached.lastSnapshotIndex⟩

theorem stampLogs_getElem? (term now : Nat) (futures : List LogFuture) {lastIndex i : Nat}
    {f : LogFuture} (h : (stampLogs term now lastIndex futures)[i]? = some f) :
    f.log.index = lastIndex + i + 1 ∧ f.log.term = term ∧
      ∃ f₀ ∈ futures, f.log.type = f₀.log.type ∧ f.log.data = f₀.log.data := by
  induction futures generalizing lastIndex i with
  | nil => simp [stampLogs] at h
  | cons f₀ rest ih =>
    cases i with
    | zero =>
      simp only [stampLogs, List.getElem?_cons_zero, Option.some.injEq] at h
      rw [← h]
      exact ⟨rfl, rfl, f₀, by simp, rfl, rfl⟩
    | succ i =>
      simp only [stampLogs, List.getElem?_cons_succ] at h
      obtain ⟨hindex, hterm, f₁, hmem, hsame⟩ := ih h
      exact ⟨by omega, hterm, f₁, List.mem_cons_of_mem _ hmem, hsame⟩

theorem stampLogs_length (term now lastIndex : Nat) (futures : List LogFuture) :
    (stampLogs term now lastIndex futures).length = futures.length := by
  induction futures generalizing lastIndex with
  | nil => rfl
  | cons f rest ih => simp [stampLogs, ih]

/-- The futures `dispatchLogs` numbers and stamps. -/
def stamped (r : Raft) (futures : List LogFuture) (env : Env) : List LogFuture :=
  stampLogs r.currentTerm env.now r.logs.length futures

/-- The entries it stores. -/
def newLogs (r : Raft) (futures : List LogFuture) (env : Env) : List Log :=
  (r.stamped futures env).map LogFuture.log

variable {futures : List LogFuture}

theorem newLogs_getElem? {i : Nat} {e : Log}
    (h : (r.newLogs futures env)[i]? = some e) :
    e.index = r.logs.length + i + 1 ∧ e.term = r.currentTerm ∧
      ∃ f₀ ∈ futures, e.type = f₀.log.type ∧ e.data = f₀.log.data := by
  simp only [newLogs, List.getElem?_map, Option.map_eq_some_iff] at h
  obtain ⟨f, hf, rfl⟩ := h
  exact stampLogs_getElem? _ _ futures hf

theorem newLogs_term : ∀ e ∈ r.newLogs futures env, e.term = r.currentTerm := by
  intro e he
  obtain ⟨i, hi⟩ := List.getElem?_of_mem he
  exact (newLogs_getElem? hi).2.1

theorem newLogs_decodes (h : ∀ f ∈ futures, f.log.decodes = true) :
    ∀ e ∈ r.newLogs futures env, e.decodes = true := by
  intro e he
  obtain ⟨i, hi⟩ := List.getElem?_of_mem he
  obtain ⟨_, _, f₀, hf₀, htype, hdata⟩ := newLogs_getElem? hi
  have hdecodes := h f₀ hf₀
  unfold Log.decodes at hdecodes ⊢
  rw [htype, hdata]
  exact hdecodes

theorem newLogs_length (futures : List LogFuture) : (r.newLogs futures env).length = futures.length := by
  simp [newLogs, stamped, stampLogs_length]

theorem dense_newLogs (hd : r.logs.Dense) (futures : List LogFuture) :
    LogStore.Dense (r.logs ++ r.newLogs futures env) := by
  intro i e he
  by_cases hi : i < r.logs.length
  · rw [List.getElem?_append_left hi] at he
    exact hd i e he
  · rw [List.getElem?_append_right (by omega)] at he
    rw [(newLogs_getElem? he).1]
    omega

/-- `dispatchLogs` when the store does not fail. -/
theorem dispatchLogs_eq (hc : Cached r) (hd : r.logs.Dense) (futures : List LogFuture)
    (henv : env.storeLogs = true) :
    r.dispatchLogs futures env =
      ({ r with
          logs := r.logs ++ r.newLogs futures env
          lastLogIndex := (r.logs ++ r.newLogs futures env).length
          lastLogTerm := r.currentTerm
          leaderships := r.leaderships.modifyHead (fun ls =>
            { ls with
              inflight := ls.inflight ++ r.stamped futures env
              commitment := ls.commitment.matchServer r.localID
                (r.logs ++ r.newLogs futures env).length }) },
        [.dispatched (r.newLogs futures env)]) := by
  have hdense : LogStore.Dense (r.logs ++ r.newLogs futures env) := dense_newLogs hd futures
  have hstore := hdense.storeLogs
  unfold newLogs stamped at hstore
  simp only [dispatchLogs, hc.getLastIndex, henv, Bool.true_eq_false, if_false, modifyLeaderState,
    setLastLog, List.modifyHead_modifyHead, hstore, List.length_append, newLogs, stamped,
    List.length_map, stampLogs_length]
  rfl

theorem cached_dispatchLogs (hc : Cached r) (hd : r.logs.Dense)
    (hne : futures ≠ []) (henv : env.storeLogs = true) : Cached (r.dispatchLogs futures env).1 := by
  rw [dispatchLogs_eq hc hd futures henv]
  refine ⟨⟨rfl, ?_⟩, hc.lastSnapshotIndex⟩
  have hnil : r.newLogs futures env ≠ [] := by
    intro hnil
    have hlen : (r.newLogs futures env).length = futures.length := newLogs_length futures
    rw [hnil] at hlen
    exact hne (List.length_eq_zero_iff.mp hlen.symm)
  dsimp only
  rw [lastStamp_getLast (by simp [hnil]), List.getLast_append_of_ne_nil _ hnil]
  exact (newLogs_term _ (List.getLast_mem hnil)).symm

end Raft

end PerfRaft
