import PerfRaft.Proofs.Candidacy

namespace PerfRaft

open Lib

namespace Raft

variable {r r' r'' : Raft} {env : Env} {o : Outcome} {ws : List Write}

/-- The term in memory is the one on disk, and no recorded vote is of a later
term. -/
structure Durable (r : Raft) : Prop where
  term : r.currentTerm = r.stable.currentTerm
  bound : r.stable.lastVoteTerm ≤ r.stable.currentTerm

/-- What a step of a running server does to its disk: the term does not fall, a
recorded vote stays recorded, and every vote given is recorded. -/
structure Persisted (r r' : Raft) (events : List Event) : Prop where
  term : r'.down = false → r'.currentTerm = r'.stable.currentTerm
  mono : r.stable.currentTerm ≤ r'.stable.currentTerm
  bound : r'.stable.lastVoteTerm ≤ r'.stable.currentTerm
  voted : ∀ T c, c ≠ [] → r.stable.Voted T c → r'.stable.Voted T c
  granted : ∀ T c, .voteGranted T c ∈ events → c ≠ [] → r'.stable.Voted T c

theorem Persisted.durable (h : Persisted r r' events) (hup : r'.down = false) : Durable r' :=
  ⟨h.term hup, h.bound⟩

theorem Persisted.trans (h : Persisted r r' es) (h' : Persisted r' r'' es') :
    Persisted r r'' (es ++ es') where
  term := h'.term
  mono := h.mono.trans h'.mono
  bound := h'.bound
  voted := fun T c hc hv => h'.voted T c hc (h.voted T c hc hv)
  granted := by
    intro T c hmem hc
    rcases List.mem_append.mp hmem with hes | hes'
    · exact h'.voted T c hc (h.granted T c hes hc)
    · exact h'.granted T c hes' hc

/-- The disk is left alone. -/
theorem Persisted.of_stable (hd : Durable r) (hstable : r'.stable = r.stable)
    (hterm : r'.down = false → r'.currentTerm = r.currentTerm)
    (hevents : ∀ T c, .voteGranted T c ∉ events) : Persisted r r' events where
  term := fun hup => by rw [hterm hup, hstable]; exact hd.term
  mono := by rw [hstable]
  bound := by rw [hstable]; exact hd.bound
  voted := by rw [hstable]; exact fun _ _ _ hv => hv
  granted := fun T c hmem => absurd hmem (hevents T c)

theorem Persisted.of_sameTerm (hd : Durable r) (h : SameTerm r r')
    (hevents : ∀ T c, .voteGranted T c ∉ events) : Persisted r r' events :=
  .of_stable hd h.stable (fun _ => h.currentTerm) hevents

theorem Persisted.refl (hd : Durable r) : Persisted r r [] :=
  .of_sameTerm hd (.refl r) (by simp)

theorem persisted_setCurrentTerm (hd : Durable r) (ht : r.currentTerm ≤ t) (ws : List Write) :
    Persisted r (r.setCurrentTerm t ws) [] := by
  have hle : r.stable.currentTerm ≤ t := hd.term ▸ ht
  rcases setCurrentTerm_cases r t ws with h | ⟨hdown, _, hsame | hset⟩
  · rw [h]
    exact ⟨fun _ => rfl, hle, hd.bound.trans hle, fun _ _ _ hv => hv, by simp⟩
  · exact .of_stable hd hsame (fun hup => by simp [hdown] at hup) (by simp)
  · refine ⟨fun hup => by simp [hdown] at hup, ?_, ?_, ?_, by simp⟩
    · rw [hset]; exact hle
    · rw [hset]; exact hd.bound.trans hle
    · rw [hset]; exact fun _ _ _ hv => hv

/-- A vote of the current term may be written when none is recorded for the term,
or the same one is. -/
theorem persisted_persistVote (hd : Durable r) (ht : r.currentTerm = term)
    (hfree : r.stable.lastVoteTerm = term →
      r.stable.lastVoteCand = none ∨ r.stable.lastVoteCand = some candidate)
    (h : r.persistVote term candidate ws = (r', ok)) :
    Persisted r r' (if ok then [.voteGranted term candidate] else []) := by
  have hterm : r.stable.currentTerm = term := hd.term ▸ ht
  have hbound : r.stable.lastVoteTerm ≤ term := hterm ▸ hd.bound
  -- an older vote stays recorded, and a vote of this term was for the same candidate
  have hkeep : ∀ T c, r.stable.Voted T c →
      T < term ∨ (T = term ∧ r.stable.lastVoteCand = some c ∧ c = candidate) := by
    intro T c hv
    rcases hv with hlt | ⟨rfl, hc⟩
    · exact .inl (by omega)
    · rcases Nat.lt_or_ge r.stable.lastVoteTerm term with hlt | hge
      · exact .inl hlt
      · have heq : r.stable.lastVoteTerm = term := by omega
        rcases hfree heq with hnone | hsome
        · simp [hc] at hnone
        · exact .inr ⟨heq, hc, by simpa [hc] using hsome⟩
  obtain ⟨hsame, hcases⟩ := persistVote_cases h
  have hcur := hsame.currentTerm
  rcases hcases with ⟨hs, rfl⟩ | ⟨hs, rfl, _⟩ | ⟨hs, _⟩
  · exact .of_stable hd hs (fun _ => hcur) (by simp)
  · refine ⟨fun _ => by rw [hcur, hs]; exact hd.term, by rw [hs], by rw [hs, hterm], ?_, by simp⟩
    intro T c _ hv
    rw [hs]
    rcases hkeep T c hv with hlt | ⟨rfl, hc, _⟩
    · exact .inl hlt
    · exact .inr ⟨rfl, hc⟩
  · have hnew : candidate ≠ [] → r'.stable.Voted term candidate := fun hne => by
      rw [hs]
      exact .inr ⟨rfl, by simp [StableStore.vote, hne]⟩
    refine ⟨fun _ => by rw [hcur, hs]; exact hd.term, by rw [hs]; exact Nat.le_refl _,
      by rw [hs]; exact hterm.ge, ?_, ?_⟩
    · intro T c hne hv
      rcases hkeep T c hv with hlt | ⟨rfl, _, rfl⟩
      · rw [hs]
        exact .inl hlt
      · exact hnew hne
    · intro T c hmem hne
      cases ok with
      | false => simp at hmem
      | true =>
        simp only [if_true, List.mem_singleton, Event.voteGranted.injEq] at hmem
        obtain ⟨rfl, rfl⟩ := hmem
        exact hnew hne

theorem persisted_castVote (hd : Durable r) (ht : r.currentTerm = req.term) :
    Persisted r (r.castVote req resp env ws).1 (r.castVote req resp env ws).2.2 := by
  unfold castVote
  split
  · rename_i hvoted
    split
    · rename_i hsame
      refine ⟨fun _ => hd.term, Nat.le_refl _, hd.bound, fun _ _ _ hv => hv, ?_⟩
      intro T c hmem _
      simp only [List.mem_singleton, Event.voteGranted.injEq] at hmem
      obtain ⟨rfl, rfl⟩ := hmem
      exact .inr ⟨hvoted.1.symm, hsame⟩
    · exact .refl hd
  · rename_i hfree
    split
    · exact .refl hd
    · have hnone : r.stable.lastVoteTerm = req.term →
          r.stable.lastVoteCand = none ∨ r.stable.lastVoteCand = some (candidateBytes req) := by
        intro heq
        cases hc : r.stable.lastVoteCand with
        | none => exact .inl rfl
        | some c => exact absurd ⟨heq, by simp [hc]⟩ hfree
      split
      · rename_i r' hp
        have h := persisted_persistVote hd ht hnone hp
        exact ⟨h.term, h.mono, h.bound, h.voted, by simp⟩
      · rename_i r' hp
        have h := persisted_persistVote hd ht hnone hp
        refine ⟨h.term, h.mono, h.bound, h.voted, ?_⟩
        intro T c hmem hne
        refine h.granted T c ?_ hne
        simpa using hmem

theorem Durable.setState (hd : Durable r) (s : RaftState) : Durable (r.setState s) :=
  ⟨hd.term, hd.bound⟩

/-- The handlers that raise the term set the state to follower first. -/
theorem persisted_follow (hd : Durable r) (ht : r.currentTerm ≤ t) (ws : List Write) :
    Persisted r ((r.setState .follower).setCurrentTerm t ws) [] :=
  have h := persisted_setCurrentTerm (hd.setState .follower) ht ws
  ⟨h.term, h.mono, h.bound, h.voted, h.granted⟩

theorem follow_currentTerm {r : Raft} {ws : List Write} (hup : ((r.setState s).setCurrentTerm t ws).down = false) :
    ((r.setState s).setCurrentTerm t ws).currentTerm = t := by
  rcases setCurrentTerm_cases (r.setState s) t ws with h | ⟨hdown, _⟩
  · rw [h]
  · simp [hdown] at hup

theorem persisted_requestVote (hd : Durable r) :
    Persisted r (r.requestVote req env).1 (r.requestVote req env).2.2 := by
  obtain ⟨_, hr | ⟨heq, -, hr⟩ | ⟨_, hlt, rfl, hr | ⟨hup, hr⟩⟩, -⟩ := requestVote_cases r req env <;>
    rw [hr]
  · exact .refl hd
  · exact persisted_castVote hd heq
  · exact persisted_follow hd hlt.le env.writes
  · have hfollow := persisted_follow hd hlt.le env.writes
    exact hfollow.trans (persisted_castVote (hfollow.durable hup) (follow_currentTerm hup))

theorem persisted_askVoters (hd : Durable r) (ht : r.currentTerm = req.term)
    (hfree : r.stable.lastVoteTerm = req.term →
      r.stable.lastVoteCand = none ∨ r.stable.lastVoteCand = some req.header.addr)
    (ws : List Write) (servers : List Server) :
    Persisted r (r.askVoters req ws servers).1 (r.askVoters req ws servers).2.2.2 := by
  induction servers generalizing r ws with
  | nil => exact .refl hd
  | cons server rest ih =>
    unfold askVoters
    split
    · exact ih hd ht hfree ws
    · split
      · split
        · rename_i r' hp
          exact persisted_persistVote hd ht hfree hp
        · rename_i r' hp
          have h := persisted_persistVote hd ht hfree hp
          obtain ⟨hsame, hcases⟩ := persistVote_cases hp
          have hterm : r'.currentTerm = req.term := hsame.currentTerm.trans ht
          have hstable : r'.stable = r.stable.vote req.term req.header.addr := by
            rcases hcases with ⟨_, hok⟩ | ⟨_, hok, _⟩ | ⟨hs, _⟩
            · simp at hok
            · simp at hok
            · exact hs
          have hd' : Durable r' := ⟨by rw [hsame.currentTerm, hstable]; exact hd.term, h.bound⟩
          exact h.trans (ih hd' hterm (fun _ => by
            rw [hstable]
            by_cases hne : req.header.addr = []
            · exact .inl (by simp [StableStore.vote, hne])
            · exact .inr (by simp [StableStore.vote, hne])) (ws.drop 2))
      · exact ih hd ht hfree ws

theorem persisted_electSelf (hd : Durable r) :
    Persisted r (r.electSelf env).1 (r.electSelf env).2.2.2 := by
  unfold electSelf
  have hterm := persisted_setCurrentTerm hd (Nat.le_succ r.currentTerm) env.writes
  dsimp only
  split
  · exact hterm
  · rename_i hup
    simp only [Bool.not_eq_true] at hup
    refine hterm.trans (persisted_askVoters (hterm.durable hup) rfl ?_ _ _)
    -- the vote on disk is of an older term
    intro heq
    rcases setCurrentTerm_cases r (r.currentTerm + 1) env.writes with h | ⟨hdown, _⟩
    · rw [h] at heq
      simp only [voteRequest] at heq
      have := hd.term
      have := hd.bound
      omega
    · simp [hdown] at hup

theorem Persisted.sameTerm (h : Persisted r r' events) (hs : SameTerm r' r'')
    (hdown : r''.down = false → r'.down = false) : Persisted r r'' events where
  term := fun hup => by rw [hs.currentTerm, hs.stable]; exact h.term (hdown hup)
  mono := by rw [hs.stable]; exact h.mono
  bound := by rw [hs.stable]; exact h.bound
  voted := by rw [hs.stable]; exact h.voted
  granted := by rw [hs.stable]; exact h.granted

theorem followLeader_down_appendEntries {r : Raft} {a : AppendEntriesRequest} {env : Env} (h : r.currentTerm ≤ a.term)
    (hup : (r.appendEntries a env).1.down = false) : (r.followLeader a env).down = false := by
  unfold appendEntries at hup
  dsimp only at hup
  rw [if_neg (Nat.not_lt.mpr h)] at hup
  by_cases hdown : (r.followLeader a env).down = true
  · simp [hdown] at hup
  · simpa using hdown

theorem Persisted.setMain (h : Persisted r r' events) (main : MainThread) :
    Persisted r { r' with main := main } events :=
  h.sameTerm ⟨rfl, rfl, rfl⟩ id

/-- What a step of a running server does to its term and its votes: nothing, or it takes
over another term, answers a request for its vote, or elects itself. -/
inductive TermStep (r : Raft) (env : Env) (input : Input) (r' : Raft) (events : List Event) : Prop where
  | keep (hsame : SameTerm r r') (hevents : ∀ e ∈ events, kind e ≠ .vote)
  | follow (t : Nat) (hle : Pending true r → r.currentTerm ≤ t)
      (hsame : SameTerm ((r.setState .follower).setCurrentTerm t env.writes) r')
      (hdown : r'.down = false → ((r.setState .follower).setCurrentTerm t env.writes).down = false)
      (hevents : ∀ e ∈ events, kind e ≠ .vote)
  | request (req : RequestVoteRequest) (hinput : input = .rpc (.requestVote req)) (main : MainThread)
      (hraft : r' = { (r.requestVote req env).1 with main := main })
      (hevents : events = (r.requestVote req env).2.2)
  | elect (hinput : ∀ req, input ≠ .rpc (.requestVote req)) (main : MainThread)
      (hraft : r' = { (r.electSelf env).1 with main := main })
      (hevents : events = (r.electSelf env).2.2.2)

theorem TermStep.setMain (h : TermStep r env input r' events) (main : MainThread) :
    TermStep r env input { r' with main := main } events := by
  cases h with
  | keep hsame hevents => exact .keep (hsame.trans ⟨rfl, rfl, rfl⟩) hevents
  | follow t hle hsame hdown hevents => exact .follow t hle (hsame.trans ⟨rfl, rfl, rfl⟩) hdown hevents
  | request req hinput _ hraft hevents => exact .request req hinput main (by rw [hraft]) hevents
  | elect hinput _ hraft hevents => exact .elect hinput main (by rw [hraft]) hevents

/-- The server as it was, or as a follower of the term `t`, up to the leader it knows. -/
def TakesTerm (r : Raft) (t : Nat) (env : Env) (r' : Raft) : Prop :=
  ∃ base, (base = r ∨ base = (r.setState .follower).setCurrentTerm t env.writes) ∧
    SameTerm base r' ∧ r'.down = base.down

theorem takesTerm_followLeader (r : Raft) (a : AppendEntriesRequest) (env : Env) :
    TakesTerm r a.term env (r.followLeader a env) := by
  unfold followLeader
  dsimp only
  split
  · refine ⟨_, .inr rfl, ?_⟩
    split <;> exact ⟨⟨rfl, rfl, rfl⟩, rfl⟩
  · refine ⟨_, .inl rfl, ?_⟩
    split <;> exact ⟨⟨rfl, rfl, rfl⟩, rfl⟩

theorem takesTerm_followSnapshot (r : Raft) (req : InstallSnapshotRequest) (env : Env) :
    TakesTerm r req.term env (r.followSnapshot req env) := by
  unfold followSnapshot
  dsimp only
  split
  · refine ⟨_, .inr rfl, ?_⟩
    split <;> exact ⟨⟨rfl, rfl, rfl⟩, rfl⟩
  · refine ⟨_, .inl rfl, ?_⟩
    split <;> exact ⟨⟨rfl, rfl, rfl⟩, rfl⟩

theorem TakesTerm.termStep {t : Nat} (h : TakesTerm r t env r') (hle : r.currentTerm ≤ t)
    (hsame : SameTerm r' r'') (hdown : r''.down = false → r'.down = false)
    (hevents : ∀ e ∈ events, kind e ≠ .vote) : TermStep r env input r'' events := by
  obtain ⟨base, hbase, hr', hd⟩ := h
  rcases hbase with rfl | rfl
  · exact .keep (hr'.trans hsame) hevents
  · exact .follow t (fun _ => hle) (hr'.trans hsame) (fun hup => hd ▸ hdown hup) hevents

theorem termStep_appendEntries (r : Raft) (a : AppendEntriesRequest) (env : Env) (input : Input) :
    TermStep r env input (r.appendEntries a env).1 (r.appendEntries a env).2.2 := by
  have hevents : ∀ e ∈ (r.appendEntries a env).2.2, kind e ≠ .vote := by
    intro e he
    obtain ⟨l, rfl⟩ := appendEntries_events he
    simp [kind]
  rcases Nat.lt_or_ge a.term r.currentTerm with hlt | hge
  · refine .keep ?_ hevents
    rw [(appendEntries_stale hlt env).1]
    exact .refl r
  · exact (takesTerm_followLeader r a env).termStep hge (sameControl_appendEntries r a env hge).sameTerm
      (followLeader_down_appendEntries hge) hevents

theorem termStep_installSnapshot (r : Raft) (req : InstallSnapshotRequest) (env : Env) (input : Input) :
    TermStep r env input (r.installSnapshot req env).1 [] := by
  unfold installSnapshot
  split
  · exact .keep (.refl r) (by simp)
  split
  · exact .keep (.refl r) (by simp)
  rename_i hge
  have hbase := takesTerm_followSnapshot r req env
  dsimp only
  split
  · exact hbase.termStep (Nat.not_lt.mp hge) (.refl _) id (by simp)
  · rename_i hup
    have hsnap := (sameThreads_receiveSnapshot (r.followSnapshot req env) req env).sameTerm
    split <;>
    · rename_i hr
      rw [hr] at hsnap
      exact hbase.termStep (Nat.not_lt.mp hge) hsnap (fun _ => by simpa using hup) (by simp)

theorem termStep_processRPC (r : Raft) (cmd : Command) (env : Env) :
    TermStep r env (.rpc cmd) (r.processRPC cmd env).1 (r.processRPC cmd env).2.2 := by
  unfold processRPC
  split
  · exact .keep (.refl r) (by simp)
  · cases cmd with
    | appendEntries req => exact termStep_appendEntries r req env _
    | requestVote req => exact .request req rfl _ rfl rfl
    | requestPreVote req => exact .keep (.refl r) (by simp)
    | installSnapshot req => exact termStep_installSnapshot r req env _
    | timeoutNow req =>
      dsimp only
      rw [timeoutNow_eq]
      exact .keep ⟨rfl, rfl, rfl⟩ (by simp)

theorem termStep_stepUp (hup : r.down = false) (h : r.stepUp env input = some o) :
    TermStep r env input o.raft o.events := by
  cases input with
  | rpc cmd =>
    obtain ⟨_, ho, _, he, _⟩ := stepUp_rpc h
    rw [ho, he]
    exact (termStep_processRPC r cmd env).setMain _
  | heartbeat req =>
    obtain ⟨_, ho, _, he, _⟩ := stepUp_heartbeat h
    rw [ho, he]
    exact termStep_appendEntries r req env _
  | enter =>
    cases enterStep h with
    | follower => exact .keep ⟨rfl, rfl, rfl⟩ (by simp)
    | ask => exact .keep ⟨rfl, rfl, rfl⟩ (by simp)
    | elect => exact .elect (by simp) _ rfl rfl
    | leader => exact .keep (sameTerm_enterLeader r) (by simp)
    | noop =>
      refine .keep ((sameTerm_dispatchLogs r _ env).trans ⟨rfl, rfl, rfl⟩) ?_
      intro e he
      simp [(dispatchLogs_events he).2, kind]
  | preVote voter result =>
    obtain ⟨c, hmain, ho⟩ := stepUp_preVote h
    cases preVoteStep ho with
    | follow req pending hch hlt =>
      refine .follow _ ?_ ⟨rfl, rfl, rfl⟩ id (by simp)
      intro hp
      have := (hp c true hmain (.inl rfl)).2 rfl (by simp [hch])
      omega
    | elect => exact .elect (by simp) _ rfl rfl
    | count => exact .keep ⟨rfl, rfl, rfl⟩ (by simp)
  | vote voter result =>
    obtain ⟨c, _, ho⟩ := stepUp_vote h
    cases voteStep ho with
    | follow _ hlt => exact .follow _ (fun _ => hlt.le) ⟨rfl, rfl, rfl⟩ id (by simp)
    | win => exact .keep ⟨rfl, rfl, rfl⟩ (by simp [kind])
    | count => exact .keep ⟨rfl, rfl, rfl⟩ (by simp)
  | restart => exact absurd h stepUp_restart
  | _ =>
    obtain ⟨hsame, hevents⟩ := quiet_stepUp h hup rfl
    exact .keep hsame hevents

theorem not_voteGranted_of_kind {events : List Event} (h : ∀ e ∈ events, kind e ≠ .vote) (T : Nat)
    (c : Bytes) : .voteGranted T c ∉ events :=
  fun hmem => h _ hmem rfl

theorem persisted_stepUp (hup : r.down = false) (hd : Durable r) (hp : Pending true r)
    (h : r.stepUp env input = some o) : Persisted r o.raft o.events := by
  cases termStep_stepUp hup h with
  | keep hsame hevents => exact .of_sameTerm hd hsame (not_voteGranted_of_kind hevents)
  | follow t hle hsame hdown hevents =>
    have hfollow := (persisted_follow hd (hle hp) env.writes).sameTerm hsame hdown
    exact { hfollow with
      granted := fun T c hmem => absurd hmem (not_voteGranted_of_kind hevents T c) }
  | request req _ main hraft hevents =>
    rw [hraft, hevents]
    exact (persisted_requestVote hd).setMain main
  | elect _ main hraft hevents =>
    rw [hraft, hevents]
    exact (persisted_electSelf hd).setMain main

theorem persistVote_term (h : r.persistVote term candidate ws = (r', ok)) :
    r'.stable.currentTerm = r.stable.currentTerm := by
  obtain ⟨_, ⟨hs, _⟩ | ⟨hs, _⟩ | ⟨hs, _⟩⟩ := persistVote_cases h <;> rw [hs]
  rfl

theorem castVote_granted (hmem : .voteGranted T c ∈ (r.castVote req resp env ws).2.2) :
    T = req.term ∧ c = candidateBytes req := by
  unfold castVote at hmem
  split at hmem
  · split at hmem
    · simpa using hmem
    · simp at hmem
  · split at hmem
    · simp at hmem
    · split at hmem
      · simp at hmem
      · simpa using hmem

theorem castVote_term (r : Raft) (req : RequestVoteRequest) (resp : RequestVoteResponse) (env : Env)
    (ws : List Write) : (r.castVote req resp env ws).1.stable.currentTerm = r.stable.currentTerm := by
  unfold castVote
  split
  · split <;> rfl
  · split
    · rfl
    · split
      · rename_i r' hp
        exact persistVote_term hp
      · rename_i r' hp
        have hterm := persistVote_term hp
        exact hterm

/-- A vote is given in the term on disk. -/
theorem requestVote_granted (hd : Durable r)
    (hmem : .voteGranted T c ∈ (r.requestVote req env).2.2) :
    T = (r.requestVote req env).1.stable.currentTerm ∧ c = candidateBytes req := by
  obtain ⟨_, hr | ⟨heq, -, hr⟩ | ⟨_, hlt, rfl, hr | ⟨hup, hr⟩⟩, -⟩ := requestVote_cases r req env <;>
    rw [hr] at hmem ⊢
  · simp at hmem
  · obtain ⟨hT, hc⟩ := castVote_granted hmem
    rw [castVote_term, hT, ← hd.term]
    exact ⟨heq.symm, hc⟩
  · simp at hmem
  · obtain ⟨hT, hc⟩ := castVote_granted hmem
    have hdur := (persisted_follow hd hlt.le env.writes).durable hup
    rw [castVote_term, hT, ← hdur.term]
    exact ⟨(follow_currentTerm hup).symm, hc⟩

theorem askVoters_granted (r : Raft) (req : RequestVoteRequest) (ws : List Write)
    (servers : List Server) :
    (r.askVoters req ws servers).1.stable.currentTerm = r.stable.currentTerm ∧
      ∀ T c, .voteGranted T c ∈ (r.askVoters req ws servers).2.2.2 →
        T = req.term ∧ c = req.header.addr := by
  induction servers generalizing r ws with
  | nil => simp [askVoters]
  | cons server rest ih =>
    unfold askVoters
    split
    · exact ih r ws
    · split
      · split
        · rename_i r' hp
          exact ⟨persistVote_term hp, by simp⟩
        · rename_i r' hp
          obtain ⟨hterm, hgranted⟩ := ih r' (ws.drop 2)
          refine ⟨hterm.trans (persistVote_term hp), ?_⟩
          intro T c hmem
          simp only [List.mem_cons, Event.voteGranted.injEq] at hmem
          rcases hmem with h | h
          · exact h
          · exact hgranted T c h
      · exact ih r ws

theorem electSelf_granted (hup : r.down = false)
    (hmem : .voteGranted T c ∈ (r.electSelf env).2.2.2) :
    T = (r.electSelf env).1.stable.currentTerm ∧ c = r.localAddr := by
  rcases electSelf_cases r env hup with ⟨r', _, _, _, he⟩ | ⟨r', ok, asked, events, ha, _, he⟩
  · simp [he] at hmem
  · have hask := askVoters_granted r.nextTerm r.nextTerm.voteRequest env.writes.tail
      r.configurations.latest.servers
    rw [ha] at hask
    rw [he] at hmem ⊢
    obtain ⟨hT, hc⟩ := hask.2 T c hmem
    exact ⟨hT.trans hask.1.symm, hc⟩

/-- The candidate a vote is written for in a step. -/
def candidateOf (r : Raft) : Input → Bytes
  | .rpc (.requestVote req) => candidateBytes req
  | _ => r.localAddr

theorem candidateOf_of_not_request {r : Raft} (h : ∀ req, input ≠ .rpc (.requestVote req)) :
    r.candidateOf input = r.localAddr := by
  unfold candidateOf
  split
  · exact absurd rfl (h _)
  · rfl

theorem granted_stepUp (hd : Durable r) (hup : r.down = false)
    (h : r.stepUp env input = some o) (hmem : .voteGranted T c ∈ o.events) :
    T = o.raft.stable.currentTerm ∧ c = r.candidateOf input := by
  cases termStep_stepUp hup h with
  | keep _ hevents => exact absurd rfl (hevents _ hmem)
  | follow _ _ _ _ hevents => exact absurd rfl (hevents _ hmem)
  | request req hinput main hraft hevents =>
    subst hinput
    rw [hraft]
    exact requestVote_granted hd (hevents ▸ hmem)
  | elect hinput main hraft hevents =>
    rw [hraft, candidateOf_of_not_request hinput]
    exact electSelf_granted hup (hevents ▸ hmem)

end Raft

theorem StableStore.Voted.le {s : StableStore} (h : s.Voted T c) : T ≤ s.lastVoteTerm := by
  rcases h with hlt | ⟨heq, _⟩
  · exact hlt.le
  · exact heq.le

/-- A recorded vote is the only one of its term. -/
theorem StableStore.Voted.unique {s : StableStore} (ha : s.Voted T a) (hb : s.Voted T b)
    (hT : T = s.lastVoteTerm) : a = b := by
  rcases ha with hlt | ⟨_, ha⟩
  · omega
  · rcases hb with hlt | ⟨_, hb⟩
    · omega
    · exact Option.some.inj (ha.symm.trans hb)

/-- What holds of a server and its votes in every run in which no heartbeat raises
the term while `runCandidate` waits. -/
structure Recorded (s : ServerRun) : Prop where
  pending : s.raft.Pending true
  term : s.raft.down = false → s.raft.currentTerm = s.raft.stable.currentTerm
  bound : s.raft.stable.lastVoteTerm ≤ s.raft.stable.currentTerm
  granted : ∀ T c, .voteGranted T c ∈ s.history → c ≠ [] → s.raft.stable.Voted T c
  unique : ∀ T a b, .voteGranted T a ∈ s.history → .voteGranted T b ∈ s.history →
    a ≠ [] → b ≠ [] → a = b

theorem Recorded.init {s : ServerRun} (h : serverSystem.init s) : Recorded s := by
  obtain ⟨conf, currentTerm, logs, snapshots, rfl⟩ := h
  exact ⟨Raft.pending_of_main (by simp), by simp, Nat.zero_le _, by simp, by simp⟩

theorem Recorded.persisted {s : ServerRun} (h : Recorded s) {input : Input} {env : Env} {o : Outcome}
    (ho : s.raft.step input env = some o) : Raft.Persisted s.raft o.raft o.events := by
  refine Raft.step_cases (P := fun o => Raft.Persisted s.raft o.raft o.events) ho ?_ ?_
  · intro r' _ _ hr
    have hstarted := Raft.started_newRaft hr
    refine ⟨fun _ => by rw [hstarted.currentTerm, hstarted.stable], ?_, ?_, ?_, by simp⟩
    · rw [hstarted.stable]
    · rw [hstarted.stable]
      exact h.bound
    · rw [hstarted.stable]
      exact fun _ _ _ hv => hv
  · intro hup h'
    exact Raft.persisted_stepUp hup ⟨h.term hup, h.bound⟩ h.pending h'

theorem Recorded.step {s s' : ServerRun} {a : Input × Env} (h : Recorded s)
    (hcalm : CalmStep true s a) (hs : serverSystem.step s a = some s') : Recorded s' := by
  obtain ⟨o, ho, rfl⟩ := serverSystem_step hs
  have hp := h.persisted ho
  have hgranted : ∀ T c, .voteGranted T c ∈ o.events ++ s.history → c ≠ [] →
      o.raft.stable.Voted T c := by
    intro T c hmem hne
    rcases List.mem_append.mp hmem with hnew | hold
    · exact hp.granted T c hnew hne
    · exact hp.voted T c hne (h.granted T c hold hne)
  -- a vote given in this step is of the term on disk, so no other vote of it is recorded
  have hnew : ∀ T a b, .voteGranted T a ∈ o.events → .voteGranted T b ∈ o.events ++ s.history →
      a ≠ [] → b ≠ [] → a = b := by
    intro T a b ha hb hna hnb
    have hva := hp.granted T a ha hna
    have hle := hva.le
    have hT : T = o.raft.stable.currentTerm := by
      cases hdown : s.raft.down with
      | true =>
        obtain ⟨_, r', _, rfl⟩ := Raft.step_down ho hdown
        simp at ha
      | false =>
        exact (Raft.granted_stepUp ⟨h.term hdown, h.bound⟩ hdown (Raft.step_up ho hdown) ha).1
    have hbound := hp.bound
    exact hva.unique (hgranted T b hb hnb) (by omega)
  refine ⟨h.pending.step hcalm ho, hp.term, hp.bound, hgranted, ?_⟩
  intro T a b ha hb hna hnb
  rcases List.mem_append.mp ha with ha' | ha'
  · exact hnew T a b ha' hb hna hnb
  · rcases List.mem_append.mp hb with hb' | hb'
    · exact (hnew T b a hb' ha hnb hna).symm
    · exact h.unique T a b ha' hb' hna hnb

theorem recorded_of_reachable {s : ServerRun} (h : serverSystem.Reachable (CalmStep true) s) :
    Recorded s :=
  System.Reachable.invariant (fun _ => Recorded.init) (fun _ _ _ hr hc hs => hr.step hc hs) h

end PerfRaft
