import PerfRaft.Proofs.Campaigns
import PerfRaft.Schedule

namespace PerfRaft

open Lib

/-- The input is a heartbeat of a term the server has not reached. -/
def Input.newerHeartbeat (input : Input) (r : Raft) : Bool :=
  match input with
  | .heartbeat req => decide (r.currentTerm < req.term)
  | _ => false

/-- The votes of an election are outstanding in the select of `runCandidate`. -/
def MainThread.awaitsVotes : MainThread → Bool
  | .candidate c true => c.voteCh.isSome
  | _ => false

/-- The answers of a pre-vote are outstanding in the select of `runCandidate`. -/
def MainThread.awaitsPreVotes : MainThread → Bool
  | .candidate c true => c.prevoteCh.isSome
  | _ => false

namespace Raft

variable {r r' : Raft} {c : Candidacy} {env : Env} {o : Outcome}

/-- Unless the loop is about to end, the votes `runCandidate` waits for are of the
current term and, when `pre` is set, a pre-vote is for the next one. -/
def Pending (pre : Bool) (r : Raft) : Prop :=
  ∀ c tested, r.main = .candidate c tested → (tested = true ∨ r.state = .candidate) →
    (∀ ch, c.voteCh = some ch → ch.req.term = r.currentTerm) ∧
      (pre = true → c.prevoteCh.isSome → c.term = r.currentTerm + 1)

/-- What keeps `Pending`: a heartbeat does not raise the term while `runCandidate`
waits for votes and, when `pre` is set, for pre-votes. -/
def Calm (pre : Bool) (r : Raft) (input : Input) : Prop :=
  input.newerHeartbeat r = true →
    r.main.awaitsVotes = false ∧ (pre = true → r.main.awaitsPreVotes = false)

instance (pre : Bool) (r : Raft) (input : Input) : Decidable (Calm pre r input) :=
  inferInstanceAs (Decidable (_ → _ ∧ (_ → _)))

theorem pending_of_main (h : ∀ c tested, r.main ≠ .candidate c tested) : Pending pre r :=
  fun c tested hmain => absurd hmain (h c tested)

/-- A new election replaces the pre-vote. -/
theorem pending_electSelf (hup : r.down = false) (hch : c.voteCh = (r.electSelf env).2.1)
    (hpre : c.prevoteCh = none) :
    (∀ ch, c.voteCh = some ch → ch.req.term = (r.electSelf env).1.currentTerm) ∧
      (pre = true → c.prevoteCh.isSome → c.term = (r.electSelf env).1.currentTerm + 1) := by
  refine ⟨?_, fun _ hsome => by simp [hpre] at hsome⟩
  intro ch hsome
  obtain ⟨rfl, hterm⟩ := electSelf_voteCh hup (hch ▸ hsome)
  exact hterm.symm

/-- A handler that takes over a term leaves a follower. -/
theorem Pending.handled (h : Pending pre r) (heffect : RPCEffect r r')
    (hmain : r.main = .candidate c true) (hstate : r'.state = .candidate) :
    (∀ ch, c.voteCh = some ch → ch.req.term = r'.currentTerm) ∧
      (pre = true → c.prevoteCh.isSome → c.term = r'.currentTerm + 1) := by
  rcases heffect.term with hsame | ⟨_, hfollower⟩
  · rw [hsame]
    exact h c true hmain (.inl rfl)
  · simp [hfollower] at hstate

theorem Pending.heartbeat (h : Pending pre r) (a : AppendEntriesRequest) (env : Env)
    (hcalm : Calm pre r (.heartbeat a)) : Pending pre (r.appendEntries a env).1 := by
  obtain ⟨heffect, hstate⟩ := rpcEffect_appendEntries r a env
  intro c tested hm ht
  rw [heffect.main] at hm
  rcases heffect.term with hsame | ⟨hlt, hfollower⟩
  · rw [hsame]
    refine h c tested hm (ht.imp id ?_)
    intro hc
    rcases hstate with hs | hs
    · exact hs ▸ hc
    · simp [hs] at hc
  · rcases ht with rfl | hc
    · have hterm : r.currentTerm < a.term := by
        rcases appendEntries_term r a env with heq | heq
        · omega
        · exact heq ▸ hlt
      obtain ⟨hvotes, hpre⟩ := hcalm (by simp [Input.newerHeartbeat, hterm])
      constructor
      · intro ch hch
        simp [hm, MainThread.awaitsVotes, hch] at hvotes
      · intro hp hsome
        have := hpre hp
        simp only [hm, MainThread.awaitsPreVotes] at this
        rw [this] at hsome
        exact absurd hsome (by simp)
    · simp [hfollower] at hc

theorem Pending.step (hp : Pending pre r) (hcalm : Calm pre r input)
    (h : r.step input env = some o) : Pending pre o.raft := by
  intro c tested hm ht
  obtain ⟨hup, hcampaign⟩ := campaigns_step h hm
  cases hcampaign with
  | ask hmain hc hraft hevents =>
    rw [hc, hraft]
    exact ⟨by simp, fun _ _ => rfl⟩
  | start hmain hc hraft hevents =>
    rw [hraft]
    exact pending_electSelf hup (by rw [hc]) (by rw [hc])
  | elect c₀ req waiting hmain hpre hwaiting hc hraft hevents =>
    rw [hraft]
    exact pending_electSelf hup (by rw [hc]) (by rw [hc])
  | countPreVote c₀ req waiting voter granted hmain hpre hc hraft hevents =>
    obtain ⟨hvotes, hterm⟩ := hp c₀ true hmain (.inl rfl)
    rw [hc, hraft]
    exact ⟨hvotes, fun hp' _ => hterm hp' (by simp [hpre])⟩
  | countVote c₀ ch voter result hmain hinput hch hmem hc hraft hevents =>
    obtain ⟨hvotes, hterm⟩ := hp c₀ true hmain (.inl rfl)
    rw [hc, hraft]
    refine ⟨?_, hterm⟩
    intro ch' hch'
    simp only [Candidacy.countVote, Option.some.injEq] at hch'
    rw [← hch']
    exact hvotes ch hch
  | test hmain hstate hraft hevents =>
    rw [hraft]
    exact hp c false hmain (.inr hstate)
  | rpc cmd hinput hmain hraft hevents =>
    rw [hraft] at ht ⊢
    have hhandled := hp.handled (rpcEffect_processRPC r cmd env) hmain (by simpa using ht)
    exact hhandled
  | heartbeat req tested hinput hmain hraft hevents =>
    rw [hraft] at ht hm ⊢
    exact hp.heartbeat req env (hinput ▸ hcalm) c tested hm ht
  | beside tested leaderships down hmain hraft hevents =>
    rw [hraft] at ht ⊢
    exact hp c tested hmain ht

/-- The term an election is won in is that of the votes counted. -/
theorem Pending.won {logs : LogStore} (hp : Pending pre r) (h : r.step input env = some o)
    (hmem : .becameLeader T req votes latest logs ∈ o.events) : T = req.term := by
  cases hdown : r.down with
  | true =>
    obtain ⟨_, r', _, rfl⟩ := step_down h hdown
    simp at hmem
  | false =>
    obtain ⟨voter, result, c, _, hmain, hv⟩ := becameLeader_vote (step_up h hdown) hdown hmem rfl
    obtain ⟨ch, hch, _, _, _, he, _⟩ := vote_events hv hmem
    cases he
    exact ((hp c true hmain (.inl rfl)).1 ch hch).symm

end Raft

/-- The condition `Calm` on the steps of a run. -/
def CalmStep (pre : Bool) (s : ServerRun) (a : Input × Env) : Prop := s.raft.Calm pre a.1

instance (pre : Bool) (s : ServerRun) (a : Input × Env) : Decidable (CalmStep pre s a) :=
  inferInstanceAs (Decidable (s.raft.Calm pre a.1))

/-- The term of an election won is that of the votes counted, in every run that
meets the condition. -/
theorem requested_of_reachable {pre : Bool} {s : ServerRun}
    (h : serverSystem.Reachable (CalmStep pre) s) :
    ∀ e ∈ s.history, ∀ T req votes latest logs,
      e = .becameLeader T req votes latest logs → T = req.term := by
  refine (server_invariant (P := Raft.Pending pre)
    (fun _ _ _ _ => Raft.pending_of_main (by simp)) ?_ h).2
  intro s a o hp hcalm ho
  refine ⟨hp.step hcalm ho, ?_⟩
  rintro e he T req votes latest logs rfl
  exact hp.won ho he

/-- In every run of a server in which no heartbeat of a newer term is processed
while `runCandidate` waits for votes in its select, a server that is set to leader
is in the term of the vote request whose grants it has counted. -/
theorem leader_of_requested_term {s : ServerRun}
    (h : serverSystem.Reachable (CalmStep false) s)
    {T : Nat} {req : RequestVoteRequest} {votes : List ServerID} {latest : Configuration}
    {logs : LogStore} (hmem : .becameLeader T req votes latest logs ∈ s.history) : T = req.term :=
  requested_of_reachable h _ hmem T req votes latest logs rfl

/-- A heartbeat raises the term of a follower past its main thread. It is elected in the
next one, by a voter that was added before. -/
theorem leader_of_requested_term_raised :
    ∃ s, serverSystem.Reachable (CalmStep false) s ∧
      ∃ T req votes latest logs,
        .becameLeader T req votes latest logs ∈ s.history ∧ T = req.term := by
  obtain ⟨s, hreach, e, hmem, hwin⟩ : ∃ s, serverSystem.Reachable (CalmStep false) s ∧
      ∃ e ∈ s.history, Raft.kind e = .win :=
    System.exists_reachable (s := pairStart) ⟨_, _, _, _, rfl⟩
      (electedByNewcomer [.heartbeat { header := { id := [66], addr := [66] }, term := 3 }] 4)
      (by decide +kernel)
  cases e with
  | becameLeader T req votes latest logs =>
    exact ⟨s, hreach, T, req, votes, latest, logs, hmem, leader_of_requested_term hreach hmem⟩
  | _ => simp [Raft.kind] at hwin

open Cluster in
/-- `A` asks for votes of term 2 and `B` grants one; `C` wins term 3 with `B` and
sends `A` a heartbeat; then `A` takes the grant from its channel. -/
def lateGrant : List (Cluster → Action) :=
  let a := voterNamed 65
  let b := voterNamed 66
  let c := voterNamed 67
  boot a.id ++ boot b.id ++ boot c.id ++ campaign a ++ handle b.id 0 ++
    campaign c ++ recampaign c ++ handle b.id 0 ++ [countVote c.id b] ++ lead c.id ++
    [goroutine c.id 0 0 .heartbeat, heartbeat a.id 0, countVote a.id b]

/-- With the heartbeat fast path a late grant makes a leader of a term for which
nobody has voted for it. -/
theorem leader_of_unrequested_term :
    ∃ c, threeServers.system.Reachable (fun _ _ => True) c ∧
      ∃ id T req votes latest logs,
        (id, .becameLeader T req votes latest logs) ∈ c.history ∧ T ≠ req.term := by
  obtain ⟨c, hreach, ⟨id, e⟩, hmem, hp⟩ : ∃ c, threeServers.system.Reachable (fun _ _ => True) c ∧
      ∃ p ∈ c.history, (match p.2 with
        | .becameLeader T req _ _ _ => decide (T ≠ req.term)
        | _ => false) = true :=
    System.exists_reachable rfl lateGrant (by decide +kernel)
  cases e with
  | becameLeader T req votes latest logs =>
    exact ⟨c, hreach, id, T, req, votes, latest, logs, hmem, by simpa using hp⟩
  | _ => simp at hp

end PerfRaft
