import PerfRaft.Proofs.VoteDurability

namespace PerfRaft

open Lib

namespace Raft

variable {r r' r'' : Raft} {env : Env} {o : Outcome} {ws : List Write}

/-- What a step does to the recorded vote: a vote for another server that it
records or gives is the one recorded before, or one whose log it has checked. -/
structure Checks (r r' : Raft) (events : List Event) : Prop where
  recorded : ∀ c, r'.stable.lastVoteCand = some c → c ≠ r.localAddr →
    (r'.stable.lastVoteTerm = r.stable.lastVoteTerm ∧ r.stable.lastVoteCand = some c) ∨
      .voteChecked r'.stable.lastVoteTerm c ∈ events
  granted : ∀ T c, .voteGranted T c ∈ events → c ≠ r.localAddr →
    (r.stable.lastVoteTerm = T ∧ r.stable.lastVoteCand = some c) ∨ .voteChecked T c ∈ events

theorem Checks.of_votes (hterm : r'.stable.lastVoteTerm = r.stable.lastVoteTerm)
    (hcand : r'.stable.lastVoteCand = r.stable.lastVoteCand)
    (hevents : ∀ T c, .voteGranted T c ∉ events) : Checks r r' events where
  recorded := fun _ hc _ => .inl ⟨hterm, hcand ▸ hc⟩
  granted := fun T c hmem => absurd hmem (hevents T c)

theorem Checks.of_sameTerm (h : SameTerm r r') (hevents : ∀ T c, .voteGranted T c ∉ events) :
    Checks r r' events :=
  .of_votes (by rw [h.stable]) (by rw [h.stable]) hevents

theorem Checks.refl (r : Raft) : Checks r r [] :=
  .of_sameTerm (.refl r) (by simp)

theorem Checks.setMain (h : Checks r r' events) (main : MainThread) :
    Checks r { r' with main := main } events :=
  ⟨h.recorded, h.granted⟩

/-- Taking over a term does not touch the vote. -/
theorem setCurrentTerm_votes (r : Raft) (t : Nat) (ws : List Write) :
    (r.setCurrentTerm t ws).stable.lastVoteTerm = r.stable.lastVoteTerm ∧
      (r.setCurrentTerm t ws).stable.lastVoteCand = r.stable.lastVoteCand := by
  rcases setCurrentTerm_cases r t ws with h | ⟨_, _, h | h⟩ <;> rw [h] <;> exact ⟨rfl, rfl⟩

theorem checks_follow (r : Raft) (t : Nat) (ws : List Write) :
    Checks r ((r.setState .follower).setCurrentTerm t ws) [] :=
  .of_votes (setCurrentTerm_votes (r.setState .follower) t ws).1
    (setCurrentTerm_votes (r.setState .follower) t ws).2 (by simp)

theorem checks_castVote
    (htear : tearsVote ws = true → r.stable.lastVoteCand = none ∨
      r.stable.lastVoteCand = some (candidateBytes req)) :
    Checks r (r.castVote req resp env ws).1 (r.castVote req resp env ws).2.2 := by
  unfold castVote
  split
  · rename_i hvoted
    split
    · rename_i hsame
      refine ⟨fun c hc _ => .inl ⟨rfl, hc⟩, ?_⟩
      intro T c hmem _
      simp only [List.mem_singleton, Event.voteGranted.injEq] at hmem
      obtain ⟨rfl, rfl⟩ := hmem
      exact .inl ⟨hvoted.1, hsame⟩
    · exact .refl r
  · split
    · exact .refl r
    · have hrecorded : ∀ r' ok, r.persistVote req.term (candidateBytes req) ws = (r', ok) →
          ∀ c, r'.stable.lastVoteCand = some c →
            (r'.stable.lastVoteTerm = r.stable.lastVoteTerm ∧ r.stable.lastVoteCand = some c) ∨
              (r'.stable.lastVoteTerm = req.term ∧ c = candidateBytes req) := by
        intro r' ok hp c hc
        obtain ⟨_, ⟨hs, _⟩ | ⟨hs, _, ht⟩ | ⟨hs, _⟩⟩ := persistVote_cases hp
        · rw [hs] at hc ⊢
          exact .inl ⟨rfl, hc⟩
        · rw [hs] at hc ⊢
          rcases htear ht with hnone | hsome
          · simp [hnone] at hc
          · exact .inr ⟨rfl, by simpa [hsome] using hc.symm⟩
        · rw [hs] at hc ⊢
          refine .inr ⟨rfl, ?_⟩
          by_cases hne : candidateBytes req = []
          · simp [StableStore.vote, hne] at hc
          · simpa [StableStore.vote, hne] using hc.symm
      split
      · rename_i r' hp
        refine ⟨?_, by simp⟩
        intro c hc _
        rcases hrecorded r' false hp c hc with hold | ⟨hterm, rfl⟩
        · exact .inl hold
        · exact .inr (by simp [hterm])
      · rename_i r' hp
        refine ⟨?_, ?_⟩
        · intro c hc _
          rcases hrecorded r' true hp c hc with hold | ⟨hterm, rfl⟩
          · exact .inl hold
          · exact .inr (by simp [hterm])
        · intro T c hmem _
          simp only [List.mem_cons, reduceCtorEq, List.not_mem_nil, or_false, false_or,
            Event.voteGranted.injEq] at hmem
          obtain ⟨rfl, rfl⟩ := hmem
          exact .inr (by simp)

theorem Checks.trans (h : Checks r r' es) (h' : Checks r' r'' es') (hconf : r'.conf = r.conf) :
    Checks r r'' (es ++ es') := by
  have haddr : r'.localAddr = r.localAddr := by simp [localAddr, hconf]
  constructor
  · intro c hc hne
    rcases h'.recorded c hc (haddr ▸ hne) with ⟨hterm, hcand⟩ | hmem
    · rcases h.recorded c hcand hne with ⟨hterm', hcand'⟩ | hmem
      · exact .inl ⟨hterm.trans hterm', hcand'⟩
      · exact .inr (List.mem_append.mpr (.inl (hterm ▸ hmem)))
    · exact .inr (List.mem_append.mpr (.inr hmem))
  · intro T c hmem hne
    rcases List.mem_append.mp hmem with hes | hes'
    · rcases h.granted T c hes hne with hold | hchecked
      · exact .inl hold
      · exact .inr (List.mem_append.mpr (.inl hchecked))
    · rcases h'.granted T c hes' (haddr ▸ hne) with ⟨hterm, hcand⟩ | hchecked
      · rcases h.recorded c hcand hne with ⟨hterm', hcand'⟩ | hmem
        · exact .inl ⟨hterm'.symm.trans hterm, hcand'⟩
        · exact .inr (List.mem_append.mpr (.inl (hterm ▸ hmem)))
      · exact .inr (List.mem_append.mpr (.inr hchecked))

/-- The outcomes of the two writes of `persistVote` in a step. -/
def voteWrites (r : Raft) (input : Input) (env : Env) : List Write :=
  match input with
  | .rpc (.requestVote req) => if r.currentTerm < req.term then env.writes.tail else env.writes
  | _ => env.writes.tail

theorem checks_requestVote
    (htear : tearsVote (r.voteWrites (.rpc (.requestVote req)) env) = true →
      r.stable.lastVoteCand = none ∨ r.stable.lastVoteCand = some (candidateBytes req)) :
    Checks r (r.requestVote req env).1 (r.requestVote req env).2.2 := by
  obtain ⟨_, hr | ⟨heq, -, hr⟩ | ⟨_, hlt, rfl, hr | ⟨-, hr⟩⟩, -⟩ := requestVote_cases r req env <;>
    rw [hr]
  · exact .refl r
  · rw [voteWrites, if_neg (by omega)] at htear
    exact checks_castVote htear
  · exact checks_follow r req.term env.writes
  · rw [voteWrites, if_pos hlt] at htear
    have hvotes := (setCurrentTerm_votes (r.setState .follower) req.term env.writes).2
    exact (checks_follow r req.term env.writes).trans
      (checks_castVote (fun ht => by rw [hvotes]; exact htear ht)) (conf_follow r req.term env.writes)

/-- In the loop of `electSelf` the only vote written is our own. -/
theorem checks_askVoters (haddr : req.header.addr = r.localAddr)
    (htear : tearsVote ws = true → r.stable.lastVoteCand = none ∨
      r.stable.lastVoteCand = some r.localAddr) (servers : List Server) :
    Checks r (r.askVoters req ws servers).1 (r.askVoters req ws servers).2.2.2 := by
  induction servers generalizing r ws with
  | nil => exact .refl r
  | cons server rest ih =>
    unfold askVoters
    split
    · exact ih haddr htear
    · split
      · have hpersist : ∀ r' ok, r.persistVote req.term req.header.addr ws = (r', ok) →
            Checks r r' (if ok then [.voteGranted req.term req.header.addr] else []) := by
          intro r' ok hp
          obtain ⟨_, hcases⟩ := persistVote_cases hp
          refine ⟨?_, ?_⟩
          · intro c hc hne
            rcases hcases with ⟨hs, _⟩ | ⟨hs, _, ht⟩ | ⟨hs, _⟩
            · rw [hs] at hc ⊢
              exact .inl ⟨rfl, hc⟩
            · rw [hs] at hc
              rcases htear ht with hnone | hsome
              · simp [hnone] at hc
              · simp only [hsome, Option.some.injEq] at hc
                exact absurd hc.symm hne
            · rw [hs, haddr] at hc
              by_cases hnil : r.localAddr = []
              · simp [StableStore.vote, hnil] at hc
              · simp only [StableStore.vote, hnil, if_false, Option.some.injEq] at hc
                exact absurd hc.symm hne
          · intro T c hmem hne
            cases ok with
            | false => simp at hmem
            | true =>
              simp only [if_true, List.mem_singleton, Event.voteGranted.injEq] at hmem
              exact absurd (hmem.2.trans haddr) hne
        split
        · rename_i r' hp
          exact hpersist r' false hp
        · rename_i r' hp
          obtain ⟨hsame, hcases⟩ := persistVote_cases hp
          have haddr' : r'.localAddr = r.localAddr := by simp [localAddr, hsame.conf]
          refine (hpersist r' true hp).trans (ih (by rw [haddr', haddr]) ?_) hsame.conf
          intro _
          rcases hcases with ⟨_, hok⟩ | ⟨_, hok, _⟩ | ⟨hs, _⟩
          · simp at hok
          · simp at hok
          · rw [hs, haddr, haddr']
            by_cases hnil : r.localAddr = []
            · exact .inl (by simp [StableStore.vote, hnil])
            · exact .inr (by simp [StableStore.vote, hnil])
      · exact ih haddr htear

theorem checks_electSelf (hup : r.down = false)
    (htear : tearsVote env.writes.tail = true → r.stable.lastVoteCand = none ∨
      r.stable.lastVoteCand = some r.localAddr) :
    Checks r (r.electSelf env).1 (r.electSelf env).2.2.2 := by
  rcases electSelf_cases r env hup with ⟨r', _, _, hstable, he⟩ | ⟨r', ok, asked, events, ha, _, he⟩
  · rw [he]
    rcases hstable with hs | hs
    · exact .of_votes (by rw [hs]) (by rw [hs]) (by simp)
    · exact .of_votes (by rw [hs]) (by rw [hs]) (by simp)
  · have haddr : r.nextTerm.voteRequest.header.addr = r.nextTerm.localAddr := rfl
    have hask := checks_askVoters (r := r.nextTerm) haddr htear r.configurations.latest.servers
    rw [ha] at hask
    rw [he]
    exact ⟨hask.recorded, hask.granted⟩

/-- When the two writes of `persistVote` are torn, no vote for another candidate
is on disk. -/
def WholeVote (r : Raft) (input : Input) (env : Env) : Prop :=
  tearsVote (r.voteWrites input env) = true →
    r.stable.lastVoteCand = none ∨ r.stable.lastVoteCand = some (r.candidateOf input)

instance (r : Raft) (input : Input) (env : Env) : Decidable (r.WholeVote input env) :=
  inferInstanceAs (Decidable (_ → _ ∨ _))

theorem checks_stepUp (hwhole : r.WholeVote input env) (hup : r.down = false)
    (h : r.stepUp env input = some o) : Checks r o.raft o.events := by
  cases termStep_stepUp hup h with
  | keep hsame hevents => exact .of_sameTerm hsame (not_voteGranted_of_kind hevents)
  | follow t _ hsame _ hevents =>
    have hvotes := setCurrentTerm_votes (r.setState .follower) t env.writes
    exact .of_votes (by rw [hsame.stable, hvotes.1]; rfl) (by rw [hsame.stable, hvotes.2]; rfl)
      (not_voteGranted_of_kind hevents)
  | request req hinput main hraft hevents =>
    subst hinput
    rw [hraft, hevents]
    exact (checks_requestVote hwhole).setMain main
  | elect hinput main hraft hevents =>
    rw [hraft, hevents]
    refine (checks_electSelf hup ?_).setMain main
    have hwrites : r.voteWrites input env = env.writes.tail := by
      unfold voteWrites
      split
      · exact absurd rfl (hinput _)
      · rfl
    unfold WholeVote at hwhole
    rwa [hwrites, candidateOf_of_not_request hinput] at hwhole

end Raft

/-- A vote is asked for by another server, under an address. -/
def Raft.ForeignCandidate (r : Raft) : Input → Prop
  | .rpc (.requestVote req) =>
    Raft.candidateBytes req ≠ [] ∧ Raft.candidateBytes req ≠ r.localAddr
  | _ => True

instance (r : Raft) (input : Input) : Decidable (r.ForeignCandidate input) := by
  unfold Raft.ForeignCandidate
  split <;> infer_instance

/-- The steps at which votes stay sound: no heartbeat raises the term while
`runCandidate` waits, requests for votes come from other servers, and a vote is
written whole unless no other vote is on disk. -/
def SoundVote (s : ServerRun) (a : Input × Env) : Prop :=
  CalmStep true s a ∧ s.raft.localAddr ≠ [] ∧ s.raft.ForeignCandidate a.1 ∧
    s.raft.WholeVote a.1 a.2

instance (s : ServerRun) (a : Input × Env) : Decidable (SoundVote s a) :=
  inferInstanceAs (Decidable (_ ∧ _ ∧ _ ∧ _))

/-- Every vote, on disk or given, has been checked if it is for another server. -/
structure Checked (s : ServerRun) : Prop extends Recorded s where
  nonempty : ∀ T c, .voteGranted T c ∈ s.history → c ≠ []
  recorded : ∀ c, s.raft.stable.lastVoteCand = some c → c ≠ s.raft.localAddr →
    .voteChecked s.raft.stable.lastVoteTerm c ∈ s.history
  checked : ∀ T c, .voteGranted T c ∈ s.history → c ≠ s.raft.localAddr →
    .voteChecked T c ∈ s.history

theorem Checked.init {s : ServerRun} (h : serverSystem.init s) : Checked s := by
  refine { Recorded.init h with nonempty := ?_, recorded := ?_, checked := ?_ }
  all_goals
    obtain ⟨conf, currentTerm, logs, snapshots, rfl⟩ := h
    simp

theorem Recorded.checks {s : ServerRun} {input : Input} {env : Env} {o : Outcome}
    (hwhole : s.raft.WholeVote input env) (ho : s.raft.step input env = some o) :
    Raft.Checks s.raft o.raft o.events := by
  refine Raft.step_cases (P := fun o => Raft.Checks s.raft o.raft o.events) ho ?_
    (fun hup h' => Raft.checks_stepUp hwhole hup h')
  intro r' _ _ hr
  have hstarted := Raft.started_newRaft hr
  exact .of_votes (by rw [hstarted.stable]) (by rw [hstarted.stable]) (by simp)

theorem Checked.step {s s' : ServerRun} {a : Input × Env} (h : Checked s) (hsound : SoundVote s a)
    (hs : serverSystem.step s a = some s') : Checked s' := by
  obtain ⟨hcalm, haddr, hforeign, hwhole⟩ := hsound
  refine { h.toRecorded.step hcalm hs with nonempty := ?_, recorded := ?_, checked := ?_ }
  all_goals
    obtain ⟨o, ho, rfl⟩ := serverSystem_step hs
    have hchecks := Recorded.checks hwhole ho
    have hlocal : o.raft.localAddr = s.raft.localAddr := by
      simp [Raft.localAddr, Raft.conf_step ho]
  · intro T c hmem
    rcases List.mem_append.mp hmem with hnew | hold
    · cases hdown : s.raft.down with
      | true =>
        obtain ⟨_, r', _, rfl⟩ := Raft.step_down ho hdown
        simp at hnew
      | false =>
        have hc := (Raft.granted_stepUp ⟨h.term hdown, h.bound⟩ hdown (Raft.step_up ho hdown) hnew).2
        rw [hc]
        unfold Raft.candidateOf
        split
        · rename_i req heq
          rw [heq] at hforeign
          exact hforeign.1
        · exact haddr
    · exact h.nonempty T c hold
  · intro c hc hne
    rw [hlocal] at hne
    rcases hchecks.recorded c hc hne with ⟨hterm, hcand⟩ | hmem
    · exact List.mem_append.mpr (.inr (hterm ▸ h.recorded c hcand hne))
    · exact List.mem_append.mpr (.inl hmem)
  · intro T c hmem hne
    rw [hlocal] at hne
    rcases List.mem_append.mp hmem with hnew | hold
    · rcases hchecks.granted T c hnew hne with ⟨hterm, hcand⟩ | hchecked
      · exact List.mem_append.mpr (.inr (hterm ▸ h.recorded c hcand hne))
      · exact List.mem_append.mpr (.inl hchecked)
    · exact List.mem_append.mpr (.inr (h.checked T c hold hne))

/-- In every run whose steps are sound for votes, a server gives its vote of a term
to one address, and to another server only after it has found that server's last
entry, in a request of the same term, at least as up to date as its own. -/
theorem vote_durability {s : ServerRun} (h : serverSystem.Reachable SoundVote s) :
    (∀ T a b, .voteGranted T a ∈ s.history → .voteGranted T b ∈ s.history → a = b) ∧
      ∀ T a, .voteGranted T a ∈ s.history → a ≠ s.raft.localAddr → .voteChecked T a ∈ s.history := by
  have hinv : Checked s :=
    System.Reachable.invariant (fun _ => Checked.init) (fun _ _ _ hc hok hs => hc.step hok hs) h
  refine ⟨?_, hinv.checked⟩
  intro T a b ha hb
  exact hinv.unique T a b ha hb (hinv.nonempty T a ha) (hinv.nonempty T b hb)

/-- A voter of a three-server cluster, before its first start. -/
def voterStart : ServerRun :=
  ⟨{ conf := { localID := [65], localAddr := [65] }
     stable := { currentTerm := 1 }
     logs := [{ index := 1, term := 1, type := .logConfiguration
                data := encodeConfiguration ⟨[voterNamed 65, voterNamed 66, voterNamed 67]⟩ },
              { index := 2, term := 2, type := .logCommand }]
     down := true }, []⟩

/-- A request for a vote from the server `name`. -/
def requestFrom (name : UInt8) (term lastLogIndex lastLogTerm : Nat) : Input :=
  .rpc (.requestVote
    { header := { id := [name], addr := [name] }, term := term, candidate := [name]
      lastLogIndex := lastLogIndex, lastLogTerm := lastLogTerm })

theorem vote_durability_whole :
    ∃ s, serverSystem.Reachable SoundVote s ∧
      .voteGranted 3 [66] ∈ s.history ∧ .voteChecked 3 [66] ∈ s.history := by
  obtain ⟨s, hreach, hgranted, haddr⟩ : ∃ s, serverSystem.Reachable SoundVote s ∧
      .voteGranted 3 [66] ∈ s.history ∧ s.raft.localAddr = [65] :=
    System.exists_reachable (s := voterStart) ⟨_, _, _, _, rfl⟩
      ([.restart, .run, .enter, .loopTest, requestFrom 66 3 2 2].map (fun input _ => (input, {})))
      (by decide +kernel)
  exact ⟨s, hreach, hgranted, (vote_durability hreach).2 3 [66] hgranted (by rw [haddr]; decide)⟩

/-- Neither the term of a server falls nor a vote is forgotten, over crashes and restarts
too, and a running server has the term that is on its disk. -/
theorem term_and_votes_kept {s s' : ServerRun} (h : serverSystem.Reachable (CalmStep true) s)
    (hrun : serverSystem.Reaches (CalmStep true) s s') :
    s.raft.stable.currentTerm ≤ s'.raft.stable.currentTerm ∧
      (∀ T c, c ≠ [] → s.raft.stable.Voted T c → s'.raft.stable.Voted T c) ∧
      (s'.raft.down = false → s'.raft.currentTerm = s'.raft.stable.currentTerm) := by
  have hinv := hrun.invariant (P := fun s' => Recorded s' ∧
      s.raft.stable.currentTerm ≤ s'.raft.stable.currentTerm ∧
      ∀ T c, c ≠ [] → s.raft.stable.Voted T c → s'.raft.stable.Voted T c) ?_
    ⟨recorded_of_reachable h, Nat.le_refl _, fun _ _ _ hv => hv⟩
  · exact ⟨hinv.2.1, hinv.2.2, hinv.1.term⟩
  · rintro s₁ a s₂ ⟨hrecorded, hle, hvoted⟩ hcalm hs
    obtain ⟨o, ho, rfl⟩ := serverSystem_step hs
    have hp := hrecorded.persisted ho
    exact ⟨hrecorded.step hcalm hs, hle.trans hp.mono,
      fun T c hc hv => hp.voted T c hc (hvoted T c hc hv)⟩

theorem term_and_votes_kept_crashed : ∃ s s' : ServerRun, s.raft.stable.Voted 3 [66] ∧
    s'.raft.stable.currentTerm = 4 ∧ s'.raft.stable.Voted 3 [66] := by
  have hplays : serverSystem.plays (fun s a => decide (CalmStep true s a))
      (fun s => decide (s.raft.stable.lastVoteTerm = 3 ∧ s.raft.stable.lastVoteCand = some [66]) &&
        serverSystem.plays (fun s a => decide (CalmStep true s a))
          (fun s' => decide (s'.raft.stable.currentTerm = 4)) s
          ([.crash, .restart, .run, .enter, .loopTest, requestFrom 67 4 0 0].map (fun input _ => (input, {}))))
      voterStart ([.restart, .run, .enter, .loopTest, requestFrom 66 3 2 2].map (fun input _ => (input, {}))) =
        true := by
    decide +kernel
  obtain ⟨s, hreach, hcheck⟩ :=
    System.reaches_of_plays (CalmStep true) (fun _ _ h => of_decide_eq_true h) hplays
  obtain ⟨hvote, hrest⟩ := Bool.and_eq_true_iff.mp hcheck
  obtain ⟨s', hreach', hterm⟩ :=
    System.reaches_of_plays (CalmStep true) (fun _ _ h => of_decide_eq_true h) hrest
  have hvoted : s.raft.stable.Voted 3 [66] :=
    .inr ⟨(of_decide_eq_true hvote).1.symm, (of_decide_eq_true hvote).2⟩
  exact ⟨s, s', hvoted, of_decide_eq_true hterm,
    (term_and_votes_kept ⟨voterStart, ⟨_, _, _, _, rfl⟩, hreach⟩ hreach').2.1 3 [66] (by simp) hvoted⟩

/-- The server votes for `B` in term 3; in term 4 it dies between the two writes
of its vote for `C`; then `B`, with a shorter log, is given the vote of term 4. -/
def tornVote : List (ServerRun → Input × Env) :=
  [(.restart, {}), (.run, {}), (.enter, {}), (.loopTest, {}), (requestFrom 66 3 2 2, {}), (.loopTest, {}),
    (requestFrom 67 4 2 2, { writes := [.ok, .ok, .crash false] }), (.restart, {}), (.run, {}),
    (.enter, {}), (.loopTest, {}), (requestFrom 66 4 1 1, {})].map (fun a _ => a)

/-- When the process dies between the two writes of `persistVote`, the candidate
of an older vote is given the vote of the new term without a look at its log. -/
theorem unchecked_vote :
    ∃ s, serverSystem.Reachable (fun _ _ => True) s ∧
      .voteGranted 4 [66] ∈ s.history ∧ .voteChecked 4 [66] ∉ s.history ∧
      s.raft.localAddr ≠ [66] :=
  System.exists_reachable (s := voterStart) ⟨_, _, _, _, rfl⟩ tornVote (by decide +kernel)

end PerfRaft
