import PerfRaft.Proofs.Frames

namespace PerfRaft

/-- The vote recorded on disk rules out every other vote of term `term`. -/
def StableStore.Voted (s : StableStore) (term : Nat) (candidate : Bytes) : Prop :=
  term < s.lastVoteTerm ∨ (term = s.lastVoteTerm ∧ s.lastVoteCand = some candidate)

/-- The two writes of `persistVote` are torn: the term reaches the disk and the
candidate does not. -/
def tearsVote (ws : List Write) : Bool :=
  (ws.headD .ok).applied && !(decide (ws.headD .ok = .ok) && (ws.tail.headD .ok).applied)

/-- The store after both writes of `persistVote`. -/
def StableStore.vote (s : StableStore) (term : Nat) (candidate : Bytes) : StableStore :=
  { s with
    lastVoteTerm := term
    lastVoteCand := if candidate = [] then none else some candidate }

namespace Raft

/-- Only the store and the process itself are touched. -/
def SameButStable (r r' : Raft) : Prop :=
  r' = { r with stable := r'.stable, down := r'.down }

theorem SameButStable.refl (r : Raft) : SameButStable r r := rfl

theorem SameButStable.trans (h : SameButStable r r') (h' : SameButStable r' r'') :
    SameButStable r r'' := by
  unfold SameButStable at *
  rw [h', h]

theorem SameButStable.currentTerm (h : SameButStable r r') : r'.currentTerm = r.currentTerm := by
  rw [h]

theorem SameButStable.conf (h : SameButStable r r') : r'.conf = r.conf := by
  rw [h]

theorem SameButStable.state (h : SameButStable r r') : r'.state = r.state := by
  rw [h]

theorem SameButStable.main (h : SameButStable r r') : r'.main = r.main := by
  rw [h]

theorem SameButStable.configurations (h : SameButStable r r') :
    r'.configurations = r.configurations := by
  rw [h]

/-- A term is set in the store and in memory, or the process is gone. -/
theorem setCurrentTerm_cases (r : Raft) (t : Nat) (ws : List Write) :
    r.setCurrentTerm t ws =
        { r with stable := { r.stable with currentTerm := t }, currentTerm := t } ∨
      ((r.setCurrentTerm t ws).down = true ∧ SameButStable r (r.setCurrentTerm t ws) ∧
        ((r.setCurrentTerm t ws).stable = r.stable ∨
          (r.setCurrentTerm t ws).stable = { r.stable with currentTerm := t })) := by
  unfold setCurrentTerm
  cases h : ws.headD .ok with
  | ok => left; simp [write, Write.applied]
  | fail applied => right; cases applied <;> simp [write, Write.applied, SameButStable]
  | crash applied => right; cases applied <;> simp [write, Write.applied, SameButStable]

/-- What `persistVote` leaves in the store. -/
theorem persistVote_cases {r r' : Raft} {term : Nat} {candidate : Bytes} {ws : List Write}
    {ok : Bool} (h : r.persistVote term candidate ws = (r', ok)) :
    SameButStable r r' ∧
      ((r'.stable = r.stable ∧ ok = false) ∨
        (r'.stable = { r.stable with lastVoteTerm := term } ∧ ok = false ∧ tearsVote ws = true) ∨
        (r'.stable = r.stable.vote term candidate ∧ (ok = true → r'.down = r.down))) := by
  unfold persistVote at h
  cases h1 : ws.headD .ok with
  | ok =>
    cases h2 : ws.tail.headD .ok with
    | ok =>
      simp only [h1, h2, write, Write.applied, ne_eq, not_true_eq_false, if_false, if_true,
        Prod.mk.injEq] at h
      obtain ⟨rfl, rfl⟩ := h
      exact ⟨rfl, .inr (.inr ⟨rfl, fun _ => rfl⟩)⟩
    | fail applied =>
      simp only [h1, h2, write, Write.applied, ne_eq, not_true_eq_false, if_false, if_true,
        Prod.mk.injEq] at h
      obtain ⟨rfl, rfl⟩ := h
      cases applied with
      | false => exact ⟨rfl, .inr (.inl ⟨rfl, rfl, by simp only [tearsVote, h1, h2, Write.applied]; rfl⟩)⟩
      | true => exact ⟨rfl, .inr (.inr ⟨rfl, fun _ => rfl⟩)⟩
    | crash applied =>
      simp only [h1, h2, write, Write.applied, ne_eq, not_true_eq_false, if_false, if_true,
        Prod.mk.injEq] at h
      obtain ⟨rfl, rfl⟩ := h
      cases applied with
      | false => exact ⟨rfl, .inr (.inl ⟨rfl, rfl, by simp only [tearsVote, h1, h2, Write.applied]; rfl⟩)⟩
      | true => exact ⟨rfl, .inr (.inr ⟨rfl, fun h => absurd h (by simp)⟩)⟩
  | fail applied =>
    simp only [h1, write, Write.applied, ne_eq, reduceCtorEq, not_false_eq_true, if_true,
      Prod.mk.injEq] at h
    obtain ⟨rfl, rfl⟩ := h
    cases applied with
    | false => exact ⟨rfl, .inl ⟨rfl, rfl⟩⟩
    | true => exact ⟨rfl, .inr (.inl ⟨rfl, rfl, by simp only [tearsVote, h1, Write.applied]; rfl⟩)⟩
  | crash applied =>
    simp only [h1, write, Write.applied, ne_eq, reduceCtorEq, not_false_eq_true, if_true,
      Prod.mk.injEq] at h
    obtain ⟨rfl, rfl⟩ := h
    cases applied with
    | false => exact ⟨rfl, .inl ⟨rfl, rfl⟩⟩
    | true => exact ⟨rfl, .inr (.inl ⟨rfl, rfl, by simp only [tearsVote, h1, Write.applied]; rfl⟩)⟩

/-- What `requestVote` comes to: a refusal, before or after a newer term is taken over,
or a vote cast in the term of the request. -/
theorem requestVote_cases (r : Raft) (req : RequestVoteRequest) (env : Env) :
    ∃ resp, (r.requestVote req env = (r, resp, []) ∨
      (r.currentTerm = req.term ∧ r.down = false ∧
        r.requestVote req env = r.castVote req resp env env.writes) ∨
      ∃ r', r.currentTerm < req.term ∧ r' = (r.setState .follower).setCurrentTerm req.term env.writes ∧
        (r.requestVote req env = (r', resp, []) ∨
          r'.down = false ∧ r.requestVote req env = r'.castVote req resp env env.writes.tail)) ∧
      resp.granted = false := by
  unfold requestVote
  dsimp only
  split
  · exact ⟨_, .inl rfl, rfl⟩
  split
  · exact ⟨_, .inl rfl, rfl⟩
  split
  · exact ⟨_, .inl rfl, rfl⟩
  by_cases hlt : r.currentTerm < req.term
  · simp only [if_pos hlt]
    split
    · exact ⟨_, .inr (.inr ⟨_, hlt, rfl, .inl rfl⟩), rfl⟩
    rename_i hup
    split
    · exact ⟨_, .inr (.inr ⟨_, hlt, rfl, .inl rfl⟩), rfl⟩
    · exact ⟨_, .inr (.inr ⟨_, hlt, rfl, .inr ⟨by simpa using hup, rfl⟩⟩), rfl⟩
  · simp only [if_neg hlt]
    split
    · exact ⟨_, .inl rfl, rfl⟩
    rename_i hup
    split
    · exact ⟨_, .inl rfl, rfl⟩
    · exact ⟨_, .inr (.inl ⟨by omega, by simpa using hup, rfl⟩), rfl⟩

end Raft

end PerfRaft
