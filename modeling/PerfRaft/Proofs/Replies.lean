import PerfRaft.Tenure
import PerfRaft.Proofs.Batches
import PerfRaft.Proofs.Handlers

namespace PerfRaft

namespace Replies

variable {q : Replies} {success : Bool} {id : Nat} {ids : List Nat}

/-- Every answer of success reaches its client, and nobody is answered twice. -/
structure Effective (q : Replies) : Prop where
  once : q.answered.Nodup
  succeeds : ∀ id, (id, true) ∈ q.attempts → (id, true) ∈ q.answers

theorem mem_answered_respond {x : Nat} :
    x ∈ (q.respond success id).answered ↔ x ∈ q.answered ∨ x = id ∧ id ≠ 0 := by
  unfold respond
  split
  · rename_i hzero
    simp [hzero]
  · rename_i hid
    by_cases hmem : id ∈ q.answered
    · rw [if_pos hmem]
      constructor
      · exact .inl
      · rintro (hx | ⟨rfl, -⟩)
        · exact hx
        · exact hmem
    · rw [if_neg hmem]
      simp only [answered, List.map_cons, List.mem_cons, ne_eq, hid, not_false_eq_true, and_true]
      exact Or.comm

theorem mem_answered_respondAll {x : Nat} :
    x ∈ (q.respondAll success ids).answered ↔ x ∈ q.answered ∨ x ∈ ids ∧ x ≠ 0 := by
  induction ids generalizing q with
  | nil => simp [respondAll]
  | cons id rest ih =>
    have hrest := ih (q := q.respond success id)
    simp only [respondAll, List.foldl_cons] at hrest ⊢
    rw [hrest, mem_answered_respond]
    constructor
    · rintro ((hx | ⟨rfl, hne⟩) | ⟨hx, hne⟩)
      · exact .inl hx
      · exact .inr ⟨List.mem_cons_self, hne⟩
      · exact .inr ⟨List.mem_cons_of_mem _ hx, hne⟩
    · rintro (hx | ⟨hx, hne⟩)
      · exact .inl (.inl hx)
      · rcases List.mem_cons.mp hx with rfl | hx
        · exact .inl (.inr ⟨rfl, hne⟩)
        · exact .inr ⟨hx, hne⟩

theorem mem_answers_respond {p : Nat × Bool} (h : p ∈ (q.respond success id).answers) :
    p ∈ q.answers ∨ p = (id, success) ∧ id ≠ 0 := by
  unfold respond at h
  split at h
  · exact .inl h
  · rename_i hid
    simp only at h
    split at h
    · exact .inl h
    · rcases List.mem_cons.mp h with hp | hp
      · exact .inr ⟨hp, hid⟩
      · exact .inl hp

theorem mem_answers_respondAll {p : Nat × Bool} (h : p ∈ (q.respondAll success ids).answers) :
    p ∈ q.answers ∨ p.1 ∈ ids ∧ p.1 ≠ 0 ∧ p.2 = success := by
  induction ids generalizing q with
  | nil => exact .inl h
  | cons id rest ih =>
    rcases ih (q := q.respond success id) h with hp | ⟨hp, hne, heq⟩
    · rcases mem_answers_respond hp with hold | ⟨rfl, hne⟩
      · exact .inl hold
      · exact .inr ⟨List.mem_cons_self, hne, rfl⟩
    · exact .inr ⟨List.mem_cons_of_mem _ hp, hne, heq⟩

/-- A success that comes first, or an error at any time. -/
theorem Effective.respond (h : Effective q) (hid : success = true → id ≠ 0 → id ∉ q.answered) :
    Effective (q.respond success id) := by
  unfold Replies.respond
  split
  · exact h
  · rename_i hne
    refine ⟨?_, ?_⟩
    · by_cases hmem : id ∈ q.answered
      · rw [if_pos hmem]
        exact h.once
      · rw [if_neg hmem]
        exact List.nodup_cons.mpr ⟨hmem, h.once⟩
    · intro x hx
      rcases List.mem_cons.mp hx with heq | hold
      · obtain ⟨rfl, rfl⟩ := Prod.mk.inj heq
        simp [hid rfl hne]
      · simp only
        split
        · exact h.succeeds x hold
        · exact List.mem_cons_of_mem _ (h.succeeds x hold)

theorem Effective.respondAll (h : Effective q)
    (hids : success = true → (ids.filter (· != 0)).Nodup ∧ ∀ id ∈ ids, id ≠ 0 → id ∉ q.answered) :
    Effective (q.respondAll success ids) := by
  induction ids generalizing q with
  | nil => exact h
  | cons id rest ih =>
    apply ih (h.respond (fun hs => (hids hs).2 id List.mem_cons_self))
    intro hs
    obtain ⟨hnodup, hnew⟩ := hids hs
    rw [List.filter_cons] at hnodup
    refine ⟨?_, ?_⟩
    · split at hnodup
      · exact hnodup.of_cons
      · exact hnodup
    · intro x hx hne hmem
      rcases mem_answered_respond.mp hmem with hold | ⟨rfl, hid⟩
      · exact hnew x (List.mem_cons_of_mem _ hx) hne hold
      · rw [if_pos (by simpa using hid)] at hnodup
        apply (List.nodup_cons.mp hnodup).1
        exact List.mem_filter.mpr ⟨hx, by simpa using hne⟩

end Replies

section CommitIndex

variable (c : Commitment)

theorem commitIndex_recalculate : c.commitIndex ≤ c.recalculate.commitIndex := by
  unfold Commitment.recalculate
  split
  · exact Nat.le_refl _
  · split
    · rename_i hmore
      exact hmore.1.le
    · exact Nat.le_refl _

theorem commitIndex_matchServer (server : ServerID) (index : Nat) :
    c.commitIndex ≤ (c.matchServer server index).commitIndex := by
  unfold Commitment.matchServer
  split
  · exact Nat.le_refl _
  · split
    · exact commitIndex_recalculate (c.setMatchIndex server index)
    · exact Nat.le_refl _

theorem commitIndex_setConfiguration (configuration : Configuration) :
    c.commitIndex ≤ (c.setConfiguration configuration).commitIndex := by
  have hmore := commitIndex_recalculate
    { c with
      matchIndexes := configuration.voterIDs.dedup.map (fun id => (id, (c.matchIndex id).getD 0)) }
  exact hmore

end CommitIndex

namespace Raft

variable {r : Raft} {ls : LeaderState} {env : Env}

/-- `r'` is `r` after its leadership has been given the stamped futures: they are
on the queue, and in the store unless that has failed. -/
structure Queues (r : Raft) (ls : LeaderState) (stamped : List LogFuture) (env : Env) (r' : Raft) :
    Prop where
  applied : r'.lastApplied = r.lastApplied
  inflight : ∃ ls', r'.leaderships.head? = some ls' ∧ ls'.inflight = ls.inflight ++ stamped ∧
    ls.commitment.commitIndex ≤ ls'.commitment.commitIndex
  stored : env.storeLogs = true → r'.state = r.state ∧
    r'.logs = r.logs.storeLogs (stamped.map LogFuture.log) ∧
    r'.getLastIndex = r.getLastIndex + stamped.length
  failed : env.storeLogs = false → r'.state = .follower

theorem queues_dispatchLogs (hls : r.leaderships.head? = some ls) (futures : List LogFuture) :
    Queues r ls (stampLogs r.currentTerm env.now r.getLastIndex futures) env
      (r.dispatchLogs futures env).1 := by
  unfold dispatchLogs
  split
  · rename_i hfail
    refine ⟨rfl, ?_, by simp [hfail], fun _ => rfl⟩
    simp only [modifyLeaderState, setState, setLeader, List.head?_modifyHead, hls, Option.map_some]
    exact ⟨_, rfl, rfl, Nat.le_refl _⟩
  · rename_i hok
    refine ⟨rfl, ?_, ?_, ?_⟩
    · simp only [modifyLeaderState, setLastLog, List.head?_modifyHead, hls, Option.map_some]
      exact ⟨_, rfl, rfl, commitIndex_matchServer _ _ _⟩
    · intro _
      refine ⟨rfl, rfl, ?_⟩
      simp only [getLastIndex, setLastLog, modifyLeaderState, stampLogs_length]
      omega
    · intro hfail
      exact absurd hfail hok

theorem Queues.frame {stamped : List LogFuture} {r' r'' : Raft} (h : Queues r ls stamped env r')
    (happlied : r''.lastApplied = r'.lastApplied) (hstate : r''.state = r'.state)
    (hlogs : r''.logs = r'.logs) (hlast : r''.getLastIndex = r'.getLastIndex)
    (hhead : ∀ ls', r'.leaderships.head? = some ls' → ∃ ls'', r''.leaderships.head? = some ls'' ∧
      ls''.inflight = ls'.inflight ∧ ls'.commitment.commitIndex ≤ ls''.commitment.commitIndex) :
    Queues r ls stamped env r'' := by
  obtain ⟨ls', hls', hinflight, hcommit⟩ := h.inflight
  obtain ⟨ls'', hls'', hsame, hmore⟩ := hhead ls' hls'
  refine ⟨happlied.trans h.applied, ⟨ls'', hls'', hsame.trans hinflight, hcommit.trans hmore⟩, ?_, ?_⟩
  · intro henv
    obtain ⟨h₁, h₂, h₃⟩ := h.stored henv
    exact ⟨hstate.trans h₁, hlogs.trans h₂, hlast.trans h₃⟩
  · intro henv
    exact hstate.trans (h.failed henv)

theorem Queues.modifyLeaderState {stamped : List LogFuture} {r' : Raft}
    (h : Queues r ls stamped env r') (f : LeaderState → LeaderState)
    (hinflight : ∀ ls, (f ls).inflight = ls.inflight)
    (hcommit : ∀ ls, ls.commitment.commitIndex ≤ (f ls).commitment.commitIndex) :
    Queues r ls stamped env (r'.modifyLeaderState f) := by
  refine h.frame rfl rfl rfl rfl ?_
  intro ls' hls'
  simp only [Raft.modifyLeaderState, List.head?_modifyHead, hls', Option.map_some]
  exact ⟨_, rfl, hinflight ls', hcommit ls'⟩

theorem queues_dispatchNoop (hls : r.leaderships.head? = some ls) :
    Queues r ls (stampLogs r.currentTerm env.now r.getLastIndex
      [{ log := { index := 0, term := 0, type := .logNoop } }]) env (r.dispatchNoop env).raft :=
  (queues_dispatchLogs hls _).frame rfl rfl rfl rfl (fun ls' h => ⟨ls', h, rfl, Nat.le_refl _⟩)

theorem queues_apply (hls : r.leaderships.head? = some ls) (futures : List LogFuture) :
    Queues r ls (stampLogs r.currentTerm env.now r.getLastIndex futures) env
      (r.apply false futures env).raft :=
  (queues_dispatchLogs hls futures).frame rfl rfl rfl rfl (fun ls' h => ⟨ls', h, rfl, Nat.le_refl _⟩)

theorem queues_appendConfigurationEntry (hls : r.leaderships.head? = some ls)
    {req : ConfigurationChangeRequest} {configuration : Configuration}
    (hnext : nextConfiguration r.configurations.latest r.configurations.latestIndex req =
      .ok configuration) (future : Nat) (main : MainThread) :
    Queues r ls (stampLogs r.currentTerm env.now r.getLastIndex
      [⟨future, r.configurationEntry configuration⟩]) env
      { (r.appendConfigurationEntry req future env).1 with main := main } := by
  have hqueues : Queues r ls _ env
      (r.dispatchLogs [⟨future, r.configurationEntry configuration⟩] env).1 :=
    queues_dispatchLogs hls _
  simp only [appendConfigurationEntry, hnext]
  generalize r.dispatchLogs [⟨future, r.configurationEntry configuration⟩] env = d at hqueues ⊢
  have hlatest : Queues r ls _ env
      (d.1.setLatestConfiguration configuration (r.getLastIndex + 1)) :=
    hqueues.frame rfl rfl rfl rfl (fun ls' h => ⟨ls', h, rfl, Nat.le_refl _⟩)
  have hset := hlatest.modifyLeaderState (fun ls =>
    { ls with commitment := ls.commitment.setConfiguration configuration }) (fun _ => rfl)
    (fun _ => commitIndex_setConfiguration _ _)
  generalize Raft.modifyLeaderState _ _ = r₁ at hset ⊢
  have hreplication : Queues r ls _ env r₁.startStopReplication :=
    hset.modifyLeaderState _ (fun _ => rfl) (fun _ => Nat.le_refl _)
  exact hreplication.frame rfl rfl rfl rfl (fun ls' h => ⟨ls', h, rfl, Nat.le_refl _⟩)

end Raft

end PerfRaft
