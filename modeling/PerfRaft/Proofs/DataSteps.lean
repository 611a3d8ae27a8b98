import PerfRaft.Proofs.Data

namespace PerfRaft

namespace Raft

variable {r r' : Raft} {env : Env} {o : Outcome} {input : Input}

/-- What an input of a running server does to its data, whatever else it does. The
futures that are dispatched are those of the no-op, of commands and of barriers. -/
inductive DataStep (r : Raft) (env : Env) (r' : Raft) : Input → Prop where
  | keep {input : Input} (h : SameData r r') : DataStep r env r' input
  | append {input : Input} {a : AppendEntriesRequest} (ha : input.append? = some a)
      (h : SameData (r.appendEntries a env).1 r') : DataStep r env r' input
  | install {req : InstallSnapshotRequest} (h : SameData (r.installSnapshot req env).1 r') :
      DataStep r env r' (.rpc (.installSnapshot req))
  | dispatch {input : Input} {futures : List LogFuture}
      (hinput : input = .enter ∨ input = .apply futures) (hne : futures ≠ [])
      (hplain : ∀ f ∈ futures, f.log.configuration? = none)
      (h : SameData (r.dispatchLogs futures env).1 r') : DataStep r env r' input
  | configure {req : ConfigurationChangeRequest} {future : Nat}
      (hstable : r.configurationChangeChIfStable = true)
      (h : SameData (r.appendConfigurationEntry req future env).1 r') :
      DataStep r env r' (.configurationChange req future)
  | commit {ls : LeaderState} {stepDown : Bool} (h : SameData (r.leaderCommit ls stepDown).1 r') :
      DataStep r env r' .commit

theorem configuration?_of_acceptsFutures {futures : List LogFuture}
    (h : r.acceptsFutures futures = true) : ∀ f ∈ futures, f.log.configuration? = none := by
  intro f hf
  simp only [acceptsFutures, Bool.and_eq_true, List.all_eq_true, Bool.or_eq_true, beq_iff_eq] at h
  rcases h.2 f hf with htype | htype <;> simp [Log.configuration?, htype]

theorem ne_nil_of_acceptsFutures {futures : List LogFuture} (h : r.acceptsFutures futures = true) :
    futures ≠ [] := by
  rintro rfl
  simp [acceptsFutures] at h

theorem dataStep_rpc {cmd : Command} (h : r.stepUp env (.rpc cmd) = some o) (hup : r.down = false) :
    DataStep r env o.raft (.rpc cmd) := by
  cases cmd with
  | requestVote req => exact .keep (sameData_stepUp h hup rfl)
  | requestPreVote req => exact .keep (sameData_stepUp h hup rfl)
  | timeoutNow req => exact .keep (sameData_stepUp h hup rfl)
  | appendEntries a =>
    rw [(stepUp_rpc h).2.1]
    unfold processRPC
    split
    · exact .keep ((SameData.refl r).setMain _)
    · exact .append rfl ((SameData.refl _).setMain _)
  | installSnapshot req =>
    rw [(stepUp_rpc h).2.1]
    unfold processRPC
    split
    · exact .keep ((SameData.refl r).setMain _)
    · exact .install ((SameData.refl _).setMain _)

theorem dataStep_stepUp (h : r.stepUp env input = some o) (hup : r.down = false) :
    DataStep r env o.raft input := by
  cases hkeep : r.writesData input with
  | false => exact .keep (sameData_stepUp h hup hkeep)
  | true =>
    cases input with
    | rpc cmd => exact dataStep_rpc h hup
    | heartbeat a =>
      rw [(stepUp_heartbeat h).2.1]
      exact .append rfl (.refl _)
    | enter =>
      have hnoop : r.main = .noop := by simpa [writesData] using hkeep
      simp only [stepUp, enter, hnoop, Option.some.injEq] at h
      subst h
      refine @DataStep.dispatch _ _ _ _ [{ log := { index := 0, term := 0, type := .logNoop } }]
        (.inl rfl) ?_ ?_ ?_
      · simp
      · simp [Log.configuration?]
      · exact (SameData.refl _).setMain _
    | apply futures =>
      obtain ⟨stepDown, -, hfutures, rfl⟩ := stepUp_apply h
      cases stepDown with
      | true => exact .keep ((SameData.refl r).setMain _)
      | false =>
        exact .dispatch (.inr rfl) (ne_nil_of_acceptsFutures hfutures)
          (configuration?_of_acceptsFutures hfutures) ((SameData.refl _).setMain _)
    | configurationChange req future =>
      obtain ⟨stepDown, -, hstable, ho, -⟩ := stepUp_configurationChange h
      rw [ho]
      exact .configure hstable ((SameData.refl _).setMain _)
    | commit =>
      obtain ⟨stepDown, ls, rest, -, -, -, ho, -⟩ := stepUp_commit h
      rw [ho]
      exact .commit (.refl _)
    | restart => exact absurd h stepUp_restart
    | run | loopTest | heartbeatTimer | preVote _ _ | vote _ _ | electionTimer | stepDown
    | replication _ _ _ | crash => simp [writesData] at hkeep

end Raft

end PerfRaft
