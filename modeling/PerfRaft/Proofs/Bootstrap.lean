import PerfRaft.Bootstrap
import PerfRaft.Proofs.LogStore

namespace PerfRaft

/-- What a bootstrap that completes leaves in empty stores. -/
def bootstrapped (conf : Config) (configuration : Configuration) : Storage :=
  { stable := { currentTerm := 1 }, logs := [bootstrapEntry conf configuration] }

/-- The three reads of `HasExistingState` succeed, so that the writes are reached. -/
def BootstrapEnv.ReadsState (env : BootstrapEnv) : Prop :=
  env.getTerm = .ok ∧ env.lastIndex = .ok ∧ env.list = .ok

/-- Once the term is on disk, nothing fails before the entry is there too. -/
def BootstrapEnv.TermWithEntry (env : BootstrapEnv) : Prop :=
  env.ReadsState → env.setTerm.applied = true → env.setTerm = .ok ∧ env.storeLog = .ok

instance (env : BootstrapEnv) : Decidable env.TermWithEntry :=
  inferInstanceAs (Decidable (_ ∧ _ ∧ _ → _ → _))

theorem hasExistingState_empty : hasExistingState {} {} = .ok false := rfl

/-- On empty stores `HasExistingState` reports false or does not return a result. -/
theorem hasExistingState_of_empty (env : BootstrapEnv) :
    (env.ReadsState ∧ hasExistingState {} env = .ok false) ∨
      (¬env.ReadsState ∧ ∃ halt, hasExistingState {} env = .error halt) := by
  cases ht : env.getTerm <;> cases hl : env.lastIndex <;> cases hs : env.list <;>
    simp [BootstrapEnv.ReadsState, hasExistingState, Read.outcome, ht, hl, hs, LogStore.lastIndex,
      bind, Except.bind, pure, Except.pure]

/-- With the term on disk the stores count as existing state. -/
theorem hasExistingState_term {s : Storage} (h : s.stable.currentTerm = 1) :
    hasExistingState s {} = .ok true := by
  simp [hasExistingState, Read.outcome, h, bind, Except.bind, pure, Except.pure]

theorem Write.outcome_eq_ok {ε : Type} {err : ε} {w : Write} : w.outcome err = .ok () ↔ w = .ok := by
  cases w <;> simp [Write.outcome]

variable {env : BootstrapEnv}

theorem writeBootstrap_ok (conf : Config) (configuration : Configuration)
    (ht : env.setTerm = .ok) (hs : env.storeLog = .ok) :
    writeBootstrap conf {} configuration env = (bootstrapped conf configuration, .ok ()) := by
  simp [writeBootstrap, ht, hs, Write.outcome, Storage.setTerm, Storage.storeLog, Write.applied,
    bootstrapped, LogStore.storeLog]

/-- The first write leaves the stores as they were, or the term in them. -/
theorem writeBootstrap_halted (conf : Config) (configuration : Configuration) :
    (env.setTerm.applied = false ∧ (writeBootstrap conf {} configuration env).1 = {}) ∨
      (env.setTerm.applied = true ∧
        (writeBootstrap conf {} configuration env).1.stable.currentTerm = 1) := by
  cases ha : env.setTerm.applied with
  | true =>
    refine .inr ⟨rfl, ?_⟩
    simp only [writeBootstrap, Storage.setTerm, ha, if_true]
    split
    · rfl
    · unfold Storage.storeLog
      split <;> rfl
  | false =>
    refine .inl ⟨rfl, ?_⟩
    have ht : env.setTerm ≠ .ok := by
      intro he
      simp [he, Write.applied] at ha
    simp only [writeBootstrap, Storage.setTerm, ha, Bool.false_eq_true, if_false]
    split
    · rfl
    · rename_i hok
      exact absurd (Write.outcome_eq_ok.mp hok) ht

section

variable {conf : Config} {configuration : Configuration}
  (hv : Raft.validateConfig conf = true) (hc : checkConfiguration configuration = .ok ())

include hv hc

theorem bootstrapCluster_working :
    bootstrapCluster conf {} configuration {} = (bootstrapped conf configuration, .ok ()) := by
  simp only [bootstrapCluster, hv, hc, hasExistingState_empty, Bool.true_eq_false, if_false]
  exact writeBootstrap_ok conf configuration rfl rfl

/-- A bootstrap of empty stores that does not complete leaves them empty, or the term in
them. -/
theorem bootstrapCluster_halted (h : (bootstrapCluster conf {} configuration env).2 ≠ .ok ()) :
    (env.TermWithEntry ∧ (bootstrapCluster conf {} configuration env).1 = {}) ∨
      (¬env.TermWithEntry ∧
        hasExistingState (bootstrapCluster conf {} configuration env).1 {} = .ok true) := by
  simp only [bootstrapCluster, hv, hc, Bool.true_eq_false, if_false] at h ⊢
  rcases hasExistingState_of_empty env with ⟨hreads, hstate⟩ | ⟨hreads, halt, hstate⟩
  · simp only [hstate] at h ⊢
    rcases writeBootstrap_halted conf configuration with ⟨ha, hempty⟩ | ⟨ha, hterm⟩
    · exact .inl ⟨fun _ ha' => absurd ha' (by simp [ha]), hempty⟩
    · refine .inr ⟨?_, hasExistingState_term hterm⟩
      intro henv
      obtain ⟨ht, hs⟩ := henv hreads ha
      rw [writeBootstrap_ok conf configuration ht hs] at h
      exact h rfl
  · refine .inl ⟨fun hr => absurd hr hreads, ?_⟩
    rw [hstate]
    cases halt <;> rfl

end

namespace Raft

theorem configuration_bootstrapEntry (conf : Config) (configuration : Configuration) (r : Raft) :
    (r.processConfigurationLogEntry (bootstrapEntry conf configuration)).2 = true := by
  simp only [bootstrapEntry]
  split <;> rfl

theorem storage_processConfigurationLogEntry (r : Raft) (entry : Log) :
    (r.processConfigurationLogEntry entry).1.storage = r.storage := by
  simp only [processConfigurationLogEntry]
  split <;> first | rfl | (split <;> rfl)

theorem makeLive_working (r : Raft) (hup : r.down = false) (conf : Config)
    (configuration : Configuration) :
    ∃ r', r.makeLive (bootstrapEntry conf configuration) .ok = (r', .ok ()) ∧
      r'.storage = { r.storage with stable := { r.stable with currentTerm := 1 } } := by
  have hdown : (r.setCurrentTerm 1 [.ok]).down = false := by
    simp [setCurrentTerm, write, hup]
  simp only [makeLive, hdown, Bool.false_eq_true, if_false]
  have hdec := configuration_bootstrapEntry conf configuration
    ((r.setCurrentTerm 1 [.ok]).setLastLog (bootstrapEntry conf configuration).index
      (bootstrapEntry conf configuration).term)
  have hst := storage_processConfigurationLogEntry
    ((r.setCurrentTerm 1 [.ok]).setLastLog (bootstrapEntry conf configuration).index
      (bootstrapEntry conf configuration).term) (bootstrapEntry conf configuration)
  split
  · rename_i r' he
    refine ⟨r', rfl, ?_⟩
    rw [he] at hst
    rw [hst]
    simp [storage, setLastLog, setCurrentTerm, write, Write.applied]
  · rename_i r' he
    rw [he] at hdec
    cases hdec

/-- With working stores `liveBootstrap` succeeds on empty ones. -/
theorem liveBootstrap_working {r : Raft} {configuration : Configuration}
    (hv : validateConfig r.conf = true) (hc : checkConfiguration configuration = .ok ())
    (hvote : hasVote configuration r.localID = true) (hup : r.down = false) (hr : r.storage = {}) :
    ∃ r', r.liveBootstrap configuration {} = (r', .ok ()) ∧
      r'.storage = bootstrapped r.conf configuration := by
  obtain ⟨r', hlive, hstorage⟩ :=
    makeLive_working (r.setStorage (bootstrapped r.conf configuration)) hup r.conf configuration
  refine ⟨r', ?_, ?_⟩
  · have hget : (bootstrapped r.conf configuration).logs.getLog 1 =
        some (bootstrapEntry r.conf configuration) := by
      simp only [bootstrapped, LogStore.getLog, bootstrapEntry]
      split <;> rfl
    simp only [liveBootstrap, hvote, hr, bootstrapCluster_working hv hc, hget, Bool.true_eq_false,
      if_false]
    exact hlive
  · rw [hstorage]
    rfl

/-- What `liveBootstrap` leaves when `BootstrapCluster` does not complete in it. -/
theorem liveBootstrap_halted {r : Raft} {configuration : Configuration}
    (hvote : hasVote configuration r.localID = true)
    (h : (bootstrapCluster r.conf r.storage configuration env).2 ≠ .ok ()) :
    (r.liveBootstrap configuration env).1.storage =
      (bootstrapCluster r.conf r.storage configuration env).1 ∧
    (r.liveBootstrap configuration env).1.conf = r.conf := by
  simp only [liveBootstrap, hvote, Bool.true_eq_false, if_false]
  split
  · rename_i s he
    exact ⟨(congrArg Prod.fst he).symm, rfl⟩
  · rename_i s err he
    exact ⟨(congrArg Prod.fst he).symm, rfl⟩
  · rename_i s he
    exact absurd (congrArg Prod.snd he) h

/-- The next process, or the same one, is up and has the same stores. -/
theorem again_empty {r : Raft} (hv : validateConfig r.conf = true)
    (hid : r.conf.protocolVersion < 3 → r.conf.localID = r.conf.localAddr) (hr : r.storage = {}) :
    ∃ r', r.again? = some r' ∧ r'.down = false ∧ r'.conf = r.conf ∧ r'.storage = {} := by
  have hstable : r.stable = {} := congrArg Storage.stable hr
  have hlogs : r.logs = [] := congrArg Storage.logs hr
  have hsnaps : r.snapshots = [] := congrArg Storage.snapshots hr
  simp only [again?]
  split
  · have hold : ¬ (r.conf.protocolVersion < 3 ∧ r.conf.localID ≠ r.conf.localAddr) := by
      rintro ⟨hlt, hne⟩
      exact hne (hid hlt)
    refine ⟨{ conf := r.conf }, ?_, rfl, rfl, rfl⟩
    simp [newRaft, hv, hold, hstable, hlogs, hsnaps, lastTermOf, LogStore.lastIndex,
      restoreSnapshot, scanConfigurations]
  · rename_i hup
    exact ⟨r, rfl, by simpa using hup, rfl, hr⟩

end Raft

/-- A bootstrap of empty stores that does not complete can be repeated exactly when
nothing fails between the write of the term and the end of the write of the entry: only
then the stores still count as empty, and the next call with working stores leaves in them
what a first successful call would have left. -/
theorem bootstrap_repeatable (conf : Config) (configuration : Configuration) (env : BootstrapEnv)
    (hv : Raft.validateConfig conf = true) (hc : checkConfiguration configuration = .ok ())
    (h : (bootstrapCluster conf {} configuration env).2 ≠ .ok ()) :
    ((hasExistingState (bootstrapCluster conf {} configuration env).1 {} = .ok false ∧
      bootstrapCluster conf (bootstrapCluster conf {} configuration env).1 configuration {} =
        bootstrapCluster conf {} configuration {} ∧
      (bootstrapCluster conf {} configuration {}).2 = .ok ()) ↔ env.TermWithEntry) ∧
    ∀ r : Raft, r.conf = conf → r.down = false → r.storage = {} →
      hasVote configuration r.localID = true →
      (conf.protocolVersion < 3 → conf.localID = conf.localAddr) →
      ((hasExistingState (r.liveBootstrap configuration env).1.storage {} = .ok false ∧
      ∃ r' r'' : Raft, (r.liveBootstrap configuration env).1.again? = some r' ∧
        r'.liveBootstrap configuration {} = (r'', .ok ()) ∧
        r''.storage = (bootstrapCluster conf {} configuration {}).1) ↔ env.TermWithEntry) := by
  have hworking := bootstrapCluster_working hv hc
  constructor
  · rcases bootstrapCluster_halted hv hc h with ⟨henv, hempty⟩ | ⟨henv, htorn⟩
    · rw [hempty, hworking]
      exact iff_of_true ⟨hasExistingState_empty, rfl, rfl⟩ henv
    · exact iff_of_false (fun hrepeat => by simp [htorn] at hrepeat) henv
  · rintro r rfl hup hr hvote hid
    have hinner : (bootstrapCluster r.conf r.storage configuration env).2 ≠ .ok () := by
      rw [hr]
      exact h
    obtain ⟨hstorage, hconf⟩ := Raft.liveBootstrap_halted hvote hinner
    rw [hr] at hstorage
    rcases bootstrapCluster_halted hv hc h with ⟨henv, hempty⟩ | ⟨henv, htorn⟩
    · rw [hempty] at hstorage
      refine iff_of_true ?_ henv
      rw [← hconf] at hv hid
      obtain ⟨r', hagain, hup', hconf', hr'⟩ := Raft.again_empty hv hid hstorage
      have hvote' : hasVote configuration r'.localID = true := by
        rw [Raft.localID, hconf', hconf]
        exact hvote
      rw [← hconf'] at hv
      obtain ⟨r'', hlive, hdone⟩ := Raft.liveBootstrap_working hv hc hvote' hup' hr'
      refine ⟨by rw [hstorage]; rfl, r', r'', hagain, hlive, ?_⟩
      rw [hdone, hconf', hconf, hworking]
    · refine iff_of_false (fun hrepeat => ?_) henv
      rw [hstorage, htorn] at hrepeat
      simp at hrepeat

def singleServer : Configuration := ⟨[⟨.voter, [1], [1]⟩]⟩

/-- The write of the term fails without effect, once from outside and once in a running
server. -/
theorem bootstrap_repeatable_single :
    hasExistingState
      (bootstrapCluster ⟨[1], [1], 3, 64, 10240, false, true, false⟩ {} singleServer
        { setTerm := .fail false }).1 {} = .ok false ∧
    hasExistingState
      (Raft.liveBootstrap { conf := ⟨[1], [1], 3, 64, 10240, false, true, false⟩ } singleServer
        { setTerm := .fail false }).1.storage {} = .ok false := by
  have h := bootstrap_repeatable ⟨[1], [1], 3, 64, 10240, false, true, false⟩ singleServer
    { setTerm := .fail false } (by decide) (by decide) (by decide)
  exact ⟨(h.1.mpr (by decide)).1,
    ((h.2 { conf := ⟨[1], [1], 3, 64, 10240, false, true, false⟩ } rfl rfl rfl
      (by decide) (by decide)).mpr (by decide)).1⟩

/-- The term is stored and then the entry cannot be: the stores count as existing state,
and the next call with working stores is refused. A process started on them has no
configuration, so its heartbeat timer makes no candidate of it. -/
theorem bootstrap_half_done :
    let conf : Config := ⟨[1], [1], 3, 64, 10240, false, true, false⟩
    let s := (bootstrapCluster conf {} singleServer { storeLog := .fail false }).1
    (bootstrapCluster conf {} singleServer { storeLog := .fail false }).2 =
      .error (.error .appendEntry) ∧
    hasExistingState s {} = .ok true ∧
    (bootstrapCluster conf s singleServer {}).2 = .error (.error .cantBootstrap) ∧
    (Raft.newRaft conf s.stable s.logs s.snapshots {}).map (fun r => r.heartbeatTimer.state) =
      some .follower := by
  decide

end PerfRaft
