import PerfRaft.Proofs.Prefixes

namespace PerfRaft

open Lib Replicated

/-- One turn of the loop of `replicateTo`: the index it sends from, the answer, and the
index it goes on with. -/
structure Attempt where
  nextIndex : Nat
  success : Bool
  followed : Nat
  deriving DecidableEq

namespace FollowerReplication

/-- A turn of the loop against the follower `r`: the request is cut, handled by the
follower, and its answer is taken. -/
def attempt (leader : Raft) (env : Env) (s : FollowerReplication) (r : Raft) :
    Option (Attempt × FollowerReplication × Raft) :=
  match leader.replicationStep s .send with
  | some (s₁, _, [(_, .appendEntries req)]) =>
    match r.appendEntries req env with
    | (r', .appendEntries resp, _) =>
      (leader.replicationStep s₁ (.reply (.response resp))).map (fun o =>
        (⟨s.nextIndex, resp.success, o.1.nextIndex⟩, o.1, r'))
    | _ => none
  | _ => none

/-- The loop of `replicateTo` against a follower, which is left when the goroutine is
no longer at its start. The leader's other threads run between the turns. -/
def replicateTo (turns : Nat → Raft × Env) : Nat → FollowerReplication → Raft →
    Option (List Attempt × FollowerReplication × Raft)
  | 0, _, _ => none
  | fuel + 1, s, r =>
    match attempt (turns 0).1 (turns 0).2 s r with
    | none => none
    | some (a, s', r') =>
      match s'.pc with
      | .start _ _ =>
        (replicateTo (fun n => turns (n + 1)) fuel s' r').map (fun o => (a :: o.1, o.2))
      | _ => some ([a], s', r')

end FollowerReplication

namespace Raft

variable {r : Raft} {l : LogStore} {req : AppendEntriesRequest} {last : Nat}

theorem mapM_getLog_of_le {logs : LogStore} (hd : logs.Dense) {n k : Nat} (hn : 1 ≤ n)
    (hk : n - 1 + k ≤ logs.length) :
    ∃ entries, (List.range' n k).mapM (fun i => logs.getLog i) = some entries := by
  induction k generalizing n with
  | zero => exact ⟨[], rfl⟩
  | succ k ih =>
    obtain ⟨rest, hrest⟩ := ih (n := n + 1) (by omega) (by omega)
    refine ⟨logs[n - 1] :: rest, ?_⟩
    rw [List.range'_succ, List.mapM_cons, hrest, hd.getLog hn, List.getElem?_eq_getElem (by omega)]
    rfl

/-- Within the log a request can always be cut. -/
theorem setupAppendEntries_of_le (hd : r.logs.Dense) (hsnap : r.lastSnapshotIndex = 0)
    {nextIndex lastIndex : Nat} (hnext : 1 ≤ nextIndex) (hle : nextIndex ≤ lastIndex + 1)
    (hlast : lastIndex ≤ r.logs.length) (currentTerm : Nat) :
    ∃ req, r.setupAppendEntries currentTerm nextIndex lastIndex = some req ∧
      req.term = currentTerm ∧ req.prevLogEntry = nextIndex - 1 ∧
      req.Describes r.logs (min (nextIndex + r.conf.maxAppendEntries - 1) lastIndex) := by
  obtain ⟨prevTerm, hprev⟩ : ∃ prevTerm, r.setPreviousLog nextIndex = some (nextIndex - 1, prevTerm) := by
    unfold setPreviousLog setPreviousLogFrom
    by_cases hone : nextIndex = 1
    · exact ⟨0, by rw [if_pos hone, hone]⟩
    · have hget : r.logs.getLog (nextIndex - 1) = some r.logs[nextIndex - 1 - 1] := by
        rw [hd.getLog (by omega), List.getElem?_eq_getElem (by omega)]
      refine ⟨r.logs[nextIndex - 1 - 1].term, ?_⟩
      rw [if_neg hone, if_neg (by omega), hget, Option.map_some, LogStore.index_of_getLog hget]
  obtain ⟨entries, hentries⟩ : ∃ entries, r.setNewLogs nextIndex lastIndex = some entries := by
    unfold setNewLogs setNewLogsFrom newLogsRange
    exact mapM_getLog_of_le hd hnext (by omega)
  have hsetup : r.setupAppendEntries currentTerm nextIndex lastIndex = some
      { header := r.getRPCHeader, term := currentTerm, leader := r.localAddr
        prevLogEntry := nextIndex - 1, prevLogTerm := prevTerm, entries := entries
        leaderCommitIndex := r.commitIndex } := by
    unfold setPreviousLog at hprev
    unfold setNewLogs at hentries
    unfold setupAppendEntries setupAppendEntriesFrom
    rw [hprev, hentries]
  refine ⟨_, hsetup, rfl, rfl, ?_⟩
  obtain ⟨last, hdesc⟩ := setupAppendEntries_describes hd hsnap hsetup
  -- the number of entries says where they end
  have hlen : entries.length =
      min (nextIndex + r.conf.maxAppendEntries - 1) lastIndex + 1 - nextIndex := by
    unfold setNewLogs setNewLogsFrom newLogsRange at hentries
    rw [(mapM_getLog hd hnext hentries).1, List.length_take, List.length_drop]
    omega
  have hcut : entries = (r.logs.take last).drop (nextIndex - 1) := hdesc.entries
  have hprevle : nextIndex - 1 ≤ last := hdesc.prev_le
  have := hdesc.last_le
  rw [hcut, List.length_drop, List.length_take] at hlen
  have heq : min (nextIndex + r.conf.maxAppendEntries - 1) lastIndex = last := by omega
  rw [heq]
  exact hdesc

/-- A server that has the log of the sender up to the previous entry finds it. -/
theorem verifyPrevious_of_take_eq (hc : Cached r) (hd : r.logs.Dense) (hreq : req.Describes l last)
    (h : r.logs.take req.prevLogEntry = l.take req.prevLogEntry) : r.verifyPrevious req = true := by
  unfold verifyPrevious
  by_cases hzero : req.prevLogEntry = 0
  · rw [if_pos hzero]
  · have hterm := hreq.prevTerm hzero
    rw [← List.getElem?_take_of_lt (show req.prevLogEntry - 1 < req.prevLogEntry by omega), ← h,
      List.getElem?_take_of_lt (by omega)] at hterm
    rw [if_neg hzero, hc.getLastEntry]
    dsimp only
    split
    · rename_i hlast
      rw [hlast, ← List.getLast?_eq_getElem?] at hterm
      unfold lastStamp
      rw [show r.logs.getLast?.map stamp = some req.prevLogTerm from hterm]
      simp
    · rw [hd.getLog (by omega)]
      cases hget : r.logs[req.prevLogEntry - 1]? with
      | none => simp [hget] at hterm
      | some prevLog =>
        rw [hget] at hterm
        simp only [Option.map_some, Option.some.injEq] at hterm
        simp [hterm]

end Raft

namespace FollowerReplication

variable {l : LogStore} {leader r : Raft} {env : Env} {s s' : FollowerReplication} {lastIndex : Nat}
  {final : Bool}

/-- The leader keeps its log in the turns of the loop. -/
structure Leads (leader : Raft) (l : LogStore) : Prop where
  logs : leader.logs = l
  lastSnapshotIndex : leader.lastSnapshotIndex = 0
  maxAppendEntries : 1 ≤ leader.conf.maxAppendEntries

/-- The goroutine `s` is at the start of its loop, to bring the entries of `l` up to
`lastIndex` to the follower `r`. -/
structure Looping (l : LogStore) (lastIndex : Nat) (s : FollowerReplication) (r : Raft) : Prop where
  pc : ∃ final, s.pc = .start lastIndex final
  stopCh : s.stopCh = none
  next_pos : 1 ≤ s.nextIndex
  next_le : s.nextIndex ≤ lastIndex + 1
  follows : r.Follows l
  term : r.currentTerm ≤ s.currentTerm

/-- It has left the loop with everything sent. -/
structure Left (lastIndex : Nat) (s : FollowerReplication) : Prop where
  pc : ∀ lastIndex' final, s.pc ≠ .start lastIndex' final
  next_lt : lastIndex < s.nextIndex

theorem pc_replicated (s : FollowerReplication) (final : Bool) (lastIndex' : Nat) (final' : Bool) :
    (s.replicated final).pc ≠ .start lastIndex' final' := by
  unfold replicated
  split
  · simp
  · split
    · simp
    · simp

/-- At CHECK_MORE the loop is entered again, or left. -/
theorem checkMore_cases (hstop : s.stopCh = none) (hpos : 1 ≤ s.nextIndex) (hf : r.Follows l)
    (hterm : r.currentTerm ≤ s.currentTerm) (lastIndex : Nat) (final : Bool) :
    (s.nextIndex ≤ lastIndex ∧ Looping l lastIndex (s.checkMore lastIndex final) r) ∨
      Left lastIndex (s.checkMore lastIndex final) := by
  unfold checkMore
  rw [if_neg (by simp [hstop])]
  by_cases hle : s.nextIndex ≤ lastIndex
  · rw [if_pos hle]
    exact .inl ⟨hle, ⟨_, rfl⟩, hstop, hpos, Nat.le_succ_of_le hle, hf, hterm⟩
  · rw [if_neg hle]
    refine .inr ⟨pc_replicated s final, ?_⟩
    rw [nextIndex_replicated]
    omega

/-- The follower has all entries before the next index. -/
def Agrees (l : LogStore) (s : FollowerReplication) (r : Raft) : Prop :=
  l.take (s.nextIndex - 1) <+: r.logs

/-- What comes out of one turn. -/
inductive Attempted (l : LogStore) (lastIndex : Nat) (s : FollowerReplication) (r : Raft) :
    Attempt → FollowerReplication → Raft → Prop where
  | rejected {s' : FollowerReplication} {r' : Raft} (hnot : ¬Agrees l s r)
      (hlt : s'.nextIndex < s.nextIndex) (hloop : Looping l lastIndex s' r') :
      Attempted l lastIndex s r ⟨s.nextIndex, false, s'.nextIndex⟩ s' r'
  | accepted {s' : FollowerReplication} {r' : Raft} (hagrees : Agrees l s' r')
      (hpos : 1 ≤ s'.nextIndex) (hle : s'.nextIndex ≤ lastIndex + 1)
      (hgo : Left lastIndex s' ∨ (s.nextIndex < s'.nextIndex ∧ Looping l lastIndex s' r')) :
      Attempted l lastIndex s r ⟨s.nextIndex, true, s'.nextIndex⟩ s' r'

theorem appendReply_pc (s : FollowerReplication) (pc : ReplicationPC) (lastIndex : Nat) (final : Bool)
    (req : AppendEntriesRequest) (result : CallResult AppendEntriesResponse) :
    { s with pc := pc }.appendReply lastIndex final req result =
      s.appendReply lastIndex final req result := by
  cases result with
  | failed => rfl
  | response resp =>
    unfold appendReply updateLastAppended
    cases req.entries.getLast? with
    | none => rfl
    | some last => rfl

variable {req : AppendEntriesRequest} {resp : AppendEntriesResponse}

theorem attempt_eq
    (hpc : s.pc = .start lastIndex final)
    (hsetup : leader.setupAppendEntries s.currentTerm s.nextIndex lastIndex = some req)
    (hresp : (r.appendEntries req env).2.1 = .appendEntries resp)
    (hs' : (s.appendReply lastIndex final req (.response resp)).1 = s') :
    attempt leader env s r =
      some (⟨s.nextIndex, resp.success, s'.nextIndex⟩, s', (r.appendEntries req env).1) := by
  rw [← appendReply_pc s (.call s.peer lastIndex final req)] at hs'
  unfold attempt Raft.replicationStep
  simp only [hpc, hsetup]
  generalize r.appendEntries req env = appended at hresp ⊢
  obtain ⟨r', response, events⟩ := appended
  cases hresp
  simp only [hs', Option.map_some]

/-- A rejection moves the next index down, but not below 1. -/
theorem appendReply_rejected
    (hterm : resp.term = req.term) (hsuccess : resp.success = false) :
    (s.appendReply lastIndex final req (.response resp)).1 =
      { s with nextIndex := max (min (s.nextIndex - 1) (resp.lastLog + 1)) 1 }.checkMore lastIndex final := by
  simp [appendReply, hterm, hsuccess]

/-- A success moves it behind the last entry that was sent. -/
theorem appendReply_accepted {last : Nat}
    (hterm : resp.term = req.term) (hsuccess : resp.success = true) (hd : l.Dense)
    (hreq : req.Describes l last) (hprev : req.prevLogEntry = s.nextIndex - 1)
    (hpos : 1 ≤ s.nextIndex) :
    (s.appendReply lastIndex final req (.response resp)).1 =
      { s with nextIndex := last + 1, allowPipeline := true }.checkMore lastIndex final := by
  simp only [appendReply, hterm, Nat.lt_irrefl, if_false, hsuccess, if_true, updateLastAppended]
  have hprevle := hreq.prev_le
  cases hentries : req.entries.getLast? with
  | none =>
    -- nothing was sent
    have hnil := List.getLast?_eq_none_iff.mp hentries
    rw [hreq.entries, List.drop_eq_nil_iff, List.length_take, Nat.min_eq_left hreq.last_le] at hnil
    have hnext : s.nextIndex = last + 1 := by omega
    dsimp only
    rw [← hnext]
  | some e =>
    dsimp only
    rw [hreq.last_index hd hentries]

theorem Looping.rejected {last : Nat} (h : Looping l lastIndex s r)
    (hlast : lastIndex ≤ l.length) (henv : env.writes = []) (hpc : s.pc = .start lastIndex final)
    (hsetup : leader.setupAppendEntries s.currentTerm s.nextIndex lastIndex = some req)
    (hprev : req.prevLogEntry = s.nextIndex - 1) (hreq : req.Describes l last)
    (hle : r.currentTerm ≤ req.term) (hverify : r.verifyPrevious req = false)
    (hfollows : (r.appendEntries req env).1.Follows l)
    (hcurrent : (r.appendEntries req env).1.currentTerm ≤ s.currentTerm) :
    ∃ a s' r', attempt leader env s r = some (a, s', r') ∧ Attempted l lastIndex s r a s' r' := by
  have hresp := congrArg (fun o => o.2.1) (Raft.appendEntries_refused h.follows.up henv hle hverify)
  refine ⟨_, _, _, attempt_eq hpc hsetup hresp (appendReply_rejected rfl rfl), ?_⟩
  have hpos := h.next_pos
  have hnextle := h.next_le
  have hnot : ¬Agrees l s r := by
    intro hagrees
    have htake := List.prefix_iff_eq_take.mp hagrees
    rw [List.length_take, Nat.min_eq_left (by omega)] at htake
    have := Raft.verifyPrevious_of_take_eq h.follows.cached h.follows.dense hreq (hprev ▸ htake.symm)
    simp [this] at hverify
  -- without a previous entry there is nothing to reject
  have hone : s.nextIndex ≠ 1 := by
    intro hone
    apply hnot
    simp [Agrees, hone]
  dsimp only
  generalize hdown : max (min (s.nextIndex - 1) (r.getLastIndex + 1)) 1 = next
  have hnext := nextIndex_checkMore { s with nextIndex := next } lastIndex final
  apply Attempted.rejected hnot
  · rw [hnext]
    dsimp only
    omega
  · rcases checkMore_cases (s := { s with nextIndex := next }) h.stopCh (show 1 ≤ next by omega)
      hfollows hcurrent lastIndex final with ⟨-, hloop⟩ | hleft
    · exact hloop
    · have hlt := hleft.next_lt
      rw [hnext] at hlt
      dsimp only at hlt
      omega

theorem Looping.accepted {last : Nat} {r₁ : Raft}
    (h : Looping l lastIndex s r) (hd : l.Dense) (hpc : s.pc = .start lastIndex final)
    (hsetup : leader.setupAppendEntries s.currentTerm s.nextIndex lastIndex = some req)
    (hprev : req.prevLogEntry = s.nextIndex - 1) (hreq : req.Describes l last)
    (hlast : last ≤ lastIndex) (hmore : s.nextIndex ≤ lastIndex → s.nextIndex ≤ last)
    (hacc : r.Accepts req env l last r₁)
    (hfollows : (r.appendEntries req env).1.Follows l)
    (hcurrent : (r.appendEntries req env).1.currentTerm ≤ s.currentTerm) :
    ∃ a s' r', attempt leader env s r = some (a, s', r') ∧ Attempted l lastIndex s r a s' r' := by
  have hresp := congrArg (fun o => o.2.1) hacc.appended
  refine ⟨_, _, _, attempt_eq hpc hsetup hresp
    (appendReply_accepted rfl rfl hd hreq hprev h.next_pos), ?_⟩
  have hnext := nextIndex_checkMore { s with nextIndex := last + 1, allowPipeline := true } lastIndex final
  dsimp only at hnext ⊢
  apply Attempted.accepted
  · unfold Agrees
    rw [hnext, hacc.logs_eq]
    exact prefix_accepted r.logs ⟨req.term, l, last⟩
  · rw [hnext]
    exact Nat.succ_pos last
  · rw [hnext]
    exact Nat.succ_le_succ hlast
  · rcases checkMore_cases (s := { s with nextIndex := last + 1, allowPipeline := true }) h.stopCh
      (Nat.succ_pos last) hfollows hcurrent lastIndex final with ⟨hless, hloop⟩ | hleft
    · refine .inr ⟨?_, hloop⟩
      dsimp only at hless
      rw [hnext]
      by_cases hle : s.nextIndex ≤ lastIndex
      · exact Nat.lt_succ_of_le (hmore hle)
      · have := h.next_le
        have := hreq.prev_le
        omega
    · exact .inl hleft

/-- Every turn of the loop is answered. -/
theorem attempted_of_looping (h : Looping l lastIndex s r) (hl : Raft.Led l) (hlead : Leads leader l)
    (hlast : lastIndex ≤ l.length) (henv : env.Faultless) :
    ∃ a s' r', attempt leader env s r = some (a, s', r') ∧ Attempted l lastIndex s r a s' r' := by
  obtain ⟨final, hpc⟩ := h.pc
  have hmax := hlead.maxAppendEntries
  have hlogs := hlead.logs
  obtain ⟨req, hsetup, hterm, hprev, hreq⟩ := Raft.setupAppendEntries_of_le (hlogs ▸ hl.dense)
    hlead.lastSnapshotIndex h.next_pos h.next_le (hlogs ▸ hlast) s.currentTerm
  rw [hlogs] at hreq
  have hle : r.currentTerm ≤ req.term := hterm ▸ h.term
  have hfollows := Raft.follows_appendEntries h.follows hl hreq hle henv
  have hcurrent := (Raft.currentTerm_appendEntries h.follows hl hreq hle henv).trans hterm
  cases hverify : r.verifyPrevious req with
  | false =>
    exact h.rejected hlast henv.1 hpc hsetup hprev hreq hle hverify hfollows hcurrent.le
  | true =>
    obtain ⟨r₁, hacc⟩ := Raft.accepts_of_verifyPrevious h.follows.up henv h.follows.cached
      h.follows.dense hl.dense h.follows.matching hl.decodes hreq hle hverify
    exact h.accepted hl.dense hpc hsetup hprev hreq (Nat.min_le_right _ _) (by omega) hacc hfollows
      hcurrent.le

variable {turns : Nat → Raft × Env}

theorem replicateTo_left {a : Attempt} {r' : Raft}
    (h : attempt (turns 0).1 (turns 0).2 s r = some (a, s', r')) (hleft : Left lastIndex s')
    (fuel : Nat) : replicateTo turns (fuel + 1) s r = some ([a], s', r') := by
  unfold replicateTo
  rw [h]
  dsimp only
  split
  · rename_i hpc
    exact absurd hpc (hleft.pc _ _)
  · rfl

theorem replicateTo_again {a : Attempt} {r' : Raft}
    (h : attempt (turns 0).1 (turns 0).2 s r = some (a, s', r')) (hloop : Looping l lastIndex s' r')
    {fuel : Nat} {o : List Attempt × FollowerReplication × Raft}
    (ho : replicateTo (fun n => turns (n + 1)) fuel s' r' = some o) :
    replicateTo turns (fuel + 1) s r = some (a :: o.1, o.2) := by
  obtain ⟨final, hpc⟩ := hloop.pc
  unfold replicateTo
  rw [h]
  simp only [hpc, ho, Option.map_some]

/-- A turn starts and goes on above 0, and goes down if it is rejected. -/
structure Moves (a : Attempt) : Prop where
  pos : 1 ≤ a.nextIndex ∧ 1 ≤ a.followed
  down : a.success = false → a.followed < a.nextIndex

/-- The loop has been left with the entries on the follower. -/
structure Repaired (l : LogStore) (lastIndex : Nat) (as : List Attempt) (s : FollowerReplication)
    (r : Raft) : Prop where
  left : Left lastIndex s
  agreed : lastIndex ≤ r.logs.agreed l
  moves : ∀ a ∈ as, Moves a
  once : as.Pairwise (fun a a' => a.success = true → a'.success = true)

theorem Repaired.cons {as : List Attempt} {a : Attempt} (h : Repaired l lastIndex as s r)
    (hmoves : Moves a) (hrest : a.success = true → ∀ a' ∈ as, a'.success = true) :
    Repaired l lastIndex (a :: as) s r where
  left := h.left
  agreed := h.agreed
  moves := List.forall_mem_cons.mpr ⟨hmoves, h.moves⟩
  once := List.pairwise_cons.mpr ⟨fun a' ha' hsuccess => hrest hsuccess a' ha', h.once⟩

theorem repaired_of_accepted {a : Attempt} (hagrees : Agrees l s r) (hle : s.nextIndex ≤ lastIndex + 1)
    (hleft : Left lastIndex s) (hlast : lastIndex ≤ l.length) (hmoves : Moves a) :
    Repaired l lastIndex [a] s r where
  left := hleft
  agreed := by
    have hnext := hleft.next_lt
    have heq : s.nextIndex - 1 = lastIndex := by omega
    exact LogStore.le_agreed_iff.mpr ⟨hlast, heq ▸ hagrees⟩
  moves a' ha' := by
    rw [List.mem_singleton.mp ha']
    exact hmoves
  once := List.pairwise_singleton _ _

/-- From a follower that agrees so far, every turn is a success. -/
theorem replicateTo_of_agrees (h : Looping l lastIndex s r)
    (hl : Raft.Led l) (hturns : ∀ n, Leads (turns n).1 l ∧ (turns n).2.Faultless)
    (hlast : lastIndex ≤ l.length) (hagrees : Agrees l s r) {fuel : Nat}
    (hfuel : lastIndex + 2 ≤ s.nextIndex + fuel) :
    ∃ as s' r', replicateTo turns fuel s r = some (as, s', r') ∧ Repaired l lastIndex as s' r' ∧
      ∀ a ∈ as, a.success = true := by
  induction fuel generalizing turns s r with
  | zero =>
    have := h.next_le
    omega
  | succ fuel ih =>
    obtain ⟨a, s', r', hattempt, hout⟩ := attempted_of_looping h hl (hturns 0).1 hlast (hturns 0).2
    cases hout with
    | rejected hnot _ _ => exact absurd hagrees hnot
    | accepted hagrees' hpos' hle' hgo =>
      have hmoves : Moves ⟨s.nextIndex, true, s'.nextIndex⟩ := ⟨⟨h.next_pos, hpos'⟩, by simp⟩
      rcases hgo with hleft | ⟨hlt, hloop⟩
      · exact ⟨_, _, _, replicateTo_left hattempt hleft fuel,
          repaired_of_accepted hagrees' hle' hleft hlast hmoves, by simp⟩
      · obtain ⟨as, s'', r'', hrest, hrepaired, hall⟩ :=
          ih hloop (fun n => hturns (n + 1)) hagrees' (by omega)
        exact ⟨_, _, _, replicateTo_again hattempt hloop hrest, hrepaired.cons hmoves (fun _ => hall),
          List.forall_mem_cons.mpr ⟨rfl, hall⟩⟩

/-- The loop of `replicateTo` ends with the follower's log repaired: the next index goes
down at each rejection, and once the follower has accepted, it accepts all the rest. -/
theorem replicateTo_repairs {turns : Nat → Raft × Env} (h : Looping l lastIndex s r)
    (hl : Raft.Led l) (hturns : ∀ n, Leads (turns n).1 l ∧ (turns n).2.Faultless)
    (hlast : lastIndex ≤ l.length) {fuel : Nat} (hfuel : s.nextIndex + lastIndex + 1 ≤ fuel) :
    ∃ as s' r', replicateTo turns fuel s r = some (as, s', r') ∧ Repaired l lastIndex as s' r' := by
  induction fuel generalizing turns s r with
  | zero => omega
  | succ fuel ih =>
    obtain ⟨a, s', r', hattempt, hout⟩ := attempted_of_looping h hl (hturns 0).1 hlast (hturns 0).2
    cases hout with
    | rejected _ hlt hloop =>
      obtain ⟨as, s'', r'', hrest, hrepaired⟩ := ih hloop (fun n => hturns (n + 1)) (by omega)
      have hmoves : Moves ⟨s.nextIndex, false, s'.nextIndex⟩ :=
        ⟨⟨h.next_pos, hloop.next_pos⟩, fun _ => hlt⟩
      exact ⟨_, _, _, replicateTo_again hattempt hloop hrest, hrepaired.cons hmoves (by simp)⟩
    | accepted hagrees hpos' hle' hgo =>
      have hmoves : Moves ⟨s.nextIndex, true, s'.nextIndex⟩ := ⟨⟨h.next_pos, hpos'⟩, by simp⟩
      rcases hgo with hleft | ⟨hlt, hloop⟩
      · exact ⟨_, _, _, replicateTo_left hattempt hleft fuel,
          repaired_of_accepted hagrees hle' hleft hlast hmoves⟩
      · have hpos := h.next_pos
        obtain ⟨as, s'', r'', hrest, hrepaired, hall⟩ := replicateTo_of_agrees hloop hl
          (fun n => hturns (n + 1)) hlast hagrees (show _ ≤ _ + fuel by omega)
        exact ⟨_, _, _, replicateTo_again hattempt hloop hrest, hrepaired.cons hmoves (fun _ => hall)⟩

/-- A leader with four entries, the last three of them of later terms than those of the
follower. -/
def aheadOfForked (n : Nat) : Raft × Env :=
  ({ conf := { localID := [66], localAddr := [66], maxAppendEntries := 2 }
     logs := Raft.commandsOf [1, 2, 2, 3], currentTerm := 3, commitIndex := n }, {})

def replicatingForked : FollowerReplication :=
  { peer := voterNamed 65, currentTerm := 3, nextIndex := 4, pc := .start 4 false }

theorem replicateTo_repairs_forked :
    ∃ as s' r', replicateTo aheadOfForked 9 replicatingForked Raft.forked = some (as, s', r') ∧
      Repaired (Raft.commandsOf [1, 2, 2, 3]) 4 as s' r' := by
  have hfollows : Raft.forked.Follows (Raft.commandsOf [1, 2, 2, 3]) := Raft.follows_forked [3]
  have hloop : Looping (Raft.commandsOf [1, 2, 2, 3]) 4 replicatingForked Raft.forked :=
    ⟨⟨false, rfl⟩, rfl, by decide, by decide, hfollows, by decide⟩
  exact replicateTo_repairs hloop (Raft.led_commandsOf _)
    (fun n => ⟨⟨rfl, rfl, by simp [aheadOfForked]⟩, rfl, rfl, rfl⟩) (by decide) (by decide)

end FollowerReplication

end PerfRaft
