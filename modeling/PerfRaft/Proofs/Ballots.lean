import PerfRaft.Verify
import PerfRaft.Lib.Quorum

namespace PerfRaft

/-- The ID of a follower, once for each time it keeps the future `v`. -/
def NotifiedFollower.waits (v : Nat) (s : NotifiedFollower) : List ServerID :=
  List.replicate (s.notify.count v) s.peer.id

namespace Verification

variable {n n' : Verification} {v w : Nat} {f : VerifyFuture} {l : List NotifiedFollower}

/-- The followers that keep the future `v`. -/
def waiting (v : Nat) (followers : List NotifiedFollower) : List ServerID :=
  followers.flatMap (NotifiedFollower.waits v)

/-- Those whose vote on `v` is still to be submitted. -/
def awaited (n : Verification) (v : Nat) : List ServerID :=
  waiting v n.followers ++ (n.ballots.filter (fun b => b.future == v)).map Ballot.peer

/-- The IDs `replState` is keyed by. -/
def activeIDs (followers : List NotifiedFollower) : List ServerID :=
  (followers.filter (fun s => !s.stopped)).map (fun s => s.peer.id)

theorem waiting_cons (s : NotifiedFollower) (rest : List NotifiedFollower) :
    waiting v (s :: rest) = s.waits v ++ waiting v rest :=
  List.flatMap_cons ..

theorem waiting_map {g : NotifiedFollower → NotifiedFollower}
    (hg : ∀ s, (g s).waits v = s.waits v) (l : List NotifiedFollower) :
    waiting v (l.map g) = waiting v l := by
  induction l with
  | nil => rfl
  | cons s rest ih => rw [List.map_cons, waiting_cons, waiting_cons, hg, ih]

theorem activeIDs_map {g : NotifiedFollower → NotifiedFollower}
    (hstopped : ∀ s, (g s).stopped = s.stopped) (hid : ∀ s, (g s).peer.id = s.peer.id)
    (l : List NotifiedFollower) : activeIDs (l.map g) = activeIDs l := by
  simp [activeIDs, List.filter_map, Function.comp_def, hstopped, hid]

theorem perm_waiting_set {i : Nat} {s : NotifiedFollower} (hs : l[i]? = some s)
    (s' : NotifiedFollower) :
    (s.waits v ++ waiting v (l.set i s')).Perm (s'.waits v ++ waiting v l) := by
  obtain ⟨hi, rfl⟩ := List.getElem?_eq_some_iff.mp hs
  have hset : (waiting v (l.set i s')).Perm (waiting v (s' :: l.eraseIdx i)) :=
    (List.set_perm_cons_eraseIdx hi s').flatMap_right _
  have hold : (waiting v (l[i] :: l.eraseIdx i)).Perm (waiting v l) :=
    (List.getElem_cons_eraseIdx_perm hi).flatMap_right _
  rw [waiting_cons] at hset hold
  refine (hset.append_left _).trans (List.Perm.trans ?_ (hold.append_left _))
  rw [← List.append_assoc, ← List.append_assoc]
  exact List.perm_append_comm.append_right _

theorem activeIDs_set {i : Nat} {s s' : NotifiedFollower} (hs : l[i]? = some s)
    (hstopped : s'.stopped = s.stopped) (hid : s'.peer.id = s.peer.id) :
    activeIDs (l.set i s') = activeIDs l := by
  induction l generalizing i with
  | nil => simp at hs
  | cons x rest ih =>
    cases i with
    | zero =>
      simp only [List.getElem?_cons_zero, Option.some.injEq] at hs
      subst hs
      simp [activeIDs, List.filter_cons, hstopped, apply_ite, hid]
    | succ i =>
      have hrest := ih (i := i) hs
      cases hx : x.stopped <;> simp_all [activeIDs]

theorem waiting_register (h : waiting v l = []) :
    waiting v (l.map (fun s => if s.stopped then s else { s with notify := v :: s.notify })) =
      activeIDs l := by
  induction l with
  | nil => rfl
  | cons s rest ih =>
    rw [waiting_cons, List.append_eq_nil_iff] at h
    have hcount : s.notify.count v = 0 := by simpa [NotifiedFollower.waits] using h.1
    rw [List.map_cons, waiting_cons, ih h.2]
    cases hstopped : s.stopped <;> simp [NotifiedFollower.waits, activeIDs, hstopped, hcount]

theorem waiting_register_ne (hne : w ≠ v) (l : List NotifiedFollower) :
    waiting w (l.map (fun s => if s.stopped then s else { s with notify := v :: s.notify })) =
      waiting w l := by
  apply waiting_map
  intro s
  split
  · rfl
  · simp [NotifiedFollower.waits, List.count_cons_of_ne hne.symm]

theorem waiting_clean (hne : w ≠ v) (l : List NotifiedFollower) :
    waiting w (l.map (fun s => if s.stopped then s else { s with notify := s.notify.filter (· != v) })) =
      waiting w l := by
  apply waiting_map
  intro s
  split
  · rfl
  · simp [NotifiedFollower.waits, List.count_filter, hne]

section Replication

variable {localID : ServerID} {latest : Configuration} {term : Nat}

theorem waiting_startReplication (l : List NotifiedFollower) (server : Server) :
    waiting v (startReplication localID term l server) = waiting v l := by
  unfold startReplication
  split
  · rfl
  · split
    · apply waiting_map
      intro s
      split
      · rename_i hsame
        simp [NotifiedFollower.waits, hsame.2.1]
      · rfl
    · simp [waiting, NotifiedFollower.waits]

theorem nodup_startReplication (h : (activeIDs l).Nodup) (server : Server) :
    (activeIDs (startReplication localID term l server)).Nodup := by
  unfold startReplication
  split
  · exact h
  · split
    · rw [activeIDs_map]
      · exact h
      · intro s
        split <;> rfl
      · intro s
        split
        · rename_i hsame
          exact hsame.2.1.symm
        · rfl
    · rename_i hnew
      have happend : activeIDs (l ++ [({ peer := server, currentTerm := term } : NotifiedFollower)]) =
          activeIDs l ++ [server.id] := by
        simp [activeIDs]
      rw [happend, List.nodup_append]
      refine ⟨h, by simp, ?_⟩
      intro x hx y hy hxy
      simp only [List.mem_singleton] at hy
      subst hy
      apply hnew
      obtain ⟨s, hs, hid⟩ := List.mem_map.mp hx
      rw [List.any_eq_true]
      refine ⟨s, List.mem_of_mem_filter hs, ?_⟩
      simp [(List.mem_filter.mp hs).2, hid, hxy]

theorem foldl_startReplication (servers : List Server) (l : List NotifiedFollower)
    (h : (activeIDs l).Nodup) :
    waiting v (servers.foldl (startReplication localID term) l) = waiting v l ∧
      (activeIDs (servers.foldl (startReplication localID term) l)).Nodup := by
  induction servers generalizing l with
  | nil => exact ⟨rfl, h⟩
  | cons server rest ih =>
    obtain ⟨hwaiting, hnodup⟩ := ih _ (nodup_startReplication h server)
    exact ⟨hwaiting.trans (waiting_startReplication l server), hnodup⟩

theorem activeIDs_stopReplication (l : List NotifiedFollower) :
    activeIDs (l.map (stopReplication localID latest)) =
      (activeIDs l).filter (fun id =>
        latest.servers.any (fun server => server.id != localID && server.id == id)) := by
  induction l with
  | nil => rfl
  | cons s rest ih =>
    simp only [activeIDs] at ih
    cases hstopped : s.stopped <;>
      cases hin : latest.servers.any (fun server => server.id != localID && server.id == s.peer.id) <;>
      simp [activeIDs, stopReplication, hstopped, hin, ih]

end Replication

/-- The leadership goes on: the main thread is in the select of `leaderLoop`, or will
get there. -/
def Live (n : Verification) : Prop :=
  n.point = .select ∨ n.point = .loopTest ∧ n.state = .leader

/-- `id` has answered a request that was sent after the call of `f`. -/
def AnsweredSince (n : Verification) (f : VerifyFuture) (id : ServerID) : Prop :=
  ∃ t, (id, t) ∈ n.answered ∧ f.called < t

instance (n : Verification) : Decidable n.Live := inferInstanceAs (Decidable (_ ∨ _ ∧ _))

/-- The answer of a voter to a request that was sent after the call of `f`. -/
def Backs (n : Verification) (f : VerifyFuture) (id : ServerID) : Prop :=
  n.AnsweredSince f id ∧ id ∈ n.latest.voterIDs

theorem Backs.mono {id : ServerID} (h : n.Backs f id)
    (hvoters : n'.latest.voterIDs = n.latest.voterIDs)
    (hanswered : ∀ p ∈ n.answered, p ∈ n'.answered) : n'.Backs f id := by
  obtain ⟨⟨t, ht, hlt⟩, hvoter⟩ := h
  exact ⟨⟨t, hanswered _ ht, hlt⟩, hvoters ▸ hvoter⟩

/-- The votes of a verification under way: the server itself and `heard`, different
from each other and from those still awaited, and all of them of voters. -/
structure Tally (n : Verification) (v : Nat) (f : VerifyFuture) (heard : List ServerID) : Prop where
  quorum : f.quorumSize = n.latest.quorumSize
  votes : f.votes = heard.length + 1
  nodup : (n.localID :: (n.awaited v ++ heard)).Nodup
  self : n.localID ∈ n.latest.voterIDs
  heard : ∀ id ∈ heard, n.Backs f id
  ballots : ∀ b ∈ n.ballots, b.future = v → b.leader = true → n.Backs f b.peer

/-- A majority of the voters of `latest` has answered, counting the server itself. -/
def ConfirmedBy (n : Verification) (f : VerifyFuture) (latest : Configuration) : Prop :=
  ∃ Q, Lib.Majority latest.voterIDs Q ∧ ∀ id ∈ Q, id = n.localID ∨ n.AnsweredSince f id

variable {heard : List ServerID}

theorem Tally.frame (h : Tally n v f heard) (hid : n'.localID = n.localID)
    (hvoters : n'.latest.voterIDs = n.latest.voterIDs) (hawaited : (n'.awaited v).Perm (n.awaited v))
    (hanswered : ∀ p ∈ n.answered, p ∈ n'.answered)
    (hballots : ∀ b ∈ n'.ballots, b.future = v → b.leader = true →
      b ∈ n.ballots ∨ n'.Backs f b.peer) : Tally n' v f heard := by
  have hperm : (n'.localID :: (n'.awaited v ++ heard)).Perm (n.localID :: (n.awaited v ++ heard)) := by
    rw [hid]
    exact (hawaited.append_right heard).cons _
  have hquorum : n'.latest.quorumSize = n.latest.quorumSize := by
    have hlength := congrArg List.length hvoters
    simp only [Configuration.voterIDs, List.length_map] at hlength
    unfold Configuration.quorumSize
    rw [hlength]
  refine ⟨h.quorum.trans hquorum.symm, h.votes, hperm.nodup_iff.mpr h.nodup, ?_, ?_, ?_⟩
  · rw [hid, hvoters]
    exact h.self
  · intro id hmem
    exact (h.heard id hmem).mono hvoters hanswered
  · intro b hb hv hleader
    rcases hballots b hb hv hleader with hold | hnew
    · exact (h.ballots b hold hv hleader).mono hvoters hanswered
    · exact hnew

theorem Tally.confirmedBy (h : Tally n v f heard)
    (hvotes : f.quorumSize ≤ f.votes) : n.ConfirmedBy f n.latest := by
  refine ⟨n.localID :: heard, ⟨?_, ?_, ?_⟩, ?_⟩
  · exact h.nodup.sublist ((List.sublist_append_right _ _).cons_cons _)
  · intro id hmem
    rcases List.mem_cons.mp hmem with rfl | hin
    · exact h.self
    · exact (h.heard id hin).2
  · have hquorum := h.quorum
    have hcount := h.votes
    have hlength : n.latest.voterIDs.length = n.latest.voters.length := List.length_map _
    rw [Configuration.quorumSize] at hquorum
    rw [List.length_cons]
    omega
  · intro id hmem
    rcases List.mem_cons.mp hmem with heq | hin
    · exact .inl heq
    · exact .inr (h.heard id hin).1

section Respond

variable (f) (answer : VerifyAnswer)

@[simp] theorem called_respond : (f.respond answer).called = f.called := by
  unfold VerifyFuture.respond
  split <;> rfl

@[simp] theorem quorumSize_respond : (f.respond answer).quorumSize = f.quorumSize := by
  unfold VerifyFuture.respond
  split <;> rfl

theorem answer_respond_ne_none : (f.respond answer).answer ≠ none := by
  unfold VerifyFuture.respond
  split
  · rename_i hsome
    exact Option.isSome_iff_ne_none.mp hsome
  · simp

variable {f answer}

theorem answer_respond {a : VerifyAnswer} (h : (f.respond answer).answer = some a) :
    f.answer = some a ∨ f.answer = none ∧ answer = a := by
  unfold VerifyFuture.respond at h
  split at h
  · exact .inl h
  · rename_i hnone
    refine .inr ⟨by simpa using hnone, ?_⟩
    simpa using h

end Respond

theorem getElem?_modifyFuture (hf : n.futures[v]? = some f) (g : VerifyFuture → VerifyFuture)
    (w : Nat) :
    (n.modifyFuture v g).futures[w]? = if w = v then some (g f) else n.futures[w]? := by
  simp only [modifyFuture, List.getElem?_modify]
  by_cases hw : w = v
  · subst hw
    simp [hf]
  · simp [hw, Ne.symm hw]

theorem ConfirmedBy.of_same {latest : Configuration} {f' : VerifyFuture} (h : n.ConfirmedBy f latest)
    (hid : n'.localID = n.localID) (hanswered : n'.answered = n.answered)
    (hcalled : f'.called = f.called) : n'.ConfirmedBy f' latest := by
  obtain ⟨Q, hmajority, hall⟩ := h
  refine ⟨Q, hmajority, ?_⟩
  intro id hmem
  rw [hid, AnsweredSince, hanswered, hcalled]
  exact hall id hmem

/-- An answer turns what its follower keeps into ballots. -/
theorem perm_awaited_reply {i : Nat} {s s' : NotifiedFollower} (hs : n.followers[i]? = some s)
    (hs' : s'.notify = []) (leader : Bool) (v : Nat) :
    (waiting v (n.followers.set i s') ++
      ((n.ballots ++ s.notify.map (fun v => (⟨v, s.peer.id, leader⟩ : Ballot))).filter
        (fun b => b.future == v)).map Ballot.peer).Perm (n.awaited v) := by
  have hset := perm_waiting_set (v := v) hs s'
  have hempty : s'.waits v = [] := by simp [NotifiedFollower.waits, hs']
  have hnew : ((s.notify.map (fun v => (⟨v, s.peer.id, leader⟩ : Ballot))).filter
      (fun b => b.future == v)).map Ballot.peer = s.waits v := by
    simp [List.filter_map, Function.comp_def, NotifiedFollower.waits, List.count_eq_length_filter]
  rw [hempty, List.nil_append] at hset
  rw [List.filter_append, List.map_append, hnew, ← List.append_assoc, awaited]
  refine List.Perm.trans ?_ (hset.append_right _)
  rw [List.append_assoc]
  refine List.perm_append_comm.trans ?_
  rw [List.append_assoc]
  exact List.perm_append_comm

theorem succeeded_of_stillLeader {s : NotifiedFollower} {kind : RequestKind}
    {result : CallResult FollowerResponse} (h : s.stillLeader kind result = some true) :
    result.succeeded = true := by
  cases result with
  | failed => cases kind <;> simp [NotifiedFollower.stillLeader] at h
  | response resp =>
    cases kind with
    | heartbeat => simpa [NotifiedFollower.stillLeader, CallResult.succeeded] using h
    | appendEntries | pipelined | installSnapshot =>
      simp only [NotifiedFollower.stillLeader] at h
      split at h
      · simp at h
      · split at h
        · assumption
        · simp at h

theorem perm_awaited_submit {j : Nat} {b : Ballot} (hb : n.ballots[j]? = some b)
    (hn : n'.followers = n.followers) (hballots : n'.ballots = n.ballots.eraseIdx j) (v : Nat) :
    (n.awaited v).Perm ((if b.future = v then [b.peer] else []) ++ n'.awaited v) := by
  obtain ⟨hj, rfl⟩ := List.getElem?_eq_some_iff.mp hb
  have hperm := ((List.getElem_cons_eraseIdx_perm hj).symm.filter (fun b => b.future == v)).map
    Ballot.peer
  rw [awaited, awaited, hn, hballots]
  refine (hperm.append_left _).trans ?_
  rw [List.filter_cons]
  split
  · rename_i heq
    rw [if_pos (by simpa using heq), List.map_cons]
    exact List.perm_middle
  · rename_i hne
    rw [if_neg (by simpa using hne), List.nil_append]

theorem Tally.drop {id : ServerID} (h : Tally n v f heard)
    (hid : n'.localID = n.localID) (hlatest : n'.latest = n.latest)
    (hawaited : (n.awaited v).Perm (id :: n'.awaited v)) (hanswered : n'.answered = n.answered)
    (hballots : ∀ b ∈ n'.ballots, b ∈ n.ballots) (notifyCh : Bool) :
    Tally n' v { f with notifyCh := notifyCh } heard := by
  have hperm := (hawaited.append_right heard).cons n.localID
  have hbacks {x : ServerID} (hx : n.Backs f x) : n'.Backs f x :=
    hx.mono (by rw [hlatest]) (fun _ hp => hanswered ▸ hp)
  refine ⟨hlatest ▸ h.quorum, h.votes, ?_, ?_, ?_, ?_⟩
  · rw [hid]
    exact (hperm.nodup_iff.mp h.nodup).sublist ((List.sublist_cons_self _ _).cons_cons _)
  · rw [hid, hlatest]
    exact h.self
  · exact fun x hx => hbacks (h.heard x hx)
  · exact fun b hb hv hleader => hbacks (h.ballots b (hballots b hb) hv hleader)

theorem Tally.count {b : Ballot} (h : Tally n v f heard) (hb : b ∈ n.ballots)
    (hv : b.future = v) (hleader : b.leader = true) (hid : n'.localID = n.localID)
    (hlatest : n'.latest = n.latest) (hawaited : (n.awaited v).Perm (b.peer :: n'.awaited v))
    (hanswered : n'.answered = n.answered) (hballots : ∀ b ∈ n'.ballots, b ∈ n.ballots)
    (notifyCh : Bool) :
    Tally n' v { f with votes := f.votes + 1, notifyCh := notifyCh } (b.peer :: heard) := by
  have hperm : (n.localID :: (n.awaited v ++ heard)).Perm
      (n'.localID :: (n'.awaited v ++ b.peer :: heard)) := by
    rw [hid]
    exact ((hawaited.append_right heard).trans List.perm_middle.symm).cons _
  have hbacks {x : ServerID} (hx : n.Backs f x) : n'.Backs f x :=
    hx.mono (by rw [hlatest]) (fun _ hp => hanswered ▸ hp)
  refine ⟨hlatest ▸ h.quorum, ?_, hperm.nodup_iff.mp h.nodup, ?_, ?_, ?_⟩
  · rw [List.length_cons, ← h.votes]
  · rw [hid, hlatest]
    exact h.self
  · intro x hx
    rcases List.mem_cons.mp hx with rfl | hx
    · exact hbacks (h.ballots b hb hv hleader)
    · exact hbacks (h.heard x hx)
  · exact fun b' hb' hv' hleader' => hbacks (h.ballots b' (hballots b' hb') hv' hleader')

theorem vote_cases (f : VerifyFuture) (leader : Bool) :
    (leader = true ∧ ∃ notifyCh, (f.vote leader).1 = { f with votes := f.votes + 1, notifyCh := notifyCh }) ∨
      ∃ notifyCh, (f.vote leader).1 = { f with notifyCh := notifyCh } := by
  unfold VerifyFuture.vote
  split
  · exact .inr ⟨f.notifyCh, rfl⟩
  · split
    · rename_i hleader
      refine .inl ⟨hleader, ?_⟩
      split
      · exact ⟨_, rfl⟩
      · exact ⟨f.notifyCh, rfl⟩
    · exact .inr ⟨_, rfl⟩

theorem vote_keeps (f : VerifyFuture) (leader : Bool) :
    (f.vote leader).1.quorumSize = f.quorumSize ∧ (f.vote leader).1.answer = f.answer ∧
      (f.vote leader).1.called = f.called := by
  rcases vote_cases f leader with ⟨-, notifyCh, hvote⟩ | ⟨notifyCh, hvote⟩ <;>
    exact hvote ▸ ⟨rfl, rfl, rfl⟩

end Verification

end PerfRaft
