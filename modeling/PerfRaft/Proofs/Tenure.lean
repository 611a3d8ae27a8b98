import PerfRaft.Proofs.Groups

namespace PerfRaft

namespace Tenure

variable {s s' : Tenure} {env : Env}

/-- The initialised futures the FSM thread is to answer. -/
def queueIDs (s : Tenure) : List Nat :=
  (s.fsmMutateCh.flatten.filterMap CommitTuple.future).filter (· != 0)

/-- The main thread can still dispatch and commit. -/
def Live (s : Tenure) : Prop :=
  match s.raft.main with
  | .noop | .leader _ true => True
  | .leader _ false => s.raft.state = .leader
  | _ => False

/-- The future has been processed, at an index that is committed. -/
def Processed (s : Tenure) (f : LogFuture) : Prop :=
  f.log ∈ s.processed ∧ f.log.index ≤ s.commitIndex

/-- What holds while the leadership lasts. -/
structure Standing (s : Tenure) : Prop where
  left : s.left = false
  applied : s.raft.lastApplied ≤ s.raft.getLastIndex
  ready : Raft.Ready s.raft s.inflight
  last : ∀ f ∈ s.inflight, f.log.index ≤ s.raft.getLastIndex
  waiting : ∀ f ∈ s.inflight, f.id ≠ 0 → f.id ∉ s.replies.answered

structure Sound (s : Tenure) : Prop where
  led : ∃ ls, s.raft.leaderships.head? = some ls
  sorted : s.inflight.Pairwise (fun f g => f.log.index < g.log.index)
  done : s.left = false → ∃ done, s.pushed = done ++ s.inflight ∧
    ∀ id ∈ s.queueIDs, id ∈ done.map LogFuture.id
  once : (s.pushed.map LogFuture.id).Nodup
  idle : s.raft.main = .noop → s.pushed = []
  next : 1 ≤ s.next
  fresh : ∀ f ∈ s.pushed, f.id < s.next
  known : ∀ id ∈ s.replies.answered, id ≠ 0 ∧ id < s.next
  accounted : ∀ f ∈ s.pushed, f.id ≠ 0 →
    f.id ∈ s.replies.answered ∨ (s.left = false ∧ f ∈ s.inflight) ∨ f.id ∈ s.queueIDs
  queued : s.queueIDs.Nodup ∧ ∀ id ∈ s.queueIDs, id ∉ s.replies.answered
  truthful : ∀ id, id ∈ s.queueIDs ∨ (id, true) ∈ s.replies.answers →
    ∃ f ∈ s.pushed, f.id = id ∧ s.Processed f
  processed : s.processed.Pairwise (fun l m => l.index < m.index) ∧
    ∀ l ∈ s.processed, l.index ≤ s.raft.lastApplied
  effective : s.replies.Effective
  gone : s.left = true → s.raft.main = .run
  shut : s.raft.state = .shutdown → ¬ s.Live
  standing : s.Live → s.Standing

/-- The leadership keeps its queue, and does not lose what it has committed. -/
def Keeps (r r' : Raft) : Prop :=
  ∀ ls, r.leaderships.head? = some ls → ∃ ls', r'.leaderships.head? = some ls' ∧
    ls'.inflight = ls.inflight ∧ ls.commitment.commitIndex ≤ ls'.commitment.commitIndex

theorem Sound.frame (h : Sound s) (raft : Raft) (hkeeps : Keeps s.raft raft)
    (happlied : raft.lastApplied = s.raft.lastApplied) (hlogs : raft.logs = s.raft.logs)
    (hlast : raft.getLastIndex = s.raft.getLastIndex) (stopped : Bool)
    (hlive : Live { s with raft := raft, fsmStopped := stopped } →
      s.Live ∧ (raft.state = .shutdown → s.raft.state = .shutdown))
    (hnoop : raft.main = .noop → s.raft.main = .noop)
    (hrun : s.raft.main = .run → raft.main = .run) :
    Sound { s with raft := raft, fsmStopped := stopped } := by
  obtain ⟨ls, hls⟩ := h.led
  obtain ⟨ls', hls', hinflight, hcommit⟩ := hkeeps ls hls
  have hsame : inflight { s with raft := raft, fsmStopped := stopped } = s.inflight := by
    simp [inflight, hls, hls', hinflight]
  have hmore : s.commitIndex ≤ commitIndex { s with raft := raft, fsmStopped := stopped } := by
    simp [commitIndex, hls, hls', hcommit]
  constructor
  case led => exact ⟨ls', hls'⟩
  case sorted =>
    rw [hsame]
    exact h.sorted
  case done =>
    rw [hsame]
    exact h.done
  case once => exact h.once
  case idle => exact fun hmain => h.idle (hnoop hmain)
  case next => exact h.next
  case fresh => exact h.fresh
  case known => exact h.known
  case accounted =>
    rw [hsame]
    exact h.accounted
  case queued => exact h.queued
  case truthful =>
    intro id hid
    obtain ⟨f, hf, heq, hmem, hle⟩ := h.truthful id hid
    exact ⟨f, hf, heq, hmem, hle.trans hmore⟩
  case processed =>
    simp only [happlied]
    exact h.processed
  case effective => exact h.effective
  case gone => exact fun hleft => hrun (h.gone hleft)
  case shut =>
    intro hstate hl
    exact h.shut ((hlive hl).2 hstate) (hlive hl).1
  case standing =>
    intro hl
    obtain ⟨hleft, ha, ⟨hsorted, habove, hstored⟩, hle, hwaiting⟩ := h.standing (hlive hl).1
    refine ⟨hleft, by simp only [happlied, hlast]; exact ha, ?_, ?_, ?_⟩
    · rw [hsame]
      exact ⟨hsorted, by simp only [happlied]; exact habove, by simp only [hlogs]; exact hstored⟩
    · rw [hsame]
      simp only [hlast]
      exact hle
    · rw [hsame]
      exact hwaiting

/-- New futures are numbered above all others. -/
structure Fresh (s : Tenure) (ids : List Nat) : Prop where
  nodup : ids.Nodup
  pushed : ∀ id ∈ ids, id ∉ s.pushed.map LogFuture.id
  answered : ∀ id ∈ ids, id ∉ s.replies.answered
  below : ∀ id ∈ ids, id < s.next

theorem Sound.queued_pushed (h : Sound s) {id : Nat} (hid : id ∈ s.queueIDs) :
    id ∈ s.pushed.map LogFuture.id := by
  obtain ⟨f, hf, heq, -⟩ := h.truthful id (.inl hid)
  exact heq ▸ List.mem_map_of_mem hf

theorem Sound.advance (h : Sound s) {next : Nat} (hnext : s.next ≤ next) :
    Sound { s with next := next } :=
  { h with
    next := h.next.trans hnext
    fresh := fun f hf => (h.fresh f hf).trans_le hnext
    known := fun id hid => (h.known id hid).imp_right (fun hlt => hlt.trans_le hnext)
    standing := fun hl =>
      let st := h.standing hl
      ⟨st.left, st.applied, st.ready, st.last, st.waiting⟩ }

/-- An error for futures that nobody else will answer. -/
theorem Sound.error (h : Sound s) {ids : List Nat} (hbelow : ∀ id ∈ ids, id < s.next)
    (hqueue : ∀ id ∈ ids, id ∉ s.queueIDs)
    (hlive : s.Live → ∀ f ∈ s.inflight, f.id ∉ ids) :
    Sound { s with replies := s.replies.respondAll false ids } := by
  constructor
  case led => exact h.led
  case sorted => exact h.sorted
  case done => exact h.done
  case once => exact h.once
  case idle => exact h.idle
  case next => exact h.next
  case fresh => exact h.fresh
  case known =>
    intro id hid
    rcases Replies.mem_answered_respondAll.mp hid with hold | ⟨hin, hne⟩
    · exact h.known id hold
    · exact ⟨hne, hbelow id hin⟩
  case accounted =>
    intro f hf hne
    refine (h.accounted f hf hne).imp_left ?_
    intro hold
    exact Replies.mem_answered_respondAll.mpr (.inl hold)
  case queued =>
    refine ⟨h.queued.1, ?_⟩
    intro id hid hmem
    rcases Replies.mem_answered_respondAll.mp hmem with hold | ⟨hin, -⟩
    · exact h.queued.2 id hid hold
    · exact hqueue id hin hid
  case truthful =>
    intro id hid
    refine h.truthful id (hid.imp_right ?_)
    intro hmem
    rcases Replies.mem_answers_respondAll hmem with hold | ⟨-, -, hfalse⟩
    · exact hold
    · simp at hfalse
  case processed => exact h.processed
  case effective => exact h.effective.respondAll (by simp)
  case gone => exact h.gone
  case shut => exact h.shut
  case standing =>
    intro hl
    obtain ⟨hleft, ha, hready, hle, hwaiting⟩ := h.standing hl
    refine ⟨hleft, ha, hready, hle, ?_⟩
    intro f hf hne hmem
    rcases Replies.mem_answered_respondAll.mp hmem with hold | ⟨hin, -⟩
    · exact hwaiting f hf hne hold
    · exact hlive hl f hf hin

/-- Futures that are turned down are never pushed. -/
theorem Sound.refuse (h : Sound s) {ids : List Nat} (hids : Fresh s ids) :
    Sound { s with replies := s.replies.respondAll false ids } := by
  apply h.error hids.below
  · intro id hid hmem
    exact hids.pushed id hid (h.queued_pushed hmem)
  · intro hl f hf hmem
    obtain ⟨done, hdone, -⟩ := h.done (h.standing hl).left
    apply hids.pushed f.id hmem
    rw [hdone]
    exact List.mem_map_of_mem (List.mem_append_right _ hf)

section Dispatch

variable {futures : List LogFuture} {raft : Raft} {ls : LeaderState}

theorem Sound.sorted_dispatch (h : Sound s) (hlive : s.Live) (term now : Nat)
    (futures : List LogFuture) :
    (s.inflight ++ Raft.stampLogs term now s.raft.getLastIndex futures).Pairwise
      (fun f g => f.log.index < g.log.index) := by
  obtain ⟨hsorted, hbounds⟩ := Raft.sorted_stampLogs term now s.raft.getLastIndex futures
  refine List.pairwise_append.mpr ⟨h.sorted, hsorted, ?_⟩
  intro f hf g hg
  exact ((h.standing hlive).last f hf).trans_lt (hbounds g hg).1

theorem Sound.ready_dispatch (h : Sound s) (hlive : s.Live)
    (hq : Raft.Queues s.raft ls
      (Raft.stampLogs s.raft.currentTerm env.now s.raft.getLastIndex futures) env raft)
    (henv : env.storeLogs = true) :
    Raft.Ready raft (s.inflight ++
      Raft.stampLogs s.raft.currentTerm env.now s.raft.getLastIndex futures) := by
  have hst := h.standing hlive
  obtain ⟨-, hlogs, -⟩ := hq.stored henv
  exact hst.ready.dispatch hst.applied hst.last hq.applied hlogs

/-- The futures are on the queue, whether or not they could be stored. -/
theorem Sound.push (h : Sound s) (hlive : s.Live) (hls : s.raft.leaderships.head? = some ls)
    (hq : Raft.Queues s.raft ls
      (Raft.stampLogs s.raft.currentTerm env.now s.raft.getLastIndex futures) env raft)
    {stepDown : Bool} (hmain : raft.main = .leader stepDown false)
    (hids : Fresh s (futures.map LogFuture.id)) :
    Sound { s with
      raft := raft
      pushed := s.pushed ++
        Raft.stampLogs s.raft.currentTerm env.now s.raft.getLastIndex futures } := by
  have hst := h.standing hlive
  have hid := Raft.id_stampLogs s.raft.currentTerm env.now s.raft.getLastIndex futures
  have hready := h.ready_dispatch hlive hq
  have hsorted := h.sorted_dispatch hlive s.raft.currentTerm env.now futures
  have hbounds := (Raft.sorted_stampLogs s.raft.currentTerm env.now s.raft.getLastIndex futures).2
  obtain ⟨ls', hls', hinflight, hcommit⟩ := hq.inflight
  obtain ⟨done, hdone, hqueue⟩ := h.done hst.left
  generalize Raft.stampLogs s.raft.currentTerm env.now s.raft.getLastIndex futures = new at *
  have hold : s.inflight = ls.inflight := by simp [inflight, hls]
  have hnew : inflight { s with raft := raft, pushed := s.pushed ++ new } = s.inflight ++ new := by
    rw [hold]
    simp [inflight, hls', hinflight]
  have hmore : s.commitIndex ≤ commitIndex { s with raft := raft, pushed := s.pushed ++ new } := by
    simpa [commitIndex, hls, hls'] using hcommit
  rw [← hid] at hids
  constructor
  case led => exact ⟨ls', hls'⟩
  case sorted =>
    rw [hnew]
    exact hsorted
  case done =>
    intro _
    rw [hnew]
    exact ⟨done, by rw [hdone, List.append_assoc], hqueue⟩
  case once =>
    rw [List.map_append, List.nodup_append]
    refine ⟨h.once, hids.nodup, ?_⟩
    intro x hx y hy hxy
    exact hids.pushed y hy (hxy ▸ hx)
  case idle =>
    intro hnoop
    rw [hmain] at hnoop
    simp at hnoop
  case next => exact h.next
  case fresh =>
    intro f hf
    rcases List.mem_append.mp hf with hf | hf
    · exact h.fresh f hf
    · exact hids.below f.id (List.mem_map_of_mem hf)
  case known => exact h.known
  case accounted =>
    intro f hf hne
    rw [hnew]
    rcases List.mem_append.mp hf with hf | hf
    · refine (h.accounted f hf hne).imp_right (Or.imp_left ?_)
      intro ⟨hleft, hmem⟩
      exact ⟨hleft, List.mem_append_left _ hmem⟩
    · exact .inr (.inl ⟨hst.left, List.mem_append_right _ hf⟩)
  case queued => exact h.queued
  case truthful =>
    intro id hid
    obtain ⟨f, hf, heq, hmem, hle⟩ := h.truthful id hid
    exact ⟨f, List.mem_append_left _ hf, heq, hmem, hle.trans hmore⟩
  case processed =>
    simp only [hq.applied]
    exact h.processed
  case effective => exact h.effective
  case gone => simp [hst.left]
  case shut =>
    intro hstate hl
    simp only [Live, hmain] at hl
    rw [hstate] at hl
    simp at hl
  case standing =>
    intro hl
    simp only [Live, hmain] at hl
    have henv : env.storeLogs = true := by
      cases henv : env.storeLogs with
      | true => rfl
      | false =>
        rw [hq.failed henv] at hl
        simp at hl
    obtain ⟨-, -, hlast⟩ := hq.stored henv
    refine ⟨hst.left, ?_, ?_, ?_, ?_⟩
    · simp only [hq.applied, hlast]
      exact hst.applied.trans (Nat.le_add_right _ _)
    · rw [hnew]
      exact hready henv
    · rw [hnew]
      intro f hf
      simp only [hlast]
      rcases List.mem_append.mp hf with hf | hf
      · exact (hst.last f hf).trans (Nat.le_add_right _ _)
      · have hlength : new.length = futures.length := by
          rw [← List.length_map LogFuture.id, hid, List.length_map]
        rw [hlength]
        exact (hbounds f hf).2
    · rw [hnew]
      intro f hf hne
      rcases List.mem_append.mp hf with hf | hf
      · exact hst.waiting f hf hne
      · exact hids.answered f.id (List.mem_map_of_mem hf)

theorem Sound.dispatched (h : Sound s) (hlive : s.Live) (hls : s.raft.leaderships.head? = some ls)
    (hq : Raft.Queues s.raft ls
      (Raft.stampLogs s.raft.currentTerm env.now s.raft.getLastIndex futures) env raft)
    {stepDown : Bool} (hmain : raft.main = .leader stepDown false)
    (hids : Fresh s (futures.map LogFuture.id)) : Sound (s.dispatched futures raft env) := by
  have hpush := h.push hlive hls hq hmain hids
  simp only [Tenure.dispatched]
  split
  · rename_i hfail
    apply hpush.error hids.below
    · intro id hid hmem
      exact hids.pushed id hid (h.queued_pushed hmem)
    · intro hl
      simp only [Live, hmain, hq.failed hfail] at hl
      simp at hl
  · exact hpush

end Dispatch

section Commit

variable {ls : LeaderState} {stepDown : Bool}

theorem leaderCommit_main (r : Raft) (ls : LeaderState) (stepDown : Bool) :
    ∃ b, (r.leaderCommit ls stepDown).1.main = .leader b false := by
  refine ⟨stepDown || (r.setLeaderCommit ls.commitment.commitIndex).2, ?_⟩
  simp only [Raft.leaderCommit, Raft.finishCommit]
  split <;> rfl

/-- A group at the front of the queue is shared out: the initialised futures of
`given` go to the FSM thread, those of `replied` are answered, and neither has been in
another place. -/
structure Shares (s : Tenure) (group rest : List LogFuture) (given replied : List Nat) : Prop where
  inflight : s.inflight = group ++ rest
  members : ∀ id, id ∈ group.map LogFuture.id ↔ id ∈ given ∨ id ∈ replied
  nodup : given.Nodup
  replies : replied.Nodup
  apart : ∀ id ∈ given, id ∉ replied
  queue : ∀ id ∈ group.map LogFuture.id, id ∉ s.queueIDs
  waiting : ∀ id ∈ group.map LogFuture.id, id ≠ 0 → id ∉ s.replies.answered
  after : ∀ f ∈ rest, f.id ∉ group.map LogFuture.id

theorem Sound.shares (h : Sound s) (hlive : s.Live) {group rest : List LogFuture}
    (hsplit : s.inflight = group ++ rest) {given replied : List Nat}
    (howners : (given ++ replied).Perm (group.map LogFuture.id)) : Shares s group rest given replied := by
  have hst := h.standing hlive
  obtain ⟨done, hdone, hqueue⟩ := h.done hst.left
  have honce := h.once
  rw [hdone, hsplit, List.map_append, List.map_append, List.nodup_append] at honce
  obtain ⟨-, hnodup, hdisjoint⟩ := honce
  rw [List.nodup_append] at hnodup
  obtain ⟨hgroup, -, hafter⟩ := hnodup
  have hshares := howners.nodup_iff.mpr hgroup
  rw [List.nodup_append] at hshares
  obtain ⟨hgiven, hreplied, hapart⟩ := hshares
  refine ⟨hsplit, ?_, hgiven, hreplied, ?_, ?_, ?_, ?_⟩
  · intro id
    rw [← howners.mem_iff, List.mem_append]
  · intro id hid hmem
    exact hapart id hid id hmem rfl
  · intro id hid hmem
    exact hdisjoint id (hqueue id hmem) id (List.mem_append_left _ hid) rfl
  · intro id hid hne
    obtain ⟨f, hf, rfl⟩ := List.mem_map.mp hid
    exact hst.waiting f (hsplit ▸ List.mem_append_left _ hf) hne
  · intro f hf hmem
    exact hafter f.id hmem f.id (List.mem_map_of_mem hf) rfl

/-- Afterwards those of `given` are in the queue of the FSM thread and those of `replied`
are answered; what the leadership still waits for is `rest`. -/
structure Gives (s : Tenure) (rest : List LogFuture) (given replied : List Nat) (s' : Tenure) :
    Prop where
  queueIDs : s'.queueIDs = s.queueIDs ++ given.filter (· != 0)
  inflight : s'.inflight = rest
  commitIndex : s'.commitIndex = s.commitIndex
  pushed : s'.pushed = s.pushed
  processed : ∀ l ∈ s.processed, l ∈ s'.processed
  answered : ∀ id, id ∈ s'.replies.answered ↔ id ∈ s.replies.answered ∨ id ∈ replied ∧ id ≠ 0
  answers : ∀ id, (id, true) ∈ s'.replies.answers → (id, true) ∈ s.replies.answers ∨ id ∈ replied

section Gives

variable {group rest : List LogFuture} {given replied : List Nat}

/-- No future is in the queue twice, or in the queue and answered. -/
theorem Shares.queued (hsh : Shares s group rest given replied) (h : Sound s)
    (hg : Gives s rest given replied s') :
    s'.queueIDs.Nodup ∧ ∀ id ∈ s'.queueIDs, id ∉ s'.replies.answered := by
  rw [hg.queueIDs]
  refine ⟨List.nodup_append.mpr ⟨h.queued.1, hsh.nodup.filter _, ?_⟩, ?_⟩
  · rintro x hx y hy rfl
    exact hsh.queue x ((hsh.members x).mpr (.inl (List.mem_filter.mp hy).1)) hx
  · intro id hid hmem
    rcases List.mem_append.mp hid with hid | hid
    · rcases (hg.answered id).mp hmem with hold | ⟨hnew, -⟩
      · exact h.queued.2 id hid hold
      · exact hsh.queue id ((hsh.members id).mpr (.inr hnew)) hid
    · obtain ⟨hgiven, hne⟩ := List.mem_filter.mp hid
      rcases (hg.answered id).mp hmem with hold | ⟨hnew, -⟩
      · exact hsh.waiting id ((hsh.members id).mpr (.inl hgiven)) (by simpa using hne) hold
      · exact hsh.apart id hgiven hnew

/-- What is in the queue or was answered with success has been processed. -/
theorem Shares.truthful (hsh : Shares s group rest given replied) (h : Sound s)
    (hg : Gives s rest given replied s') (hgroup : ∀ f ∈ group, f ∈ s.pushed ∧ s'.Processed f) :
    ∀ id, id ∈ s'.queueIDs ∨ (id, true) ∈ s'.replies.answers →
      ∃ f ∈ s'.pushed, f.id = id ∧ s'.Processed f := by
  rw [hg.pushed]
  have hnew : ∀ id ∈ group.map LogFuture.id, ∃ f ∈ s.pushed, f.id = id ∧ s'.Processed f := by
    intro id hid
    obtain ⟨f, hf, rfl⟩ := List.mem_map.mp hid
    exact ⟨f, (hgroup f hf).1, rfl, (hgroup f hf).2⟩
  have hold : ∀ id, id ∈ s.queueIDs ∨ (id, true) ∈ s.replies.answers →
      ∃ f ∈ s.pushed, f.id = id ∧ s'.Processed f := by
    intro id hid
    obtain ⟨f, hf, heq, hmem, hle⟩ := h.truthful id hid
    exact ⟨f, hf, heq, hg.processed _ hmem, hg.commitIndex ▸ hle⟩
  rintro id (hid | hid)
  · rw [hg.queueIDs] at hid
    rcases List.mem_append.mp hid with hid | hid
    · exact hold id (.inl hid)
    · exact hnew id ((hsh.members id).mpr (.inl (List.mem_filter.mp hid).1))
  · rcases hg.answers id hid with hid | hid
    · exact hold id (.inr hid)
    · exact hnew id ((hsh.members id).mpr (.inr hid))

/-- A future that was waited for still is, or it is in the queue or answered. -/
theorem Shares.accounted (hsh : Shares s group rest given replied) (h : Sound s)
    (hg : Gives s rest given replied s') (hleft : s'.left = s.left) :
    ∀ f ∈ s'.pushed, f.id ≠ 0 →
      f.id ∈ s'.replies.answered ∨ (s'.left = false ∧ f ∈ s'.inflight) ∨ f.id ∈ s'.queueIDs := by
  intro f hf hne
  rw [hg.pushed] at hf
  rw [hg.answered, hg.inflight, hg.queueIDs, hleft]
  rcases h.accounted f hf hne with hold | ⟨hstays, hmem⟩ | hmem
  · exact .inl (.inl hold)
  · rw [hsh.inflight] at hmem
    rcases List.mem_append.mp hmem with hmem | hmem
    · rcases (hsh.members f.id).mp (List.mem_map_of_mem hmem) with hid | hid
      · exact .inr (.inr (List.mem_append_right _ (List.mem_filter.mpr ⟨hid, by simpa using hne⟩)))
      · exact .inl (.inr ⟨hid, hne⟩)
    · exact .inr (.inl ⟨hstays, hmem⟩)
  · exact .inr (.inr (List.mem_append_left _ hmem))

/-- The leadership goes on with the futures that are left. -/
theorem Shares.standing (hsh : Shares s group rest given replied) (hst : s.Standing)
    (hg : Gives s rest given replied s') {p : PerfRaft.Processed}
    (hd : Raft.Delivers s.raft group s'.raft p) (hlogs : s'.raft.logs = s.raft.logs)
    (hlast : s'.raft.getLastIndex = s.raft.getLastIndex) (hleft : s'.left = s.left) : s'.Standing := by
  have hsorted := hst.ready.sorted
  rw [hsh.inflight, List.pairwise_append] at hsorted
  have hin : ∀ f ∈ rest, f ∈ s.inflight := by
    intro f hf
    rw [hsh.inflight]
    exact List.mem_append_right _ hf
  constructor
  case left => exact hleft.trans hst.left
  case applied =>
    rw [hlast]
    refine Nat.le_of_lt_succ (hd.rest (s.raft.getLastIndex + 1) ?_ (Nat.lt_succ_of_le hst.applied))
    intro f hf
    apply Nat.lt_succ_of_le
    apply hst.last f
    rw [hsh.inflight]
    exact List.mem_append_left _ hf
  case ready =>
    rw [hg.inflight]
    refine ⟨hsorted.2.1, ?_, ?_⟩
    · intro f hf
      exact hd.rest f.log.index (fun g hg => hsorted.2.2 g hg f hf) (hst.ready.above f (hin f hf))
    · intro f hf
      rw [hlogs]
      exact hst.ready.stored f (hin f hf)
  case last =>
    rw [hg.inflight, hlast]
    intro f hf
    exact hst.last f (hin f hf)
  case waiting =>
    rw [hg.inflight]
    intro f hf hne hmem
    rcases (hg.answered f.id).mp hmem with hold | ⟨hnew, -⟩
    · exact hst.waiting f (hin f hf) hne hold
    · exact hsh.after f hf ((hsh.members f.id).mpr (.inr hnew))

end Gives

/-- The FSM thread is given some futures of a group and the others are answered. -/
theorem Sound.deliver (h : Sound s) (hlive : s.Live) {group : List LogFuture} {p : PerfRaft.Processed}
    {raft : Raft} {ls' : LeaderState} {stepDown : Bool}
    (hsplit : s.inflight = group ++ ls'.inflight)
    (hgroup : ∀ f ∈ group, f.log.index ≤ s.commitIndex) (hd : Raft.Delivers s.raft group raft p)
    (hlogs : raft.logs = s.raft.logs) (hlast : raft.getLastIndex = s.raft.getLastIndex)
    (hls' : raft.leaderships.head? = some ls') (hcommit : ls'.commitment.commitIndex = s.commitIndex)
    (hmain : raft.main = .leader stepDown false) :
    Sound { s with
      raft := raft
      fsmMutateCh := s.fsmMutateCh ++ p.batches
      processed := s.processed ++ s.raft.groupLogs group
      replies := s.replies.respondAll true p.responded } := by
  have hst := h.standing hlive
  have hsh := h.shares hlive hsplit hd.owners
  obtain ⟨done, hdone, hqueue⟩ := h.done hst.left
  generalize hs' : ({ s with
      raft := raft
      fsmMutateCh := s.fsmMutateCh ++ p.batches
      processed := s.processed ++ s.raft.groupLogs group
      replies := s.replies.respondAll true p.responded } : Tenure) = s'
  have hg : Gives s ls'.inflight (p.batches.flatten.filterMap CommitTuple.future) p.responded s' := by
    rw [← hs']
    refine ⟨by simp [queueIDs], by simp [inflight, hls'], ?_, rfl,
      fun l hl => List.mem_append_left _ hl, fun id => Replies.mem_answered_respondAll, ?_⟩
    · rw [← hcommit]
      simp [commitIndex, hls']
    · exact fun id hid => (Replies.mem_answers_respondAll hid).imp_right (·.1)
  have hmembers : ∀ f ∈ group, f ∈ s.pushed ∧ s'.Processed f := by
    intro f hf
    refine ⟨?_, ?_, hg.commitIndex ▸ hgroup f hf⟩
    · rw [hdone, hsplit]
      exact List.mem_append_right _ (List.mem_append_left _ hf)
    · rw [← hs']
      exact List.mem_append_right _ (hd.logs f hf)
  constructor
  case led =>
    rw [← hs']
    exact ⟨ls', hls'⟩
  case sorted =>
    have hsorted := h.sorted
    rw [hsplit, List.pairwise_append] at hsorted
    rw [hg.inflight]
    exact hsorted.2.1
  case done =>
    intro _
    rw [hg.inflight, hg.queueIDs, hg.pushed]
    refine ⟨done ++ group, ?_, ?_⟩
    · rw [List.append_assoc, ← hsplit]
      exact hdone
    · intro id hid
      rw [List.map_append, List.mem_append]
      rcases List.mem_append.mp hid with hid | hid
      · exact .inl (hqueue id hid)
      · exact .inr ((hsh.members id).mpr (.inl (List.mem_filter.mp hid).1))
  case once =>
    rw [hg.pushed]
    exact h.once
  case idle =>
    intro hnoop
    rw [← hs'] at hnoop
    simp [hmain] at hnoop
  case next =>
    rw [← hs']
    exact h.next
  case fresh =>
    rw [← hs']
    exact h.fresh
  case known =>
    intro id hid
    rw [← hs']
    rcases (hg.answered id).mp hid with hold | ⟨hnew, hne⟩
    · exact h.known id hold
    · obtain ⟨f, hf, rfl⟩ := List.mem_map.mp ((hsh.members id).mpr (.inr hnew))
      exact ⟨hne, h.fresh f (hmembers f hf).1⟩
  case accounted => exact hsh.accounted h hg (by rw [← hs'])
  case queued => exact hsh.queued h hg
  case truthful => exact hsh.truthful h hg hmembers
  case processed =>
    rw [← hs']
    refine ⟨List.pairwise_append.mpr ⟨h.processed.1, hd.sorted, ?_⟩, ?_⟩
    · intro l hl m hm
      exact (h.processed.2 l hl).trans_lt (hd.bounds m hm).1
    · intro l hl
      rcases List.mem_append.mp hl with hl | hl
      · exact (h.processed.2 l hl).trans hd.applied
      · exact (hd.bounds l hl).2
  case effective =>
    rw [← hs']
    apply h.effective.respondAll
    intro _
    refine ⟨hsh.replies.filter _, ?_⟩
    intro id hid
    exact hsh.waiting id ((hsh.members id).mpr (.inr hid))
  case gone =>
    rw [← hs']
    simp [hst.left]
  case shut =>
    rw [← hs']
    intro hstate hl
    simp only [Live, hmain] at hl
    rw [hstate] at hl
    simp at hl
  case standing =>
    intro _
    rw [← hs'] at hg ⊢
    exact hsh.standing hst hg hd hlogs hlast rfl

theorem Sound.commit (h : Sound s) (hlive : s.Live) {rest : List LeaderState}
    (hls : s.raft.leaderships = ls :: rest) (hc : s.commit ls stepDown = some s') : Sound s' := by
  unfold Tenure.commit at hc
  dsimp only at hc
  split at hc
  · simp at hc
  rename_i hpanic
  cases hc
  have hinflight : s.inflight = ls.inflight := by simp [inflight, hls]
  have hcommitIndex : s.commitIndex = ls.commitment.commitIndex := by simp [commitIndex, hls]
  obtain ⟨hdelivers, hlogs, hlast, ls', hls', hrest, hcommit⟩ :=
    Raft.commits_leaderCommit hls (hinflight ▸ (h.standing hlive).ready) (by simpa using hpanic) stepDown
  obtain ⟨b, hmain⟩ := leaderCommit_main s.raft ls stepDown
  refine h.deliver hlive ?_ ?_ hdelivers hlogs hlast hls' (hcommit.trans hcommitIndex.symm) hmain
  · rw [hrest, hinflight]
    exact (List.prefix_iff_eq_append.mp (List.takeWhile_prefix _)).symm
  · intro f hf
    have hall := List.all_takeWhile (p := fun f : LogFuture => decide (f.log.index ≤ ls.commitment.commitIndex))
      (l := ls.inflight)
    rw [hcommitIndex]
    simpa using List.all_eq_true.mp hall f hf

end Commit

/-- The clean-up, once every future on the queue has an answer. -/
theorem Sound.leave (h : Sound s) (hinflight : ∀ f ∈ s.inflight, f.id ≠ 0 → f.id ∈ s.replies.answered)
    (env : Env) : Sound { s with raft := s.raft.leaveLeader env, left := true } := by
  obtain ⟨ls, hls⟩ := h.led
  have hfields : (s.raft.leaveLeader env).leaderships.head? = some { ls with
        inflight := []
        replState := ls.replState.map (fun s => if s.stopCh.isNone then { s with stopCh := some 0 } else s) } ∧
      (s.raft.leaveLeader env).lastApplied = s.raft.lastApplied ∧
      (s.raft.leaveLeader env).main = .run := by
    unfold Raft.leaveLeader
    dsimp only
    split
    · simp [Raft.setLeader, Raft.modifyLeaderState, hls]
    · simp [Raft.modifyLeaderState, hls]
  obtain ⟨hhead, happlied, hmain⟩ := hfields
  generalize s.raft.leaveLeader env = raft at *
  have hidle : ¬ Live { s with raft := raft, left := true } := by simp [Live, hmain]
  have hsame : commitIndex { s with raft := raft, left := true } = s.commitIndex := by
    simp [commitIndex, hls, hhead]
  constructor
  case led => exact ⟨_, hhead⟩
  case sorted => simp [inflight, hhead]
  case done => simp
  case once => exact h.once
  case idle => simp [hmain]
  case next => exact h.next
  case fresh => exact h.fresh
  case known => exact h.known
  case accounted =>
    intro f hf hne
    rcases h.accounted f hf hne with hold | ⟨-, hmem⟩ | hqueue
    · exact .inl hold
    · exact .inl (hinflight f hmem hne)
    · exact .inr (.inr hqueue)
  case queued => exact h.queued
  case truthful =>
    intro id hid
    obtain ⟨f, hf, heq, hmem, hle⟩ := h.truthful id hid
    exact ⟨f, hf, heq, hmem, hsame ▸ hle⟩
  case processed =>
    simp only [happlied]
    exact h.processed
  case effective => exact h.effective
  case gone => exact fun _ => hmain
  case shut => exact fun _ => hidle
  case standing => exact fun hl => absurd hl hidle

/-- The FSM thread answers the futures of a batch. -/
theorem Sound.take (h : Sound s) {batch : List CommitTuple} {rest : List (List CommitTuple)}
    (hch : s.fsmMutateCh = batch :: rest) :
    Sound { s with
      fsmMutateCh := rest
      replies := s.replies.respondAll true (batch.filterMap CommitTuple.future) } := by
  have hsplit : s.queueIDs = (batch.filterMap CommitTuple.future).filter (· != 0) ++
      queueIDs { s with
        fsmMutateCh := rest
        replies := s.replies.respondAll true (batch.filterMap CommitTuple.future) } := by
    simp [queueIDs, hch]
  have hin : ∀ id ∈ batch.filterMap CommitTuple.future, id ≠ 0 → id ∈ s.queueIDs := by
    intro id hid hne
    rw [hsplit]
    exact List.mem_append_left _ (List.mem_filter.mpr ⟨hid, by simpa using hne⟩)
  have hnodup := h.queued.1
  rw [hsplit, List.nodup_append] at hnodup
  obtain ⟨hbatch, hrest, hapart⟩ := hnodup
  constructor
  case led => exact h.led
  case sorted => exact h.sorted
  case done =>
    intro hleft
    obtain ⟨done, hdone, hqueue⟩ := h.done hleft
    refine ⟨done, hdone, ?_⟩
    intro id hid
    apply hqueue id
    rw [hsplit]
    exact List.mem_append_right _ hid
  case once => exact h.once
  case idle => exact h.idle
  case next => exact h.next
  case fresh => exact h.fresh
  case known =>
    intro id hid
    rcases Replies.mem_answered_respondAll.mp hid with hold | ⟨hnew, hne⟩
    · exact h.known id hold
    · obtain ⟨f, hf, rfl⟩ := List.mem_map.mp (h.queued_pushed (hin id hnew hne))
      exact ⟨hne, h.fresh f hf⟩
  case accounted =>
    intro f hf hne
    rcases h.accounted f hf hne with hold | hmem | hqueue
    · exact .inl (Replies.mem_answered_respondAll.mpr (.inl hold))
    · exact .inr (.inl hmem)
    · rw [hsplit] at hqueue
      rcases List.mem_append.mp hqueue with hid | hid
      · exact .inl (Replies.mem_answered_respondAll.mpr (.inr ⟨(List.mem_filter.mp hid).1, hne⟩))
      · exact .inr (.inr hid)
  case queued =>
    refine ⟨hrest, ?_⟩
    intro id hid hmem
    have hqueue : id ∈ s.queueIDs := by
      rw [hsplit]
      exact List.mem_append_right _ hid
    rcases Replies.mem_answered_respondAll.mp hmem with hold | ⟨hnew, hne⟩
    · exact h.queued.2 id hqueue hold
    · exact hapart id (List.mem_filter.mpr ⟨hnew, by simpa using hne⟩) id hid rfl
  case truthful =>
    intro id hid
    apply h.truthful id
    rcases hid with hid | hid
    · left
      rw [hsplit]
      exact List.mem_append_right _ hid
    · rcases Replies.mem_answers_respondAll hid with hold | ⟨hnew, hne, -⟩
      · exact .inr hold
      · exact .inl (hin id hnew hne)
  case processed => exact h.processed
  case effective =>
    apply h.effective.respondAll
    intro _
    exact ⟨hbatch, fun id hid hne => h.queued.2 id (hin id hid hne)⟩
  case gone => exact h.gone
  case shut => exact h.shut
  case standing =>
    intro hl
    obtain ⟨hleft, ha, hready, hle, hwaiting⟩ := h.standing hl
    refine ⟨hleft, ha, hready, hle, ?_⟩
    intro f hf hne hmem
    rcases Replies.mem_answered_respondAll.mp hmem with hold | ⟨hnew, -⟩
    · exact hwaiting f hf hne hold
    · have hsh : Shares s s.inflight [] (s.inflight.map LogFuture.id) [] :=
        h.shares hl (by simp) (by simp)
      exact hsh.queue f.id (List.mem_map_of_mem hf) (hin f.id hnew hne)

end Tenure

end PerfRaft
