import PerfRaft.Proofs.Batches
import PerfRaft.Proofs.Handlers

namespace PerfRaft

open Lib Replicated

namespace LogStore

/-- How many entries two logs have in common from the first one on. -/
def agreed : LogStore → LogStore → Nat
  | e :: l, e' :: l' => if e = e' then agreed l l' + 1 else 0
  | _, _ => 0

theorem le_agreed_iff {l l' : LogStore} {n : Nat} :
    n ≤ l.agreed l' ↔ n ≤ l'.length ∧ l'.take n <+: l := by
  induction l generalizing l' n with
  | nil =>
    unfold agreed
    rw [List.prefix_nil, List.take_eq_nil_iff, Nat.le_zero]
    constructor
    · rintro rfl
      exact ⟨Nat.zero_le _, .inl rfl⟩
    · rintro ⟨hle, rfl | rfl⟩
      · rfl
      · simpa using hle
  | cons e l ih =>
    cases l' with
    | nil => simp [agreed]
    | cons e' l' =>
      cases n with
      | zero => simp
      | succ n =>
        unfold agreed
        rw [List.take_succ_cons, List.cons_prefix_cons]
        by_cases he : e = e'
        · rw [if_pos he, Nat.succ_le_succ_iff, ih, List.length_cons, Nat.succ_le_succ_iff]
          simp [he]
        · rw [if_neg he]
          constructor
          · intro h
            omega
          · rintro ⟨_, h, _⟩
            exact absurd h.symm he

theorem agreed_le_of_keeps {f f' l : LogStore}
    (h : ∀ n, n ≤ l.length → l.take n <+: f → l.take n <+: f') : f.agreed l ≤ f'.agreed l := by
  obtain ⟨hlen, hpre⟩ := le_agreed_iff.mp (Nat.le_refl (f.agreed l))
  exact le_agreed_iff.mpr ⟨hlen, h _ hlen hpre⟩

/-- Where two logs do not agree, there is a first place with different terms, or one
of them ends. -/
theorem exists_conflict {f l : LogStore} (hmatch : Matching f l) {last : Nat} (hlast : last ≤ l.length)
    (hnot : ¬l.take last <+: f) :
    f <+: l.take last ∨ ∃ k e e', k < last ∧ f[k]? = some e ∧ l[k]? = some e' ∧ e.term ≠ e'.term ∧
      f.take k = l.take k := by
  obtain ⟨hlen, hpre⟩ := le_agreed_iff.mp (Nat.le_refl (f.agreed l))
  generalize hk : f.agreed l = k at hlen hpre
  have hlt : k < last := by
    by_contra hge
    exact hnot ((List.take_prefix_take_left (Nat.not_lt.mp hge)).trans hpre)
  have htake : f.take k = l.take k := by
    have := List.prefix_iff_eq_take.mp hpre
    rw [List.length_take, Nat.min_eq_left hlen] at this
    exact this.symm
  cases he : f[k]? with
  | none =>
    have hshort : f.length ≤ k := List.getElem?_eq_none_iff.mp he
    rw [List.take_of_length_le hshort] at htake
    exact .inl (htake ▸ List.take_prefix_take_left hlt.le)
  | some e =>
    have he' : l[k]? = some l[k] := List.getElem?_eq_getElem (by omega)
    refine .inr ⟨k, e, l[k], hlt, he, he', ?_, htake⟩
    intro hterm
    -- else they would agree on one entry more
    have hmore : k + 1 ≤ f.agreed l := by
      refine le_agreed_iff.mpr ⟨by omega, ?_⟩
      rw [← hmatch k e _ he he' hterm]
      exact List.take_prefix _ _
    omega

end LogStore

namespace Raft

variable {r r' : Raft} {env : Env} {l : LogStore} {req : AppendEntriesRequest} {last : Nat}

/-- A log as leaders have it: no index is missing, and all configurations can be
decoded. -/
structure Led (l : LogStore) : Prop where
  dense : l.Dense
  decodes : ∀ e ∈ l, e.decodes = true

/-- A running server with a log that was never compacted and that matches `l`. -/
structure Follows (r : Raft) (l : LogStore) : Prop where
  up : r.down = false
  cached : Cached r
  dense : r.logs.Dense
  matching : Matching r.logs l

theorem Follows.sameData (h : Follows r l) (hs : SameData r r') (hup : r'.down = false) :
    Follows r' l where
  up := hup
  cached := h.cached.sameData hs
  dense := hs.logs ▸ h.dense
  matching := hs.logs ▸ h.matching

/-- With all entries in the log, moving the commit index does not fail. -/
theorem up_followCommit (hup : r.down = false) (hc : Cached r) (hd : r.logs.Dense)
    (leaderCommitIndex : Nat) : (r.followCommit leaderCommitIndex).1.down = false := by
  unfold followCommit
  by_cases hmoves : 0 < leaderCommitIndex ∧ r.commitIndex < leaderCommitIndex
  · rw [if_pos hmoves]
    dsimp only
    generalize hr' : (if r.configurations.latestIndex ≤ min leaderCommitIndex r.getLastIndex then
      _ else ({ r with commitIndex := min leaderCommitIndex r.getLastIndex } : Raft)) = r'
    have hsame : r'.down = r.down ∧ r'.logs = r.logs := by
      rw [← hr']
      split
      · exact ⟨rfl, rfl⟩
      · exact ⟨rfl, rfl⟩
    unfold processLogs
    by_cases hdone : min leaderCommitIndex r.getLastIndex ≤ r'.lastApplied
    · rw [if_pos hdone]
      exact hsame.1.trans hup
    · rw [if_neg hdone]
      have hholds : Holds r'.logs [] (List.range' (r'.lastApplied + 1)
          (min leaderCommitIndex r.getLastIndex - r'.lastApplied)) := by
        intro i hi
        rw [hc.getLastIndex, List.mem_range'_1] at hi
        rw [hsame.2, hd.getLog (by omega), List.getElem?_eq_getElem (by omega)]
        exact ⟨_, rfl, by simp [futureAt]⟩
      dsimp only
      rw [(processLoop_flatten hholds []).1, if_neg (by simp)]
      exact hsame.1.trans hup
  · rw [if_neg hmoves]
    exact hup

theorem Accepts.follows {r₁ : Raft} (h : Accepts r req env l last r₁) (hf : Follows r l)
    (hl : Led l) (hfup : (r.followLeader req env).down = false) :
    Follows (r.appendEntries req env).1 l := by
  have hdense : r₁.logs.Dense := by
    rw [h.logs]
    unfold accepted
    split
    · exact hf.dense
    · exact hl.dense.of_isPrefix (List.take_prefix _ _)
  refine ⟨?_, h.cached_eq hf.cached, ?_, ?_⟩
  · rw [h.appended]
    refine up_followCommit ?_ (h.stays_cached hf.cached) hdense _
    rw [h.same]
    exact hfup
  · rw [h.logs_eq, ← h.logs]
    exact hdense
  · rw [h.logs_eq]
    exact hf.matching.accepted

theorem follows_appendEntries (hf : Follows r l) (hl : Led l) (hreq : req.Describes l last)
    (hle : r.currentTerm ≤ req.term) (henv : env.Faultless) :
    Follows (r.appendEntries req env).1 l := by
  obtain ⟨hfup, -, -, hdata⟩ := followLeader_nil hf.up henv.1 hle
  cases hprev : r.verifyPrevious req with
  | false =>
    rw [appendEntries_refused hf.up henv.1 hle hprev]
    exact hf.sameData hdata hfup
  | true =>
    obtain ⟨r₁, hacc⟩ := accepts_of_verifyPrevious hf.up henv hf.cached hf.dense hl.dense
      hf.matching hl.decodes hreq hle hprev
    exact hacc.follows hf hl hfup

theorem currentTerm_appendEntries (hf : Follows r l) (hl : Led l) (hreq : req.Describes l last)
    (hle : r.currentTerm ≤ req.term) (henv : env.Faultless) :
    (r.appendEntries req env).1.currentTerm = req.term := by
  obtain ⟨-, hterm, -, -⟩ := followLeader_nil hf.up henv.1 hle
  cases hprev : r.verifyPrevious req with
  | false =>
    rw [appendEntries_refused hf.up henv.1 hle hprev]
    exact hterm
  | true =>
    obtain ⟨r₁, hacc⟩ := accepts_of_verifyPrevious hf.up henv hf.cached hf.dense hl.dense
      hf.matching hl.decodes hreq hle hprev
    rw [hacc.appended, followCommit_eq, hacc.same]
    exact hterm

/-- A server with a log that was never compacted and that matches `l`. If `l` has the
entry of the server's last snapshot, the log has it too. -/
structure Trails (r : Raft) (l : LogStore) : Prop where
  cached : LastCached r
  dense : r.logs.Dense
  matching : Matching r.logs l
  snapshot : ∀ e, l.getLog r.lastSnapshotIndex = some e → e.term = r.lastSnapshotTerm →
    ∃ e', r.logs.getLog r.lastSnapshotIndex = some e' ∧ e'.term = r.lastSnapshotTerm

theorem Trails.sameData (h : Trails r l) (hs : SameData r r') : Trails r' l where
  cached := h.cached.sameData hs
  dense := hs.logs ▸ h.dense
  matching := hs.logs ▸ h.matching
  snapshot := by
    rw [hs.logs, hs.lastSnapshotIndex, hs.lastSnapshotTerm]
    exact h.snapshot

theorem Trails.previousWithin (h : Trails r l) (hl : Led l) (hreq : req.Describes l last) :
    r.PreviousWithin req := by
  intro hindex hterm
  by_contra hbeyond
  -- the leader's log has the snapshot's entry, so this one has it
  obtain ⟨e, he, hsame⟩ := Option.map_eq_some_iff.mp (hreq.prevTerm (by omega))
  rw [hindex] at he
  obtain ⟨e', he', -⟩ := h.snapshot e (by rw [hl.dense.getLog (by omega), he]) (hsame.trans hterm)
  rw [h.dense.getLog (by omega)] at he'
  have := (List.getElem?_eq_some_iff.mp he').1
  omega

theorem Trails.take_eq (h : Trails r l) (hl : Led l) (hreq : req.Describes l last)
    (hprev : r.verifyPrevious req = true) : r.logs.take req.prevLogEntry = l.take req.prevLogEntry :=
  take_eq_of_verifyPrevious h.cached (h.previousWithin hl hreq) h.dense h.matching hreq hprev

theorem Trails.accepts (h : Trails r l) (hl : Led l) (hup : r.down = false) (henv : env.Faultless)
    (hreq : req.Describes l last) (hle : r.currentTerm ≤ req.term)
    (hprev : r.verifyPrevious req = true) : ∃ r₁, Accepts r req env l last r₁ :=
  accepts_of_agrees hup henv h.cached h.dense hl.dense h.matching hl.decodes hreq hle hprev
    (h.take_eq hl hreq hprev)

theorem Accepts.trails {r₁ : Raft} (h : Accepts r req env l last r₁) (ht : Trails r l) (hl : Led l) :
    Trails (r.appendEntries req env).1 l := by
  have hcached := h.cached
  have hsame : (r.appendEntries req env).1.lastSnapshotIndex = r.lastSnapshotIndex ∧
      (r.appendEntries req env).1.lastSnapshotTerm = r.lastSnapshotTerm := by
    have hdata := sameData_followLeader r req env
    rw [h.appended, followCommit_eq, h.same]
    exact ⟨hdata.lastSnapshotIndex, hdata.lastSnapshotTerm⟩
  have hdense : (r.appendEntries req env).1.logs.Dense := by
    rw [h.logs_eq]
    unfold accepted
    split
    · exact ht.dense
    · exact hl.dense.of_isPrefix (List.take_prefix _ _)
  refine ⟨?_, hdense, ?_, ?_⟩
  · rw [h.appended, followCommit_eq]
    exact ⟨hcached.lastLogIndex, hcached.lastLogTerm⟩
  · rw [h.logs_eq]
    exact ht.matching.accepted
  · -- the two logs agree up to the snapshot, and go on doing so
    rw [hsame.1, hsame.2]
    intro e he hterm
    obtain ⟨e', he', hterm'⟩ := ht.snapshot e he hterm
    have hpos : 1 ≤ r.lastSnapshotIndex := by
      by_contra hzero
      rw [show r.lastSnapshotIndex = 0 by omega, hl.dense.getLog_zero] at he
      cases he
    rw [hl.dense.getLog hpos] at he
    rw [ht.dense.getLog hpos] at he'
    have hagree := ht.matching _ e' e he' he (hterm'.trans hterm.symm)
    rw [Nat.sub_add_cancel hpos] at hagree
    have hlen := (List.getElem?_eq_some_iff.mp he).1
    have hpre : l.take r.lastSnapshotIndex <+: (r.appendEntries req env).1.logs := by
      rw [h.logs_eq]
      refine keeps_accepted (hagree ▸ List.take_prefix _ _) ?_
      rw [List.length_take, Nat.min_eq_left (by omega)]
    refine ⟨e, ?_, hterm⟩
    rw [hdense.getLog hpos]
    obtain ⟨rest, hrest⟩ := hpre
    rw [← hrest, List.getElem?_append_left (by rw [List.length_take]; omega),
      List.getElem?_take_of_lt (by omega), he]

/-- A server that has gone down answers nothing. -/
theorem appendEntries_down (hdown : r.down = true) (henv : env.writes = [])
    (hle : r.currentTerm ≤ req.term) :
    r.appendEntries req env = (r.followLeader req env, .failed, []) ∧
      (r.followLeader req env).down = true := by
  have hstays : (r.followLeader req env).down = true := by
    unfold followLeader
    rw [henv, setCurrentTerm_nil]
    dsimp only
    split <;> simp [setState, setLeader, hdown]
  simp [appendEntries, Nat.not_lt.mpr hle, hstays]

theorem trails_appendEntries (ht : Trails r l) (hl : Led l) (hreq : req.Describes l last)
    (hle : r.currentTerm ≤ req.term) (henv : env.Faultless) :
    Trails (r.appendEntries req env).1 l := by
  have hdata := sameData_followLeader r req env
  cases hdown : r.down with
  | true =>
    rw [(appendEntries_down hdown henv.1 hle).1]
    exact ht.sameData hdata
  | false =>
    cases hprev : r.verifyPrevious req with
    | false =>
      rw [appendEntries_refused hdown henv.1 hle hprev]
      exact ht.sameData hdata
    | true =>
      obtain ⟨r₁, hacc⟩ := ht.accepts hl hdown henv hreq hle hprev
      exact hacc.trails ht hl

/-- From `r` the server comes to `r'` by requests cut from the log `l`, one after the
other. -/
inductive AppendedFrom (l : LogStore) (r : Raft) : Raft → Prop where
  | none : AppendedFrom l r r
  | append {r' : Raft} {req : AppendEntriesRequest} {last : Nat} {env : Env} (h : AppendedFrom l r r')
      (hreq : req.Describes l last) (hle : r'.currentTerm ≤ req.term) (henv : env.Faultless) :
      AppendedFrom l r (r'.appendEntries req env).1

theorem AppendedFrom.trails (h : AppendedFrom l r r') (ht : Trails r l) (hl : Led l) :
    Trails r' l := by
  induction h with
  | none => exact ht
  | append _ hreq hle henv ih => exact trails_appendEntries ih hl hreq hle henv

/-- What a request cut from `l` up to `last` does to the log. -/
structure Appends (l : LogStore) (last : Nat) (req : AppendEntriesRequest) (r r' : Raft)
    (response : Response) : Prop where
  agreed : r.logs.agreed l ≤ r'.logs.agreed l
  success : ∀ resp, response = .appendEntries resp → resp.success = true → last ≤ r'.logs.agreed l
  refused : Refuses response → r'.logs = r.logs
  /-- Entries are lost only from the first one on whose term differs, but then all. -/
  lost : r.logs <+: r'.logs ∨ ∃ k e e', req.prevLogEntry ≤ k ∧ k < last ∧ r.logs[k]? = some e ∧
    l[k]? = some e' ∧ e.term ≠ e'.term ∧ r.logs.take k = l.take k ∧ r'.logs = l.take last

theorem appends_of_refused {response : Response} (hlogs : r'.logs = r.logs)
    (hrefuses : Refuses response) : Appends l last req r r' response where
  agreed := by rw [hlogs]
  success resp hresp hsuccess := by
    rw [hrefuses resp hresp] at hsuccess
    cases hsuccess
  refused _ := hlogs
  lost := .inl (hlogs ▸ List.prefix_rfl)

theorem lost_of_accepted {t : Nat} {f : LogStore} (hmatch : Matching f l) (hlast : last ≤ l.length)
    {prev : Nat} (hprev : f.take prev = l.take prev) :
    f <+: accepted f ⟨t, l, last⟩ ∨ ∃ k e e', prev ≤ k ∧ k < last ∧ f[k]? = some e ∧
      l[k]? = some e' ∧ e.term ≠ e'.term ∧ f.take k = l.take k ∧
      accepted f ⟨t, l, last⟩ = l.take last := by
  by_cases hpre : l.take last <+: f
  · rw [accepted_eq_self hpre]
    exact .inl List.prefix_rfl
  · have heq : accepted f ⟨t, l, last⟩ = l.take last := if_neg hpre
    rw [heq]
    rcases LogStore.exists_conflict hmatch hlast hpre with hshort | ⟨k, e, e', hk, he, he', hterm, htake⟩
    · exact .inl hshort
    · refine .inr ⟨k, e, e', ?_, hk, he, he', hterm, htake, rfl⟩
      by_contra hlt
      -- up to the previous entry there is no conflict
      have hsame : f[k]? = l[k]? := by
        rw [← List.getElem?_take_of_lt (Nat.not_le.mp hlt), hprev,
          List.getElem?_take_of_lt (Nat.not_le.mp hlt)]
      rw [he, he'] at hsame
      cases hsame
      exact hterm rfl

theorem Accepts.appends {r₁ : Raft} (h : Accepts r req env l last r₁) (ht : Trails r l)
    (hreq : req.Describes l last) (hagree : r.logs.take req.prevLogEntry = l.take req.prevLogEntry) :
    Appends l last req r (r.appendEntries req env).1 (r.appendEntries req env).2.1 where
  agreed := by
    rw [h.logs_eq]
    refine LogStore.agreed_le_of_keeps fun n hn hpre => keeps_accepted hpre ?_
    rw [List.length_take, Nat.min_eq_left hn]
  success _ _ _ := by
    rw [h.logs_eq]
    exact LogStore.le_agreed_iff.mpr ⟨hreq.last_le, prefix_accepted r.logs ⟨req.term, l, last⟩⟩
  refused hrefuses := by
    rw [h.appended] at hrefuses
    have := hrefuses _ rfl
    cases this
  lost := by
    rw [h.logs_eq]
    exact lost_of_accepted ht.matching hreq.last_le hagree

theorem appends_appendEntries (ht : Trails r l) (hl : Led l) (hreq : req.Describes l last)
    (hle : r.currentTerm ≤ req.term) (henv : env.Faultless) :
    Appends l last req r (r.appendEntries req env).1 (r.appendEntries req env).2.1 := by
  have hlogs := (sameData_followLeader r req env).logs
  cases hdown : r.down with
  | true =>
    rw [(appendEntries_down hdown henv.1 hle).1]
    refine appends_of_refused hlogs ?_
    intro resp hresp
    cases hresp
  | false =>
    cases hprev : r.verifyPrevious req with
    | false =>
      rw [appendEntries_refused hdown henv.1 hle hprev]
      refine appends_of_refused hlogs ?_
      intro resp hresp
      cases hresp
      rfl
    | true =>
      obtain ⟨r₁, hacc⟩ := ht.accepts hl hdown henv hreq hle hprev
      exact hacc.appends ht hreq (ht.take_eq hl hreq hprev)

/-- The log after a request: the same, or cut from `l` if the request is accepted. -/
theorem Trails.logs_appendEntries (ht : Trails r l) (hl : Led l) (hreq : req.Describes l last)
    (henv : env.Faultless) :
    (r.appendEntries req env).1.logs = r.logs ∨
      (r.down = false ∧ r.verifyPrevious req = true ∧
        (r.appendEntries req env).1.logs = accepted r.logs ⟨req.term, l, last⟩) := by
  have hlogs := (sameData_followLeader r req env).logs
  by_cases hlt : req.term < r.currentTerm
  · simp [appendEntries, hlt]
  have hle := Nat.not_lt.mp hlt
  cases hdown : r.down with
  | true =>
    rw [(appendEntries_down hdown henv.1 hle).1]
    exact .inl hlogs
  | false =>
    cases hprev : r.verifyPrevious req with
    | false =>
      rw [appendEntries_refused hdown henv.1 hle hprev]
      exact .inl hlogs
    | true =>
      obtain ⟨r₁, hacc⟩ := ht.accepts hl hdown henv hreq hle hprev
      exact .inr ⟨rfl, rfl, hacc.logs_eq⟩

/-- A request that comes a second time does not change the log. -/
theorem logs_appendEntries_again {env' : Env} (ht : Trails r l) (hl : Led l)
    (hreq : req.Describes l last) (hle : r.currentTerm ≤ req.term) (henv : env.Faultless)
    (henv' : env'.Faultless) :
    ((r.appendEntries req env).1.appendEntries req env').1.logs = (r.appendEntries req env).1.logs := by
  have ht' := trails_appendEntries ht hl hreq hle henv
  rcases ht'.logs_appendEntries hl hreq henv' with hsame | ⟨hup', hprev', haccepted⟩
  · exact hsame
  rw [haccepted]
  refine accepted_eq_self ?_
  -- it was accepted the first time too
  cases hdown : r.down with
  | true =>
    obtain ⟨heq, hstays⟩ := appendEntries_down hdown henv.1 hle
    rw [heq, hstays] at hup'
    cases hup'
  | false =>
    cases hprev : r.verifyPrevious req with
    | false =>
      rw [appendEntries_refused hdown henv.1 hle hprev,
        verifyPrevious_sameData (sameData_followLeader r req env), hprev] at hprev'
      cases hprev'
    | true =>
      obtain ⟨r₁, hacc⟩ := ht.accepts hl hdown henv hreq hle hprev
      rw [hacc.logs_eq]
      exact prefix_accepted _ _

/-- Whatever requests cut from a leader's log a follower has taken, in whatever order,
the next one does not shorten what the two logs have in common. -/
theorem appends_never_shrink (ht : Trails r l) (hl : Led l) (hrun : AppendedFrom l r r')
    (hreq : req.Describes l last) (hle : r'.currentTerm ≤ req.term) (henv : env.Faultless) :
    Appends l last req r' (r'.appendEntries req env).1 (r'.appendEntries req env).2.1 ∧
      ∀ env' : Env, env'.Faultless →
        ((r'.appendEntries req env).1.appendEntries req env').1.logs =
          (r'.appendEntries req env).1.logs := by
  have ht' := hrun.trails ht hl
  exact ⟨appends_appendEntries ht' hl hreq hle henv,
    fun _ henv' => logs_appendEntries_again ht' hl hreq hle henv henv'⟩

/-- Commands with the given terms. -/
def commandsOf (terms : List Nat) : LogStore :=
  terms.mapIdx (fun i t => { index := i + 1, term := t, type := .logCommand })

theorem commandsOf_getElem? {terms : List Nat} {i : Nat} {e : Log}
    (h : (commandsOf terms)[i]? = some e) :
    e.index = i + 1 ∧ e.decodes = true ∧ terms[i]? = some e.term := by
  simp only [commandsOf, List.getElem?_mapIdx, Option.map_eq_some_iff] at h
  obtain ⟨t, ht, rfl⟩ := h
  exact ⟨rfl, rfl, ht⟩

theorem led_commandsOf (terms : List Nat) : Led (commandsOf terms) where
  dense _ _ h := (commandsOf_getElem? h).1
  decodes e he := by
    obtain ⟨i, hi⟩ := List.getElem?_of_mem he
    exact (commandsOf_getElem? hi).2.1

/-- The entries after `prev` of the leader, whose terms are 1, 2, 2. -/
def oneOfThree (prev prevTerm : Nat) : AppendEntriesRequest :=
  { header := { id := [66], addr := [66] }, term := 2, prevLogEntry := prev, prevLogTerm := prevTerm
    entries := ((commandsOf [1, 2, 2]).take (prev + 1)).drop prev }

/-- A follower with two entries of its own. -/
def forked : Raft :=
  { conf := { localID := [65], localAddr := [65] }, logs := commandsOf [1, 1, 1], lastLogIndex := 3
    lastLogTerm := 1, currentTerm := 1 }

theorem follows_forked (later : List Nat) : Follows forked (commandsOf ([1, 2, 2] ++ later)) where
  up := rfl
  cached := ⟨⟨rfl, rfl⟩, rfl⟩
  dense := (led_commandsOf [1, 1, 1]).dense
  matching i e e' he he' hterm := by
    have hours := (commandsOf_getElem? he).2.2
    have htheirs := (commandsOf_getElem? he').2.2
    rw [show e.term = e'.term from hterm, ← htheirs] at hours
    match i with
    | 0 => simp [forked, commandsOf]
    | 1 => simp at hours
    | 2 => simp at hours
    | i + 3 => simp [forked, commandsOf] at he

/-- The follower with a snapshot of its second entry. -/
def forkedAtSnapshot : Raft := { forked with lastSnapshotIndex := 2, lastSnapshotTerm := 1 }

theorem trails_forkedAtSnapshot : Trails forkedAtSnapshot (commandsOf [1, 2, 2]) where
  cached := ⟨rfl, rfl⟩
  dense := (follows_forked []).dense
  matching := (follows_forked []).matching
  snapshot := by
    intro e he hterm
    exact ⟨_, rfl, rfl⟩

/-- The first request replaces the entry of the snapshot, and the second one goes on
from there. -/
theorem appends_never_shrink_forked :
    Appends (commandsOf [1, 2, 2]) 3 (oneOfThree 2 2)
      (forkedAtSnapshot.appendEntries (oneOfThree 1 1) {}).1
      ((forkedAtSnapshot.appendEntries (oneOfThree 1 1) {}).1.appendEntries (oneOfThree 2 2) {}).1
      ((forkedAtSnapshot.appendEntries (oneOfThree 1 1) {}).1.appendEntries (oneOfThree 2 2) {}).2.1 := by
  have hone : (oneOfThree 1 1).Describes (commandsOf [1, 2, 2]) 2 := ⟨by decide, by decide, rfl, fun _ => rfl⟩
  have htwo : (oneOfThree 2 2).Describes (commandsOf [1, 2, 2]) 3 := ⟨by decide, by decide, rfl, fun _ => rfl⟩
  have henv : ({} : Env).Faultless := ⟨rfl, rfl, rfl⟩
  exact (appends_never_shrink trails_forkedAtSnapshot (led_commandsOf _)
    (.append .none hone (by decide) henv) htwo (by decide) henv).1

/-- A follower that has one entry in its log and a snapshot up to the third. -/
def beyond : Raft :=
  { conf := { localID := [65], localAddr := [65] }, logs := commandsOf [1], lastLogIndex := 1
    lastLogTerm := 1, lastSnapshotIndex := 3, lastSnapshotTerm := 1, currentTerm := 1 }

/-- The entry after it. -/
def afterSnapshot : AppendEntriesRequest :=
  { header := { id := [66], addr := [66] }, term := 1, prevLogEntry := 3, prevLogTerm := 1
    entries := (commandsOf [1, 1, 1, 1]).drop 3 }

/-- The log is a prefix of the leader's. The request is accepted, as the snapshot has
what lies between, and leaves a gap. -/
theorem append_beyond_log :
    Led beyond.logs ∧ Matching beyond.logs (commandsOf [1, 1, 1, 1]) ∧
      afterSnapshot.Describes (commandsOf [1, 1, 1, 1]) 4 ∧
      (beyond.appendEntries afterSnapshot {}).2.1 = .appendEntries
        { header := beyond.getRPCHeader, term := 1, lastLog := 3, success := true } ∧
      (beyond.appendEntries afterSnapshot {}).1.logs.map Log.index = [1, 4] ∧
      (beyond.appendEntries afterSnapshot {}).1.logs.agreed (commandsOf [1, 1, 1, 1]) = 1 := by
  refine ⟨led_commandsOf [1], ?_, ⟨by decide, by decide, rfl, fun _ => rfl⟩, by decide, by decide,
    by decide⟩
  intro i e e' he _ _
  match i with
  | 0 => rfl
  | i + 1 => simp [beyond, commandsOf] at he

end Raft

end PerfRaft
