import PerfRaft.Lib.Committed
import PerfRaft.Proofs.LogStore
import PerfRaft.Proofs.Threads

namespace PerfRaft

open Lib

instance : Stamped Log := ⟨Log.term⟩

/-- A request has the entries of a log after its previous entry, up to `last`. -/
structure AppendEntriesRequest.Describes (req : AppendEntriesRequest) (l : LogStore) (last : Nat) :
    Prop where
  prev_le : req.prevLogEntry ≤ last
  last_le : last ≤ l.length
  entries : req.entries = (l.take last).drop req.prevLogEntry
  prevTerm : req.prevLogEntry ≠ 0 → (l[req.prevLogEntry - 1]?).map Log.term = some req.prevLogTerm

variable {req : AppendEntriesRequest}

theorem AppendEntriesRequest.Describes.last_index {l : LogStore}
    {last : Nat} (h : req.Describes l last) (hd : l.Dense) {e : Log}
    (he : req.entries.getLast? = some e) : e.index = last := by
  have hlast := h.last_le
  rw [h.entries, List.getLast?_drop] at he
  split at he
  · simp at he
  · rename_i hlen
    rw [List.length_take, Nat.min_eq_left hlast] at hlen
    rw [List.getLast?_eq_getElem?, List.length_take, Nat.min_eq_left hlast,
      List.getElem?_take_of_lt (by omega)] at he
    rw [hd _ e he]
    omega

theorem LogStore.Dense.index_getLast {l : LogStore} (h : l.Dense) (hne : l ≠ []) :
    (l.getLast hne).index = l.length := by
  have hpos := List.length_pos_of_ne_nil hne
  rw [List.getLast_eq_getElem, h (l.length - 1) _ (List.getElem?_eq_getElem (by omega))]
  omega

theorem lastStamp_getLast {l : LogStore} (hne : l ≠ []) : lastStamp l = (l.getLast hne).term := by
  unfold lastStamp
  rw [List.getLast?_eq_some_getLast hne]
  rfl

namespace Raft

/-- The cached last log is the last entry of the log, which was never compacted. -/
structure LastCached (r : Raft) : Prop where
  lastLogIndex : r.lastLogIndex = r.logs.length
  lastLogTerm : r.lastLogTerm = lastStamp r.logs

/-- The last-entry cache agrees with the log, and there is no snapshot. -/
structure Cached (r : Raft) : Prop extends LastCached r where
  lastSnapshotIndex : r.lastSnapshotIndex = 0

variable {r : Raft}

theorem Cached.getLastIndex (h : Cached r) : r.getLastIndex = r.logs.length := by
  unfold Raft.getLastIndex
  rw [h.lastLogIndex, h.lastSnapshotIndex, Nat.max_zero]

theorem Cached.getLastEntry (h : Cached r) : r.getLastEntry = (r.logs.length, lastStamp r.logs) := by
  unfold Raft.getLastEntry
  rw [h.lastSnapshotIndex, if_pos (Nat.zero_le _), h.lastLogIndex, h.lastLogTerm]

theorem mapM_getLog {logs : LogStore} (hd : logs.Dense) {n k : Nat} {entries : List Log}
    (hn : 1 ≤ n) (h : (List.range' n k).mapM (fun i => logs.getLog i) = some entries) :
    entries = (logs.drop (n - 1)).take k ∧ (k ≠ 0 → n - 1 + k ≤ logs.length) := by
  induction k generalizing n entries with
  | zero =>
    simp only [List.range'_zero, List.mapM_nil, Option.pure_def, Option.some.injEq] at h
    simp [← h]
  | succ k ih =>
    simp only [List.range'_succ, List.mapM_cons, Option.bind_eq_bind, Option.bind_eq_some_iff,
      Option.pure_def, Option.some.injEq] at h
    obtain ⟨entry, hget, rest, hrest, rfl⟩ := h
    rw [hd.getLog hn] at hget
    have hlt := (List.getElem?_eq_some_iff.mp hget).1
    obtain ⟨heq, hle⟩ := ih (by omega) hrest
    rw [List.getElem?_eq_getElem hlt] at hget
    refine ⟨?_, fun _ => ?_⟩
    · rw [heq, List.drop_eq_getElem_cons hlt, List.take_succ_cons, Option.some.inj hget]
      congr 3
      omega
    · by_cases hk : k = 0
      · omega
      · have := hle hk
        omega

/-- What a replication goroutine sends is cut from the log of its server. -/
theorem setupAppendEntries_describes (hd : r.logs.Dense) (hsnap : r.lastSnapshotIndex = 0)
    {currentTerm nextIndex lastIndex : Nat}
    (h : r.setupAppendEntries currentTerm nextIndex lastIndex = some req) :
    ∃ last, req.Describes r.logs last := by
  unfold setupAppendEntries setupAppendEntriesFrom at h
  split at h
  · rename_i prev prevTerm entries hprev hentries
    cases h
    unfold setNewLogsFrom newLogsRange at hentries
    have hnext : 1 ≤ nextIndex := by
      by_contra hzero
      have hz : nextIndex = 0 := by omega
      subst hz
      simp only [Nat.zero_add, Nat.sub_zero, List.range'_succ, List.mapM_cons, Option.bind_eq_bind,
        Option.bind_eq_some_iff] at hentries
      obtain ⟨e, he, _⟩ := hentries
      simp [hd.getLog_zero] at he
    obtain ⟨rfl, hle⟩ := mapM_getLog hd hnext hentries
    generalize hk : min (nextIndex + r.conf.maxAppendEntries - 1) lastIndex + 1 - nextIndex = k at hle
    unfold setPreviousLogFrom at hprev
    -- the previous entry is the one before `nextIndex`, or there is none
    have hpos : prev = nextIndex - 1 ∧ prev ≤ r.logs.length ∧
        (prev ≠ 0 → (r.logs[prev - 1]?).map Log.term = some prevTerm) := by
      split at hprev
      · cases hprev
        exact ⟨by omega, by omega, by simp⟩
      · split at hprev
        · cases hprev
          exact ⟨by omega, by omega, by simp [hsnap]⟩
        · simp only [Option.map_eq_some_iff] at hprev
          obtain ⟨l, hl, he⟩ := hprev
          cases he
          have hindex := LogStore.index_of_getLog hl
          rw [hindex]
          rw [hd.getLog (by omega)] at hl
          have hlt := (List.getElem?_eq_some_iff.mp hl).1
          exact ⟨rfl, by omega, fun _ => by rw [hl]; rfl⟩
    obtain ⟨hprev, hplen, hterm⟩ := hpos
    refine ⟨prev + k, ⟨by simp, ?_, ?_, hterm⟩⟩
    · by_cases hk : k = 0
      · omega
      · have := hle hk
        omega
    · simp only [← hprev]
      rw [List.drop_take, Nat.add_sub_cancel_left]
  · simp at h

theorem heartbeatRequest_describes (r : Raft) (s : FollowerReplication) :
    (r.heartbeatRequest s).Describes r.logs 0 :=
  ⟨Nat.le_refl _, Nat.zero_le _, by simp [heartbeatRequest], by simp [heartbeatRequest]⟩

/-- The previous entry of a request is not a snapshot beyond the log. -/
def PreviousWithin (r : Raft) (req : AppendEntriesRequest) : Prop :=
  req.prevLogEntry = r.lastSnapshotIndex → req.prevLogTerm = r.lastSnapshotTerm →
    r.lastSnapshotIndex ≤ r.logs.length

theorem Cached.previousWithin (h : Cached r) : r.PreviousWithin req := by
  intro _ _
  rw [h.lastSnapshotIndex]
  exact Nat.zero_le _

/-- The check of the previous entry finds one of the same term. -/
theorem verifyPrevious_term (hc : LastCached r) (hwithin : r.PreviousWithin req) (hd : r.logs.Dense)
    (h : r.verifyPrevious req = true) (hprev : req.prevLogEntry ≠ 0) :
    (r.logs[req.prevLogEntry - 1]?).map Log.term = some req.prevLogTerm := by
  unfold verifyPrevious getLastEntry at h
  rw [if_neg hprev, hc.lastLogIndex, hc.lastLogTerm] at h
  by_cases hsnapshot : r.lastSnapshotIndex ≤ r.logs.length
  case neg =>
    -- the last entry is the snapshot, which the request does not follow
    rw [if_neg hsnapshot] at h
    dsimp only at h
    split at h
    · rename_i hlast
      exact absurd (hwithin hlast (by simpa using h)) hsnapshot
    · rw [hd.getLog (by omega)] at h
      split at h
      · simp at h
      · rename_i prevLog hget
        simp only [decide_eq_true_eq] at h
        rw [hget, h]
        rfl
  rw [if_pos hsnapshot] at h
  dsimp only at h
  split at h
  · rename_i hlast
    have hlen : r.logs.length - 1 < r.logs.length := by omega
    simp only [decide_eq_true_eq] at h
    rw [hlast, h, lastStamp, List.getLast?_eq_getElem?, List.getElem?_eq_getElem hlen]
    rfl
  · rw [hd.getLog (by omega)] at h
    split at h
    · simp at h
    · rename_i prevLog hget
      simp only [decide_eq_true_eq] at h
      rw [hget, h]
      rfl

theorem processConfigurationLogEntry_decodes {entry : Log} (h : entry.decodes = true) (r : Raft) :
    (r.processConfigurationLogEntry entry).2 = true := by
  unfold Log.decodes at h
  unfold processConfigurationLogEntry
  cases htype : entry.type with
  | logConfiguration =>
    simp only [htype] at h ⊢
    obtain ⟨configuration, hc⟩ := Option.isSome_iff_exists.mp h
    rw [hc]
  | logAddPeerDeprecated | logRemovePeerDeprecated =>
    simp only [htype] at h ⊢
    obtain ⟨configuration, hc⟩ := Option.isSome_iff_exists.mp h
    rw [hc]
  | _ => rfl

theorem processConfigurationLogEntries_push {entries : List Log}
    (h : ∀ e ∈ entries, e.decodes = true) (r : Raft) :
    r.processConfigurationLogEntries entries =
      ({ r with configurations := entries.foldl Configurations.push r.configurations }, true) := by
  induction entries generalizing r with
  | nil => rfl
  | cons entry rest ih =>
    have hone := processConfigurationLogEntry_decodes (h entry (by simp)) r
    unfold processConfigurationLogEntries
    cases hp : r.processConfigurationLogEntry entry with
    | mk r' ok =>
      rw [hp] at hone
      cases hone
      dsimp only
      rw [ih (fun e he => h e (List.mem_cons_of_mem _ he)), processConfigurationLogEntry_push hp]
      rfl

open Replicated

/-- The loop over the entries of a request ends where our log stops to agree with
the log it was cut from, with the rest of our log deleted. -/
theorem newEntries_described {L : LogStore} {last : Nat} {env : Env}
    (hd : r.logs.Dense) (hdL : L.Dense) (hmatch : Matching r.logs L)
    (hlast : last ≤ L.length) (henv : env.deleteRange = true) {p : Nat} (hp : p ≤ last)
    (hagree : r.logs.take p = L.take p) :
    (L.take last <+: r.logs ∧ r.newEntries r.logs.length env ((L.take last).drop p) = some (r, [])) ∨
      (¬L.take last <+: r.logs ∧ ∃ q configurations, q < last ∧
        r.newEntries r.logs.length env ((L.take last).drop p) =
          some ({ r with logs := L.take q, configurations := configurations },
            (L.take last).drop q)) := by
  -- by induction on the number of entries left
  induction hk : last - p generalizing p with
  | zero =>
    have hpl : p = last := by omega
    subst hpl
    refine .inl ⟨?_, ?_⟩
    · rw [← hagree]
      exact List.take_prefix _ _
    · rw [List.drop_of_length_le (by rw [List.length_take]; omega)]
      rfl
  | succ k ih =>
    have hpL : p < L.length := by omega
    have hcons : (L.take last).drop p = L[p] :: (L.take last).drop (p + 1) := by
      rw [List.drop_eq_getElem_cons (by rw [List.length_take]; omega), List.getElem_take]
    have hindex : L[p].index = p + 1 := hdL p _ (List.getElem?_eq_getElem hpL)
    have hlen : p ≤ r.logs.length := by
      have := congrArg List.length hagree
      rw [List.length_take, List.length_take] at this
      omega
    rw [hcons]
    unfold newEntries
    by_cases hnew : r.logs.length < L[p].index
    · -- our log ends here
      rw [if_pos hnew]
      have hall : r.logs = L.take p := by
        rw [← hagree, List.take_of_length_le (by omega)]
      refine .inr ⟨?_, p, r.configurations, by omega, ?_⟩
      · intro hpre
        have := hpre.length_le
        rw [List.length_take] at this
        omega
      · rw [← hcons, ← hall]
    · rw [if_neg hnew, hindex, hd.getLog (by omega), Nat.add_sub_cancel]
      have hpr : p < r.logs.length := by omega
      rw [List.getElem?_eq_getElem hpr]
      dsimp only
      by_cases hterm : L[p].term = r.logs[p].term
      · rw [if_neg (by simp [hterm])]
        refine ih (by omega) ?_ (by omega)
        exact hmatch p _ _ (List.getElem?_eq_getElem hpr) (List.getElem?_eq_getElem hpL) hterm.symm
      · -- a conflict
        have hnot : ¬L.take last <+: r.logs := by
          intro hpre
          refine hterm ?_
          have hget := hpre.getElem (i := p) (by rw [List.length_take]; omega)
          rw [List.getElem_take] at hget
          rw [hget]
        rw [if_pos hterm, if_neg (by simp [henv]), hd.deleteRange (by omega), Nat.add_sub_cancel,
          hagree, ← hcons]
        split
        · exact .inr ⟨hnot, p, _, by omega, rfl⟩
        · exact .inr ⟨hnot, p, _, by omega, rfl⟩

/-- A server that finds the previous entry has the log of the sender up to there. -/
theorem take_eq_of_verifyPrevious {L : LogStore} {last : Nat}
    (hc : LastCached r) (hwithin : r.PreviousWithin req) (hd : r.logs.Dense)
    (hmatch : Matching r.logs L) (hreq : req.Describes L last) (hprev : r.verifyPrevious req = true) :
    r.logs.take req.prevLogEntry = L.take req.prevLogEntry := by
  by_cases hzero : req.prevLogEntry = 0
  · rw [hzero, List.take_zero, List.take_zero]
  · have hours := verifyPrevious_term hc hwithin hd hprev hzero
    have htheirs := hreq.prevTerm hzero
    simp only [Option.map_eq_some_iff] at hours htheirs
    obtain ⟨e, he, hterm⟩ := hours
    obtain ⟨e', he', hterm'⟩ := htheirs
    have heq := hmatch _ e e' he he' (hterm.trans hterm'.symm)
    rwa [Nat.sub_add_cancel (by omega)] at heq

/-- A server that accepts a request has the log of the sender afterwards up to the
last entry of the request, or had it before. -/
theorem storeEntries_described {L : LogStore} {last : Nat} {env : Env}
    (hc : LastCached r) (hd : r.logs.Dense) (hdL : L.Dense)
    (hmatch : Matching r.logs L) (hdecodes : ∀ e ∈ L, e.decodes = true)
    (hreq : req.Describes L last) (henv : env.Faultless)
    (hagree : r.logs.take req.prevLogEntry = L.take req.prevLogEntry) (t : Nat) :
    ∃ r', r.storeEntries req.entries env = .stored r' ∧ LastCached r' ∧
      r'.logs = accepted r.logs ⟨t, L, last⟩ ∧
      r' = { r with
        logs := r'.logs, lastLogIndex := r'.lastLogIndex, lastLogTerm := r'.lastLogTerm
        configurations := r'.configurations } := by
  obtain ⟨_, hstore, hdelete⟩ := henv
  unfold storeEntries
  rw [hreq.entries, hc.lastLogIndex]
  rcases newEntries_described hd hdL hmatch hreq.last_le hdelete hreq.prev_le hagree with
    ⟨hpre, hnew⟩ | ⟨hpre, q, configurations, hq, hnew⟩
  · rw [hnew]
    exact ⟨r, rfl, hc, by rw [accepted, if_pos hpre], rfl⟩
  · have hlen : (L.take last).length = last := by
      rw [List.length_take, Nat.min_eq_left hreq.last_le]
    have hwhole : L.take q ++ (L.take last).drop q = L.take last := by
      rw [← Nat.min_eq_left hq.le, ← List.take_take, Nat.min_eq_left hq.le, List.take_append_drop]
    have hdense : LogStore.Dense (L.take q ++ (L.take last).drop q) := by
      rw [hwhole]
      exact hdL.of_isPrefix (List.take_prefix _ _)
    have hne : (L.take last).drop q ≠ [] := by
      rw [Ne, List.drop_eq_nil_iff]
      omega
    have hlastEntry : ((L.take last).drop q).getLast hne = (L.take last).getLast (by
        intro hnil
        rw [hnil] at hlen
        simp at hlen
        omega) := List.getLast_drop hne
    have hstored := hdense.storeLogs
    rw [hwhole] at hstored
    have hall : ∀ e ∈ (L.take last).drop q, e.decodes = true :=
      fun e he => hdecodes e (List.mem_of_mem_take (List.mem_of_mem_drop he))
    rw [hnew]
    generalize (L.take last).drop q = entries at *
    cases entries with
    | nil => exact absurd rfl hne
    | cons entry rest =>
      simp only [hstore, Bool.true_eq_false, if_false, hstored]
      have hprocess := processConfigurationLogEntries_push hall
        { r with logs := L.take last, configurations := configurations }
      rw [hprocess]
      refine ⟨_, rfl, ⟨?_, ?_⟩, ?_, rfl⟩
      · simp only [setLastLog, hlastEntry]
        exact (hdL.of_isPrefix (List.take_prefix _ _)).index_getLast _
      · simp only [setLastLog, hlastEntry]
        exact (lastStamp_getLast _).symm
      · rw [accepted, if_neg hpre]
        rfl

end Raft

end PerfRaft
