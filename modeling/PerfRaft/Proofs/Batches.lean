import Mathlib.Data.List.Perm.Basic
import Mathlib.Data.List.Nodup
import PerfRaft.FSM
import PerfRaft.Proofs.LogStore

namespace PerfRaft

section Lists

variable {α β : Type}

/-- Whatever `g` picks is picked by `g₁` or by `g₂`. -/
theorem perm_filterMap_split {g g₁ g₂ : α → Option β} {l : List α}
    (h : ∀ a ∈ l, (g₁ a = g a ∧ g₂ a = none) ∨ (g₁ a = none ∧ g₂ a = g a)) :
    (l.filterMap g₁ ++ l.filterMap g₂).Perm (l.filterMap g) := by
  induction l with
  | nil => exact .refl _
  | cons a rest ih =>
    have hrest := ih (fun b hb => h b (List.mem_cons_of_mem _ hb))
    simp only [List.filterMap_cons]
    rcases h a (by simp) with ⟨h₁, h₂⟩ | ⟨h₁, h₂⟩
    · rw [h₁, h₂]
      cases g a with
      | none => exact hrest
      | some b => exact hrest.cons b
    · rw [h₁, h₂]
      cases g a with
      | none => exact hrest
      | some b => exact List.perm_middle.trans (hrest.cons b)

theorem lookup_append_of_not_mem [BEq α] [LawfulBEq α] {a : α} {l l' : List (α × β)}
    (h : a ∉ l'.map Prod.fst) : (l ++ l').lookup a = l.lookup a := by
  have hnone : l'.lookup a = none := by
    rw [List.lookup_eq_none_iff]
    intro p hp
    simp only [bne_iff_ne, ne_eq]
    rintro rfl
    exact h (List.mem_map_of_mem hp)
  rw [List.lookup_append, hnone, Option.or_none]

theorem lookup_append_of_not_mem_left [BEq α] [LawfulBEq α] {a : α} {l l' : List (α × β)}
    (h : a ∉ l.map Prod.fst) : (l ++ l').lookup a = l'.lookup a := by
  have hnone : l.lookup a = none := by
    rw [List.lookup_eq_none_iff]
    intro p hp
    simp only [bne_iff_ne, ne_eq]
    rintro rfl
    exact h (List.mem_map_of_mem hp)
  rw [List.lookup_append, hnone, Option.none_or]

end Lists

/-- The entries that `prepareLog` passes on to the FSM thread. -/
def Config.prepares (conf : Config) (l : Log) : Bool :=
  match l.type with
  | .logBarrier | .logCommand => true
  | .logConfiguration => decide (2 < conf.protocolVersion)
  | _ => false

theorem prepareLog_eq (r : Raft) (l : Log) (future : Option Nat) :
    r.prepareLog l future = if r.conf.prepares l then some ⟨l, future⟩ else none := by
  unfold Raft.prepareLog Config.prepares
  cases l.type <;> simp

namespace Raft

/-- The future of the map for an index. -/
def futureAt (futures : List LogFuture) (idx : Nat) : Option LogFuture :=
  futures.find? (fun f => f.log.index == idx)

/-- The log store holds an entry at each index, and a future there carries it. -/
def Holds (logs : LogStore) (futures : List LogFuture) (idxs : List Nat) : Prop :=
  ∀ idx ∈ idxs, ∃ l, logs.getLog idx = some l ∧ ∀ f, futureAt futures idx = some f → f.log = l

/-- What the loop of `processLogs` prepares for an index. -/
def preparedAt (r : Raft) (futures : List LogFuture) (idx : Nat) : Option CommitTuple :=
  (r.logs.getLog idx).bind
    (fun l => r.prepareLog l ((futureAt futures idx).map LogFuture.id))

/-- The future the loop answers itself at an index. -/
def respondedAt (r : Raft) (futures : List LogFuture) (idx : Nat) : Option LogFuture :=
  if (r.preparedAt futures idx).isNone then futureAt futures idx else none

variable {futures : List LogFuture} {idxs : List Nat}

/-- The batches of the loop, one after the other, and what it answers. -/
theorem processLoop_flatten {r : Raft}
    (h : Holds r.logs futures idxs) (batch : List CommitTuple) :
    (r.processLoop futures idxs batch).panicked = false ∧
      (r.processLoop futures idxs batch).batches.flatten =
        batch ++ idxs.filterMap (r.preparedAt futures) ∧
      (r.processLoop futures idxs batch).responded =
        (idxs.filterMap (r.respondedAt futures)).map LogFuture.id := by
  induction idxs generalizing batch with
  | nil =>
    unfold processLoop
    cases batch with
    | nil => simp
    | cons t rest => exact ⟨rfl, by simp, by simp⟩
  | cons idx rest ih =>
    obtain ⟨l, hl, hfuture⟩ := h idx (by simp)
    have hrest : Holds r.logs futures rest := fun i hi => h i (List.mem_cons_of_mem _ hi)
    have hlog : ((futureAt futures idx).map LogFuture.log).or (r.logs.getLog idx) = some l := by
      cases hf : futureAt futures idx with
      | none => simpa using hl
      | some f => simp [hfuture f hf]
    have hprep : r.preparedAt futures idx =
        r.prepareLog l ((futureAt futures idx).map LogFuture.id) := by
      simp [preparedAt, hl]
    unfold processLoop
    simp only [futureAt] at hlog
    simp only [hlog]
    cases hp : r.prepareLog l ((futureAt futures idx).map LogFuture.id) with
    | none =>
      obtain ⟨hpanic, hflat, hresp⟩ := ih hrest batch
      simp only [futureAt] at hp
      simp only [hp]
      simp only [futureAt] at hprep
      rw [hp] at hprep
      refine ⟨hpanic, ?_, ?_⟩
      · rw [List.filterMap_cons, hprep]
        exact hflat
      · rw [List.filterMap_cons, hresp]
        simp only [respondedAt, hprep, Option.isNone_none, if_true, futureAt]
        cases futures.find? (fun f => f.log.index == idx) with
        | none => rfl
        | some f => rfl
    | some t =>
      simp only [futureAt] at hp
      simp only [hp]
      simp only [futureAt] at hprep
      rw [hp] at hprep
      have hresp : r.respondedAt futures idx = none := by simp [respondedAt, hprep]
      split
      · obtain ⟨hpanic, hflat, hrespond⟩ := ih hrest []
        refine ⟨hpanic, ?_, ?_⟩
        · rw [List.filterMap_cons, hprep, List.flatten_cons, hflat]
          simp
        · rw [List.filterMap_cons, hresp]
          exact hrespond
      · obtain ⟨hpanic, hflat, hrespond⟩ := ih hrest (batch ++ [t])
        refine ⟨hpanic, ?_, ?_⟩
        · rw [List.filterMap_cons, hprep, hflat]
          simp
        · rw [List.filterMap_cons, hresp]
          exact hrespond

theorem length_processLoop {r : Raft}
    (batch : List CommitTuple) (hbatch : batch.length < r.conf.maxAppendEntries) :
    ∀ b ∈ (r.processLoop futures idxs batch).batches, b.length ≤ r.conf.maxAppendEntries := by
  induction idxs generalizing batch with
  | nil =>
    unfold processLoop
    intro b hb
    split at hb
    · simp at hb
    · rw [List.mem_singleton.mp hb]
      exact hbatch.le
  | cons idx rest ih =>
    unfold processLoop
    dsimp only
    split
    · simp
    · split
      · exact ih batch hbatch
      · rename_i t _
        split
        · intro b hb
          rcases List.mem_cons.mp hb with rfl | hb
          · simp only [List.length_append, List.length_singleton]
            omega
          · exact ih [] (Nat.lt_of_le_of_lt (Nat.zero_le _) hbatch) b hb
        · exact ih (batch ++ [t]) (by omega)

/-- Where the loop does not panic, it has found an entry at each index. -/
theorem isSome_of_processLoop {r : Raft}
    {batch : List CommitTuple} (h : (r.processLoop futures idxs batch).panicked = false) :
    ∀ idx ∈ idxs, (((futureAt futures idx).map LogFuture.log).or (r.logs.getLog idx)).isSome := by
  induction idxs generalizing batch with
  | nil => simp
  | cons idx rest ih =>
    unfold processLoop at h
    dsimp only at h
    split at h
    · simp at h
    · rename_i l hl
      intro i hi
      rcases List.mem_cons.mp hi with rfl | hi
      · rw [futureAt, hl]
        rfl
      · split at h
        · exact ih h i hi
        · split at h
          · exact ih h i hi
          · exact ih h i hi

/-- The futures of the map at the given indexes are those the loop passes on and
those it answers. -/
theorem perm_owners {r : Raft}
    (h : Holds r.logs futures idxs) :
    ((idxs.filterMap (r.preparedAt futures)).filterMap
        (fun t => t.future.map (fun id => (id, t.log))) ++
      (idxs.filterMap (r.respondedAt futures)).map (fun f => (f.id, f.log))).Perm
      ((idxs.filterMap (futureAt futures)).map (fun f => (f.id, f.log))) := by
  simp only [List.filterMap_filterMap, List.map_filterMap]
  refine perm_filterMap_split ?_
  intro idx hidx
  obtain ⟨l, hl, hfuture⟩ := h idx hidx
  have hprep : r.preparedAt futures idx =
      r.prepareLog l ((futureAt futures idx).map LogFuture.id) := by
    simp [preparedAt, hl]
  cases hp : r.preparedAt futures idx with
  | none => exact .inr ⟨rfl, by simp [respondedAt, hp]⟩
  | some t =>
    refine .inl ⟨?_, by simp [respondedAt, hp]⟩
    obtain ⟨hlog, hfut⟩ : t.log = l ∧ t.future = (futureAt futures idx).map LogFuture.id := by
      rw [hprep] at hp
      unfold prepareLog at hp
      split at hp
      · cases hp; exact ⟨rfl, rfl⟩
      · cases hp; exact ⟨rfl, rfl⟩
      · split at hp
        · cases hp; exact ⟨rfl, rfl⟩
        · simp at hp
      all_goals simp at hp
    cases hf : futureAt futures idx with
    | none => simp [hfut, hf]
    | some f => simp [hfut, hf, hlog, hfuture f hf]

theorem futureAt_eq_some {idx : Nat} {f : LogFuture}
    (hnodup : (futures.map (fun f => f.log.index)).Nodup) :
    futureAt futures idx = some f ↔ f ∈ futures ∧ f.log.index = idx := by
  constructor
  · intro h
    exact ⟨List.mem_of_find?_eq_some h, by simpa using List.find?_some h⟩
  · rintro ⟨hmem, hidx⟩
    cases hf : futureAt futures idx with
    | none =>
      have := List.find?_eq_none.mp hf f hmem
      simp [hidx] at this
    | some g =>
      have hg : g.log.index = idx := by simpa using List.find?_some hf
      exact congrArg some
        (List.inj_on_of_nodup_map hnodup (List.mem_of_find?_eq_some hf) hmem (hg.trans hidx.symm))

/-- `processLogs` answers the futures of entries it does not prepare. -/
theorem prepares_of_respondedAt {r : Raft}
    (h : Holds r.logs futures idxs) {idx : Nat} (hidx : idx ∈ idxs) {f : LogFuture}
    (hf : r.respondedAt futures idx = some f) : r.conf.prepares f.log = false := by
  obtain ⟨l, hl, hfuture⟩ := h idx hidx
  unfold respondedAt at hf
  split at hf
  · rename_i hnone
    rw [hfuture f hf]
    by_contra hp
    simp [preparedAt, hl, prepareLog_eq, hp] at hnone
  · simp at hf

/-- The futures at the indexes of a range are those of the map that lie in it. -/
theorem perm_futuresAt {lo hi : Nat}
    (hnodup : (futures.map (fun f => f.log.index)).Nodup) :
    ((FSMRun.indexes lo hi).filterMap (futureAt futures)).Perm
      (futures.filter (fun f => decide (lo < f.log.index) && decide (f.log.index ≤ hi))) := by
  rw [List.perm_ext_iff_of_nodup]
  · intro f
    simp only [List.mem_filterMap, futureAt_eq_some hnodup, FSMRun.indexes, List.mem_range'_1,
      List.mem_filter, Bool.and_eq_true, decide_eq_true_eq]
    constructor
    · rintro ⟨idx, hidx, hmem, rfl⟩
      exact ⟨hmem, by omega, by omega⟩
    · rintro ⟨hmem, hlo, hhi⟩
      exact ⟨f.log.index, by omega, hmem, rfl⟩
  · refine List.Nodup.filterMap ?_ (List.nodup_range')
    intro i j f hi hj
    rw [Option.mem_def, futureAt_eq_some hnodup] at hi hj
    exact hi.2.symm.trans hj.2
  · exact (hnodup.of_map _).filter _

end Raft

/-- Each log the FSM was given, with its response. -/
def FSMThread.responses {σ ρ : Type} (t : FSMThread σ ρ) : List (Log × ρ) :=
  t.calls.flatMap (fun call => call.1.zip call.2)

/-- Of the tuples handed to the FSM thread, those whose log the FSM is given. -/
def FSM.takes {σ ρ : Type} (fsm : FSM σ ρ) (l : Log) : Bool :=
  match l.type with
  | .logCommand => true
  | .logConfiguration => fsm.batching
  | _ => false

namespace FSMThread

variable {σ ρ : Type} {fsm : FSM σ ρ} {n : Nat} {t t' : FSMThread σ ρ}

/-- The thread has handled the tuples of `done`: the FSM was given their logs in calls
of at most `n`, with a response to each, and their futures were answered with it. -/
structure Handled (fsm : FSM σ ρ) (n : Nat) (done : List CommitTuple) (t : FSMThread σ ρ) :
    Prop where
  given : t.calls.flatMap Prod.fst = (done.map CommitTuple.log).filter fsm.takes
  lengths : ∀ call ∈ t.calls, call.2.length = call.1.length
  sizes : ∀ call ∈ t.calls, call.1.length ≤ n
  answers : t.answers = done.filterMap
    (fun req => req.future.map (fun future => (future, t.responses.lookup req.log)))

theorem map_fst_responses {calls : List (List Log × List ρ)}
    (h : ∀ call ∈ calls, call.2.length = call.1.length) :
    (calls.flatMap (fun call => call.1.zip call.2)).map Prod.fst = calls.flatMap Prod.fst := by
  induction calls with
  | nil => rfl
  | cons call rest ih =>
    rw [List.flatMap_cons, List.flatMap_cons, List.map_append,
      ih (fun c hc => h c (List.mem_cons_of_mem _ hc)),
      List.map_fst_zip (h call (by simp)).ge]

theorem Handled.mem_done {done : List CommitTuple} (h : Handled fsm n done t) {l : Log}
    (hl : l ∈ t.responses.map Prod.fst) : l ∈ done.map CommitTuple.log := by
  rw [responses, map_fst_responses h.lengths, h.given] at hl
  exact (List.mem_filter.mp hl).1

/-- Tuples with other logs are handled after those of `done`. -/
theorem Handled.extend {done reqs : List CommitTuple} (h : Handled fsm n done t)
    (new : List (List Log × List ρ))
    (hdisjoint : ∀ req ∈ reqs, req.log ∉ done.map CommitTuple.log)
    (hcalls : t'.calls = t.calls ++ new)
    (hgiven : new.flatMap Prod.fst = (reqs.map CommitTuple.log).filter fsm.takes)
    (hlengths : ∀ call ∈ new, call.2.length = call.1.length)
    (hsizes : ∀ call ∈ new, call.1.length ≤ n)
    (hanswers : t'.answers = t.answers ++ reqs.filterMap (fun req => req.future.map (fun future =>
      (future, (new.flatMap (fun call => call.1.zip call.2)).lookup req.log)))) :
    Handled fsm n (done ++ reqs) t' where
  given := by
    rw [hcalls, List.flatMap_append, h.given, hgiven, List.map_append, List.filter_append]
  lengths := by
    intro call hcall
    rw [hcalls] at hcall
    rcases List.mem_append.mp hcall with hcall | hcall
    · exact h.lengths call hcall
    · exact hlengths call hcall
  sizes := by
    intro call hcall
    rw [hcalls] at hcall
    rcases List.mem_append.mp hcall with hcall | hcall
    · exact h.sizes call hcall
    · exact hsizes call hcall
  answers := by
    have hresponses : t'.responses = t.responses ++ new.flatMap (fun call => call.1.zip call.2) := by
      rw [responses, hcalls, List.flatMap_append]
      rfl
    rw [hanswers, h.answers, List.filterMap_append, hresponses]
    congr 1
    · refine List.filterMap_congr ?_
      intro req hreq
      rw [lookup_append_of_not_mem]
      rw [map_fst_responses hlengths, hgiven]
      intro hmem
      obtain ⟨other, hother, hlog⟩ := List.mem_map.mp (List.mem_filter.mp hmem).1
      exact hdisjoint other hother (hlog ▸ List.mem_map_of_mem hreq)
    · refine List.filterMap_congr ?_
      intro req hreq
      rw [lookup_append_of_not_mem_left (fun hmem => hdisjoint req hreq (h.mem_done hmem))]

theorem Handled.applySingle {done : List CommitTuple} {req : CommitTuple} (h : Handled fsm n done t)
    (hplain : fsm.batching = false) (hn : 1 ≤ n) (hnew : req.log ∉ done.map CommitTuple.log)
    (ha : t.applySingle fsm req = some t') : Handled fsm n (done ++ [req]) t' := by
  have hdisjoint : ∀ req' ∈ [req], req'.log ∉ done.map CommitTuple.log := by
    intro req' hreq'
    rw [List.mem_singleton.mp hreq']
    exact hnew
  -- without a call the response is nil
  have hquiet {t'' : FSMThread σ ρ} (hcalls : t''.calls = t.calls)
      (htakes : fsm.takes req.log = false)
      (hanswers : t''.answers = t.answers ++ req.future.toList.map (fun future => (future, none))) :
      Handled fsm n (done ++ [req]) t'' := by
    refine h.extend [] hdisjoint (by simp [hcalls]) (by simp [htakes]) (by simp) (by simp) ?_
    rw [hanswers]
    cases hf : req.future with
    | none => simp [hf]
    | some future => simp [hf]
  unfold FSMThread.applySingle at ha
  split at ha
  · rename_i htype
    cases ha
    refine h.extend [([req.log], [(fsm.apply t.state req.log).2])] hdisjoint rfl
      (by simp [FSM.takes, htype]) (by simp) (by simpa using hn) ?_
    cases hf : req.future with
    | none => simp [answer, setLast, hf]
    | some future => simp [answer, setLast, hf]
  · rename_i htype
    have htakes : fsm.takes req.log = false := by simp [FSM.takes, htype, hplain]
    split at ha
    · cases ha
      exact hquiet rfl htakes rfl
    · split at ha
      · simp at ha
      · cases ha
        exact hquiet rfl htakes rfl
  · rename_i hcommand hconfiguration
    cases ha
    refine hquiet rfl ?_ rfl
    unfold FSM.takes
    split
    · rename_i htype
      exact absurd htype hcommand
    · rename_i htype
      exact absurd htype hconfiguration
    · rfl

theorem Handled.foldlM {reqs done : List CommitTuple} (h : Handled fsm n done t)
    (hplain : fsm.batching = false) (hn : 1 ≤ n) (hnodup : ((done ++ reqs).map CommitTuple.log).Nodup)
    (ha : reqs.foldlM (FSMThread.applySingle fsm) t = some t') : Handled fsm n (done ++ reqs) t' := by
  induction reqs generalizing t done with
  | nil =>
    cases ha
    simpa using h
  | cons req rest ih =>
    rw [List.foldlM_cons] at ha
    obtain ⟨t₁, h₁, hrest⟩ := Option.bind_eq_some_iff.mp ha
    have hsplit : done ++ req :: rest = (done ++ [req]) ++ rest := by simp
    have hnew : req.log ∉ done.map CommitTuple.log := by
      rw [List.map_append, List.nodup_append] at hnodup
      intro hmem
      exact hnodup.2.2 _ hmem _ (by simp) rfl
    rw [hsplit] at hnodup ⊢
    exact ih (h.applySingle hplain hn hnew h₁) hnodup hrest

/-- The running counter of `applyBatch` finds the response of each log. -/
theorem answerBatch_eq {reqs : List CommitTuple} {resps : List ρ}
    (hnodup : (reqs.map CommitTuple.log).Nodup)
    (hlen : resps.length = ((reqs.map CommitTuple.log).filter shouldSend).length) :
    answerBatch reqs resps = reqs.filterMap (fun req => req.future.map (fun future =>
      (future, (((reqs.map CommitTuple.log).filter shouldSend).zip resps).lookup req.log))) := by
  induction reqs generalizing resps with
  | nil => rfl
  | cons req rest ih =>
    rw [List.map_cons, List.nodup_cons] at hnodup
    obtain ⟨hnew, hnodup⟩ := hnodup
    unfold answerBatch
    by_cases hsend : shouldSend req.log = true
    · rw [List.map_cons, List.filter_cons_of_pos hsend] at hlen ⊢
      cases resps with
      | nil => simp at hlen
      | cons resp resps =>
        rw [if_pos hsend, List.filterMap_cons, List.tail_cons, ih hnodup (by simpa using hlen)]
        have hrest : rest.filterMap (fun r => r.future.map (fun future => (future,
              ((req.log :: (rest.map CommitTuple.log).filter shouldSend).zip
                (resp :: resps)).lookup r.log))) =
            rest.filterMap (fun r => r.future.map (fun future => (future,
              (((rest.map CommitTuple.log).filter shouldSend).zip resps).lookup r.log))) := by
          refine List.filterMap_congr ?_
          intro r hr
          have hne : r.log ≠ req.log := fun heq => hnew (heq ▸ List.mem_map_of_mem hr)
          rw [List.zip_cons_cons, List.lookup_cons, beq_false_of_ne hne]
        rw [hrest]
        cases req.future with
        | none => rfl
        | some future => simp
    · rw [List.map_cons, List.filter_cons_of_neg hsend] at hlen ⊢
      have hnone : (((rest.map CommitTuple.log).filter shouldSend).zip resps).lookup req.log = none := by
        rw [List.lookup_eq_none_iff]
        intro p hp
        simp only [bne_iff_ne, ne_eq]
        intro heq
        have hmem := List.of_mem_zip hp
        exact hnew (heq ▸ (List.mem_filter.mp hmem.1).1)
      rw [if_neg hsend, List.filterMap_cons, ih hnodup hlen]
      cases req.future with
      | none => rfl
      | some future => simp [hnone]

theorem takes_eq_shouldSend (hbatching : fsm.batching = true) : fsm.takes = shouldSend := by
  funext l
  unfold FSM.takes shouldSend
  cases l.type <;> simp [hbatching]

theorem Handled.applyBatch {done reqs : List CommitTuple} (h : Handled fsm n done t)
    (hn : 1 ≤ n) (hreqsn : reqs.length ≤ n) (hnodup : ((done ++ reqs).map CommitTuple.log).Nodup)
    (ha : t.applyBatch fsm reqs = some t') : Handled fsm n (done ++ reqs) t' := by
  unfold FSMThread.applyBatch at ha
  split at ha
  · rename_i hplain
    exact h.foldlM hplain hn hnodup ha
  · rename_i hbatching
    have htakes : fsm.takes = shouldSend := takes_eq_shouldSend (by simpa using hbatching)
    rw [List.map_append, List.nodup_append] at hnodup
    obtain ⟨_, hreqs, hdisjoint⟩ := hnodup
    have hdisjoint : ∀ req ∈ reqs, req.log ∉ done.map CommitTuple.log := by
      intro req hreq hmem
      exact hdisjoint _ hmem _ (List.mem_map_of_mem hreq) rfl
    dsimp only at ha
    by_cases hempty : (reqs.map CommitTuple.log).filter shouldSend = []
    · simp only [hempty, if_true, List.length_nil, ne_eq, not_true_eq_false, if_false,
        Option.some.injEq] at ha
      subst ha
      refine h.extend [] hdisjoint (by simp) (by simp [htakes, hempty]) (by simp) (by simp) ?_
      rw [answerBatch_eq hreqs (by simp [hempty]), hempty]
      simp
    · have hlen := fsm.length_applyBatch t.state ((reqs.map CommitTuple.log).filter shouldSend)
      simp only [hempty, if_false, hlen, ne_eq, not_true_eq_false, Option.some.injEq] at ha
      subst ha
      refine h.extend
        [((reqs.map CommitTuple.log).filter shouldSend,
          (fsm.applyBatch t.state ((reqs.map CommitTuple.log).filter shouldSend)).2)]
        hdisjoint rfl (by simp [htakes]) (by simpa using hlen) ?_ ?_
      · intro call hcall
        rw [List.mem_singleton.mp hcall]
        refine (List.length_filter_le _ _).trans ?_
        rwa [List.length_map]
      rw [answerBatch_eq hreqs hlen]
      simp

end FSMThread

end PerfRaft
