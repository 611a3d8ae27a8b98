import PerfRaft.Proofs.Batches

namespace PerfRaft

/-- The entries the FSM is to be given: the commands, and for a batching FSM under
protocol version 3 the configurations. -/
def FSM.delivers {σ ρ : Type} (fsm : FSM σ ρ) (conf : Config) (l : Log) : Bool :=
  match l.type with
  | .logCommand => true
  | .logConfiguration => fsm.batching && decide (2 < conf.protocolVersion)
  | _ => false

namespace FSMRun

variable {σ ρ : Type} {fsm : FSM σ ρ} {s s' : FSMRun σ ρ}

/-- The calls of `processLogs` that are made: the log store holds every entry above
`lastApplied` up to the index, and the futures of the map carry those entries. -/
def Given (s : FSMRun σ ρ) : FSMAction → Prop
  | .processLogs logs index futures =>
    (∀ idx ∈ indexes s.raft.lastApplied index, (logs.getLog idx).isSome) ∧
    (futures.map (fun f => f.log.index)).Nodup ∧
    ∀ f ∈ futures, f.log.index ∈ indexes s.raft.lastApplied index →
      logs.getLog f.log.index = some f.log
  | _ => True

instance (s : FSMRun σ ρ) (a : FSMAction) : Decidable (s.Given a) :=
  match a with
  | .processLogs logs index futures =>
    inferInstanceAs (Decidable
      ((∀ idx ∈ indexes s.raft.lastApplied index, (logs.getLog idx).isSome) ∧
      (futures.map (fun f => f.log.index)).Nodup ∧
      ∀ f ∈ futures, f.log.index ∈ indexes s.raft.lastApplied index →
        logs.getLog f.log.index = some f.log))
  | .restore _ => .isTrue trivial
  | .take => .isTrue trivial

/-- The tuples on their way to the FSM thread. -/
def queued (s : FSMRun σ ρ) : List CommitTuple := s.fsmMutateCh.flatMap Mutation.tuples

/-- The invariant behind it: `done` are the tuples the FSM thread has handled, and
`own` the futures `processLogs` has answered. -/
structure Accounted (fsm : FSM σ ρ) (s : FSMRun σ ρ) (done : List CommitTuple)
    (own : List (Nat × Log)) : Prop where
  positive : 1 ≤ s.raft.conf.maxAppendEntries
  applied : s.raft.lastApplied = s.highest
  base : s.base ≤ s.highest
  processed : s.processed.map Log.index = indexes s.base s.highest
  handled : s.thread.Handled fsm s.raft.conf.maxAppendEntries done
  tuples : (done ++ s.queued).map CommitTuple.log = s.processed.filter s.raft.conf.prepares
  responded : own.map Prod.fst = s.responded
  unprepared : ∀ p ∈ own, s.raft.conf.prepares p.2 = false
  owners : ((done ++ s.queued).filterMap (fun t => t.future.map (fun id => (id, t.log))) ++ own).Perm
    (s.handed.map (fun f => (f.id, f.log)))
  batches : ∀ reqs, .batch reqs ∈ s.fsmMutateCh → reqs.length ≤ s.raft.conf.maxAppendEntries
  channel : ∀ snapshot rest front, s.fsmMutateCh = front ++ .restore snapshot :: rest →
    rest = [] ∧ s.waiting = true

theorem indexes_append {a b c : Nat} (hab : a ≤ b) (hbc : b ≤ c) :
    indexes a b ++ indexes b c = indexes a c := by
  unfold indexes
  have hb : b + 1 = (a + 1) + (b - a) := by omega
  have hc : c - a = (b - a) + (c - b) := by omega
  rw [hc, hb, List.range'_append_1]

theorem indexes_eq_nil {a b : Nat} (h : b ≤ a) : indexes a b = [] := by
  simp [indexes, Nat.sub_eq_zero_of_le h]

theorem map_index_filterMap {logs : LogStore} {idxs : List Nat}
    (h : ∀ idx ∈ idxs, (logs.getLog idx).isSome) :
    (idxs.filterMap logs.getLog).map Log.index = idxs := by
  induction idxs with
  | nil => rfl
  | cons idx rest ih =>
    obtain ⟨l, hl⟩ := Option.isSome_iff_exists.mp (h idx (by simp))
    rw [List.filterMap_cons, hl, List.map_cons, LogStore.index_of_getLog hl,
      ih (fun i hi => h i (List.mem_cons_of_mem _ hi))]

theorem map_log_preparedAt (r : Raft) (futures : List LogFuture) (idxs : List Nat) :
    (idxs.filterMap (r.preparedAt futures)).map CommitTuple.log =
      (idxs.filterMap r.logs.getLog).filter r.conf.prepares := by
  rw [List.map_filterMap, List.filter_filterMap]
  refine List.filterMap_congr ?_
  intro idx _
  unfold Raft.preparedAt
  cases r.logs.getLog idx with
  | none => rfl
  | some l =>
    simp only [Option.bind_some, prepareLog_eq, Option.filter_some]
    split <;> rfl

theorem queued_append_batches (s : FSMRun σ ρ) (batches : List (List CommitTuple)) :
    (s.fsmMutateCh ++ batches.map Mutation.batch).flatMap Mutation.tuples =
      s.queued ++ batches.flatten := by
  rw [List.flatMap_append, List.flatMap_map]
  congr 1
  exact List.flatMap_id'

/-- A call of `processLogs` with nothing to apply changes nothing that matters. -/
theorem processLogs_old {logs : LogStore} {index : Nat} {futures : List LogFuture}
    (happlied : s.raft.lastApplied = s.highest) (hle : index ≤ s.highest)
    (h : (s.processLogs logs index futures).map (fun p => p.1.record logs index futures p.2) = some s') :
    s' = { s with raft := { s.raft with logs := logs } } := by
  unfold processLogs Raft.processLogs at h
  simp only [if_pos (happlied ▸ hle : index ≤ s.raft.lastApplied), Bool.false_eq_true, if_false,
    Option.map_some, Option.some.injEq, record] at h
  rw [← h, indexes_eq_nil hle, Nat.max_eq_left hle]
  have hnone : futures.filter (fun f => decide (s.highest < f.log.index) &&
      decide (f.log.index ≤ index)) = [] := by
    rw [List.filter_eq_nil_iff]
    intro f _
    simp only [Bool.and_eq_true, decide_eq_true_eq]
    omega
  rw [hnone]
  simp

/-- What a call of `processLogs` sends to the FSM thread and answers itself. -/
theorem processLogs_new {logs : LogStore} {index : Nat} {futures : List LogFuture}
    (hpos : 1 ≤ s.raft.conf.maxAppendEntries) (happlied : s.raft.lastApplied = s.highest)
    (hgt : ¬ index ≤ s.highest) (hgiven : s.Given (.processLogs logs index futures))
    (h : (s.processLogs logs index futures).map (fun p => p.1.record logs index futures p.2) = some s') :
    ∃ (batches : List (List CommitTuple)) (own : List (Nat × Log)),
      s' =
        { s with
          raft := { s.raft with logs := logs, lastApplied := index }
          fsmMutateCh := s.fsmMutateCh ++ batches.map .batch
          highest := index
          processed := s.processed ++ (indexes s.highest index).filterMap logs.getLog
          handed := s.handed ++ futures.filter
            (fun f => decide (s.highest < f.log.index) && decide (f.log.index ≤ index))
          responded := s.responded ++ own.map Prod.fst } ∧
      batches.flatten.map CommitTuple.log =
        ((indexes s.highest index).filterMap logs.getLog).filter s.raft.conf.prepares ∧
      (∀ b ∈ batches, b.length ≤ s.raft.conf.maxAppendEntries) ∧
      (∀ p ∈ own, s.raft.conf.prepares p.2 = false) ∧
      (batches.flatten.filterMap (fun t => t.future.map (fun id => (id, t.log))) ++ own).Perm
        ((futures.filter (fun f => decide (s.highest < f.log.index) &&
          decide (f.log.index ≤ index))).map (fun f => (f.id, f.log))) := by
  obtain ⟨hentries, hnodup, hfutures⟩ := hgiven
  rw [← happlied] at hgt ⊢
  have hholds : Raft.Holds logs futures (indexes s.raft.lastApplied index) := by
    intro idx hidx
    obtain ⟨l, hl⟩ := Option.isSome_iff_exists.mp (hentries idx hidx)
    refine ⟨l, hl, ?_⟩
    intro f hf
    obtain ⟨hmem, rfl⟩ := (Raft.futureAt_eq_some hnodup).mp hf
    exact Option.some.inj ((hfutures f hmem hidx).symm.trans hl)
  unfold processLogs Raft.processLogs at h
  simp only [if_neg hgt] at h
  generalize hr : { s.raft with logs := logs } = r at h
  have hlogs : r.logs = logs := by rw [← hr]
  have hconf : r.conf = s.raft.conf := by rw [← hr]
  rw [← hlogs] at hholds
  rw [← hconf] at hpos
  obtain ⟨hpanic, hflat, hresp⟩ := Raft.processLoop_flatten hholds []
  have hlen : ∀ b ∈ (r.processLoop futures (indexes s.raft.lastApplied index) []).batches,
      b.length ≤ r.conf.maxAppendEntries := Raft.length_processLoop [] hpos
  change (r.processLoop futures (List.range' _ _) []).panicked = false at hpanic
  simp only [hpanic, Bool.false_eq_true, if_false, Option.map_some, Option.some.injEq, record,
    ← happlied, Nat.max_eq_right (Nat.le_of_not_le hgt)] at h
  refine ⟨_, ((indexes s.raft.lastApplied index).filterMap (r.respondedAt futures)).map
    (fun f => (f.id, f.log)), ?_, ?_, hconf ▸ hlen, ?_, ?_⟩
  · rw [← h, List.map_map]
    subst hr
    congr 1
    exact congrArg (s.responded ++ ·) hresp
  · rw [hflat, List.nil_append, map_log_preparedAt, hlogs, hconf]
  · intro p hp
    obtain ⟨f, hf, rfl⟩ := List.mem_map.mp hp
    obtain ⟨idx, hidx, hf⟩ := List.mem_filterMap.mp hf
    exact hconf ▸ Raft.prepares_of_respondedAt hholds hidx hf
  · rw [hflat, List.nil_append]
    exact (Raft.perm_owners hholds).trans ((Raft.perm_futuresAt hnodup).map _)

/-- Taking the middle part of a permutation apart. -/
theorem perm_owners_append {α : Type} {a b c d x y : List α} (h₁ : (a ++ b).Perm x)
    (h₂ : (c ++ d).Perm y) : (a ++ c ++ (b ++ d)).Perm (x ++ y) := by
  refine List.Perm.trans ?_ (h₁.append h₂)
  simp only [List.append_assoc]
  refine List.Perm.append_left a ?_
  simp only [← List.append_assoc]
  exact (List.perm_append_comm).append_right d

variable {own : List (Nat × Log)} {done : List CommitTuple}

theorem Accounted.processLogs
    (h : Accounted fsm s done own) {logs : LogStore} {index : Nat} {futures : List LogFuture}
    (hgiven : s.Given (.processLogs logs index futures)) (hwait : s.waiting = false)
    (hs : (s.processLogs logs index futures).map (fun p => p.1.record logs index futures p.2) = some s') :
    ∃ own', Accounted fsm s' done own' := by
  by_cases hle : index ≤ s.highest
  · rw [processLogs_old h.applied hle hs]
    exact ⟨own, { h with }⟩
  · obtain ⟨batches, own', rfl, htuples, hsizes, hunprepared, howners⟩ :=
      processLogs_new h.positive h.applied hle hgiven hs
    have hqueued := queued_append_batches s batches
    refine ⟨own ++ own', ?_⟩
    constructor
    case positive => exact h.positive
    case applied => rfl
    case base => exact h.base.trans (Nat.le_of_not_le hle)
    case processed =>
      rw [List.map_append, h.processed, map_index_filterMap (h.applied ▸ hgiven.1)]
      exact indexes_append h.base (Nat.le_of_not_le hle)
    case handled => exact h.handled
    case tuples =>
      rw [queued, hqueued, ← List.append_assoc, List.map_append, h.tuples, htuples,
        List.filter_append]
    case responded => rw [List.map_append, h.responded]
    case unprepared =>
      intro p hp
      rcases List.mem_append.mp hp with hp | hp
      · exact h.unprepared p hp
      · exact hunprepared p hp
    case owners =>
      rw [queued, hqueued, ← List.append_assoc done, List.filterMap_append, List.map_append]
      exact perm_owners_append h.owners howners
    case batches =>
      intro reqs hreqs
      rcases List.mem_append.mp hreqs with hreqs | hreqs
      · exact h.batches reqs hreqs
      · obtain ⟨b, hb, hbatch⟩ := List.mem_map.mp hreqs
        cases hbatch
        exact hsizes reqs hb
    case channel =>
      intro snapshot rest front hch
      have hmem : .restore snapshot ∈ s.fsmMutateCh ++ batches.map .batch :=
        (show s.fsmMutateCh ++ batches.map .batch = _ from hch) ▸ by simp
      rcases List.mem_append.mp hmem with hmem | hmem
      · obtain ⟨front', rest', hsplit⟩ := List.append_of_mem hmem
        have hwait' := (h.channel snapshot rest' front' hsplit).2
        rw [hwait] at hwait'
        exact absurd hwait' (by simp)
      · simp at hmem

theorem Accounted.take {done reqs : List CommitTuple}
    {rest : List Mutation} {t : FSMThread σ ρ} (h : Accounted fsm s done own)
    (hch : s.fsmMutateCh = .batch reqs :: rest) (ht : s.thread.applyBatch fsm reqs = some t) :
    Accounted fsm { s with thread := t, fsmMutateCh := rest } (done ++ reqs) own := by
  have hqueued : done ++ s.queued = (done ++ reqs) ++ rest.flatMap Mutation.tuples := by
    rw [queued, hch, List.flatMap_cons, List.append_assoc]
    rfl
  have hnodup : ((done ++ s.queued).map CommitTuple.log).Nodup := by
    rw [h.tuples]
    refine List.Nodup.filter _ (List.Nodup.of_map Log.index ?_)
    rw [h.processed]
    exact List.nodup_range'
  have hlogs := h.tuples
  have howners := h.owners
  rw [hqueued] at hnodup hlogs howners
  constructor
  case positive => exact h.positive
  case applied => exact h.applied
  case base => exact h.base
  case processed => exact h.processed
  case handled =>
    refine h.handled.applyBatch h.positive (h.batches reqs (by simp [hch])) ?_ ht
    rw [List.map_append] at hnodup
    exact (List.nodup_append.mp hnodup).1
  case tuples => exact hlogs
  case responded => exact h.responded
  case unprepared => exact h.unprepared
  case owners => exact howners
  case batches =>
    intro reqs' hreqs'
    exact h.batches reqs' (by rw [hch]; exact List.mem_cons_of_mem _ hreqs')
  case channel =>
    intro snapshot rest' front hrest
    have hrest : rest = front ++ .restore snapshot :: rest' := hrest
    exact h.channel snapshot rest' (.batch reqs :: front) (by rw [hch, hrest]; rfl)

/-- When the FSM thread comes to a restore, everything before it has been handled. -/
theorem Accounted.restored {snapshot : Snapshot}
    {rest : List Mutation} (h : Accounted fsm s done own)
    (hch : s.fsmMutateCh = .restore snapshot :: rest) :
    ∃ done' own', Accounted fsm (if (s.restored fsm snapshot rest).2 then
      (s.restored fsm snapshot rest).1.rebase snapshot.metadata.index
      else (s.restored fsm snapshot rest).1) done' own' := by
  obtain ⟨rfl, _⟩ := h.channel snapshot rest [] hch
  have hqueued : s.queued = [] := by rw [queued, hch]; rfl
  unfold FSMRun.restored FSMThread.restore
  by_cases hok : (fsm.restore s.thread.state snapshot.contents).2 = true
  · simp only [hok, if_true]
    refine ⟨[], [], ?_⟩
    constructor
    case positive => exact h.positive
    case applied => rfl
    case base => exact le_refl _
    case processed => simp [indexes, rebase]
    case handled => exact ⟨rfl, by simp [rebase], by simp [rebase], rfl⟩
    case tuples => rfl
    case responded => rfl
    case unprepared => simp
    case owners => exact .refl _
    case batches => simp [rebase]
    case channel => simp [rebase]
  · simp only [hok, Bool.false_eq_true, if_false]
    have htuples := h.tuples
    have howners := h.owners
    rw [hqueued] at htuples howners
    exact ⟨done, own,
      { h with
        handled := ⟨h.handled.given, h.handled.lengths, h.handled.sizes, h.handled.answers⟩
        tuples := htuples
        owners := howners
        batches := by simp
        channel := by simp }⟩

theorem Accounted.sendRestore
    (h : Accounted fsm s done own) (hwait : s.waiting = false) (snapshot : Snapshot) :
    Accounted fsm { s with fsmMutateCh := s.fsmMutateCh ++ [.restore snapshot], waiting := true }
      done own := by
  have hqueued : (s.fsmMutateCh ++ [Mutation.restore snapshot]).flatMap Mutation.tuples =
      s.queued := by
    simp [queued, Mutation.tuples]
  have hno : ∀ snapshot', .restore snapshot' ∉ s.fsmMutateCh := by
    intro snapshot' hmem
    obtain ⟨front, rest, hsplit⟩ := List.append_of_mem hmem
    have hwait' := (h.channel snapshot' rest front hsplit).2
    rw [hwait] at hwait'
    exact absurd hwait' (by simp)
  constructor
  case positive => exact h.positive
  case applied => exact h.applied
  case base => exact h.base
  case processed => exact h.processed
  case handled => exact h.handled
  case tuples => rw [queued, hqueued, h.tuples]
  case responded => exact h.responded
  case unprepared => exact h.unprepared
  case owners =>
    rw [queued, hqueued]
    exact h.owners
  case batches =>
    intro reqs hreqs
    exact h.batches reqs (by simpa using hreqs)
  case channel =>
    intro snapshot' rest front hch
    have hch : s.fsmMutateCh ++ [.restore snapshot] = front ++ .restore snapshot' :: rest := hch
    refine ⟨?_, rfl⟩
    rcases List.append_eq_append_iff.mp hch with ⟨front', hfront, hrest⟩ | ⟨mid, hmid, hrest⟩
    · cases front' with
      | nil => exact (List.cons.inj hrest).2.symm
      | cons m front' => simp at hrest
    · cases mid with
      | nil => exact (List.cons.inj hrest).2
      | cons m mid =>
        obtain ⟨rfl, _⟩ := List.cons.inj hrest
        exact absurd (by simp [hmid]) (hno snapshot')

theorem Accounted.step {a : FSMAction}
    (h : Accounted fsm s done own) (hgiven : s.Given a) (hs : step fsm s a = some s') :
    ∃ done' own', Accounted fsm s' done' own' := by
  cases a with
  | processLogs logs index futures =>
    simp only [FSMRun.step] at hs
    split at hs
    · simp at hs
    · rename_i hwait
      exact ⟨done, h.processLogs hgiven (by simpa using hwait) hs⟩
  | restore snapshot =>
    simp only [FSMRun.step] at hs
    split at hs
    · simp at hs
    · rename_i hwait
      cases hs
      exact ⟨done, own, h.sendRestore (by simpa using hwait) snapshot⟩
  | take =>
    simp only [FSMRun.step] at hs
    split at hs
    · simp at hs
    · rename_i reqs rest hch
      obtain ⟨t, ht, rfl⟩ := Option.map_eq_some_iff.mp hs
      exact ⟨done ++ reqs, own, h.take hch ht⟩
    · rename_i snapshot rest hch
      cases hs
      exact h.restored hch

/-- Entries that are not prepared have no response. -/
theorem Accounted.lookup_unprepared
    (h : Accounted fsm s done own) {p : Nat × Log} (hp : p ∈ own) :
    s.thread.responses.lookup p.2 = none := by
  rw [List.lookup_eq_none_iff]
  intro q hq
  simp only [bne_iff_ne, ne_eq]
  intro heq
  have hdone := h.handled.mem_done (List.mem_map_of_mem hq)
  have hprepared : q.1 ∈ s.processed.filter s.raft.conf.prepares := by
    rw [← h.tuples, List.map_append]
    exact List.mem_append_left _ hdone
  have htrue := (List.mem_filter.mp hprepared).2
  rw [← heq, h.unprepared p hp] at htrue
  simp at htrue

theorem Accounted.truthful
    (h : Accounted fsm s done own) (hqueued : s.queued = []) :
    (s.thread.answers ++ s.responded.map (fun future => (future, none))).Perm
      (s.handed.map (fun f : LogFuture => (f.id, s.thread.responses.lookup f.log))) := by
  have howners := (h.owners.map (fun p => (p.1, s.thread.responses.lookup p.2)))
  rw [hqueued, List.append_nil, List.map_append, List.map_map] at howners
  refine List.Perm.trans (.of_eq ?_) howners
  congr 1
  · rw [h.handled.answers, List.map_filterMap]
    refine List.filterMap_congr ?_
    intro t _
    cases t.future with
    | none => rfl
    | some future => rfl
  · rw [← h.responded, List.map_map]
    refine List.map_congr_left ?_
    intro p hp
    simp [h.lookup_unprepared hp]

theorem Accounted.answered
    (h : Accounted fsm s done own) :
    (s.thread.answers.map Prod.fst ++ s.responded ++ s.queued.filterMap CommitTuple.future).Perm
      (s.handed.map LogFuture.id) := by
  have howners := h.owners.map Prod.fst
  rw [List.map_append, List.filterMap_append, List.map_append, h.responded, List.map_map] at howners
  refine List.Perm.trans ?_ howners
  have hanswers : s.thread.answers.map Prod.fst =
      (done.filterMap (fun t => t.future.map (fun id => (id, t.log)))).map Prod.fst := by
    rw [h.handled.answers, List.map_filterMap, List.map_filterMap]
    refine List.filterMap_congr ?_
    intro t _
    cases t.future with
    | none => rfl
    | some future => rfl
  have hqueued : s.queued.filterMap CommitTuple.future =
      (s.queued.filterMap (fun t => t.future.map (fun id => (id, t.log)))).map Prod.fst := by
    rw [List.map_filterMap]
    refine List.filterMap_congr ?_
    intro t _
    cases t.future with
    | none => rfl
    | some future => rfl
  rw [hanswers, hqueued, List.append_assoc, List.append_assoc]
  exact (List.perm_append_comm).append_left _

/-- A batching FSM that counts what it is given. -/
def tally : FSM Nat Nat where
  batching := true
  apply n _ := (n + 1, n + 1)
  applyBatch n logs := (n + logs.length, List.range' (n + 1) logs.length)
  storeConfiguration n _ _ := n
  restore _ contents := (contents.length, true)
  persist n := List.replicate n 0
  length_applyBatch n logs := by simp

end FSMRun

end PerfRaft
