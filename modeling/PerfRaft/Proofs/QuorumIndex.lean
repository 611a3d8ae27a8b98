import Mathlib.Order.Bounds.Defs
import PerfRaft.Proofs.Commitments
import PerfRaft.Proofs.Majority

namespace PerfRaft

open Lib

/-- The calls on a commitment; `drain` is the leader's read of `commitCh`. -/
inductive CommitmentCall where
  | matchServer (server : ServerID) (index : Nat)
  | setConfiguration (configuration : Configuration)
  | drain

namespace Commitment

variable {c : Commitment} {start configuration : Configuration} {startIndex : Nat}
  {calls : List CommitmentCall} {server : ServerID}

def call (c : Commitment) : CommitmentCall → Commitment
  | .matchServer server index => c.matchServer server index
  | .setConfiguration configuration => c.setConfiguration configuration
  | .drain => { c with commitCh := false }

/-- A commitment after calls, the newest first. -/
def after (start : Configuration) (startIndex : Nat) : List CommitmentCall → Commitment
  | [] => newCommitment start startIndex
  | call :: calls => (after start startIndex calls).call call

/-- The configuration set last. -/
def current (start : Configuration) : List CommitmentCall → Configuration
  | [] => start
  | .setConfiguration configuration :: _ => configuration
  | _ :: calls => current start calls

/-- The commit index when the channel was last drained. -/
def drainedAt (start : Configuration) (startIndex : Nat) : List CommitmentCall → Nat
  | [] => 0
  | .drain :: calls => (after start startIndex calls).commitIndex
  | _ :: calls => drainedAt start startIndex calls

/-- An index was reported for a server that was a voter then and has been one ever
since. -/
inductive Reported (start : Configuration) (server : ServerID) : List CommitmentCall → Nat → Prop
  | now {calls : List CommitmentCall} {index : Nat} (hvoter : server ∈ (current start calls).voterIDs) :
      Reported start server (.matchServer server index :: calls) index
  | since {calls : List CommitmentCall} {index : Nat} {call : CommitmentCall}
      (hreported : Reported start server calls index)
      (hvoter : server ∈ (current start (call :: calls)).voterIDs) :
      Reported start server (call :: calls) index

theorem Reported.voter {index : Nat} (h : Reported start server calls index) :
    server ∈ (current start calls).voterIDs := by
  cases h with
  | now hvoter => exact hvoter
  | since _ hvoter => exact hvoter

/-- The calls set configurations that pass the check. -/
def Valid (calls : List CommitmentCall) : Prop :=
  ∀ configuration, .setConfiguration configuration ∈ calls → checkConfiguration configuration = .ok ()

theorem Valid.tail {call : CommitmentCall} (h : Valid (call :: calls)) : Valid calls :=
  fun c hc => h c (List.mem_cons_of_mem _ hc)

theorem valid_current (hstart : checkConfiguration start = .ok ()) (h : Valid calls) :
    (current start calls).Checked := by
  induction calls with
  | nil => exact checked_of_checkConfiguration hstart
  | cons call calls ih =>
    cases call with
    | setConfiguration configuration =>
      exact checked_of_checkConfiguration (h configuration List.mem_cons_self)
    | matchServer | drain => exact ih h.tail

/-- No higher index is matched by as many as `quorumMatchIndex` needs. -/
theorem quorum_count_lt (values : List Nat) (hne : values ≠ []) {q : Nat}
    (hq : (values.insertionSort (· ≤ ·)).getD ((values.length - 1) / 2) 0 < q) :
    values.countP (fun v => decide (q ≤ v)) < values.length / 2 + 1 := by
  have hpos := List.length_pos_of_ne_nil hne
  generalize hj : (values.length - 1) / 2 = j at hq
  have hperm := List.perm_insertionSort (· ≤ ·) values
  have hsorted := List.pairwise_insertionSort (· ≤ ·) values
  rw [← hperm.countP_eq]
  have hlength := hperm.length_eq
  generalize values.insertionSort (· ≤ ·) = sorted at *
  have hlt : j < sorted.length := by omega
  rw [List.getD_eq_getElem _ _ hlt] at hq
  -- the entries up to position `j` are below `q`
  have hlow : (sorted.take (j + 1)).countP (fun v => decide (q ≤ v)) = 0 := by
    rw [List.countP_eq_zero]
    intro v hv
    obtain ⟨i, hi, rfl⟩ := List.getElem_of_mem hv
    rw [List.getElem_take]
    rw [List.length_take] at hi
    have hle : sorted[i] ≤ sorted[j] := by
      rcases Nat.lt_or_ge i j with hij | hij
      · exact List.pairwise_iff_getElem.mp hsorted i j (by omega) hlt hij
      · have : i = j := by omega
        subst this
        exact Nat.le_refl _
    simpa using Nat.lt_of_le_of_lt hle hq
  have hhigh := List.countP_le_length (p := fun v => decide (q ≤ v)) (l := sorted.drop (j + 1))
  calc sorted.countP (fun v => decide (q ≤ v))
      = (sorted.take (j + 1)).countP (fun v => decide (q ≤ v)) +
        (sorted.drop (j + 1)).countP (fun v => decide (q ≤ v)) := by
        rw [← List.countP_append, List.take_append_drop]
    _ < values.length / 2 + 1 := by
        rw [hlow]
        rw [List.length_drop] at hhigh
        omega

theorem lookup_of_mem {entries : List (ServerID × Nat)} (hnodup : (entries.map Prod.fst).Nodup)
    {k : ServerID} {v : Nat} (h : (k, v) ∈ entries) : entries.lookup k = some v := by
  induction entries with
  | nil => simp at h
  | cons entry entries ih =>
    obtain ⟨k', v'⟩ := entry
    rw [List.map_cons, List.nodup_cons] at hnodup
    rcases List.mem_cons.mp h with heq | hmem
    · cases heq
      rw [List.lookup_cons, beq_self_eq_true]
    · have hne : k ≠ k' := by
        intro heq
        subst heq
        exact hnodup.1 (List.mem_map.mpr ⟨(k, v), hmem, rfl⟩)
      rw [List.lookup_cons, beq_false_of_ne hne]
      exact ih hnodup.2 hmem

/-- The voters that have matched an index are counted in `matchIndexes`. -/
theorem countP_voters {U : List ServerID} (hU : U.Nodup) (hkeys : c.matchIndexes.map Prod.fst = U)
    (q : Nat) :
    U.countP (fun id => decide (q ≤ (c.matchIndex id).getD 0)) =
      (c.matchIndexes.map Prod.snd).countP (fun v => decide (q ≤ v)) := by
  rw [← hkeys, List.countP_map, List.countP_map]
  apply List.countP_congr
  intro p hp
  simp [matchIndex, lookup_of_mem (hkeys ▸ hU) hp]

/-- `quorumMatchIndex` is the highest index matched by a quorum of the voters. -/
theorem quorumMatchIndex_isGreatest {U : List ServerID} (hU : U.Nodup) (hne : U ≠ [])
    (hkeys : c.matchIndexes.map Prod.fst = U) :
    IsGreatest {q | U.length / 2 + 1 ≤ U.countP (fun id => decide (q ≤ (c.matchIndex id).getD 0))}
      c.quorumMatchIndex := by
  have hlength : (c.matchIndexes.map Prod.snd).length = U.length := by
    rw [← hkeys, List.length_map, List.length_map]
  have hvalues : c.matchIndexes.map Prod.snd ≠ [] := by
    intro hnil
    rw [hnil] at hlength
    exact hne (List.length_eq_zero_iff.mp hlength.symm)
  have hq : c.quorumMatchIndex = ((c.matchIndexes.map Prod.snd).insertionSort (· ≤ ·)).getD
      (((c.matchIndexes.map Prod.snd).length - 1) / 2) 0 := by
    unfold quorumMatchIndex
    dsimp only
    rw [List.length_insertionSort]
  have hpos := List.length_pos_of_ne_nil hne
  constructor
  · have hcount := quorum_count (c.matchIndexes.map Prod.snd)
    rw [← hq, hlength] at hcount
    rw [Set.mem_ofPred_eq, countP_voters hU hkeys]
    omega
  · intro q hcount
    rw [Set.mem_ofPred_eq, countP_voters hU hkeys] at hcount
    by_contra hlt
    have := quorum_count_lt _ hvalues (hq ▸ Nat.lt_of_not_ge hlt)
    omega

@[simp] theorem matchIndexes_recalculate (c : Commitment) :
    c.recalculate.matchIndexes = c.matchIndexes := by
  unfold recalculate
  split
  · rfl
  · split <;> rfl

theorem lookup_map_ids (f : ServerID → Nat) (ids : List ServerID) (server : ServerID) :
    (ids.map (fun id => (id, f id))).lookup server = if server ∈ ids then some (f server) else none := by
  induction ids with
  | nil => rfl
  | cons id ids ih =>
    rw [List.map_cons, List.lookup_cons, ih]
    by_cases heq : server = id
    · simp [heq]
    · simp [heq, beq_false_of_ne heq]

theorem matchIndex_newCommitment (start : Configuration) (startIndex : Nat) (server : ServerID) :
    (newCommitment start startIndex).matchIndex server =
      if server ∈ start.voterIDs then some 0 else none := by
  simp only [newCommitment, matchIndex, lookup_map_ids (fun _ => 0), List.mem_dedup]

/-- A server that stays a voter keeps its match index; one that becomes a voter
starts at 0. -/
theorem matchIndex_setConfiguration (c : Commitment) (configuration : Configuration)
    (server : ServerID) :
    (c.setConfiguration configuration).matchIndex server =
      if server ∈ configuration.voterIDs then some ((c.matchIndex server).getD 0) else none := by
  simp only [setConfiguration, matchIndex, matchIndexes_recalculate,
    lookup_map_ids (fun id => (c.matchIndexes.lookup id).getD 0), List.mem_dedup]

theorem lookup_setMatchIndex (c : Commitment) (server x : ServerID) (index : Nat) :
    (c.setMatchIndex server index).matchIndex x =
      if x = server then (c.matchIndex x).map (fun _ => index) else c.matchIndex x := by
  unfold setMatchIndex matchIndex
  dsimp only
  induction c.matchIndexes with
  | nil => simp
  | cons entry entries ih =>
    obtain ⟨k, v⟩ := entry
    rw [List.map_cons]
    by_cases hk : k = server
    · rw [if_pos hk, List.lookup_cons, List.lookup_cons, ih]
      by_cases hx : x = k
      · simp [hx, hk]
      · simp [beq_false_of_ne hx]
    · rw [if_neg hk, List.lookup_cons, List.lookup_cons, ih]
      by_cases hx : x = k
      · simp [hx, hk]
      · simp [beq_false_of_ne hx]

/-- A report raises the match index of a voter, never lowers it, and does nothing
for a server that is none. -/
theorem matchIndex_matchServer (c : Commitment) (server x : ServerID) (index : Nat) :
    (c.matchServer server index).matchIndex x =
      if x = server then (c.matchIndex x).map (max index) else c.matchIndex x := by
  unfold matchServer
  by_cases hx : x = server
  · subst hx
    rw [if_pos rfl]
    cases hprev : c.matchIndex x with
    | none => exact hprev
    | some prev =>
      dsimp only
      split
      · rename_i hlt
        unfold matchIndex at hprev ⊢
        rw [matchIndexes_recalculate]
        refine (lookup_setMatchIndex c x x index).trans ?_
        simp [matchIndex, hprev, Nat.max_eq_left hlt.le]
      · rename_i hle
        rw [hprev, Option.map_some, Nat.max_eq_right (by omega)]
  · rw [if_neg hx]
    split
    · rfl
    · split
      · unfold matchIndex
        rw [matchIndexes_recalculate]
        refine (lookup_setMatchIndex c server x index).trans ?_
        rw [if_neg hx]
        rfl
      · rfl

/-- What a commitment has as the match index of a voter is the highest index
reported for it while it has been one. -/
theorem matchIndex_after (start : Configuration) (startIndex : Nat) (calls : List CommitmentCall)
    (server : ServerID) :
    (server ∉ (current start calls).voterIDs →
      (after start startIndex calls).matchIndex server = none) ∧
    (server ∈ (current start calls).voterIDs →
      ∃ m, (after start startIndex calls).matchIndex server = some m ∧
        IsGreatest (insert 0 {i | Reported start server calls i}) m) := by
  induction calls with
  | nil =>
    simp only [after, current, matchIndex_newCommitment]
    refine ⟨fun hnot => if_neg hnot, fun hvoter => ⟨0, if_pos hvoter, Set.mem_insert _ _, ?_⟩⟩
    rintro i (rfl | hi)
    · exact Nat.le_refl _
    · cases hi
  | cons call calls ih =>
    obtain ⟨hnone, hsome⟩ := ih
    -- a call that reports nothing for a voter keeps its reports
    have hkeep (m : Nat) (hvoter : server ∈ (current start (call :: calls)).voterIDs)
        (hm : IsGreatest (insert 0 {i | Reported start server calls i}) m)
        (hcall : ∀ index, call ≠ .matchServer server index) :
        IsGreatest (insert 0 {i | Reported start server (call :: calls) i}) m := by
      refine ⟨hm.1.imp_right (fun h => .since h hvoter), ?_⟩
      rintro i (rfl | hi)
      · exact Nat.zero_le _
      · cases hi with
        | now => exact absurd rfl (hcall i)
        | since hi => exact hm.2 (.inr hi)
    cases call with
    | setConfiguration configuration =>
      have hmatch := matchIndex_setConfiguration (after start startIndex calls) configuration server
      refine ⟨fun hnot => hmatch.trans (if_neg hnot), fun hvoter => ?_⟩
      have hmatch := hmatch.trans (if_pos hvoter)
      by_cases hbefore : server ∈ (current start calls).voterIDs
      · obtain ⟨m, hindex, hm⟩ := hsome hbefore
        exact ⟨m, by rw [hindex] at hmatch; exact hmatch, hkeep m hvoter hm nofun⟩
      · refine ⟨0, by rw [hnone hbefore] at hmatch; exact hmatch, Set.mem_insert _ _, ?_⟩
        rintro i (rfl | hi)
        · exact Nat.le_refl _
        · cases hi with
          | since hi => exact absurd hi.voter hbefore
    | matchServer reported index =>
      have hmatch := matchIndex_matchServer (after start startIndex calls) reported server index
      by_cases heq : server = reported
      · subst heq
        have hmatch := hmatch.trans (if_pos rfl)
        refine ⟨fun hnot => by rw [hnone hnot] at hmatch; exact hmatch, fun hvoter => ?_⟩
        obtain ⟨m, hindex, hm⟩ := hsome hvoter
        refine ⟨max index m, by rw [hindex] at hmatch; exact hmatch, ?_, ?_⟩
        · rcases Nat.le_total index m with hle | hle
          · rw [Nat.max_eq_right hle]
            exact hm.1.imp_right (fun h => .since h hvoter)
          · rw [Nat.max_eq_left hle]
            exact .inr (.now hvoter)
        · rintro i (rfl | hi)
          · exact Nat.zero_le _
          · cases hi with
            | now => exact Nat.le_max_left _ _
            | since hi => exact Nat.le_trans (hm.2 (.inr hi)) (Nat.le_max_right _ _)
      · have hmatch := hmatch.trans (if_neg heq)
        refine ⟨fun hnot => hmatch.trans (hnone hnot), fun hvoter => ?_⟩
        obtain ⟨m, hindex, hm⟩ := hsome hvoter
        refine ⟨m, hmatch.trans hindex, hkeep m hvoter hm ?_⟩
        intro index' hcall
        cases hcall
        exact heq rfl
    | drain => exact ⟨hnone, fun hvoter => (hsome hvoter).imp fun m hm =>
        ⟨hm.1, hkeep m hvoter hm.2 nofun⟩⟩

/-- The match indexes are those of the voters of the configuration set last. -/
theorem keys_after (startIndex : Nat) (hstart : checkConfiguration start = .ok ()) (hvalid : Valid calls) :
    (after start startIndex calls).matchIndexes.map Prod.fst = (current start calls).voterIDs := by
  induction calls with
  | nil =>
    simp only [after, current, newCommitment, List.map_map, Function.comp_def, List.map_id']
    exact (checked_of_checkConfiguration hstart).distinct.dedup
  | cons call calls ih =>
    have ih := ih hvalid.tail
    cases call with
    | matchServer server index =>
      refine Eq.trans ?_ ih
      simp only [after, Commitment.call]
      unfold matchServer
      split
      · rfl
      · split
        · simp only [matchIndexes_recalculate, setMatchIndex, List.map_map]
          refine List.map_congr_left (fun p _ => ?_)
          simp only [Function.comp_apply]
          split <;> rfl
        · rfl
    | setConfiguration configuration =>
      simp only [after, Commitment.call, setConfiguration, matchIndexes_recalculate, List.map_map,
        Function.comp_def, List.map_id']
      have hchecked := checked_of_checkConfiguration (hvalid configuration List.mem_cons_self)
      exact hchecked.distinct.dedup
    | drain => exact ih

/-- Nothing is left to commit: the quorum index is not above the commit index, or
below the start index. -/
def Settled (c : Commitment) : Prop :=
  ¬(c.commitIndex < c.quorumMatchIndex ∧ c.startIndex ≤ c.quorumMatchIndex)

/-- What `recalculate` does to the commit index, and that it notifies. -/
structure Advances (c c' : Commitment) : Prop where
  startIndex : c'.startIndex = c.startIndex
  commitIndex : c'.commitIndex =
    if c.commitIndex < c'.quorumMatchIndex ∧ c.startIndex ≤ c'.quorumMatchIndex then
      c'.quorumMatchIndex else c.commitIndex
  notified : c'.commitCh = true ∨ (c'.commitIndex = c.commitIndex ∧ c'.commitCh = c.commitCh)

theorem Advances.settled {c' : Commitment} (h : Advances c c') : c'.Settled := by
  have hcommit := h.commitIndex
  unfold Settled
  rw [h.startIndex]
  split at hcommit <;> omega

theorem Advances.le {c' : Commitment} (h : Advances c c') : c.commitIndex ≤ c'.commitIndex := by
  have hcommit := h.commitIndex
  split at hcommit <;> omega

theorem Settled.advances (h : c.Settled) : Advances c c :=
  ⟨rfl, by rw [if_neg h], .inr ⟨rfl, rfl⟩⟩

theorem advances_recalculate {matchIndexes : List (ServerID × Nat)} (hne : matchIndexes ≠ []) :
    Advances c ({ c with matchIndexes := matchIndexes } : Commitment).recalculate := by
  unfold recalculate
  rw [if_neg hne]
  by_cases hq : c.commitIndex < ({ c with matchIndexes := matchIndexes } : Commitment).quorumMatchIndex ∧
      c.startIndex ≤ ({ c with matchIndexes := matchIndexes } : Commitment).quorumMatchIndex
  · rw [if_pos hq]
    exact ⟨rfl, (if_pos hq).symm, .inl rfl⟩
  · rw [if_neg hq]
    exact ⟨rfl, (if_neg hq).symm, .inr ⟨rfl, rfl⟩⟩

theorem advances_call (hsettled : c.Settled) {call : CommitmentCall} (hcall : call ≠ .drain)
    (hne : (c.call call).matchIndexes ≠ []) : Advances c (c.call call) := by
  cases call with
  | matchServer server index =>
    simp only [Commitment.call] at hne ⊢
    unfold matchServer at hne ⊢
    split at hne
    · exact hsettled.advances
    · split at hne
      · rename_i hlt
        rw [matchIndexes_recalculate] at hne
        rw [if_pos hlt]
        exact advances_recalculate hne
      · rename_i hlt
        rw [if_neg hlt]
        exact hsettled.advances
  | setConfiguration configuration =>
    simp only [Commitment.call, setConfiguration, matchIndexes_recalculate] at hne ⊢
    exact advances_recalculate hne
  | drain => exact absurd rfl hcall

theorem matchIndexes_ne_nil (startIndex : Nat) (hstart : checkConfiguration start = .ok ()) (hvalid : Valid calls) :
    (after start startIndex calls).matchIndexes ≠ [] := by
  intro hnil
  have hkeys := keys_after startIndex hstart hvalid
  rw [hnil] at hkeys
  exact (valid_current hstart hvalid).voters (List.map_eq_nil_iff.mp hkeys.symm)

theorem settled_after (startIndex : Nat) (hstart : checkConfiguration start = .ok ()) (hvalid : Valid calls) :
    (after start startIndex calls).Settled := by
  induction calls with
  | nil =>
    -- at first nothing is matched
    rintro ⟨hpos, _⟩
    have hchecked := checked_of_checkConfiguration hstart
    have hgreatest := quorumMatchIndex_isGreatest hchecked.distinct
      (List.map_eq_nil_iff.not.mpr hchecked.voters)
      (keys_after startIndex hstart hvalid)
    have hcount := hgreatest.1
    have hnone : start.voterIDs.countP (fun id => decide ((after start startIndex []).quorumMatchIndex ≤
        ((after start startIndex []).matchIndex id).getD 0)) = 0 := by
      rw [List.countP_eq_zero]
      intro id hid
      simp only [after, matchIndex_newCommitment, if_pos hid, Option.getD_some, decide_eq_true_eq]
      exact Nat.not_le.mpr hpos
    rw [Set.mem_ofPred_eq, hnone] at hcount
    omega
  | cons call calls ih =>
    have ih := ih hvalid.tail
    by_cases hcall : call = .drain
    · subst hcall
      exact ih
    · exact (advances_call ih hcall (matchIndexes_ne_nil startIndex hstart hvalid)).settled

theorem advances_after (startIndex : Nat) (hstart : checkConfiguration start = .ok ())
    {call : CommitmentCall} (hvalid : Valid (call :: calls)) (hcall : call ≠ .drain) :
    Advances (after start startIndex calls) (after start startIndex (call :: calls)) :=
  advances_call (settled_after startIndex hstart hvalid.tail) hcall
    (matchIndexes_ne_nil startIndex hstart hvalid)

theorem startIndex_after (startIndex : Nat) (hstart : checkConfiguration start = .ok ()) (hvalid : Valid calls) :
    (after start startIndex calls).startIndex = startIndex := by
  induction calls with
  | nil => rfl
  | cons call calls ih =>
    by_cases hcall : call = .drain
    · subst hcall
      exact ih hvalid.tail
    · exact (advances_after startIndex hstart hvalid hcall).startIndex.trans (ih hvalid.tail)

/-- Whatever has been committed since the channel was drained has been announced. -/
theorem commitCh_after (hstart : checkConfiguration start = .ok ()) (hvalid : Valid calls)
    (hgrown : drainedAt start startIndex calls < (after start startIndex calls).commitIndex) :
    (after start startIndex calls).commitCh = true := by
  induction calls with
  | nil => simp [after, newCommitment, drainedAt] at hgrown
  | cons call calls ih =>
    by_cases hcall : call = .drain
    · subst hcall
      simp [after, drainedAt, Commitment.call] at hgrown
    · have hdrained : drainedAt start startIndex (call :: calls) = drainedAt start startIndex calls := by
        cases call with
        | drain => exact absurd rfl hcall
        | matchServer | setConfiguration => rfl
      rcases (advances_after startIndex hstart hvalid hcall).notified with hset | ⟨hindex, hch⟩
      · exact hset
      · rw [hdrained] at hgrown
        exact hch.trans (ih hvalid.tail (hindex ▸ hgrown))

/-- After any calls on a commitment, among configurations that pass the check: the
match index of a voter is the highest one reported since it became one, a server that
is no voter has none, and the channel holds a notification if the commit index has
grown since it was drained. The next call does not lower the commit index, and leaves
it at the highest index matched by a quorum of the voters, if that is an advance and
not before the start index. -/
theorem commitIndex_isQuorumIndex (start : Configuration) (startIndex : Nat)
    (hstart : checkConfiguration start = .ok ()) (calls : List CommitmentCall) (hvalid : Valid calls) :
    (∀ server ∈ (current start calls).voterIDs, ∃ m,
      (after start startIndex calls).matchIndex server = some m ∧
        IsGreatest (insert 0 {i | Reported start server calls i}) m) ∧
    (∀ server ∉ (current start calls).voterIDs,
      (after start startIndex calls).matchIndex server = none) ∧
    (drainedAt start startIndex calls < (after start startIndex calls).commitIndex →
      (after start startIndex calls).commitCh = true) ∧
    (∀ call, Valid (call :: calls) →
      (after start startIndex calls).commitIndex ≤ (after start startIndex (call :: calls)).commitIndex ∧
      (call ≠ .drain → ∃ q,
        IsGreatest {q | (current start (call :: calls)).quorumSize ≤
          (current start (call :: calls)).voterIDs.countP (fun server => decide
            (q ≤ ((after start startIndex (call :: calls)).matchIndex server).getD 0))} q ∧
        (after start startIndex (call :: calls)).commitIndex =
          if (after start startIndex calls).commitIndex < q ∧ startIndex ≤ q then q
          else (after start startIndex calls).commitIndex)) := by
  refine ⟨fun server => (matchIndex_after start startIndex calls server).2,
    fun server => (matchIndex_after start startIndex calls server).1, commitCh_after hstart hvalid, ?_⟩
  intro call hcalls
  by_cases hcall : call = .drain
  · subst hcall
    exact ⟨Nat.le_refl _, fun hne => absurd rfl hne⟩
  · have hadvance := advances_after startIndex hstart hcalls hcall
    have hchecked := valid_current hstart hcalls
    have hsize : (current start (call :: calls)).quorumSize =
        (current start (call :: calls)).voterIDs.length / 2 + 1 := by
      rw [Configuration.quorumSize, Configuration.voterIDs, List.length_map]
    refine ⟨hadvance.le, fun _ => ⟨(after start startIndex (call :: calls)).quorumMatchIndex, ?_, ?_⟩⟩
    · rw [hsize]
      exact quorumMatchIndex_isGreatest hchecked.distinct (List.map_eq_nil_iff.not.mpr hchecked.voters)
        (keys_after startIndex hstart hcalls)
    · have hcommit := hadvance.commitIndex
      rwa [startIndex_after startIndex hstart hvalid] at hcommit

/-- Two of three voters have matched index 4 when the third is removed. -/
def thirdRemoved : List CommitmentCall :=
  [.setConfiguration ⟨[voterNamed 65, voterNamed 66]⟩, .matchServer [66] 4, .matchServer [65] 4]

theorem commitIndex_isQuorumIndex_removed :
    ∃ m, (after threeServers.configuration 3 thirdRemoved).matchIndex [66] = some m ∧
      IsGreatest (insert 0 {i | Reported threeServers.configuration [66] thirdRemoved i}) m := by
  have hvalid : Valid thirdRemoved := by
    intro configuration h
    simp only [thirdRemoved, List.mem_cons, CommitmentCall.setConfiguration.injEq, reduceCtorEq,
      List.not_mem_nil, or_false] at h
    rw [h]
    decide
  have h := commitIndex_isQuorumIndex threeServers.configuration 3 (by decide) thirdRemoved hvalid
  exact h.1 [66] (by decide)

end Commitment

end PerfRaft
