import Mathlib.Data.List.GetD
import PerfRaft.Lib.Quorum
import PerfRaft.Commitment

namespace PerfRaft

open Lib

namespace Commitment

/-- A commitment among the voters `U`: what it has as matched was acknowledged, and
what it has committed is its own and was acknowledged by a quorum as `K` says. -/
structure Tracks (U : List ServerID) (K : List ServerID → Prop) (acked : ServerID → Nat → Prop)
    (c : Commitment) : Prop where
  keys : c.matchIndexes.map Prod.fst = [] ∨ c.matchIndexes.map Prod.fst = U
  matched : ∀ p ∈ c.matchIndexes, p.2 = 0 ∨ acked p.1 p.2
  committed : c.commitIndex = 0 ∨ (c.startIndex ≤ c.commitIndex ∧
    ∃ Q, K Q ∧ ∀ x ∈ Q, acked x c.commitIndex)

variable {U U' : List ServerID} {K K' : List ServerID → Prop} {acked acked' : ServerID → Nat → Prop}
  {c : Commitment}

theorem Tracks.mono (h : Tracks U K acked c) (hK : ∀ Q, K Q → K' Q)
    (hsub : ∀ x k, acked x k → acked' x k) : Tracks U K' acked' c := by
  refine ⟨h.keys, fun p hp => (h.matched p hp).imp_right (hsub _ _), ?_⟩
  rcases h.committed with hzero | ⟨hown, Q, hQ, hacked⟩
  · exact .inl hzero
  · exact .inr ⟨hown, Q, hK Q hQ, fun x hx => hsub x _ (hacked x hx)⟩

theorem startIndex_recalculate (c : Commitment) : c.recalculate.startIndex = c.startIndex := by
  unfold recalculate
  split
  · rfl
  · split <;> rfl

theorem startIndex_matchServer (c : Commitment) (server : ServerID) (k : Nat) :
    (c.matchServer server k).startIndex = c.startIndex := by
  unfold matchServer
  split
  · rfl
  · split
    · rw [startIndex_recalculate]
      rfl
    · rfl

theorem mem_of_matchIndex {server : ServerID} {k : Nat} (h : c.matchIndex server = some k) :
    (server, k) ∈ c.matchIndexes := by
  obtain ⟨l₁, l₂, heq, _⟩ := List.lookup_eq_some_iff.mp h
  rw [heq]
  exact List.mem_append_right _ List.mem_cons_self

/-- At least half of the servers, rounded up and more, have matched the index that
`quorumMatchIndex` takes. -/
theorem quorum_count (values : List Nat) :
    values.length - (values.length - 1) / 2 ≤ values.countP (fun v => decide
      ((values.insertionSort (· ≤ ·)).getD ((values.length - 1) / 2) 0 ≤ v)) := by
  generalize hj : (values.length - 1) / 2 = j
  have hperm := List.perm_insertionSort (· ≤ ·) values
  have hsorted := List.pairwise_insertionSort (· ≤ ·) values
  have hlength := hperm.length_eq
  rw [← hperm.countP_eq]
  generalize values.insertionSort (· ≤ ·) = sorted at *
  rw [← hlength]
  have hall : ∀ v ∈ sorted.drop j, sorted.getD j 0 ≤ v := by
    intro v hv
    by_cases hlt : j < sorted.length
    · rw [List.getD_eq_getElem _ _ hlt]
      rw [List.drop_eq_getElem_cons hlt] at hv
      rcases List.mem_cons.mp hv with rfl | hv
      · exact Nat.le_refl _
      · have hpair := hsorted.drop (i := j)
        rw [List.drop_eq_getElem_cons hlt, List.pairwise_cons] at hpair
        exact hpair.1 v hv
    · rw [List.drop_eq_nil_iff.mpr (by omega)] at hv
      simp at hv
  calc sorted.length - j = (sorted.drop j).length := (List.length_drop).symm
    _ = (sorted.drop j).countP (fun v => decide (sorted.getD j 0 ≤ v)) := by
      rw [List.countP_eq_length.mpr]
      intro v hv
      simpa using hall v hv
    _ ≤ sorted.countP (fun v => decide (sorted.getD j 0 ≤ v)) :=
      (List.drop_sublist j sorted).countP_le

/-- The voters that have matched the index of `quorumMatchIndex` are a majority. -/
theorem quorumMatchIndex_majority (hU : U.Nodup) (hkeys : c.matchIndexes.map Prod.fst = U)
    (hne : c.matchIndexes ≠ []) :
    Majority U ((c.matchIndexes.filter (fun p => decide (c.quorumMatchIndex ≤ p.2))).map Prod.fst) := by
  have hsub : ((c.matchIndexes.filter (fun p => decide (c.quorumMatchIndex ≤ p.2))).map Prod.fst).Sublist
      U := by
    rw [← hkeys]
    exact List.Sublist.map _ List.filter_sublist
  have hcount := quorum_count (c.matchIndexes.map Prod.snd)
  have hq : ((c.matchIndexes.map Prod.snd).insertionSort (· ≤ ·)).getD
      (((c.matchIndexes.map Prod.snd).length - 1) / 2) 0 = c.quorumMatchIndex := by
    unfold quorumMatchIndex
    dsimp only
    rw [List.length_insertionSort]
  rw [hq, List.countP_map, List.countP_eq_length_filter, List.length_map] at hcount
  have hpos := List.length_pos_of_ne_nil hne
  refine ⟨hsub.nodup hU, fun x hx => hsub.subset hx, ?_⟩
  rw [List.length_map, ← hkeys, List.length_map]
  simp only [Function.comp_def] at hcount
  omega

theorem Tracks.recalculate (h : Tracks U K acked c) (hU : U.Nodup) (hK : ∀ Q, Majority U Q → K Q)
    (hdown : ∀ x j k, j ≤ k → acked x k → acked x j) : Tracks U K acked c.recalculate := by
  unfold Commitment.recalculate
  split
  · exact h
  · rename_i hne
    split
    · rename_i hq
      have hkeys : c.matchIndexes.map Prod.fst = U := by
        rcases h.keys with hnil | hkeys
        · exact absurd (List.map_eq_nil_iff.mp hnil) hne
        · exact hkeys
      refine ⟨h.keys, h.matched, .inr ⟨hq.2, _, hK _ (quorumMatchIndex_majority hU hkeys hne), ?_⟩⟩
      intro x hx
      simp only [List.mem_map, List.mem_filter, decide_eq_true_eq] at hx
      obtain ⟨p, ⟨hp, hle⟩, rfl⟩ := hx
      rcases h.matched p hp with hzero | hacked
      · omega
      · exact hdown _ _ _ hle hacked
    · exact h

theorem Tracks.setMatchIndex (h : Tracks U K acked c) {server : ServerID} {k : Nat}
    (hk : acked server k) : Tracks U K acked (c.setMatchIndex server k) := by
  have hkeys : (c.setMatchIndex server k).matchIndexes.map Prod.fst = c.matchIndexes.map Prod.fst := by
    simp only [Commitment.setMatchIndex, List.map_map]
    refine List.map_congr_left ?_
    intro p _
    simp only [Function.comp_apply]
    split <;> rfl
  refine ⟨by rw [hkeys]; exact h.keys, ?_, h.committed⟩
  intro p hp
  simp only [Commitment.setMatchIndex, List.mem_map] at hp
  obtain ⟨q, hq, rfl⟩ := hp
  split
  · rename_i heq
    rw [heq]
    exact .inr hk
  · exact h.matched q hq

/-- An acknowledged index may be recorded. -/
theorem Tracks.matchServer (h : Tracks U K acked c) (hU : U.Nodup) (hK : ∀ Q, Majority U Q → K Q)
    (hdown : ∀ x j k, j ≤ k → acked x k → acked x j) {server : ServerID} {k : Nat}
    (hk : server ∈ U → acked server k) : Tracks U K acked (c.matchServer server k) := by
  unfold Commitment.matchServer
  split
  · exact h
  · rename_i prev hprev
    split
    · refine (h.setMatchIndex (hk ?_)).recalculate hU hK hdown
      have hmem : server ∈ c.matchIndexes.map Prod.fst :=
        List.mem_map.mpr ⟨_, mem_of_matchIndex hprev, rfl⟩
      rcases h.keys with hnil | hkeys
      · simp [hnil] at hmem
      · rwa [hkeys] at hmem
    · exact h

/-- The voters may change. -/
theorem Tracks.setConfiguration (h : Tracks U K acked c) (hU : U'.Nodup)
    (hK : ∀ Q, Majority U' Q → K Q) (hdown : ∀ x j k, j ≤ k → acked x k → acked x j)
    {configuration : Configuration}
    (hV : configuration.voterIDs = [] ∨ configuration.voterIDs = U') :
    Tracks U' K acked (c.setConfiguration configuration) := by
  refine Tracks.recalculate ⟨?_, ?_, h.committed⟩ hU hK hdown
  · simp only [List.map_map, Function.comp_def, List.map_id']
    rcases hV with hnil | hV
    · exact .inl (by rw [hnil, List.dedup_nil])
    · exact .inr (by rw [hV, hU.dedup])
  · intro p hp
    simp only [List.mem_map] at hp
    obtain ⟨id, _, rfl⟩ := hp
    cases hlookup : c.matchIndex id with
    | none => exact .inl rfl
    | some k =>
      exact h.matched _ (mem_of_matchIndex hlookup)

theorem tracks_newCommitment (hU : U.Nodup) {configuration : Configuration}
    (hV : configuration.voterIDs = [] ∨ configuration.voterIDs = U) (startIndex : Nat) :
    Tracks U K acked (newCommitment configuration startIndex) := by
  refine ⟨?_, ?_, .inl rfl⟩
  · simp only [newCommitment, List.map_map, Function.comp_def, List.map_id']
    rcases hV with hnil | hV
    · exact .inl (by rw [hnil, List.dedup_nil])
    · exact .inr (by rw [hV, hU.dedup])
  · intro p hp
    simp only [newCommitment, List.mem_map] at hp
    obtain ⟨id, _, rfl⟩ := hp
    exact .inl rfl

end Commitment

end PerfRaft
