import Mathlib.Data.List.Nodup
import Mathlib.Data.List.Perm.Subperm

namespace PerfRaft.Lib

variable {α : Type}

/-- More than half of the members of `U`, each counted once. -/
structure Majority (U Q : List α) : Prop where
  nodup : Q.Nodup
  subset : ∀ x ∈ Q, x ∈ U
  length : U.length < 2 * Q.length

/-- A majority of `U` and one of `U'` have a member in common when `U'` leaves out
at most one member of `U`. -/
theorem Majority.inter_of_subset {U U' Q Q' : List α} (h : Majority U Q) (h' : Majority U' Q')
    (hsub : ∀ x ∈ U', x ∈ U) (hlength : U.length ≤ U'.length + 1) : ∃ x ∈ Q, x ∈ Q' := by
  by_contra hnone
  push Not at hnone
  have hnodup : (Q ++ Q').Nodup := by
    refine List.Nodup.append h.nodup h'.nodup ?_
    intro x hx hx'
    exact hnone x hx hx'
  have hmem : (Q ++ Q') ⊆ U := by
    intro x hx
    rcases List.mem_append.mp hx with hx | hx
    · exact h.subset x hx
    · exact hsub x (h'.subset x hx)
  have hle := (hnodup.subperm hmem).length_le
  have hlen := h.length
  have hlen' := h'.length
  rw [List.length_append] at hle
  omega

/-- Two majorities have a member in common. -/
theorem Majority.inter {U Q Q' : List α} (h : Majority U Q) (h' : Majority U Q') :
    ∃ x ∈ Q, x ∈ Q' :=
  h.inter_of_subset h' (fun _ hx => hx) (Nat.le_succ _)

/-- So have majorities of two lists that differ in one member at most. -/
theorem Majority.inter_of_iff [DecidableEq α] {U U' Q Q' : List α} (h : Majority U Q)
    (h' : Majority U' Q') (hU : U.Nodup) (hU' : U'.Nodup) {a : α}
    (hiff : ∀ x, x ≠ a → (x ∈ U ↔ x ∈ U')) : ∃ x ∈ Q, x ∈ Q' := by
  -- the one list without `a` is within the other
  have hle {V V' : List α} (hV : V.Nodup) (hiff : ∀ x, x ≠ a → (x ∈ V ↔ x ∈ V')) :
      V.length ≤ V'.length + 1 := by
    have hsub : V.erase a ⊆ V' := by
      intro x hx
      rw [hV.mem_erase_iff] at hx
      exact (hiff x hx.1).mp hx.2
    have hlength := ((hV.erase a).subperm hsub).length_le
    have herase := List.le_length_erase (a := a) (l := V)
    omega
  by_cases ha : a ∈ U
  · apply h.inter_of_subset h' ?_ (hle hU hiff)
    intro x hx
    by_cases hxa : x = a
    · rwa [hxa]
    · exact (hiff x hxa).mpr hx
  · obtain ⟨x, hx', hx⟩ := h'.inter_of_subset h (fun x hx => (hiff x (fun hxa => ha (hxa ▸ hx))).mp hx)
      (hle hU' (fun x hxa => (hiff x hxa).symm))
    exact ⟨x, hx, hx'⟩

end PerfRaft.Lib
