import Mathlib.Order.Bounds.Basic
import Mathlib.Order.Interval.Set.Basic

namespace PerfRaft.Lib

/-- The least and the greatest element of a set of numbers, or 0 for both when there are
none. -/
def Watermarks (s : Set ℕ) (low high : ℕ) : Prop :=
  (s = ∅ ∧ low = 0 ∧ high = 0) ∨ (IsLeast s low ∧ IsGreatest s high)

variable {s : Set ℕ} {low high lo hi n : ℕ}

theorem Watermarks.empty : Watermarks ∅ 0 0 := .inl ⟨rfl, rfl, rfl⟩

theorem Watermarks.unique {low' high' : ℕ} (h : Watermarks s low high)
    (h' : Watermarks s low' high') : low = low' ∧ high = high' := by
  rcases h with ⟨rfl, rfl, rfl⟩ | ⟨hleast, hgreatest⟩
  · rcases h' with ⟨-, rfl, rfl⟩ | ⟨hleast, -⟩
    · exact ⟨rfl, rfl⟩
    · exact absurd hleast.1 (Set.notMem_empty _)
  · rcases h' with ⟨rfl, -, -⟩ | ⟨hleast', hgreatest'⟩
    · exact absurd hleast.1 (Set.notMem_empty _)
    · exact ⟨hleast.unique hleast', hgreatest.unique hgreatest'⟩

/-- A number above all the others. -/
theorem Watermarks.insert (h : Watermarks s low high) (hpos : 0 ∉ s) (habove : ∀ m ∈ s, m < n)
    (hn : 0 < n) : Watermarks (insert n s) (if low = 0 then n else low) (max high n) := by
  right
  rcases h with ⟨rfl, rfl, rfl⟩ | ⟨hleast, hgreatest⟩
  · simp
  · have hlow : low ≠ 0 := fun heq => hpos (heq ▸ hleast.1)
    have hhigh := habove high hgreatest.1
    rw [if_neg hlow, Nat.max_eq_right (Nat.le_of_lt hhigh)]
    refine ⟨⟨.inr hleast.1, ?_⟩, ⟨.inl rfl, ?_⟩⟩
    · rintro m (rfl | hm)
      · exact (hleast.2 hgreatest.1).trans (Nat.le_of_lt hhigh)
      · exact hleast.2 hm
    · rintro m (rfl | hm)
      · exact Nat.le_refl _
      · exact Nat.le_of_lt (habove m hm)

/-- A range that leaves the number after it when it takes the least one, and the number
before it when it takes the greatest one, or that takes everything. -/
structure Snug (s : Set ℕ) (low high lo hi : ℕ) : Prop where
  front : lo ≤ low → high ≤ hi ∨ hi + 1 ∈ s
  back : high ≤ hi → (1 ≤ lo ∧ lo ≤ max low 1) ∨ lo - 1 ∈ s

theorem Snug.pos (h : Snug s low high lo hi) (hpos : 0 ∉ s) (hback : high ≤ hi) : 1 ≤ lo := by
  rcases h.back hback with hle | hmem
  · exact hle.1
  · by_contra hlo
    rw [Nat.sub_eq_zero_of_le (by omega)] at hmem
    exact hpos hmem

section Diff

variable (hleast : IsLeast s low) (hgreatest : IsGreatest s high)

include hleast hgreatest

theorem diff_eq_empty (hlo : lo ≤ low) (hhi : high ≤ hi) : s \ Set.Icc lo hi = ∅ := by
  rw [Set.sdiff_eq_empty]
  intro m hm
  exact ⟨hlo.trans (hleast.2 hm), (hgreatest.2 hm).trans hhi⟩

theorem diff_front (hlo : lo ≤ low) (hhi : hi < high) (hmem : hi + 1 ∈ s) :
    IsLeast (s \ Set.Icc lo hi) (hi + 1) ∧ IsGreatest (s \ Set.Icc lo hi) high := by
  refine ⟨⟨⟨hmem, fun h => Nat.not_succ_le_self hi h.2⟩, ?_⟩, ⟨⟨hgreatest.1, fun h => Nat.not_le.mpr hhi h.2⟩, ?_⟩⟩
  · intro m hm
    by_contra hlt
    exact hm.2 ⟨hlo.trans (hleast.2 hm.1), by omega⟩
  · exact fun m hm => hgreatest.2 hm.1

theorem diff_back (hlo : low < lo) (hhi : high ≤ hi) (hmem : lo - 1 ∈ s) :
    IsLeast (s \ Set.Icc lo hi) low ∧ IsGreatest (s \ Set.Icc lo hi) (lo - 1) := by
  refine ⟨⟨⟨hleast.1, fun h => Nat.not_le.mpr hlo h.1⟩, ?_⟩, ⟨⟨hmem, fun h => ?_⟩, ?_⟩⟩
  · exact fun m hm => hleast.2 hm.1
  · have := h.1
    omega
  · intro m hm
    by_contra hlt
    exact hm.2 ⟨by omega, (hgreatest.2 hm.1).trans hhi⟩

theorem diff_inner (hlo : low < lo) (hhi : hi < high) :
    IsLeast (s \ Set.Icc lo hi) low ∧ IsGreatest (s \ Set.Icc lo hi) high :=
  ⟨⟨⟨hleast.1, fun h => Nat.not_le.mpr hlo h.1⟩, fun _ hm => hleast.2 hm.1⟩,
    ⟨⟨hgreatest.1, fun h => Nat.not_le.mpr hhi h.2⟩, fun _ hm => hgreatest.2 hm.1⟩⟩

end Diff

/-- Watermarks that are moved to the ends of a range that is deleted, and back to 0 when
they pass each other. -/
theorem Watermarks.diff (h : Watermarks s low high) (hpos : 0 ∉ s) (hle : lo ≤ hi)
    (hsnug : Snug s low high lo hi) {low' high' : ℕ}
    (hlow' : low' = if lo ≤ low then hi + 1 else low)
    (hhigh' : high' = if high ≤ hi then lo - 1 else high) :
    Watermarks (s \ Set.Icc lo hi) (if high' < low' then 0 else low')
      (if high' < low' then 0 else high') := by
  rcases h with ⟨rfl, rfl, rfl⟩ | ⟨hleast, hgreatest⟩
  case inl =>
    have hone := (hsnug.back (Nat.zero_le _)).resolve_right (Set.notMem_empty _)
    have hlo : lo = 1 := by omega
    subst hlo hlow' hhigh'
    exact .inl ⟨Set.empty_sdiff _, rfl, rfl⟩
  have hlow : low ≠ 0 := fun heq => hpos (heq ▸ hleast.1)
  have horder : low ≤ high := hleast.2 hgreatest.1
  by_cases hfront : lo ≤ low <;> by_cases hback : high ≤ hi
  · rw [if_pos hfront] at hlow'
    rw [if_pos hback] at hhigh'
    rw [if_pos (by omega), if_pos (by omega)]
    exact .inl ⟨diff_eq_empty hleast hgreatest hfront hback, rfl, rfl⟩
  · rw [if_pos hfront] at hlow'
    rw [if_neg hback] at hhigh'
    rw [if_neg (by omega), if_neg (by omega), hlow', hhigh']
    exact .inr (diff_front hleast hgreatest hfront (by omega) ((hsnug.front hfront).resolve_left hback))
  · rw [if_neg hfront] at hlow'
    rw [if_pos hback] at hhigh'
    rw [if_neg (by omega), if_neg (by omega), hlow', hhigh']
    exact .inr (diff_back hleast hgreatest (by omega) hback ((hsnug.back hback).resolve_left (by omega)))
  · rw [if_neg hfront] at hlow'
    rw [if_neg hback] at hhigh'
    rw [if_neg (by omega), if_neg (by omega), hlow', hhigh']
    exact .inr (diff_inner hleast hgreatest (by omega) (by omega))

end PerfRaft.Lib
