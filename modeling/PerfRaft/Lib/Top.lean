import Mathlib.Data.List.Sort

namespace PerfRaft.Lib

variable {α : Type} (r : α → α → Prop) [DecidableRel r]

/-- The first `k` of a list in the order `r`. -/
def top (k : Nat) (l : List α) : List α := (l.insertionSort r).take k

/-- `l` are the first `k` of `all`, or all of them when there are fewer: they are in
order, and whatever is left comes after each of them. -/
structure IsTop (k : Nat) (all l : List α) : Prop where
  ordered : l.Pairwise r
  length : l.length = min k all.length
  rest : ∃ rest, (l ++ rest).Perm all ∧ ∀ a ∈ l, ∀ b ∈ rest, r a b

variable {r}

theorem take_orderedInsert_take (k : Nat) (x : α) (l : List α) :
    ((l.take k).orderedInsert r x).take k = (l.orderedInsert r x).take k := by
  induction l generalizing k with
  | nil => simp
  | cons y l ih =>
    cases k with
    | zero => simp
    | succ k =>
      simp only [List.take_succ_cons, List.orderedInsert_cons]
      split
      · cases k with
        | zero => simp
        | succ k => simp [List.take_take]
      · simp [ih]

section

variable [Std.Total r] [IsTrans α r]

/-- To find the first `k` after one more has come, the first `k` before are enough. -/
theorem top_cons_top (k : Nat) (x : α) (l : List α) : top r k (x :: top r k l) = top r k (x :: l) := by
  have hsorted : (top r k l).Pairwise r :=
    (List.pairwise_insertionSort r l).sublist (List.take_sublist k _)
  simp only [top, List.insertionSort_cons] at hsorted ⊢
  rw [hsorted.insertionSort_eq, take_orderedInsert_take]

/-- What is in order has only one order, if no two elements are in order both ways. -/
theorem insertionSort_of_perm {l l' : List α} (h : l.Perm l')
    (hanti : ∀ a ∈ l, ∀ b ∈ l, r a b → r b a → a = b) : l.insertionSort r = l'.insertionSort r := by
  apply List.Perm.eq_of_pairwise _ (List.pairwise_insertionSort r l)
    (List.pairwise_insertionSort r l')
  · exact (List.perm_insertionSort r l).trans (h.trans (List.perm_insertionSort r l').symm)
  · intro a b ha hb
    have ha' := (List.perm_insertionSort r l).mem_iff.mp ha
    have hb' := h.mem_iff.mpr ((List.perm_insertionSort r l').mem_iff.mp hb)
    exact hanti a ha' b hb'

theorem top_of_perm (k : Nat) {l l' : List α} (h : l.Perm l')
    (hanti : ∀ a ∈ l, ∀ b ∈ l, r a b → r b a → a = b) : top r k l = top r k l' := by
  rw [top, top, insertionSort_of_perm h hanti]

theorem top_isTop (k : Nat) (l : List α) : IsTop r k l (top r k l) where
  ordered := (List.pairwise_insertionSort r l).sublist (List.take_sublist k _)
  length := by simp [top]
  rest := by
    have hsorted := List.pairwise_insertionSort r l
    rw [← List.take_append_drop k (l.insertionSort r)] at hsorted
    refine ⟨(l.insertionSort r).drop k, ?_, (List.pairwise_append.mp hsorted).2.2⟩
    rw [top, List.take_append_drop]
    exact List.perm_insertionSort r l

end

end PerfRaft.Lib
