import Mathlib.Data.List.Basic
import Mathlib.Logic.Function.Basic

namespace PerfRaft.Lib

/-- A ring of slots; a value is kept in the slot of its key modulo the number of
slots, in the place of whatever was there. -/
structure Slots (α : Type) where
  slots : List (Option α)
  nonempty : slots ≠ []

namespace Slots

variable {α : Type} (key : α → Nat)

def empty (n : Nat) (h : 0 < n) : Slots α where
  slots := List.replicate n none
  nonempty := by
    intro he
    have hl := congrArg List.length he
    simp at hl
    omega

def clear (c : Slots α) : Slots α :=
  empty c.slots.length (List.length_pos_iff.mpr c.nonempty)

def position (c : Slots α) (k : Nat) : Nat := k % c.slots.length

/-- What is in the slot of `k`, if it is there for `k`. -/
def lookup (c : Slots α) (k : Nat) : Option α :=
  (c.slots[c.position k]?.join).filter (fun a => key a == k)

def put (c : Slots α) (a : α) : Slots α where
  slots := c.slots.set (c.position (key a)) (some a)
  nonempty := by
    intro he
    have hl := congrArg List.length he
    simp only [List.length_set, List.length_nil, List.length_eq_zero_iff] at hl
    exact c.nonempty hl

def putAll (c : Slots α) (as : List α) : Slots α := as.foldl (put key) c

/-- The map after all of `as` have been written to it, the later ones last. -/
def overwrite (m : Nat → Option α) (as : List α) : Nat → Option α :=
  as.foldl (fun m a => Function.update m (key a) (some a)) m

/-- Every slot in use holds what `m` has under its key, in its own position. -/
def Coherent (m : Nat → Option α) (c : Slots α) : Prop :=
  ∀ i a, c.slots[i]? = some (some a) → i = c.position (key a) ∧ m (key a) = some a

variable {key}

theorem coherent_empty (m : Nat → Option α) {n : Nat} (h : 0 < n) :
    Coherent key m (empty n h) := by
  intro i a hi
  have := List.getElem?_replicate ▸ hi
  split at this <;> simp at this

theorem coherent_clear (m : Nat → Option α) (c : Slots α) : Coherent key m c.clear :=
  coherent_empty m _

theorem position_lt (c : Slots α) (k : Nat) : c.position k < c.slots.length :=
  Nat.mod_lt _ (List.length_pos_iff.mpr c.nonempty)

theorem position_put (c : Slots α) (a : α) (k : Nat) : (c.put key a).position k = c.position k := by
  simp [position, put]

/-- A slot that keeps its value belongs to another key than the one written. -/
theorem Coherent.put {m : Nat → Option α} {c : Slots α} (h : Coherent key m c) (a : α) :
    Coherent key (Function.update m (key a) (some a)) (c.put key a) := by
  intro i b hi
  rw [position_put]
  simp only [Slots.put, List.getElem?_set] at hi
  split at hi
  · rename_i heq
    simp only [position_lt, if_true, Option.some.injEq] at hi
    subst hi
    exact ⟨heq.symm, Function.update_self ..⟩
  · rename_i hne
    obtain ⟨hpos, hm⟩ := h i b hi
    have hk : key b ≠ key a := by
      intro he
      exact hne (by rw [hpos, he])
    exact ⟨hpos, by rw [Function.update_of_ne hk, hm]⟩

theorem Coherent.putAll {m : Nat → Option α} {c : Slots α} (h : Coherent key m c) (as : List α) :
    Coherent key (overwrite key m as) (c.putAll key as) := by
  induction as generalizing m c with
  | nil => exact h
  | cons a rest ih => exact ih (h.put a)

theorem Coherent.lookup {m : Nat → Option α} {c : Slots α} (h : Coherent key m c) {k : Nat} {a : α}
    (hl : c.lookup key k = some a) : m k = some a := by
  obtain ⟨hslot, hkey⟩ := Option.filter_eq_some_iff.mp hl
  obtain ⟨-, hm⟩ := h _ a (Option.join_eq_some_iff.mp hslot)
  rw [← eq_of_beq hkey]
  exact hm

end Slots

end PerfRaft.Lib
