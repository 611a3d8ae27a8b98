import Mathlib.Logic.Basic

namespace PerfRaft.Lib

/-- A labelled transition system: some initial states, and what an action makes of
a state when it is possible there. -/
structure System (S A : Type) where
  init : S → Prop
  step : S → A → Option S

namespace System

variable {S A : Type} (sys : System S A) (ok : S → A → Prop)

/-- `Reaches ok s s'`: some run leads from `s` to `s'` in which every action meets
`ok` in the state it is taken in. -/
inductive Reaches (s : S) : S → Prop where
  | refl : Reaches s s
  | tail {s' s'' : S} {a : A} : Reaches s s' → ok s' a → sys.step s' a = some s'' → Reaches s s''

def Reachable (s : S) : Prop := ∃ s₀, sys.init s₀ ∧ sys.Reaches ok s₀ s

variable {sys ok}

theorem Reaches.trans {s s' s'' : S} (h : sys.Reaches ok s s') (h' : sys.Reaches ok s' s'') :
    sys.Reaches ok s s'' := by
  induction h' with
  | refl => exact h
  | tail _ hok hstep ih => exact ih.tail hok hstep

theorem Reachable.trans {s s' : S} (h : sys.Reachable ok s) (h' : sys.Reaches ok s s') :
    sys.Reachable ok s' := by
  obtain ⟨s₀, hinit, hrun⟩ := h
  exact ⟨s₀, hinit, Reaches.trans hrun h'⟩

/-- The run rule: what every allowed step preserves holds along every run. -/
theorem Reaches.invariant {P : S → Prop}
    (hstep : ∀ s a s', P s → ok s a → sys.step s a = some s' → P s') {s s' : S}
    (h : sys.Reaches ok s s') (hs : P s) : P s' := by
  induction h with
  | refl => exact hs
  | tail _ ha hst ih => exact hstep _ _ _ ih ha hst

theorem Reachable.invariant {P : S → Prop} (hinit : ∀ s, sys.init s → P s)
    (hstep : ∀ s a s', P s → ok s a → sys.step s a = some s' → P s') {s : S}
    (h : sys.Reachable ok s) : P s := by
  obtain ⟨s₀, h₀, hrun⟩ := h
  exact hrun.invariant hstep (hinit s₀ h₀)

variable (sys)

/-- Play a script, in which each action is chosen by looking at the state it is
taken in: every action has to pass `test`, and the last state has to pass `check`. -/
def plays (test : S → A → Bool) (check : S → Bool) (s : S) : List (S → A) → Bool
  | [] => check s
  | choose :: rest =>
    test s (choose s) && match sys.step s (choose s) with
      | none => false
      | some s' => plays test check s' rest

variable {sys}

theorem reaches_of_plays (ok : S → A → Prop) {test : S → A → Bool} (htest : ∀ s a, test s a = true → ok s a)
    {check : S → Bool} {script : List (S → A)} {s : S}
    (h : sys.plays test check s script = true) :
    ∃ s', sys.Reaches ok s s' ∧ check s' = true := by
  induction script generalizing s with
  | nil => exact ⟨s, .refl, h⟩
  | cons choose rest ih =>
    simp only [plays, Bool.and_eq_true] at h
    obtain ⟨hok, hrest⟩ := h
    split at hrest
    · simp at hrest
    · rename_i s₁ hs₁
      obtain ⟨s', hreach, hcheck⟩ := ih hrest
      exact ⟨s', Reaches.trans (.tail .refl (htest _ _ hok) hs₁) hreach, hcheck⟩

/-- A script whose actions all pass a test for `ok` leads to a state with `P`. -/
theorem exists_reachable_of {test : S → A → Bool} (htest : ∀ s a, test s a = true → ok s a)
    {P : S → Prop} [DecidablePred P] {s : S} (hinit : sys.init s) (script : List (S → A))
    (h : sys.plays test (fun s => decide (P s)) s script = true) :
    ∃ s', sys.Reachable ok s' ∧ P s' := by
  obtain ⟨s', hreach, hcheck⟩ := reaches_of_plays ok htest h
  exact ⟨s', ⟨s, hinit, hreach⟩, of_decide_eq_true hcheck⟩

theorem exists_reachable [∀ s a, Decidable (ok s a)] {P : S → Prop} [DecidablePred P] {s : S}
    (hinit : sys.init s) (script : List (S → A))
    (h : sys.plays (fun s a => decide (ok s a)) (fun s => decide (P s)) s script = true) :
    ∃ s', sys.Reachable ok s' ∧ P s' :=
  exists_reachable_of (fun _ _ => of_decide_eq_true) hinit script h

end System

/-- What a partial function gives, and that it has `P`. -/
instance decidableExistsSome {α : Type} (o : Option α) (P : α → Prop) [DecidablePred P] :
    Decidable (∃ a, o = some a ∧ P a) :=
  match o with
  | none => isFalse (fun h => h.elim (fun a ha => Option.some_ne_none a ha.1.symm))
  | some a => decidable_of_iff (P a)
      ⟨fun h => ⟨a, rfl, h⟩, fun h => h.elim (fun _ hb => Option.some.inj hb.1 ▸ hb.2)⟩

end PerfRaft.Lib
