import PerfRaft.Lib.Committed

namespace PerfRaft.Lib.Replicated

variable {N E : Type} [DecidableEq N] [Stamped E] {g : Setting E} {P : Win N E → Prop}
  {s s' s'' : State N E} {n : N}

namespace State

/-- The node `n` takes over the term `t`. -/
def bump (s : State N E) (n : N) (t : Nat) : State N E :=
  { s with term := Function.update s.term n t }

/-- The node `n` asks for votes in its term. -/
def ask (s : State N E) (n : N) : State N E :=
  { s with
    reqs := Function.update s.reqs n (Function.update (s.reqs n) (s.term n) (some (s.log n))) }

/-- The node `v` votes for `n`, who has asked with the log `R`. -/
def grant (s : State N E) (v n : N) (R : List E) : State N E :=
  { s with votes := insert ⟨v, n, s.term v, R, s.wins⟩ s.votes }

/-- The node `n` wins its term with the votes of `Q`. -/
def win (s : State N E) (n : N) (Q : List N) : State N E :=
  { s with
    wins := ⟨n, s.term n, s.log n, Q⟩ :: s.wins
    leaderLog := Function.update s.leaderLog (s.term n) (s.log n) }

/-- The leader `n` appends entries. -/
def append (s : State N E) (n : N) (es : List E) : State N E :=
  { s with
    log := Function.update s.log n (s.log n ++ es)
    leaderLog := Function.update s.leaderLog (s.term n) (s.log n ++ es)
    acks := insert ⟨n, s.term n, (s.log n ++ es).length, s.wins⟩ s.acks }

/-- A request of the leader `n` of the term `t`. -/
def cut (s : State N E) (n : N) (t last : Nat) : State N E :=
  { s with msgs := insert ⟨t, s.log n, last⟩ s.msgs }

/-- The node `n` accepts a request. -/
noncomputable def accept (s : State N E) (n : N) (m : Msg E) : State N E :=
  { s with
    log := Function.update s.log n (accepted (s.log n) m)
    acks := insert ⟨n, m.term, m.last, s.wins⟩ s.acks }

end State

/-- What the node `n` alone does: the terms and the logs of the others stay, the
elections that are won are its own, and as `P` says, and a log of a leader that changes
is its log. -/
structure Moves (g : Setting E) (P : Win N E → Prop) (n : N) (s s' : State N E) : Prop where
  steps : Steps g s s'
  term : ∀ x, x ≠ n → s'.term x = s.term x
  log : ∀ x, x ≠ n → s'.log x = s.log x
  wins : ∀ w ∈ s'.wins, w ∈ s.wins ∨ (w.leader = n ∧ P w)
  leaderLog : ∀ t, s'.leaderLog t = s.leaderLog t ∨ s'.leaderLog t = s'.log n

theorem Steps.trans (h : Steps g s s') (h' : Steps g s' s'') : Steps g s s'' := by
  induction h' with
  | refl => exact h
  | tail _ hstep ih => exact ih.tail hstep

theorem Moves.refl (g : Setting E) (P : Win N E → Prop) (n : N) (s : State N E) :
    Moves g P n s s :=
  ⟨.refl, fun _ _ => rfl, fun _ _ => rfl, fun _ hw => .inl hw, fun _ => .inl rfl⟩

theorem Moves.tail (h : Moves g P n s s') (hstep : Step g s' s'')
    (hterm : ∀ x, x ≠ n → s''.term x = s'.term x) (hlog : ∀ x, x ≠ n → s''.log x = s'.log x)
    (hwins : ∀ w ∈ s''.wins, w ∈ s'.wins ∨ (w.leader = n ∧ P w))
    (hled : ∀ t, s''.leaderLog t = s.leaderLog t ∨ s''.leaderLog t = s''.log n) :
    Moves g P n s s'' where
  steps := h.steps.tail hstep
  term := fun x hx => (hterm x hx).trans (h.term x hx)
  log := fun x hx => (hlog x hx).trans (h.log x hx)
  wins := fun w hw => (hwins w hw).elim (h.wins w) .inr
  leaderLog := hled

theorem Moves.bump (h : Moves g P n s s') {t : Nat} (hle : s'.term n ≤ t) :
    Moves g P n s (s'.bump n t) :=
  h.tail (.bump s' n t hle) (fun _ hx => Function.update_of_ne hx _ _) (fun _ _ => rfl)
    (fun _ hw => .inl hw) h.leaderLog

theorem Moves.ask (h : Moves g P n s s') (hnew : s'.reqs n (s'.term n) = none) :
    Moves g P n s (s'.ask n) :=
  h.tail (.ask s' n hnew) (fun _ _ => rfl) (fun _ _ => rfl) (fun _ hw => .inl hw) h.leaderLog

theorem Moves.grant (h : Moves g P n s s') {m : N} {R : List E} (hreq : s'.reqs m (s'.term n) = some R)
    (hnew : ∀ vote ∈ s'.votes, vote.voter = n → vote.term ≠ s'.term n)
    (hlog : UpToDate (s'.log n) R) : Moves g P n s (s'.grant n m R) :=
  h.tail (.grant s' n m R hreq hnew hlog) (fun _ _ => rfl) (fun _ _ => rfl) (fun _ hw => .inl hw)
    h.leaderLog

theorem Moves.win (h : Moves g P n s s') {Q : List N} (hroot : g.rootTerm < s'.term n)
    (hvotes : ∀ v ∈ Q, ∃ vote ∈ s'.votes, vote.voter = v ∧ vote.candidate = n ∧
      vote.term = s'.term n)
    (hnew : ∀ w ∈ s'.wins, w.term ≠ s'.term n) (hP : P ⟨n, s'.term n, s'.log n, Q⟩) :
    Moves g P n s (s'.win n Q) := by
  refine h.tail (.win s' n Q hroot hvotes hnew) (fun _ _ => rfl) (fun _ _ => rfl) ?_ ?_
  · intro w hw
    rcases List.mem_cons.mp hw with rfl | hw
    · exact .inr ⟨rfl, hP⟩
    · exact .inl hw
  · intro t
    by_cases ht : t = s'.term n
    · rw [ht]
      exact .inr (Function.update_self ..)
    · have hsame : (s'.win n Q).leaderLog t = s'.leaderLog t := Function.update_of_ne ht _ _
      rw [hsame]
      exact h.leaderLog t

theorem Moves.append (h : Moves g P n s s') {es : List E} (hled : s'.leaderLog = s.leaderLog)
    (hwon : ∃ w ∈ s'.wins, w.leader = n ∧ w.term = s'.term n)
    (hes : ∀ e ∈ es, stamp e = s'.term n) : Moves g P n s (s'.append n es) := by
  refine h.tail (.append s' n es hwon hes) (fun _ _ => rfl)
    (fun _ hx => Function.update_of_ne hx _ _) (fun _ hw => .inl hw) ?_
  intro t
  by_cases ht : t = s'.term n
  · right
    unfold State.append
    simp only [ht, Function.update_self]
  · rw [← hled]
    exact .inl (Function.update_of_ne ht _ _)

theorem Moves.cut (h : Moves g P n s s') {t last : Nat}
    (hwon : ∃ w ∈ s'.wins, w.leader = n ∧ w.term = t) (hlast : last ≤ (s'.log n).length) :
    Moves g P n s (s'.cut n t last) :=
  h.tail (.cut s' n t last hwon hlast) (fun _ _ => rfl) (fun _ _ => rfl) (fun _ hw => .inl hw)
    h.leaderLog

theorem Moves.accept (h : Moves g P n s s') {m : Msg E} (hled : s'.leaderLog = s.leaderLog)
    (hm : m ∈ s'.msgs) (hterm : s'.term n = m.term) : Moves g P n s (s'.accept n m) :=
  h.tail (.accept s' n m hm hterm) (fun _ _ => rfl) (fun _ hx => Function.update_of_ne hx _ _)
    (fun _ hw => .inl hw) (fun t => .inl (congrFun hled t))

theorem Safe.moves (h : Safe g s) (hm : Moves g P n s s') : Safe g s' := h.steps hm.steps

omit [Stamped E] in
theorem getElem?_of_isPrefix {l l' : List E} (h : l <+: l') {i : Nat} {e : E}
    (he : l[i]? = some e) : l'[i]? = some e := by
  obtain ⟨rest, rfl⟩ := h
  rw [List.getElem?_append_left (List.getElem?_eq_some_iff.mp he).1, he]

omit [DecidableEq N] [Stamped E] in
/-- What a leader has appended stays at its place. -/
theorem Grows.getElem? (h : Grows s s') {t i : Nat} {e : E} (he : (s.leaderLog t)[i]? = some e) :
    (s'.leaderLog t)[i]? = some e :=
  getElem?_of_isPrefix (h.leaderLog t) he

omit [DecidableEq N] in
theorem UpToDate.refl (l : List E) : UpToDate l l := .inr ⟨rfl, Nat.le_refl _⟩

end PerfRaft.Lib.Replicated
