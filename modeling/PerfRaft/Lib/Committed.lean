import PerfRaft.Lib.Completeness
import PerfRaft.Lib.Quorum

namespace PerfRaft.Lib.Replicated

variable {N E : Type} {U : List N} {s s' : State N E}

/-- The node `x` has acknowledged the entries up to `k` to a leader of `T`. -/
def Acked (s : State N E) (T : Nat) (x : N) (k : Nat) : Prop :=
  ∃ a ∈ s.acks, a.node = x ∧ a.term = T ∧ k ≤ a.last

theorem Acked.le {T : Nat} {x : N} {j k : Nat} (h : Acked s T x k) (hj : j ≤ k) : Acked s T x j := by
  obtain ⟨a, ha, hnode, hterm, hlast⟩ := h
  exact ⟨a, ha, hnode, hterm, hj.trans hlast⟩

/-- The leader elected in `w₀` may take the entries up to `c` for committed: the last
of them is its own, and a majority has them all. -/
structure Committed (U : List N) (s : State N E) (w₀ : Win N E) (c : Nat) : Prop where
  won : w₀ ∈ s.wins
  own : w₀.log.length < c
  acks : ∃ Q, Majority U Q ∧ ∀ x ∈ Q, Acked s w₀.term x c

/-- Where some election of a list passes the term `T`, there is an oldest one that does. -/
theorem oldest_later {T : Nat} {ws : List (Win N E)} (h : ∃ w ∈ ws, T < w.term) :
    ∃ w older, w :: older <:+ ws ∧ T < w.term ∧ ∀ w' ∈ older, w'.term ≤ T := by
  induction ws with
  | nil => simp at h
  | cons w ws ih =>
    by_cases hrest : ∃ w' ∈ ws, T < w'.term
    · obtain ⟨w', older, hsuffix, hlater⟩ := ih hrest
      exact ⟨w', older, hsuffix.trans (List.suffix_cons _ _), hlater⟩
    · push Not at hrest
      obtain ⟨w', hw', hlt⟩ := h
      rcases List.mem_cons.mp hw' with rfl | hw'
      · exact ⟨w', ws, List.suffix_rfl, hlt, hrest⟩
      · exact absurd hlt (Nat.not_lt.mpr (hrest w' hw'))

theorem Backed.of_suffix {votes : Set (Vote N E)} {ws ws' : List (Win N E)}
    (hb : Backed votes ws) (hs : ws' <:+ ws) : Backed votes ws' := by
  induction ws with
  | nil =>
    rw [List.suffix_nil.mp hs]
    trivial
  | cons w older ih =>
    rcases List.suffix_cons_iff.mp hs with rfl | hs
    · exact hb
    · exact ih hb.2.2 hs

/-- A log is known to be committed up to `k` by the term `t`. -/
def Settled (U : List N) (s : State N E) (t : Nat) (l : List E) (k : Nat) : Prop :=
  k = 0 ∨ (k ≤ l.length ∧ ∃ w₀ c, Committed U s w₀ c ∧ w₀.term ≤ t ∧ k ≤ c ∧
    l.take k <+: s.leaderLog w₀.term)

theorem Settled.take_prefix (h : Settled U s t l k) (hk : k ≠ 0) :
    k ≤ l.length ∧ ∃ w₀ c, Committed U s w₀ c ∧ w₀.term ≤ t ∧
      l.take k <+: (s.leaderLog w₀.term).take c := by
  rcases h with h | ⟨hlen, w₀, c, hc, hT, hkc, hp⟩
  · exact absurd h hk
  · refine ⟨hlen, w₀, c, hc, hT, ?_⟩
    rw [List.prefix_iff_eq_take.mp hp, List.length_take, Nat.min_eq_left hlen]
    exact List.take_prefix_take_left hkc

theorem Settled.mono (h : Settled U s t l k) {t' : Nat} {l' : List E} {j : Nat} (ht : t ≤ t')
    (hl : l.take j <+: l') (hj : j ≤ k) : Settled U s t' l' j := by
  rcases h with rfl | ⟨hlen, w₀, c, hc, hT, hkc, hp⟩
  · exact .inl (by omega)
  · have hlen' : (l.take j).length = j := by
      rw [List.length_take]
      omega
    refine .inr ⟨by rw [← hlen']; exact hl.length_le, w₀, c, hc, hT.trans ht, hj.trans hkc, ?_⟩
    have heq := List.prefix_iff_eq_take.mp hl
    rw [hlen'] at heq
    rw [← heq]
    exact (List.take_prefix_take_left hj).trans hp

/-- What has happened stays so, and the logs of leaders only grow. -/
structure Grows (s s' : State N E) : Prop where
  wins : s.wins <:+ s'.wins
  acks : s.acks ⊆ s'.acks
  votes : s.votes ⊆ s'.votes
  msgs : s.msgs ⊆ s'.msgs
  reqs : ∀ n t R, s.reqs n t = some R → s'.reqs n t = some R
  leaderLog : ∀ t, s.leaderLog t <+: s'.leaderLog t

theorem Acked.grows {T : Nat} {x : N} {k : Nat} (h : Acked s T x k) (hg : Grows s s') :
    Acked s' T x k := by
  obtain ⟨a, ha, hack⟩ := h
  exact ⟨a, hg.acks ha, hack⟩

variable {w₀ : Win N E}

theorem Committed.grows {c : Nat} (h : Committed U s w₀ c) (hg : Grows s s') :
    Committed U s' w₀ c := by
  obtain ⟨Q, hQ, hacks⟩ := h.acks
  exact ⟨hg.wins.subset h.won, h.own, Q, hQ, fun x hx => (hacks x hx).grows hg⟩

theorem Settled.grows (h : Settled U s t l k) (hg : Grows s s') : Settled U s' t l k := by
  rcases h with h | ⟨hlen, w₀, c, hc, hT, hkc, hp⟩
  · exact .inl h
  · exact .inr ⟨hlen, w₀, c, hc.grows hg, hT, hkc, hp.trans (hg.leaderLog _)⟩

variable [Stamped E] {g : Setting E}

/-- Every election was won with a majority of the voters `U`. -/
def Quorate (U : List N) (s : State N E) : Prop := ∀ w ∈ s.wins, Majority U w.quorum

/-- All that is known of the states that can be reached when the voters stay the same. -/
structure Fixed (g : Setting E) (U : List N) (s : State N E) : Prop where
  safe : Safe g s
  quorate : Quorate U s
  kept : Kept s

theorem Init.fixed (h : Init g s) (U : List N) : Fixed g U s where
  safe := h.safe
  quorate := by simp [Quorate, h.wins]
  kept := h.kept

/-- A term cannot be won by another candidate: two majorities have a voter in common. -/
theorem Fixed.unwon (h : Fixed g U s) {n : N} {Q : List N} (hQ : Majority U Q)
    (hvotes : ∀ v ∈ Q, ∃ vote ∈ s.votes, vote.voter = v ∧ vote.candidate = n ∧
      vote.term = s.term n)
    (hnew : ∀ w ∈ s.wins, w.leader = n → w.term ≠ s.term n) : ∀ w ∈ s.wins, w.term ≠ s.term n := by
  intro w hw hterm
  obtain ⟨x, hx, hx'⟩ := hQ.inter (h.quorate w hw)
  obtain ⟨v, hv, hvoter, hcand, hvterm⟩ := hvotes x hx
  obtain ⟨v', hv', hvoter', hcand', hvterm', _⟩ := h.safe.terms.backed.of_mem hw x hx'
  have heq := h.safe.terms.once v hv v' hv' (by rw [hvoter, hvoter'])
    (by rw [hvterm, hvterm', hterm])
  refine hnew w hw ?_ hterm
  rw [← hcand', ← heq, hcand]

/-- An entry of a later term was made after its leader had won that term, with a voter
in common. -/
theorem Fixed.fresh (h : Fixed g U s) : Fresh s := by
  intro w hw e he
  rcases h.safe.logs.origin (h.safe.logs.valid_win hw) he with hroot | ⟨w', hw', hstamp⟩
  · rw [hroot]
    exact (h.safe.terms.win w hw).2
  · by_contra hle
    obtain ⟨x, hx, hx'⟩ := (h.quorate w hw).inter (h.quorate w' hw')
    obtain ⟨v, hv, hvoter, _, hterm, hlog⟩ := h.safe.terms.backed.of_mem hw x hx
    refine h.safe.logs.elder v hv e (hlog ▸ he) w' hw' hstamp (by omega) ?_
    rw [hvoter]
    exact hx'

/-- What is committed is in the log of the leader that committed it. -/
theorem Fixed.committed_le (h : Fixed g U s) {c : Nat} (hc : Committed U s w₀ c) :
    c ≤ (s.leaderLog w₀.term).length := by
  obtain ⟨Q, hQ, hacks⟩ := hc.acks
  by_contra hlt
  -- every member of the quorum has acknowledged after a later term was won
  have hlater : ∀ x ∈ Q, ∃ a ∈ s.acks, a.node = x ∧ a.term = w₀.term ∧
      ∃ w ∈ a.seen, w₀.term < w.term := by
    intro x hx
    obtain ⟨a, ha, hnode, hterm, hlast⟩ := hacks x hx
    refine ⟨a, ha, hnode, hterm, ?_⟩
    rcases h.safe.acks.bounded a ha with hle | hex
    · rw [hterm] at hle
      omega
    · rwa [hterm] at hex
  obtain ⟨x₀, hx₀, _⟩ := hQ.inter hQ
  obtain ⟨a₀, ha₀, _, _, w₁, hw₁, hlt₁⟩ := hlater x₀ hx₀
  obtain ⟨w, older, hsuffix, hltw, holder⟩ :=
    oldest_later ⟨w₁, (h.safe.terms.ackSeen a₀ ha₀).subset hw₁, hlt₁⟩
  have hw : w ∈ s.wins := hsuffix.subset List.mem_cons_self
  obtain ⟨x, hx, hxw⟩ := hQ.inter (h.quorate w hw)
  obtain ⟨a, ha, hnode, hterm, w₂, hw₂, hlt₂⟩ := hlater x hx
  have hseen : w ∈ a.seen := by
    rcases List.suffix_or_suffix_of_suffix hsuffix (h.safe.terms.ackSeen a ha) with hsub | hsub
    · exact hsub.subset List.mem_cons_self
    · rcases List.suffix_cons_iff.mp hsub with heq | hsub
      · rw [heq]
        exact List.mem_cons_self
      · have := holder w₂ (hsub.subset hw₂)
        omega
  rw [← hnode] at hxw
  exact h.safe.acks.passed a ha w hseen (by omega) hxw

theorem Fixed.marked (h : Fixed g U s) {c : Nat} (hc : Committed U s w₀ c) :
    Marked s.wins s.leaderLog w₀ ((s.leaderLog w₀.term).take c) := by
  refine ⟨hc.won, List.take_prefix _ _, ?_⟩
  have hle := h.committed_le hc
  rw [List.length_take, Nat.min_eq_left hle]
  exact hc.own

/-- What is committed is in the log of each leader that is elected in a later term. -/
theorem Fixed.sound (h : Fixed g U s) {c : Nat} (hc : Committed U s w₀ c) :
    Sound ((s.leaderLog w₀.term).take c) w₀.term s.wins := by
  obtain ⟨Q, hQ, hacks⟩ := hc.acks
  -- by induction on the elections in the order they were won
  have hrec : ∀ ws, ws <:+ s.wins → Sound ((s.leaderLog w₀.term).take c) w₀.term ws := by
    intro ws
    induction ws with
    | nil =>
      intro _ w hw
      simp at hw
    | cons w older ih =>
      intro hsuffix w' hw' hlt
      have holder := ih ((List.suffix_cons _ _).trans hsuffix)
      rcases List.mem_cons.mp hw' with rfl | hw'
      · obtain ⟨hvotes, _, _⟩ := h.safe.terms.backed.of_suffix hsuffix
        obtain ⟨x, hx, hxw⟩ := hQ.inter (h.quorate w' (hsuffix.subset List.mem_cons_self))
        obtain ⟨a, ha, hnode, hterm, hlast⟩ := hacks x hx
        obtain ⟨v, hv, hvoter, _, hvterm, hlog, hseen⟩ := hvotes x hxw
        rw [← hlog]
        refine h.kept.elected w₀ _ (h.marked hc) v hv ?_ a ha ?_ ?_ ?_ ?_
        · exact fun w'' hw'' => holder w'' (hseen.subset hw'')
        · rw [hnode, hvoter]
        · exact hterm.ge
        · omega
        · rw [List.length_take]
          omega
      · exact holder w' hw' hlt
  exact hrec _ List.suffix_rfl

/-- What is committed is in the logs of a majority. -/
theorem Fixed.majority (h : Fixed g U s) {c : Nat} (hc : Committed U s w₀ c) :
    ∃ Q, Majority U Q ∧ ∀ x ∈ Q, (s.leaderLog w₀.term).take c <+: s.log x := by
  obtain ⟨Q, hQ, hacks⟩ := hc.acks
  refine ⟨Q, hQ, ?_⟩
  intro x hx
  obtain ⟨ack, hack, rfl, hterm, hlast⟩ := hacks x hx
  exact h.kept.acked w₀ _ (h.marked hc) (h.sound hc) ack hack hterm.ge
    ((List.length_take_le _ _).trans hlast)

/-- Of two committed parts one is a part of the other. -/
theorem Fixed.committed_prefix (h : Fixed g U s) {w₀ w₁ : Win N E} {c d : Nat}
    (hc : Committed U s w₀ c) (hd : Committed U s w₁ d) (hlt : w₀.term < w₁.term) :
    (s.leaderLog w₀.term).take c <+: (s.leaderLog w₁.term).take d := by
  obtain ⟨es, hlog, _⟩ := h.safe.logs.led w₁ hd.won
  have hle := h.committed_le hd
  refine (h.sound hc w₁ hd.won hlt).trans ?_
  refine List.prefix_of_prefix_length_le ?_ (List.take_prefix _ _) ?_
  · rw [hlog]
    exact List.prefix_append _ _
  · rw [List.length_take, Nat.min_eq_left hle]
    exact hd.own.le

/-- What is committed is the same wherever it is known. -/
theorem Fixed.settled_agree (h : Fixed g U s) (hl : Settled U s t l k) (hl' : Settled U s t' l' k')
    {j : Nat} (hj : j ≤ k) (hj' : j ≤ k') : l.take j = l'.take j := by
  by_cases hzero : j = 0
  · simp [hzero]
  · obtain ⟨hlen, w₀, c, hc, _, hp⟩ := hl.take_prefix (by omega)
    obtain ⟨hlen', w₁, d, hd, _, hp'⟩ := hl'.take_prefix (by omega)
    have hpj := (List.take_prefix_take_left hj).trans hp
    have hpj' := (List.take_prefix_take_left hj').trans hp'
    have hboth : ∃ m, l.take j <+: m ∧ l'.take j <+: m := by
      rcases Nat.lt_trichotomy w₀.term w₁.term with hlt | heq | hlt
      · exact ⟨_, hpj.trans (h.committed_prefix hc hd hlt), hpj'⟩
      · refine ⟨s.leaderLog w₀.term, hpj.trans (List.take_prefix _ _), ?_⟩
        rw [heq]
        exact hpj'.trans (List.take_prefix _ _)
      · exact ⟨_, hpj, hpj'.trans (h.committed_prefix hd hc hlt)⟩
    obtain ⟨m, hm, hm'⟩ := hboth
    refine (List.prefix_of_prefix_length_le hm hm' ?_).eq_of_length ?_
    all_goals
      rw [List.length_take, List.length_take]
      omega

/-- A request of its term takes nothing of what a node knows to be committed. -/
theorem Fixed.settled_accepted (h : Fixed g U s) (hl : Settled U s t l k) {m : Msg E} (hm : m ∈ s.msgs)
    (hterm : t ≤ m.term) : Settled U s t (accepted l m) k := by
  by_cases hk : k = 0
  · exact .inl hk
  · obtain ⟨hlen, w₀, c, hc, hT, hp⟩ := hl.take_prefix hk
    have hlen' : (l.take k).length = k := by
      rw [List.length_take]
      omega
    have hsent := h.kept.sent w₀ _ (h.marked hc) (h.sound hc) m hm (hT.trans hterm)
    refine hl.mono (Nat.le_refl _) (keeps_accepted (List.take_prefix _ _) ?_) (Nat.le_refl _)
    refine List.prefix_of_prefix_length_le ?_ hp ?_
    · refine (List.take_prefix_take_left ?_).trans hsent
      exact hp.length_le
    · rw [List.length_take]
      omega

/-- Leader completeness: a leader elected in a later term, at any later time, has
what was committed. -/
theorem Fixed.complete (h : Fixed g U s) (h' : Fixed g U s') (hg : Grows s s') {c : Nat}
    (hc : Committed U s w₀ c) {w : Win N E} (hw : w ∈ s'.wins) (hlt : w₀.term < w.term) :
    (s.leaderLog w₀.term).take c <+: w.log := by
  have hsound := h'.sound (hc.grows hg) w hw hlt
  have hle := h.committed_le hc
  have heq : (s.leaderLog w₀.term).take c = (s'.leaderLog w₀.term).take c := by
    rw [List.prefix_iff_eq_take.mp (hg.leaderLog w₀.term), List.take_take, Nat.min_eq_left hle]
  rw [heq]
  exact hsound

section

variable [DecidableEq N]

theorem Step.wins (hstep : Step g s s') : s.wins <:+ s'.wins := by
  cases hstep with
  | win n Q => exact List.suffix_cons _ _
  | _ => exact List.suffix_rfl

theorem Step.acks (hstep : Step g s s') : s.acks ⊆ s'.acks := by
  cases hstep with
  | append n es => exact Set.subset_insert _ _
  | accept n m => exact Set.subset_insert _ _
  | _ => exact Set.Subset.rfl

theorem Step.votes (hstep : Step g s s') : s.votes ⊆ s'.votes := by
  cases hstep with
  | grant v n R => exact Set.subset_insert _ _
  | _ => exact Set.Subset.rfl

theorem Step.msgs (hstep : Step g s s') : s.msgs ⊆ s'.msgs := by
  cases hstep with
  | cut n t last => exact Set.subset_insert _ _
  | _ => exact Set.Subset.rfl

theorem Step.reqs (hstep : Step g s s') {n : N} {t : Nat} {R : List E} (h : s.reqs n t = some R) :
    s'.reqs n t = some R := by
  cases hstep with
  | ask n' hnew =>
    by_cases hn : n = n'
    · subst hn
      have ht : t ≠ s.term n := by
        rintro rfl
        simp [hnew] at h
      simp only [Function.update_self, Function.update_of_ne ht]
      exact h
    · simp only [Function.update_of_ne hn]
      exact h
  | _ => exact h

theorem Safe.grows (h : Safe g s) (hsteps : Steps g s s') : Grows s s' := by
  induction hsteps with
  | refl =>
    exact ⟨List.suffix_rfl, Set.Subset.rfl, Set.Subset.rfl, Set.Subset.rfl, fun _ _ _ h => h,
      fun _ => List.prefix_rfl⟩
  | tail hrun hstep ih =>
    have hsafe := h.steps hrun
    exact ⟨ih.wins.trans hstep.wins, ih.acks.trans hstep.acks, ih.votes.trans hstep.votes,
      ih.msgs.trans hstep.msgs, fun n t R hR => hstep.reqs (ih.reqs n t R hR),
      fun t => (ih.leaderLog t).trans (hsafe.logs.leaderLog_step hstep t)⟩

theorem Fixed.step (h : Fixed g U s) (hstep : Step g s s') (hq : Quorate U s') :
    Fixed g U s' :=
  ⟨h.safe.step hstep, hq, h.kept.step h.safe h.fresh hstep⟩

theorem Fixed.steps (h : Fixed g U s) (hsteps : Steps g s s') (hq : Quorate U s') :
    Fixed g U s' := by
  induction hsteps with
  | refl => exact h
  | tail _ hstep ih => exact (ih (fun w hw => hq w (hstep.wins.subset hw))).step hstep hq

end

end PerfRaft.Lib.Replicated
