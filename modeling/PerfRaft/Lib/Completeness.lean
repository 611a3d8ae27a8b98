import PerfRaft.Lib.LogMatching

namespace PerfRaft.Lib.Replicated

variable {N E : Type} [Stamped E] {g : Setting E} {s s' : State N E}

/-- What holds of requests and of what was acknowledged. -/
structure Acks (s : State N E) : Prop where
  range : ∀ m ∈ s.msgs, m.last ≤ m.log.length
  deposed : ∀ w ∈ s.wins, s.log w.leader = s.leaderLog w.term ∨ ∃ w' ∈ s.wins, w.term < w'.term
  sent : ∀ m ∈ s.msgs, m.log <+: s.leaderLog m.term ∨ ∃ w ∈ s.wins, m.term < w.term
  bounded : ∀ a ∈ s.acks, a.last ≤ (s.leaderLog a.term).length ∨ ∃ w ∈ a.seen, a.term < w.term
  passed : ∀ a ∈ s.acks, ∀ w ∈ a.seen, a.term < w.term → a.node ∉ w.quorum
  order : ∀ a ∈ s.acks, ∀ v ∈ s.votes, a.node = v.voter → a.term < v.term → a.seen <:+ v.seen

omit [Stamped E] in
theorem Acks.prefix_leaderLog (h : Acks s) {a : Ack N E} (ha : a ∈ s.acks) {leaderLog : Nat → List E}
    (hgrow : ∀ t, s.leaderLog t <+: leaderLog t) :
    a.last ≤ (leaderLog a.term).length ∨ ∃ w ∈ a.seen, a.term < w.term := by
  rcases h.bounded a ha with hle | hlater
  · exact .inl (hle.trans (hgrow _).length_le)
  · exact .inr hlater

theorem Init.acks_ok (h : Init g s) : Acks s where
  range := by simp [h.msgs]
  deposed := by simp [h.wins]
  sent := by simp [h.msgs]
  bounded := by simp [h.acks]
  passed := by simp [h.acks]
  order := by simp [h.acks]

variable {n : N}

/-- A node that acknowledges in its term is in no quorum of a later term. -/
theorem Terms.passed (h : Terms g s) {w : Win N E} (hw : w ∈ s.wins)
    (hlt : s.term n < w.term) : n ∉ w.quorum := by
  intro hn
  obtain ⟨v, hv, hvoter, _, hterm, _⟩ := h.backed.of_mem hw n hn
  have hle := h.vote v hv
  rw [hvoter, hterm] at hle
  omega

theorem Acks.grant (k : Acks s) (h : Terms g s) {v n : N} {R : List E} :
    Acks { s with votes := insert ⟨v, n, s.term v, R, s.wins⟩ s.votes } := by
  refine { k with order := ?_ }
  rintro a ha x (rfl | hx) hnode hlt
  · exact h.ackSeen a ha
  · exact k.order a ha x hx hnode hlt

omit [Stamped E] in
theorem Acks.cut (k : Acks s) {t last : Nat}
    (hwon : ∃ w ∈ s.wins, w.leader = n ∧ w.term = t)
    (hlast : last ≤ (s.log n).length) :
    Acks { s with msgs := insert ⟨t, s.log n, last⟩ s.msgs } := by
  refine { k with range := ?_, sent := ?_ }
  · rintro m (rfl | hm)
    · exact hlast
    · exact k.range m hm
  · rintro m (rfl | hm)
    · obtain ⟨w, hw, rfl, rfl⟩ := hwon
      rcases k.deposed w hw with hlog | hlater
      · simp only [hlog]
        exact .inl List.prefix_rfl
      · exact .inr hlater
    · exact k.sent m hm

section

variable [DecidableEq N]

theorem Acks.won (k : Acks s) (l : Logs g s) {Q : List N}
    (hroot : g.rootTerm < s.term n)
    (hvotes : ∀ v ∈ Q, ∃ vote ∈ s.votes, vote.voter = v ∧ vote.candidate = n ∧
      vote.term = s.term n)
    (hunwon : ∀ w ∈ s.wins, w.term ≠ s.term n) :
    Acks { s with
      wins := ⟨n, s.term n, s.log n, Q⟩ :: s.wins
      leaderLog := Function.update s.leaderLog (s.term n) (s.log n) } := by
  have hgrow := l.leaderLog_step (.win s n Q hroot hvotes hunwon)
  refine { k with deposed := ?_, sent := ?_, bounded := ?_ }
  · intro w hw
    rcases List.mem_cons.mp hw with rfl | hw
    · simp only [Function.update_self, true_or]
    · simp only [Function.update_of_ne (hunwon w hw)]
      rcases k.deposed w hw with hlog | ⟨w', hw', hlt⟩
      · exact .inl hlog
      · exact .inr ⟨w', List.mem_cons_of_mem _ hw', hlt⟩
  · intro m hm
    rcases k.sent m hm with hp | ⟨w, hw, hlt⟩
    · exact .inl (hp.trans (hgrow _))
    · exact .inr ⟨w, List.mem_cons_of_mem _ hw, hlt⟩
  · intro a ha
    exact k.prefix_leaderLog ha hgrow

theorem Acks.append (k : Acks s) (h : Terms g s) (l : Logs g s) {es : List E}
    (hwon : ∃ w ∈ s.wins, w.leader = n ∧ w.term = s.term n)
    (hes : ∀ e ∈ es, stamp e = s.term n) :
    Acks { s with
      log := Function.update s.log n (s.log n ++ es)
      leaderLog := Function.update s.leaderLog (s.term n) (s.log n ++ es)
      acks := insert ⟨n, s.term n, (s.log n ++ es).length, s.wins⟩ s.acks } := by
  have hgrow := l.leaderLog_step (.append s n es hwon hes)
  obtain ⟨w₀, hw₀, hleader, hterm₀⟩ := hwon
  refine { k with deposed := ?_, sent := ?_, bounded := ?_, passed := ?_, order := ?_ }
  · intro w hw
    by_cases hterm : w.term = s.term n
    · have hn : w.leader = n :=
        (h.leader_unique hw hw₀ (hterm.trans hterm₀.symm)).trans hleader
      simp only [hn, hterm, Function.update_self, true_or]
    · by_cases hn : w.leader = n
      · refine .inr ⟨w₀, hw₀, ?_⟩
        have hle := (h.win w hw).1
        rw [hn] at hle
        omega
      · simp only [Function.update_of_ne hn, Function.update_of_ne hterm]
        exact k.deposed w hw
  · intro m hm
    rcases k.sent m hm with hp | hlater
    · exact .inl (hp.trans (hgrow _))
    · exact .inr hlater
  · rintro a (rfl | ha)
    · simp only [Function.update_self, le_refl, true_or]
    · exact k.prefix_leaderLog ha hgrow
  · rintro a (rfl | ha) w hw hlt
    · exact h.passed hw hlt
    · exact k.passed a ha w hw hlt
  · rintro a (rfl | ha) v hv hnode hlt
    · have hle := h.vote v hv
      rw [← hnode] at hle
      exact absurd hlt (Nat.not_lt.mpr hle)
    · exact k.order a ha v hv hnode hlt

theorem Acks.accept (k : Acks s) (h : Terms g s) (l : Logs g s) {m : Msg E}
    (hm : m ∈ s.msgs) (hterm : s.term n = m.term) :
    Acks { s with
      log := Function.update s.log n (accepted (s.log n) m)
      acks := insert ⟨n, m.term, m.last, s.wins⟩ s.acks } := by
  refine { k with deposed := ?_, bounded := ?_, passed := ?_, order := ?_ }
  · intro w hw
    by_cases hn : w.leader = n
    · subst hn
      by_cases hown : w.term = m.term
      · have hlead : s.term w.leader = w.term := hterm.trans hown.symm
        simp only [Function.update_self]
        rw [l.accepted_own hw hm hown hlead]
        exact .inl (l.leading w hw hlead)
      · obtain ⟨w', hw', hterm'⟩ := h.msg m hm
        have hle := (h.win w hw).1
        exact .inr ⟨w', hw', by omega⟩
    · simp only [Function.update_of_ne hn]
      exact k.deposed w hw
  · rintro a (rfl | ha)
    · rcases k.sent m hm with hp | hlater
      · exact .inl ((k.range m hm).trans hp.length_le)
      · exact .inr hlater
    · exact k.bounded a ha
  · rintro a (rfl | ha) w hw hlt
    · simp only [← hterm] at hlt
      exact h.passed hw hlt
    · exact k.passed a ha w hw hlt
  · rintro a (rfl | ha) v hv hnode hlt
    · have hle := h.vote v hv
      rw [← hnode, hterm] at hle
      exact absurd hlt (Nat.not_lt.mpr hle)
    · exact k.order a ha v hv hnode hlt

theorem Acks.step (k : Acks s) (h : Terms g s) (l : Logs g s) (hstep : Step g s s') :
    Acks s' := by
  cases hstep with
  | bump n t hle => exact { k with }
  | ask n hnew => exact { k with }
  | grant v n R hreq hnew hlog => exact k.grant h
  | win n Q hroot hvotes hnew => exact k.won l hroot hvotes hnew
  | append n es hwon hes => exact k.append h l hwon hes
  | cut n t last hwon hlast => exact k.cut hwon hlast
  | accept n m hm hterm => exact k.accept h l hm hterm

end

/-- What holds of all states that can be reached, however elections are decided. -/
structure Safe (g : Setting E) (s : State N E) : Prop where
  terms : Terms g s
  logs : Logs g s
  acks : Acks s

theorem Init.safe (h : Init g s) : Safe g s := ⟨h.terms, h.logs, h.acks_ok⟩

section

variable [DecidableEq N]

theorem Safe.step (h : Safe g s) (hstep : Step g s s') : Safe g s' :=
  ⟨h.terms.step h.logs hstep, h.logs.step h.terms hstep, h.acks.step h.terms h.logs hstep⟩

theorem Safe.steps (h : Safe g s) (hsteps : Steps g s s') : Safe g s' := by
  induction hsteps with
  | refl => exact h
  | tail _ hstep ih => exact ih.step hstep

end

/-- The leaders brought entries of earlier terms only. -/
def Fresh (s : State N E) : Prop := ∀ w ∈ s.wins, ∀ e ∈ w.log, stamp e < w.term

/-- The log of a leader has no entries of later terms. -/
theorem Logs.stamp_le (l : Logs g s) (hf : Fresh s) {t : Nat} {e : E} (he : e ∈ s.leaderLog t) :
    stamp e ≤ t := by
  by_cases hroot : t = g.rootTerm
  · rw [hroot, l.root] at he
    rw [g.root_stamp e he, hroot]
  · by_cases hwon : ∃ w ∈ s.wins, w.term = t
    · obtain ⟨w, hw, rfl⟩ := hwon
      obtain ⟨es, hlog, hes⟩ := l.led w hw
      rw [hlog] at he
      rcases List.mem_append.mp he with he | he
      · exact (hf w hw e he).le
      · exact (hes e he).le
    · push Not at hwon
      rw [l.unwon t hroot hwon] at he
      simp at he

/-- The leaders of terms after `T` had `P` when they were elected. -/
def Sound (P : List E) (T : Nat) (ws : List (Win N E)) : Prop :=
  ∀ w ∈ ws, T < w.term → P <+: w.log

/-- `P` is a part of what the leader elected in `w₀` has, and ends with an entry of
its own. -/
structure Marked (wins : List (Win N E)) (leaderLog : Nat → List E) (w₀ : Win N E) (P : List E) :
    Prop where
  won : w₀ ∈ wins
  log : P <+: leaderLog w₀.term
  own : w₀.log.length < P.length

/-- Who has a part of a leader's log that all later leaders had when they were elected. -/
structure Kept (s : State N E) : Prop where
  held : ∀ w₀ P, Marked s.wins s.leaderLog w₀ P → Sound P w₀.term s.wins →
    ∀ w ∈ s.wins, w₀.term ≤ w.term → P <+: s.log w.leader
  acked : ∀ w₀ P, Marked s.wins s.leaderLog w₀ P → Sound P w₀.term s.wins →
    ∀ a ∈ s.acks, w₀.term ≤ a.term → P.length ≤ a.last → P <+: s.log a.node
  sent : ∀ w₀ P, Marked s.wins s.leaderLog w₀ P → Sound P w₀.term s.wins →
    ∀ m ∈ s.msgs, w₀.term ≤ m.term → m.log.take P.length <+: P
  elected : ∀ w₀ P, Marked s.wins s.leaderLog w₀ P → ∀ v ∈ s.votes, Sound P w₀.term v.seen →
    ∀ a ∈ s.acks, a.node = v.voter → w₀.term ≤ a.term → a.term < v.term → P.length ≤ a.last →
      P <+: v.log

theorem Init.kept (h : Init g s) : Kept s where
  held := by simp [h.wins]
  acked := by simp [h.acks]
  sent := by simp [h.msgs]
  elected := by simp [h.acks]

/-- The last entry of `P` is of the term `P` is marked for. -/
theorem Marked.last (l : Logs g s) {w₀ : Win N E} {P : List E} (hP : Marked s.wins s.leaderLog w₀ P) :
    ∃ e, P[P.length - 1]? = some e ∧ stamp e = w₀.term := by
  obtain ⟨es, hlog, hes⟩ := l.led w₀ hP.won
  have hlt : P.length - 1 < P.length := by
    have := hP.own
    omega
  refine ⟨P[P.length - 1], List.getElem?_eq_getElem hlt, hes _ ?_⟩
  have hget := hP.log.getElem hlt
  rw [hget]
  have hprefix := hP.log.length_le
  simp only [hlog] at hprefix ⊢
  rw [List.getElem_append_right (by have := hP.own; omega)]
  exact List.getElem_mem _

theorem Logs.valid_win (l : Logs g s) {w : Win N E} (hw : w ∈ s.wins) :
    Valid s.leaderLog w.log := by
  obtain ⟨es, hlog, _⟩ := l.led w hw
  refine (l.leaders w.term).of_isPrefix ?_
  rw [hlog]
  exact List.prefix_append _ _

/-- A log with an entry of term `T` at the end of `P` has no more entries up to there
than the leader of `T`. -/
theorem Valid.length_le {leaderLog : Nat → List E} {L P : List E} (h : Valid leaderLog L)
    (hP : P <+: L) {e : E} (he : P[P.length - 1]? = some e) : P.length ≤ (leaderLog (stamp e)).length := by
  rw [← List.getLast?_eq_getElem?] at he
  exact ((h.of_isPrefix hP).whole he).length_le

/-- A log at least as up to date as one with `P` has `P`. -/
theorem Logs.dominate (l : Logs g s) (h : Terms g s) (hf : Fresh s) {w₀ : Win N E} {P L R : List E}
    (hP : Marked s.wins s.leaderLog w₀ P) (hsound : Sound P w₀.term s.wins) (hL : P <+: L)
    (hvalidL : Valid s.leaderLog L) (hvalidR : Valid s.leaderLog R) (hup : UpToDate L R) :
    P <+: R := by
  have hlt := hP.own
  have hlen := hL.length_le
  obtain ⟨e, he, hstamp⟩ := hP.last l
  obtain ⟨eL, heL⟩ : ∃ eL, L.getLast? = some eL := by
    refine Option.isSome_iff_exists.mp ?_
    rw [List.getLast?_isSome]
    exact List.ne_nil_of_length_pos (by omega)
  have hwholeL := hvalidL.whole heL
  have hT : w₀.term ≤ lastStamp L := by
    have hmem : e ∈ s.leaderLog (stamp eL) :=
      hwholeL.subset (hL.subset (List.mem_of_getElem? he))
    have hle := l.stamp_le hf hmem
    simp only [lastStamp, heL, Option.map_some, Option.getD_some]
    omega
  have hroot := (h.win w₀ hP.won).2
  have hR : w₀.term ≤ lastStamp R := by
    rcases hup with hlt | ⟨heq, _⟩
    · omega
    · omega
  obtain ⟨eR, heR⟩ : ∃ eR, R.getLast? = some eR := by
    refine Option.isSome_iff_exists.mp ?_
    rw [List.getLast?_isSome]
    rintro rfl
    simp [lastStamp] at hR
    omega
  have hwholeR := hvalidR.whole heR
  have hmemR := List.mem_of_getLast? heR
  have hstampR : lastStamp R = stamp eR := by simp [lastStamp, heR]
  rcases Nat.lt_or_eq_of_le hR with hlater | hsame
  · rcases l.origin hvalidR hmemR with hr | ⟨w, hw, hterm⟩
    · omega
    · have hPw := hsound w hw (by omega)
      refine hPw.trans ?_
      obtain ⟨es, hlog, _⟩ := l.led w hw
      rw [← hterm] at hwholeR
      have hwlog : w.log <+: s.leaderLog w.term := by
        rw [hlog]
        exact List.prefix_append _ _
      refine List.prefix_of_prefix_length_le hwlog hwholeR ?_
      by_contra hshort
      have hsub := List.prefix_of_prefix_length_le hwholeR hwlog (by omega)
      have := hf w hw eR (hsub.subset hmemR)
      omega
  · rw [← hstampR, ← hsame] at hwholeR
    refine List.prefix_of_prefix_length_le hP.log hwholeR ?_
    rcases hup with hlt' | ⟨_, hle⟩
    · omega
    · omega

theorem Kept.grant (k : Kept s) (h : Terms g s) (l : Logs g s) (hf : Fresh s) {v n : N} {R : List E}
    (hreq : s.reqs n (s.term v) = some R) (hlog : UpToDate (s.log v) R) :
    Kept { s with votes := insert ⟨v, n, s.term v, R, s.wins⟩ s.votes } := by
  refine { k with elected := ?_ }
  rintro w₀ P hP x (rfl | hx) hsound a ha hnode hT hlt hlast
  · have hhas := k.acked w₀ P hP hsound a ha hT hlast
    rw [hnode] at hhas
    exact l.dominate h hf hP hsound hhas (l.log v) (l.reqs _ _ _ hreq) hlog
  · exact k.elected w₀ P hP x hx hsound a ha hnode hT hlt hlast

omit [Stamped E] in
theorem Kept.cut (k : Kept s) {t last : Nat}
    (hwon : ∃ w ∈ s.wins, w.leader = n ∧ w.term = t) :
    Kept { s with msgs := insert ⟨t, s.log n, last⟩ s.msgs } := by
  refine { k with sent := ?_ }
  rintro w₀ P hP hsound m (rfl | hm) hT
  · obtain ⟨w, hw, rfl, rfl⟩ := hwon
    exact take_prefix_of_common List.prefix_rfl (k.held w₀ P hP hsound w hw hT)
  · exact k.sent w₀ P hP hsound m hm hT

/-- Of what a leader appends anew, later leaders had nothing. -/
theorem Logs.none_later (l : Logs g s) {P : List E} {T : Nat} {e : E}
    (he : P[P.length - 1]? = some e) (hstamp : stamp e = T) (hnew : ¬P.length ≤ (s.leaderLog T).length)
    {ws : List (Win N E)} (hws : ∀ w ∈ ws, w ∈ s.wins) (hsound : Sound P T ws) :
    ∀ w ∈ ws, w.term ≤ T := by
  intro w hw
  by_contra hlt
  have hlen := (l.valid_win (hws w hw)).length_le (hsound w hw (by omega)) he
  rw [hstamp] at hlen
  exact hnew hlen

omit [Stamped E] in
theorem Kept.won (k : Kept s) {Q : List N} (hunwon : ∀ w ∈ s.wins, w.term ≠ s.term n) :
    Kept { s with
      wins := ⟨n, s.term n, s.log n, Q⟩ :: s.wins
      leaderLog := Function.update s.leaderLog (s.term n) (s.log n) } := by
  have hback : ∀ w₀ P, Marked (⟨n, s.term n, s.log n, Q⟩ :: s.wins)
      (Function.update s.leaderLog (s.term n) (s.log n)) w₀ P → Marked s.wins s.leaderLog w₀ P := by
    intro w₀ P hP
    rcases List.mem_cons.mp hP.won with rfl | hold
    · have hlog := hP.log.length_le
      rw [Function.update_self] at hlog
      exact absurd hP.own (Nat.not_lt.mpr hlog)
    · have hlog := hP.log
      rw [Function.update_of_ne (hunwon w₀ hold)] at hlog
      exact ⟨hold, hlog, hP.own⟩
  have hsub : ∀ {P : List E} {T : Nat}, Sound P T (⟨n, s.term n, s.log n, Q⟩ :: s.wins) →
      Sound P T s.wins := fun hsound w hw => hsound w (List.mem_cons_of_mem _ hw)
  constructor
  · intro w₀ P hP hsound w hw hT
    rcases List.mem_cons.mp hw with rfl | hw
    · refine hsound _ List.mem_cons_self (Nat.lt_of_le_of_ne hT ?_)
      exact hunwon w₀ (hback _ _ hP).won
    · exact k.held w₀ P (hback _ _ hP) (hsub hsound) w hw hT
  · exact fun w₀ P hP hsound => k.acked w₀ P (hback _ _ hP) (hsub hsound)
  · exact fun w₀ P hP hsound => k.sent w₀ P (hback _ _ hP) (hsub hsound)
  · exact fun w₀ P hP => k.elected w₀ P (hback _ _ hP)

/-- What a leader appends anew is in no log but its own yet. -/
theorem Kept.append_new (h : Terms g s) (l : Logs g s) (c : Acks s) {T : Nat} {P : List E} {e : E}
    (he : P[P.length - 1]? = some e) (hstamp : stamp e = T)
    (hnew : ¬P.length ≤ (s.leaderLog T).length) {a : Ack N E} (ha : a ∈ s.acks)
    (hT : T ≤ a.term) (hlast : P.length ≤ a.last) : ¬Sound P T a.seen := by
  intro hsound
  have hnone := l.none_later he hstamp hnew (fun w hw => (h.ackSeen a ha).subset hw) hsound
  obtain ⟨w, hw, hterm⟩ := (h.ack a ha).2
  have hterm' : a.term = T := by
    have := hnone w hw
    omega
  rcases c.bounded a ha with hle | ⟨w', hw', hlt⟩
  · rw [hterm'] at hle
    omega
  · have := hnone w' hw'
    omega

section

variable [DecidableEq N]

theorem Kept.append (k : Kept s) (h : Terms g s) (l : Logs g s) (c : Acks s) {es : List E}
    (hwon : ∃ w ∈ s.wins, w.leader = n ∧ w.term = s.term n)
    (hes : ∀ e ∈ es, stamp e = s.term n) :
    Kept { s with
      log := Function.update s.log n (s.log n ++ es)
      leaderLog := Function.update s.leaderLog (s.term n) (s.log n ++ es)
      acks := insert ⟨n, s.term n, (s.log n ++ es).length, s.wins⟩ s.acks } := by
  have hgrow := l.leaderLog_step (.append s n es hwon hes)
  have l' := l.append h hwon hes (insert ⟨n, s.term n, (s.log n ++ es).length, s.wins⟩ s.acks)
  have hlonger : ∀ x, s.log x <+: Function.update s.log n (s.log n ++ es) x :=
    prefix_update (List.prefix_append _ _)
  obtain ⟨w₁, hw₁, hleader, hterm₁⟩ := hwon
  -- `P` was there before, or it ends with a new entry and no later term was won
  have hcases : ∀ w₀ P, Marked s.wins (Function.update s.leaderLog (s.term n) (s.log n ++ es)) w₀ P →
      Marked s.wins s.leaderLog w₀ P ∨ (w₀.term = s.term n ∧ P <+: s.log n ++ es ∧
        ∃ e, P[P.length - 1]? = some e ∧ stamp e = w₀.term ∧
          ¬P.length ≤ (s.leaderLog w₀.term).length) := by
    intro w₀ P hP
    by_cases hlen : P.length ≤ (s.leaderLog w₀.term).length
    · exact .inl ⟨hP.won, List.prefix_of_prefix_length_le hP.log (hgrow _) hlen, hP.own⟩
    · by_cases hterm : w₀.term = s.term n
      · have hlog := hP.log
        rw [hterm, Function.update_self] at hlog
        obtain ⟨e, he, hstamp⟩ := hP.last l'
        exact .inr ⟨hterm, hlog, e, he, hstamp, hlen⟩
      · have hlog := hP.log
        rw [Function.update_of_ne hterm] at hlog
        exact absurd hlog.length_le hlen
  refine ⟨?_, ?_, ?_, ?_⟩
  · intro w₀ P hP hsound w hw hT
    rcases hcases w₀ P hP with hold | ⟨hterm, hlog, e, he, hstamp, hnew⟩
    · exact (k.held w₀ P hold hsound w hw hT).trans (hlonger _)
    · have hle := l.none_later he hstamp hnew (fun _ h => h) hsound w hw
      have hn : w.leader = n :=
        (h.leader_unique hw hw₁ (by omega)).trans hleader
      simp only [hn, Function.update_self]
      exact hlog
  · rintro w₀ P hP hsound a (rfl | ha) hT hlast
    · simp only [Function.update_self]
      rcases hcases w₀ P hP with hold | ⟨hterm, hlog, _⟩
      · have hheld := k.held w₀ P hold hsound w₁ hw₁ (by rw [hterm₁]; exact hT)
        rw [hleader] at hheld
        exact hheld.trans (List.prefix_append _ _)
      · exact hlog
    · rcases hcases w₀ P hP with hold | ⟨hterm, hlog, e, he, hstamp, hnew⟩
      · exact (k.acked w₀ P hold hsound a ha hT hlast).trans (hlonger _)
      · refine absurd ?_ (Kept.append_new h l c he hstamp hnew ha hT hlast)
        exact fun w hw => hsound w ((h.ackSeen a ha).subset hw)
  · intro w₀ P hP hsound m hm hT
    rcases hcases w₀ P hP with hold | ⟨hterm, hlog, e, he, hstamp, hnew⟩
    · exact k.sent w₀ P hold hsound m hm hT
    · have hnone := l.none_later he hstamp hnew (fun _ h => h) hsound
      obtain ⟨w, hw, hmterm⟩ := h.msg m hm
      have hle := hnone w hw
      rcases c.sent m hm with hp | ⟨w', hw', hlt⟩
      · refine take_prefix_of_common (hp.trans (hgrow _)) ?_
        rw [show m.term = w₀.term by omega]
        exact hP.log
      · have := hnone w' hw'
        omega
  · rintro w₀ P hP v hv hsound a (rfl | ha) hnode hT hlt hlast
    · have hle := h.vote v hv
      rw [← hnode] at hle
      exact absurd hlt (Nat.not_lt.mpr hle)
    · rcases hcases w₀ P hP with hold | ⟨hterm, hlog, e, he, hstamp, hnew⟩
      · exact k.elected w₀ P hold v hv hsound a ha hnode hT hlt hlast
      · refine absurd ?_ (Kept.append_new h l c he hstamp hnew ha hT hlast)
        exact fun w hw => hsound w ((c.order a ha v hv hnode hlt).subset hw)

theorem Kept.accept (k : Kept s) (h : Terms g s) (c : Acks s) {m : Msg E}
    (hm : m ∈ s.msgs) (hterm : s.term n = m.term) :
    Kept { s with
      log := Function.update s.log n (accepted (s.log n) m)
      acks := insert ⟨n, m.term, m.last, s.wins⟩ s.acks } := by
  have hkeep : ∀ w₀ P, Marked s.wins s.leaderLog w₀ P → Sound P w₀.term s.wins → ∀ x,
      w₀.term ≤ s.term x → P <+: s.log x →
        P <+: Function.update s.log n (accepted (s.log n) m) x := by
    intro w₀ P hP hsound x hT hx
    by_cases hn : x = n
    · subst hn
      rw [Function.update_self]
      exact keeps_accepted hx (k.sent w₀ P hP hsound m hm (by omega))
    · rw [Function.update_of_ne hn]
      exact hx
  refine { k with held := ?_, acked := ?_, elected := ?_ }
  · intro w₀ P hP hsound w hw hT
    exact hkeep w₀ P hP hsound _ (hT.trans (h.win w hw).1) (k.held w₀ P hP hsound w hw hT)
  · rintro w₀ P hP hsound a (rfl | ha) hT hlast
    · simp only [Function.update_self]
      have hrange := c.range m hm
      refine (isPrefix_take_of_take (k.sent w₀ P hP hsound m hm hT) hlast ?_).trans
        (prefix_accepted _ _)
      exact hlast.trans hrange
    · exact hkeep w₀ P hP hsound _ (hT.trans (h.ack a ha).1) (k.acked w₀ P hP hsound a ha hT hlast)
  · rintro w₀ P hP v hv hsound a (rfl | ha) hnode hT hlt hlast
    · have hle := h.vote v hv
      rw [← hnode, hterm] at hle
      exact absurd hlt (Nat.not_lt.mpr hle)
    · exact k.elected w₀ P hP v hv hsound a ha hnode hT hlt hlast

theorem Kept.step (k : Kept s) (h : Safe g s) (hf : Fresh s) (hstep : Step g s s') : Kept s' := by
  cases hstep with
  | bump n t hle => exact { k with }
  | ask n hnew => exact { k with }
  | grant v n R hreq hnew hlog => exact k.grant h.terms h.logs hf hreq hlog
  | win n Q hroot hvotes hnew => exact k.won hnew
  | append n es hwon hes => exact k.append h.terms h.logs h.acks hwon hes
  | cut n t last hwon hlast => exact k.cut hwon
  | accept n m hm hterm => exact k.accept h.terms h.acks hm hterm

end

end PerfRaft.Lib.Replicated
