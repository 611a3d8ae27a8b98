import Mathlib.Data.List.Infix
import PerfRaft.Lib.ReplicatedLog

namespace PerfRaft.Lib.Replicated

variable {N E : Type}

theorem isPrefix_take_of_take {l P : List E} {k : Nat} (h : l.take P.length <+: P)
    (hk : P.length ≤ k) (hl : P.length ≤ l.length) : P <+: l.take k := by
  have heq : l.take P.length = P := h.eq_of_length (by rw [List.length_take]; omega)
  nth_rewrite 1 [← heq]
  exact List.take_prefix_take_left hk

theorem take_prefix_of_common {l P m : List E} (hl : l <+: m) (hP : P <+: m) :
    l.take P.length <+: P := by
  refine List.prefix_of_prefix_length_le ((List.take_prefix _ _).trans hl) hP ?_
  rw [List.length_take]
  omega

theorem prefix_accepted (l : List E) (m : Msg E) : m.log.take m.last <+: accepted l m := by
  unfold accepted
  split
  · assumption
  · exact List.prefix_rfl

variable {l : List E} {m : Msg E}

theorem accepted_eq_self (h : m.log.take m.last <+: l) : accepted l m = l := by
  unfold accepted
  exact if_pos h

/-- A request whose entries agree with `P` leaves a log that starts with `P` so. -/
theorem keeps_accepted {l P : List E} (hl : P <+: l)
    (hm : m.log.take P.length <+: P) : P <+: accepted l m := by
  unfold accepted
  split
  · exact hl
  · rename_i hnot
    by_cases hlast : m.last ≤ P.length
    · exact absurd (((List.take_prefix_take_left hlast).trans hm).trans hl) hnot
    · by_cases hlen : P.length ≤ m.log.length
      · exact isPrefix_take_of_take hm (by omega) hlen
      · have hshort : m.log.take P.length = m.log := List.take_of_length_le (by omega)
        rw [hshort] at hm
        exact absurd (((List.take_prefix _ _).trans hm).trans hl) hnot

/-- The elections of the list were won with votes given before, each in a term that
was not won before. -/
def Backed (votes : Set (Vote N E)) : List (Win N E) → Prop
  | [] => True
  | w :: older =>
    (∀ x ∈ w.quorum, ∃ v ∈ votes, v.voter = x ∧ v.candidate = w.leader ∧ v.term = w.term ∧
        v.log = w.log ∧ v.seen <:+ older) ∧
      (∀ w' ∈ older, w'.term ≠ w.term) ∧ Backed votes older

theorem Backed.mono {votes votes' : Set (Vote N E)} (h : votes ⊆ votes')
    {ws : List (Win N E)} (hb : Backed votes ws) : Backed votes' ws := by
  induction ws with
  | nil => trivial
  | cons w older ih =>
    obtain ⟨hvotes, hnew, hrest⟩ := hb
    refine ⟨?_, hnew, ih hrest⟩
    intro x hx
    obtain ⟨v, hv, hrec⟩ := hvotes x hx
    exact ⟨v, h hv, hrec⟩

theorem Backed.of_mem {votes : Set (Vote N E)} {ws : List (Win N E)} (hb : Backed votes ws)
    {w : Win N E} (hw : w ∈ ws) : ∀ x ∈ w.quorum, ∃ v ∈ votes, v.voter = x ∧
      v.candidate = w.leader ∧ v.term = w.term ∧ v.log = w.log := by
  induction ws with
  | nil => simp at hw
  | cons w' older ih =>
    obtain ⟨hvotes, _, hrest⟩ := hb
    rcases List.mem_cons.mp hw with rfl | hw
    · intro x hx
      obtain ⟨v, hv, hvoter, hcand, hterm, hlog, _⟩ := hvotes x hx
      exact ⟨v, hv, hvoter, hcand, hterm, hlog⟩
    · exact ih hrest hw

/-- A term is won once. -/
theorem Backed.unique {votes : Set (Vote N E)} {ws : List (Win N E)} (hb : Backed votes ws)
    {w w' : Win N E} (hw : w ∈ ws) (hw' : w' ∈ ws) (hterm : w.term = w'.term) : w = w' := by
  induction ws with
  | nil => simp at hw
  | cons w₀ older ih =>
    obtain ⟨_, hnew, hrest⟩ := hb
    rcases List.mem_cons.mp hw with rfl | hold
    · rcases List.mem_cons.mp hw' with rfl | hold'
      · rfl
      · exact absurd hterm.symm (hnew w' hold')
    · rcases List.mem_cons.mp hw' with rfl | hold'
      · exact absurd hterm (hnew w hold)
      · exact ih hrest hold hold'

theorem prefix_update {ι : Type} [DecidableEq ι] {f : ι → List E} {i : ι}
    (h : f i <+: l) (j : ι) : f j <+: Function.update f i l j := by
  by_cases hj : j = i
  · rw [hj, Function.update_self]
    exact h
  · rw [Function.update_of_ne hj]

variable [Stamped E]

/-- Up to each of its entries, a log is that of the leader the entry comes from. -/
def Valid (leaderLog : Nat → List E) (l : List E) : Prop :=
  ∀ i e, l[i]? = some e → l.take (i + 1) <+: leaderLog (stamp e)

theorem valid_nil (leaderLog : Nat → List E) : Valid leaderLog [] := by
  intro i e h
  simp at h

theorem Valid.mono {leaderLog leaderLog' : Nat → List E} (h : Valid leaderLog l)
    (hgrow : ∀ t, leaderLog t <+: leaderLog' t) : Valid leaderLog' l :=
  fun i e he => (h i e he).trans (hgrow _)

variable {leaderLog : Nat → List E}

theorem Valid.take (h : Valid leaderLog l) (k : Nat) :
    Valid leaderLog (l.take k) := by
  intro i e he
  rw [List.getElem?_take] at he
  split at he
  · rename_i hi
    rw [List.take_take, Nat.min_eq_left (by omega)]
    exact h i e he
  · simp at he

theorem Valid.of_isPrefix {l l' : List E} (h : Valid leaderLog l)
    (hp : l' <+: l) : Valid leaderLog l' := by
  rw [List.prefix_iff_eq_take.mp hp]
  exact h.take _

/-- A log is a part of that of the leader its last entry comes from. -/
theorem Valid.whole (h : Valid leaderLog l) {e : E}
    (he : l.getLast? = some e) : l <+: leaderLog (stamp e) := by
  rw [List.getLast?_eq_getElem?] at he
  have hlt := (List.getElem?_eq_some_iff.mp he).1
  have hp := h _ e he
  rwa [Nat.sub_add_cancel (by omega), List.take_length] at hp

theorem Valid.append {l es : List E} {t : Nat} (h : Valid leaderLog l)
    (hes : ∀ e ∈ es, stamp e = t) (hlog : l ++ es <+: leaderLog t) : Valid leaderLog (l ++ es) := by
  intro i e he
  by_cases hi : i < l.length
  · rw [List.getElem?_append_left hi] at he
    rw [List.take_append_of_le_length (by omega)]
    exact h i e he
  · rw [List.getElem?_append_right (by omega)] at he
    rw [hes e (List.mem_of_getElem? he)]
    exact (List.take_prefix _ _).trans hlog

/-- Two logs that have an entry of the same term at the same place are the same up to
there. -/
def Matching (l l' : List E) : Prop :=
  ∀ i e e', l[i]? = some e → l'[i]? = some e' → stamp e = stamp e' →
    l.take (i + 1) = l'.take (i + 1)

theorem Valid.take_eq {l l' : List E} (h : Valid leaderLog l)
    (h' : Valid leaderLog l') {i : Nat} {e e' : E} (he : l[i]? = some e) (he' : l'[i]? = some e')
    (hterm : stamp e = stamp e') : l.take (i + 1) = l'.take (i + 1) := by
  have hp := h i e he
  have hp' := h' i e' he'
  rw [← hterm] at hp'
  have hlen : (l.take (i + 1)).length = (l'.take (i + 1)).length := by
    have hi := (List.getElem?_eq_some_iff.mp he).1
    have hi' := (List.getElem?_eq_some_iff.mp he').1
    rw [List.length_take, List.length_take]
    omega
  exact (List.prefix_of_prefix_length_le hp hp' (by omega)).eq_of_length hlen

theorem Valid.matching {l l' : List E} (h : Valid leaderLog l)
    (h' : Valid leaderLog l') : Matching l l' :=
  fun _ _ _ he he' hterm => h.take_eq h' he he' hterm

theorem Matching.accepted (h : Matching l m.log) :
    Matching (accepted l m) m.log := by
  unfold Replicated.accepted
  split
  · exact h
  · intro i e e' he _ _
    have hlt := (List.getElem?_eq_some_iff.mp he).1
    rw [List.length_take] at hlt
    rw [List.take_take, Nat.min_eq_left (by omega)]

theorem Valid.accepted (h : Valid leaderLog l)
    (hm : Valid leaderLog m.log) : Valid leaderLog (accepted l m) := by
  unfold Replicated.accepted
  split
  · exact h
  · exact hm.take _

variable {g : Setting E} {s s' : State N E}

/-- What holds of terms and votes. -/
structure Terms (g : Setting E) (s : State N E) : Prop where
  vote : ∀ v ∈ s.votes, v.term ≤ s.term v.voter
  once : ∀ v ∈ s.votes, ∀ v' ∈ s.votes, v.voter = v'.voter → v.term = v'.term → v = v'
  asked : ∀ v ∈ s.votes, s.reqs v.candidate v.term = some v.log
  req : ∀ n t R, s.reqs n t = some R → t ≤ s.term n
  win : ∀ w ∈ s.wins, w.term ≤ s.term w.leader ∧ g.rootTerm < w.term
  backed : Backed s.votes s.wins
  msg : ∀ m ∈ s.msgs, ∃ w ∈ s.wins, w.term = m.term
  ack : ∀ a ∈ s.acks, a.term ≤ s.term a.node ∧ ∃ w ∈ a.seen, w.term = a.term
  voteSeen : ∀ v ∈ s.votes, v.seen <:+ s.wins
  ackSeen : ∀ a ∈ s.acks, a.seen <:+ s.wins

/-- What holds of the logs. -/
structure Logs (g : Setting E) (s : State N E) : Prop where
  root : s.leaderLog g.rootTerm = g.root
  unwon : ∀ t, t ≠ g.rootTerm → (∀ w ∈ s.wins, w.term ≠ t) → s.leaderLog t = []
  led : ∀ w ∈ s.wins, ∃ es, s.leaderLog w.term = w.log ++ es ∧ ∀ e ∈ es, stamp e = w.term
  leading : ∀ w ∈ s.wins, s.term w.leader = w.term → s.log w.leader = s.leaderLog w.term
  request : ∀ n t R, s.reqs n t = some R → s.term n = t → (∀ w ∈ s.wins, w.term ≠ t) → s.log n = R
  log : ∀ n, Valid s.leaderLog (s.log n)
  reqs : ∀ n t R, s.reqs n t = some R → Valid s.leaderLog R
  leaders : ∀ t, Valid s.leaderLog (s.leaderLog t)
  msgs : ∀ m ∈ s.msgs, Valid s.leaderLog m.log
  own : ∀ m ∈ s.msgs, ∀ w ∈ s.wins, w.term = m.term → s.term w.leader = w.term →
    m.log <+: s.leaderLog m.term
  elder : ∀ v ∈ s.votes, ∀ e ∈ v.log, ∀ w ∈ s.wins, w.term = stamp e → v.term ≤ w.term →
    v.voter ∉ w.quorum

theorem Terms.leader_unique (h : Terms g s) {w w' : Win N E} (hw : w ∈ s.wins) (hw' : w' ∈ s.wins)
    (hterm : w.term = w'.term) : w.leader = w'.leader := by
  rw [h.backed.unique hw hw' hterm]

variable {n : N}

/-- The log of a candidate that wins is the one it asked with. -/
theorem Logs.log_of_win (h : Terms g s) (l : Logs g s) {v : Vote N E} (hv : v ∈ s.votes)
    (hcand : v.candidate = n) (hterm : v.term = s.term n)
    (hunwon : ∀ w ∈ s.wins, w.term ≠ s.term n) : v.log = s.log n := by
  have hreq := h.asked v hv
  rw [hcand, hterm] at hreq
  exact (l.request n _ _ hreq rfl hunwon).symm

theorem Init.terms (h : Init g s) : Terms g s where
  vote := by simp [h.votes]
  once := by simp [h.votes]
  asked := by simp [h.votes]
  req := by simp [h.reqs]
  win := by simp [h.wins]
  backed := by rw [h.wins]; trivial
  msg := by simp [h.msgs]
  ack := by simp [h.acks]
  voteSeen := by simp [h.votes]
  ackSeen := by simp [h.acks]

theorem Terms.grant (h : Terms g s) {v n : N} {R : List E} (hreq : s.reqs n (s.term v) = some R)
    (hnew : ∀ vote ∈ s.votes, vote.voter = v → vote.term ≠ s.term v) :
    Terms g { s with votes := insert ⟨v, n, s.term v, R, s.wins⟩ s.votes } := by
  refine { h with vote := ?_, once := ?_, asked := ?_, backed := ?_, voteSeen := ?_ }
  · rintro x (rfl | hx)
    · exact Nat.le_refl _
    · exact h.vote x hx
  · rintro x (rfl | hx) x' (rfl | hx') hvoter hterm
    · rfl
    · exact absurd hterm.symm (hnew x' hx' hvoter.symm)
    · exact absurd hterm (hnew x hx hvoter)
    · exact h.once x hx x' hx' hvoter hterm
  · rintro x (rfl | hx)
    · exact hreq
    · exact h.asked x hx
  · exact h.backed.mono (Set.subset_insert _ _)
  · rintro x (rfl | hx)
    · exact List.suffix_rfl
    · exact h.voteSeen x hx

theorem Terms.won (h : Terms g s) (l : Logs g s) {Q : List N}
    (hroot : g.rootTerm < s.term n)
    (hvotes : ∀ v ∈ Q, ∃ vote ∈ s.votes, vote.voter = v ∧ vote.candidate = n ∧
      vote.term = s.term n)
    (hunwon : ∀ w ∈ s.wins, w.term ≠ s.term n) (leaderLog : Nat → List E) :
    Terms g { s with wins := ⟨n, s.term n, s.log n, Q⟩ :: s.wins, leaderLog := leaderLog } := by
  refine { h with win := ?_, backed := ⟨?_, hunwon, h.backed⟩, msg := ?_, voteSeen := ?_, ackSeen := ?_ }
  · intro w hw
    rcases List.mem_cons.mp hw with rfl | hw
    · exact ⟨Nat.le_refl _, hroot⟩
    · exact h.win w hw
  · intro x hx
    obtain ⟨v, hv, hvoter, hcand, hterm⟩ := hvotes x hx
    exact ⟨v, hv, hvoter, hcand, hterm, l.log_of_win h hv hcand hterm hunwon, h.voteSeen v hv⟩
  · intro m hm
    obtain ⟨w, hw, hterm⟩ := h.msg m hm
    exact ⟨w, List.mem_cons_of_mem _ hw, hterm⟩
  · intro v hv
    exact (h.voteSeen v hv).trans (List.suffix_cons _ _)
  · intro a ha
    exact (h.ackSeen a ha).trans (List.suffix_cons _ _)

theorem Terms.acked (h : Terms g s) (hwon : ∃ w ∈ s.wins, w.term = s.term n) (last : Nat)
    (log : N → List E) (leaderLog : Nat → List E) :
    Terms g { s with
      log := log, leaderLog := leaderLog, acks := insert ⟨n, s.term n, last, s.wins⟩ s.acks } := by
  refine { h with ack := ?_, ackSeen := ?_ }
  · rintro a (rfl | ha)
    · exact ⟨Nat.le_refl _, hwon⟩
    · exact h.ack a ha
  · rintro a (rfl | ha)
    · exact List.suffix_rfl
    · exact h.ackSeen a ha

/-- An entry of a valid log is from the root or from a term that was won. -/
theorem Logs.origin (l : Logs g s) {L : List E} (hL : Valid s.leaderLog L) {e : E} (he : e ∈ L) :
    stamp e = g.rootTerm ∨ ∃ w ∈ s.wins, w.term = stamp e := by
  by_cases hroot : stamp e = g.rootTerm
  · exact .inl hroot
  · refine .inr ?_
    by_contra hnone
    push Not at hnone
    obtain ⟨i, hi⟩ := List.getElem?_of_mem he
    have hp := hL i e hi
    rw [l.unwon _ hroot hnone, List.prefix_nil] at hp
    have hlen := congrArg List.length hp
    have hlt := (List.getElem?_eq_some_iff.mp hi).1
    rw [List.length_take, List.length_nil] at hlen
    omega

theorem Init.logs (h : Init g s) : Logs g s := by
  have hroot : Valid s.leaderLog g.root := by
    intro i e he
    rw [g.root_stamp e (List.mem_of_getElem? he), h.root]
    exact List.take_prefix _ _
  constructor
  case root =>
    exact h.root
  case unwon =>
    exact fun t ht _ => h.leaderLog t ht
  case led =>
    simp [h.wins]
  case leading =>
    simp [h.wins]
  case request =>
    simp [h.reqs]
  case log =>
    intro n
    rcases h.log n with hlog | hlog
    · rw [hlog]
      exact valid_nil _
    · rw [hlog]
      exact hroot
  case reqs =>
    simp [h.reqs]
  case leaders =>
    intro t
    by_cases ht : t = g.rootTerm
    · rw [ht, h.root]
      exact hroot
    · rw [h.leaderLog t ht]
      exact valid_nil _
  case msgs =>
    simp [h.msgs]
  case own =>
    simp [h.msgs]
  case elder =>
    simp [h.votes]

theorem Logs.grant (l : Logs g s) (h : Terms g s) {v n : N} {R : List E}
    (hnew : ∀ vote ∈ s.votes, vote.voter = v → vote.term ≠ s.term v) :
    Logs g { s with votes := insert ⟨v, n, s.term v, R, s.wins⟩ s.votes } := by
  refine { l with elder := ?_ }
  rintro x (rfl | hx) e he w hw hstamp hterm
  · intro hq
    obtain ⟨v', hv', hvoter, _, hvterm, _⟩ := h.backed.of_mem hw v hq
    have hle := h.vote v' hv'
    rw [hvoter, hvterm] at hle
    exact hnew v' hv' hvoter (by rw [hvterm]; exact Nat.le_antisymm hle hterm)
  · exact l.elder x hx e he w hw hstamp hterm

theorem Logs.cut (l : Logs g s) (h : Terms g s) {t last : Nat}
    (hwon : ∃ w ∈ s.wins, w.leader = n ∧ w.term = t) :
    Logs g { s with msgs := insert ⟨t, s.log n, last⟩ s.msgs } := by
  obtain ⟨w₀, hw₀, hleader, hterm₀⟩ := hwon
  refine { l with msgs := ?_, own := ?_ }
  · rintro m (rfl | hm)
    · exact l.log n
    · exact l.msgs m hm
  · rintro m (rfl | hm) w hw hm' hterm
    · have heq := h.backed.unique hw hw₀ (hm'.trans hterm₀.symm)
      have hlog := l.leading w hw hterm
      rw [heq, hleader, hterm₀] at hlog
      simp only [hlog]
      exact List.prefix_rfl
    · exact l.own m hm w hw hm' hterm

theorem Logs.won (l : Logs g s) (h : Terms g s) {Q : List N}
    (hroot : g.rootTerm < s.term n) (hunwon : ∀ w ∈ s.wins, w.term ≠ s.term n) :
    Logs g { s with
      wins := ⟨n, s.term n, s.log n, Q⟩ :: s.wins
      leaderLog := Function.update s.leaderLog (s.term n) (s.log n) } := by
  have hgrow : ∀ t, s.leaderLog t <+: Function.update s.leaderLog (s.term n) (s.log n) t := by
    refine prefix_update ?_
    rw [l.unwon _ (by omega) hunwon]
    exact List.nil_prefix
  constructor
  case root =>
    simp only [Function.update_of_ne (Nat.ne_of_lt hroot)]
    exact l.root
  case unwon =>
    intro t ht hnone
    have hne : t ≠ s.term n := (hnone _ List.mem_cons_self).symm
    simp only [Function.update_of_ne hne]
    exact l.unwon t ht (fun w hw => hnone w (List.mem_cons_of_mem _ hw))
  case led =>
    intro w hw
    rcases List.mem_cons.mp hw with rfl | hw
    · exact ⟨[], by simp, by simp⟩
    · simp only [Function.update_of_ne (hunwon w hw)]
      exact l.led w hw
  case leading =>
    intro w hw hterm
    rcases List.mem_cons.mp hw with rfl | hw
    · simp
    · simp only [Function.update_of_ne (hunwon w hw)]
      exact l.leading w hw hterm
  case request =>
    intro x t R hR hterm hnone
    exact l.request x t R hR hterm (fun w hw => hnone w (List.mem_cons_of_mem _ hw))
  case log =>
    exact fun x => (l.log x).mono hgrow
  case reqs =>
    exact fun x t R hR => (l.reqs x t R hR).mono hgrow
  case leaders =>
    intro t
    by_cases ht : t = s.term n
    · subst ht
      simp only [Function.update_self]
      exact (l.log n).mono hgrow
    · simp only [Function.update_of_ne ht]
      exact (l.leaders t).mono hgrow
  case msgs =>
    exact fun m hm => (l.msgs m hm).mono hgrow
  case own =>
    intro m hm w hw hm' hterm
    obtain ⟨w', hw', hterm'⟩ := h.msg m hm
    rcases List.mem_cons.mp hw with rfl | hw
    · exact absurd (hterm'.trans hm'.symm) (hunwon w' hw')
    · exact (l.own m hm w hw hm' hterm).trans (hgrow _)
  case elder =>
    intro v hv e he w hw hstamp hterm
    rcases List.mem_cons.mp hw with rfl | hw
    · rcases l.origin (l.reqs _ _ _ (h.asked v hv)) he with hstamp' | ⟨w', hw', hstamp'⟩
      · simp only [] at hstamp
        omega
      · exact absurd (hstamp'.trans hstamp.symm) (hunwon w' hw')
    · exact l.elder v hv e he w hw hstamp hterm

/-- The leader of a term has all that is sent to it in this term. -/
theorem Logs.accepted_own (l : Logs g s) {w : Win N E} (hw : w ∈ s.wins)
    (hm : m ∈ s.msgs) (hterm : w.term = m.term) (hlead : s.term w.leader = w.term) :
    accepted (s.log w.leader) m = s.log w.leader := by
  have hown := l.own m hm w hw hterm hlead
  rw [← hterm, ← l.leading w hw hlead] at hown
  unfold accepted
  rw [if_pos ((List.take_prefix _ _).trans hown)]

section

variable [DecidableEq N]

theorem Terms.bump (h : Terms g s) {t : Nat} (hle : s.term n ≤ t) :
    Terms g { s with term := Function.update s.term n t } := by
  have hup : ∀ x, s.term x ≤ Function.update s.term n t x := by
    intro x
    by_cases hx : x = n
    · rw [hx, Function.update_self]
      exact hle
    · rw [Function.update_of_ne hx]
  exact { h with
    vote := fun v hv => (h.vote v hv).trans (hup _)
    req := fun n t R hR => (h.req n t R hR).trans (hup _)
    win := fun w hw => ⟨(h.win w hw).1.trans (hup _), (h.win w hw).2⟩
    ack := fun a ha => ⟨(h.ack a ha).1.trans (hup _), (h.ack a ha).2⟩ }

omit [Stamped E] in
theorem reqs_ask {n x : N} {t : Nat} {R : List E}
    (h : Function.update s.reqs n (Function.update (s.reqs n) (s.term n) (some (s.log n))) x t
      = some R) : (x = n ∧ t = s.term n ∧ R = s.log n) ∨ s.reqs x t = some R := by
  by_cases hx : x = n
  · subst hx
    rw [Function.update_self] at h
    by_cases ht : t = s.term x
    · subst ht
      rw [Function.update_self] at h
      exact .inl ⟨rfl, rfl, (Option.some.inj h).symm⟩
    · rw [Function.update_of_ne ht] at h
      exact .inr h
  · rw [Function.update_of_ne hx] at h
    exact .inr h

theorem Terms.ask (h : Terms g s) (hnew : s.reqs n (s.term n) = none) :
    Terms g { s with
      reqs := Function.update s.reqs n
        (Function.update (s.reqs n) (s.term n) (some (s.log n))) } := by
  refine { h with asked := ?_, req := ?_ }
  · intro v hv
    have hasked := h.asked v hv
    by_cases hc : v.candidate = n
    · by_cases ht : v.term = s.term n
      · rw [hc, ht, hnew] at hasked
        simp at hasked
      · rw [hc] at hasked ⊢
        simp only [Function.update_self, Function.update_of_ne ht]
        exact hasked
    · simp only [Function.update_of_ne hc]
      exact hasked
  · intro x t R hR
    rcases reqs_ask hR with ⟨rfl, rfl, _⟩ | hR
    · exact Nat.le_refl _
    · exact h.req x t R hR

theorem Terms.step (h : Terms g s) (l : Logs g s) (hstep : Step g s s') : Terms g s' := by
  cases hstep with
  | bump n t hle => exact h.bump hle
  | ask n hnew => exact h.ask hnew
  | grant v n R hreq hnew hlog => exact h.grant hreq hnew
  | win n Q hroot hvotes hnew => exact h.won l hroot hvotes hnew _
  | append n es hwon hes =>
    obtain ⟨w, hw, _, hterm⟩ := hwon
    exact h.acked ⟨w, hw, hterm⟩ _ _ _
  | cut n t last hwon hlast =>
    refine { h with msg := ?_ }
    rintro m (rfl | hm)
    · obtain ⟨w, hw, _, hterm⟩ := hwon
      exact ⟨w, hw, hterm⟩
    · exact h.msg m hm
  | accept n m hm hterm =>
    have hwon := h.msg m hm
    rw [← hterm] at hwon ⊢
    exact h.acked hwon _ _ _

theorem Logs.bump (l : Logs g s) (h : Terms g s) {t : Nat} (hle : s.term n ≤ t) :
    Logs g { s with term := Function.update s.term n t } := by
  have hback : ∀ x t', Function.update s.term n t x = t' → t' ≤ s.term x → s.term x = t' := by
    intro x t' hx hle'
    by_cases hn : x = n
    · subst hn
      rw [Function.update_self] at hx
      omega
    · rwa [Function.update_of_ne hn] at hx
  exact { l with
    leading := fun w hw hterm => l.leading w hw (hback _ _ hterm (h.win w hw).1)
    request := fun x t' R hR hterm => l.request x t' R hR (hback _ _ hterm (h.req x t' R hR))
    own := fun m hm w hw hm' hterm => l.own m hm w hw hm' (hback _ _ hterm (h.win w hw).1) }

theorem Logs.ask (l : Logs g s) :
    Logs g { s with
      reqs := Function.update s.reqs n
        (Function.update (s.reqs n) (s.term n) (some (s.log n))) } := by
  refine { l with request := ?_, reqs := ?_ }
  · intro x t R hR hterm hunwon
    rcases reqs_ask hR with ⟨rfl, _, rfl⟩ | hR
    · rfl
    · exact l.request x t R hR hterm hunwon
  · intro x t R hR
    rcases reqs_ask hR with ⟨rfl, _, rfl⟩ | hR
    · exact l.log x
    · exact l.reqs x t R hR

theorem Logs.append (l : Logs g s) (h : Terms g s) {es : List E}
    (hwon : ∃ w ∈ s.wins, w.leader = n ∧ w.term = s.term n) (hes : ∀ e ∈ es, stamp e = s.term n)
    (acks : Set (Ack N E)) :
    Logs g { s with
      log := Function.update s.log n (s.log n ++ es)
      leaderLog := Function.update s.leaderLog (s.term n) (s.log n ++ es)
      acks := acks } := by
  obtain ⟨w₀, hw₀, hleader, hterm₀⟩ := hwon
  have hlog : s.log n = s.leaderLog (s.term n) := by
    rw [← hterm₀, ← l.leading w₀ hw₀ (by rw [hleader, hterm₀]), hleader]
  have hgrow : ∀ t, s.leaderLog t <+:
      Function.update s.leaderLog (s.term n) (s.log n ++ es) t := by
    refine prefix_update ?_
    rw [← hlog]
    exact List.prefix_append _ _
  have hvalid : Valid (Function.update s.leaderLog (s.term n) (s.log n ++ es)) (s.log n ++ es) := by
    refine ((l.log n).mono hgrow).append hes ?_
    rw [Function.update_self]
  constructor
  case root =>
    have hne : g.rootTerm ≠ s.term n := by
      have := (h.win w₀ hw₀).2
      omega
    simp only [Function.update_of_ne hne]
    exact l.root
  case unwon =>
    intro t ht hnone
    have hne : t ≠ s.term n := by
      rw [← hterm₀]
      exact (hnone w₀ hw₀).symm
    simp only [Function.update_of_ne hne]
    exact l.unwon t ht hnone
  case led =>
    intro w hw
    by_cases hterm : w.term = s.term n
    · obtain ⟨es', hled, hes'⟩ := l.led w hw
      refine ⟨es' ++ es, ?_, ?_⟩
      · rw [hterm] at hled
        simp only [hterm, Function.update_self]
        rw [hlog, hled, List.append_assoc]
      · intro e he
        rcases List.mem_append.mp he with he | he
        · exact hes' e he
        · rw [hes e he, hterm]
    · simp only [Function.update_of_ne hterm]
      exact l.led w hw
  case leading =>
    intro w hw hterm
    by_cases hn : w.leader = n
    · rw [hn] at hterm
      simp only [hn, ← hterm, Function.update_self]
    · have hne : w.term ≠ s.term n := by
        intro heq
        exact hn ((h.leader_unique hw hw₀ (by rw [heq, hterm₀])).trans hleader)
      simp only [Function.update_of_ne hn, Function.update_of_ne hne]
      exact l.leading w hw hterm
  case request =>
    intro x t R hR hterm hnone
    have hn : x ≠ n := by
      rintro rfl
      exact hnone w₀ hw₀ (by rw [hterm₀, ← hterm])
    simp only [Function.update_of_ne hn]
    exact l.request x t R hR hterm hnone
  case log =>
    intro x
    by_cases hn : x = n
    · simp only [hn, Function.update_self]
      exact hvalid
    · simp only [Function.update_of_ne hn]
      exact (l.log x).mono hgrow
  case reqs =>
    exact fun x t R hR => (l.reqs x t R hR).mono hgrow
  case leaders =>
    intro t
    by_cases ht : t = s.term n
    · simp only [ht, Function.update_self]
      exact hvalid
    · simp only [Function.update_of_ne ht]
      exact (l.leaders t).mono hgrow
  case msgs =>
    exact fun m hm => (l.msgs m hm).mono hgrow
  case own =>
    exact fun m hm w hw hm' hterm => (l.own m hm w hw hm' hterm).trans (hgrow _)
  case elder =>
    exact l.elder

theorem Logs.accept (l : Logs g s) (h : Terms g s) (hm : m ∈ s.msgs)
    (hterm : s.term n = m.term) (acks : Set (Ack N E)) :
    Logs g { s with log := Function.update s.log n (accepted (s.log n) m), acks := acks } := by
  refine { l with leading := ?_, request := ?_, log := ?_ }
  · intro w hw hlead
    by_cases hn : w.leader = n
    · subst hn
      simp only [Function.update_self]
      rw [l.accepted_own hw hm (hlead.symm.trans hterm) hlead]
      exact l.leading w hw hlead
    · simp only [Function.update_of_ne hn]
      exact l.leading w hw hlead
  · intro x t R hR ht hnone
    have hn : x ≠ n := by
      rintro rfl
      obtain ⟨w, hw, hw'⟩ := h.msg m hm
      exact hnone w hw (by rw [hw', ← hterm, ht])
    simp only [Function.update_of_ne hn]
    exact l.request x t R hR ht hnone
  · intro x
    by_cases hn : x = n
    · simp only [hn, Function.update_self]
      exact (l.log n).accepted (l.msgs m hm)
    · simp only [Function.update_of_ne hn]
      exact l.log x

theorem Logs.step (l : Logs g s) (h : Terms g s) (hstep : Step g s s') : Logs g s' := by
  cases hstep with
  | bump n t hle => exact l.bump h hle
  | ask n hnew => exact l.ask
  | grant v n R hreq hnew hlog => exact l.grant h hnew
  | win n Q hroot hvotes hnew => exact l.won h hroot hnew
  | append n es hwon hes => exact l.append h hwon hes _
  | cut n t last hwon hlast => exact l.cut h hwon
  | accept n m hm hterm => exact l.accept h hm hterm _

/-- No step takes anything from the log of a leader. -/
theorem Logs.leaderLog_step (l : Logs g s) (hstep : Step g s s') (t : Nat) :
    s.leaderLog t <+: s'.leaderLog t := by
  cases hstep with
  | win n Q hroot hvotes hnew =>
    refine prefix_update ?_ t
    rw [l.unwon _ (by omega) hnew]
    exact List.nil_prefix
  | append n es hwon hes =>
    obtain ⟨w, hw, hleader, hterm⟩ := hwon
    refine prefix_update ?_ t
    rw [← hterm, ← l.leading w hw (by rw [hleader, hterm]), hleader]
    exact List.prefix_append _ _
  | _ => exact List.prefix_rfl

end

end PerfRaft.Lib.Replicated
