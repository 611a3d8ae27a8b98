import PerfRaft.Proofs.Ballots

namespace PerfRaft.Verification

variable {n n' : Verification} {v : Nat} {f : VerifyFuture}

structure Sound (n : Verification) : Prop where
  started : ∀ v, n.awaited v ≠ [] → ∃ f, n.futures[v]? = some f ∧ f.quorumSize ≠ 0
  kept : ∀ (v : Nat) f, n.futures[v]? = some f → f.quorumSize ≠ 0 → f.answer = none →
    n.point ≠ .outside ∧ v ∈ n.notify
  tallied : ∀ (v : Nat) f, n.futures[v]? = some f → f.quorumSize ≠ 0 → f.answer = none → n.Live →
    ∃ heard, Tally n v f heard
  distinct : (activeIDs n.followers).Nodup
  others : n.Live → ∀ id ∈ activeIDs n.followers, id ≠ n.localID
  confirmed : ∀ (v : Nat) f latest, n.futures[v]? = some f → f.answer = some (.confirmed latest) →
    n.ConfirmedBy f latest

/-- The success of a request may count for `f`: the request is no older than the call and,
while `f` is under way, the follower is a voter. -/
def Counts (n : Verification) (s : NotifiedFollower) (req : SentRequest) (f : VerifyFuture) : Prop :=
  f.called < req.sent ∧ (n.Live → f.answer = none → s.peer.id ∈ n.latest.voterIDs)

instance (n : Verification) (s : NotifiedFollower) (req : SentRequest) (f : VerifyFuture) :
    Decidable (n.Counts s req f) :=
  inferInstanceAs (Decidable (f.called < req.sent ∧ (n.Live → f.answer = none → _)))

/-- The condition on an action: a verification starts only while this server is a voter; a
success may count for the verifications that wait for it; and the leader does not change the
voters during a verification. -/
def Countable (n : Verification) : VerifyAction → Prop
  | .takeVerify =>
    n.point = .select → ∀ v ∈ n.verifyCh.head?, ∀ f ∈ n.futures[v]?, f.quorumSize = 0 →
      n.localID ∈ n.latest.voterIDs
  | .reply i k result =>
    result.succeeded = true → ∀ s ∈ n.followers[i]?, ∀ req ∈ s.outstanding[k]?,
      ∀ v ∈ s.notify, ∀ f ∈ n.futures[v]?, n.Counts s req f
  | .configure latest _ => n.notify ≠ [] → latest.voterIDs = n.latest.voterIDs
  | _ => True

/-- What does not touch the futures keeps the invariant, as long as the same votes are
awaited of the same configuration. -/
theorem Sound.frame (h : Sound n) (hid : n'.localID = n.localID) (hlatest : n'.latest = n.latest)
    (hpoint : n.point ≠ .outside → n'.point ≠ .outside) (hlive : n'.Live → n.Live)
    (hnotify : n'.notify = n.notify) (hfutures : n'.futures = n.futures)
    (hactive : activeIDs n'.followers = activeIDs n.followers)
    (hawaited : ∀ v, (n'.awaited v).Perm (n.awaited v))
    (hanswered : ∀ p ∈ n.answered, p ∈ n'.answered)
    (hballots : ∀ b ∈ n'.ballots, b.leader = true →
      b ∈ n.ballots ∨ ∀ f, n.futures[b.future]? = some f → n.Live → f.answer = none →
        n'.Backs f b.peer) :
    Sound n' := by
  constructor
  case started =>
    intro v hne
    rw [hfutures]
    apply h.started v
    intro hnil
    have hperm := hawaited v
    rw [hnil] at hperm
    exact hne hperm.eq_nil
  case kept =>
    intro v f hf hquorum hnone
    rw [hfutures] at hf
    obtain ⟨hp, hmem⟩ := h.kept v f hf hquorum hnone
    exact ⟨hpoint hp, hnotify ▸ hmem⟩
  case tallied =>
    intro v f hf hquorum hnone hl
    rw [hfutures] at hf
    obtain ⟨heard, ht⟩ := h.tallied v f hf hquorum hnone (hlive hl)
    refine ⟨heard, ht.frame hid (by rw [hlatest]) (hawaited v) hanswered ?_⟩
    intro b hb hv hleader
    refine (hballots b hb hleader).imp_right ?_
    intro hbacks
    exact hbacks f (hv ▸ hf) (hlive hl) hnone
  case distinct =>
    rw [hactive]
    exact h.distinct
  case others =>
    intro hl id hmem
    rw [hactive] at hmem
    rw [hid]
    exact h.others (hlive hl) id hmem
  case confirmed =>
    intro v f latest hf hanswer
    rw [hfutures] at hf
    obtain ⟨Q, hmajority, hall⟩ := h.confirmed v f latest hf hanswer
    refine ⟨Q, hmajority, ?_⟩
    intro id hmem
    rcases hall id hmem with heq | ⟨t, ht, hlt⟩
    · exact .inl (hid ▸ heq)
    · exact .inr ⟨t, hanswered _ ht, hlt⟩

/-- What touches one future keeps the invariant if it does so for this one. -/
theorem Sound.update (h : Sound n) {f' : VerifyFuture} (hid : n'.localID = n.localID)
    (hlatest : n'.latest = n.latest) (hpoint : n.point ≠ .outside → n'.point ≠ .outside)
    (hlive : n'.Live → n.Live) (hnotify : ∀ w ∈ n.notify, w ≠ v → w ∈ n'.notify)
    (hfutures : ∀ w, n'.futures[w]? = if w = v then some f' else n.futures[w]?)
    (hactive : activeIDs n'.followers = activeIDs n.followers)
    (hawaited : ∀ w, w ≠ v → (n'.awaited w).Perm (n.awaited w))
    (hanswered : n'.answered = n.answered) (hballots : ∀ b ∈ n'.ballots, b ∈ n.ballots)
    (hstarted : n'.awaited v ≠ [] → f'.quorumSize ≠ 0)
    (hkept : f'.quorumSize ≠ 0 → f'.answer = none → n'.point ≠ .outside ∧ v ∈ n'.notify)
    (htallied : f'.quorumSize ≠ 0 → f'.answer = none → n'.Live → ∃ heard, Tally n' v f' heard)
    (hconfirmed : ∀ latest, f'.answer = some (.confirmed latest) → n'.ConfirmedBy f' latest) :
    Sound n' := by
  constructor
  case started =>
    intro w hne
    rw [hfutures]
    by_cases hw : w = v
    · subst hw
      exact ⟨f', if_pos rfl, hstarted hne⟩
    · rw [if_neg hw]
      apply h.started w
      intro hnil
      have hperm := hawaited w hw
      rw [hnil] at hperm
      exact hne hperm.eq_nil
  case kept =>
    intro w g hg hquorum hnone
    rw [hfutures] at hg
    split at hg
    · rename_i hw
      subst hw
      cases hg
      exact hkept hquorum hnone
    · rename_i hw
      obtain ⟨hp, hmem⟩ := h.kept w g hg hquorum hnone
      exact ⟨hpoint hp, hnotify w hmem hw⟩
  case tallied =>
    intro w g hg hquorum hnone hl
    rw [hfutures] at hg
    split at hg
    · rename_i hw
      subst hw
      cases hg
      exact htallied hquorum hnone hl
    · rename_i hw
      obtain ⟨heard, ht⟩ := h.tallied w g hg hquorum hnone (hlive hl)
      refine ⟨heard, ht.frame hid (by rw [hlatest]) (hawaited w hw) ?_ ?_⟩
      · intro p hp
        exact hanswered ▸ hp
      · intro b hb _ _
        exact .inl (hballots b hb)
  case distinct =>
    rw [hactive]
    exact h.distinct
  case others =>
    intro hl id hmem
    rw [hactive] at hmem
    rw [hid]
    exact h.others (hlive hl) id hmem
  case confirmed =>
    intro w g latest hg hanswer
    rw [hfutures] at hg
    split at hg
    · cases hg
      exact hconfirmed latest hanswer
    · obtain ⟨Q, hmajority, hall⟩ := h.confirmed w g latest hg hanswer
      refine ⟨Q, hmajority, ?_⟩
      intro id hmem
      rw [AnsweredSince, hanswered, hid]
      exact hall id hmem

theorem Sound.awaited_unstarted (h : Sound n) (hf : n.futures[v]? = some f)
    (hquorum : f.quorumSize = 0) : n.awaited v = [] := by
  by_contra hne
  obtain ⟨g, hg, hstarted⟩ := h.started v hne
  rw [hf] at hg
  cases hg
  exact hstarted hquorum

theorem Sound.call (h : Sound n) (verifyCh : List Nat) (called : Nat) :
    Sound { n with verifyCh := verifyCh, futures := n.futures ++ [{ called := called }] } := by
  have hold : ∀ (w : Nat) g, (n.futures ++ [{ called := called }])[w]? = some g →
      n.futures[w]? = some g ∨ g = { called := called } := by
    intro w g hg
    rw [List.getElem?_append] at hg
    split at hg
    · exact .inl hg
    · exact .inr (List.mem_singleton.mp (List.mem_of_getElem? hg))
  constructor
  case started =>
    intro w hne
    obtain ⟨g, hg, hquorum⟩ := h.started w hne
    refine ⟨g, ?_, hquorum⟩
    rw [List.getElem?_append_left (List.getElem?_eq_some_iff.mp hg).1]
    exact hg
  case kept =>
    intro w g hg hquorum hnone
    rcases hold w g hg with hg | rfl
    · exact h.kept w g hg hquorum hnone
    · exact absurd rfl hquorum
  case tallied =>
    intro w g hg hquorum hnone hl
    rcases hold w g hg with hg | rfl
    · obtain ⟨heard, ht⟩ := h.tallied w g hg hquorum hnone hl
      exact ⟨heard, ht.frame rfl rfl (.refl _) (fun _ hp => hp) (fun b hb _ _ => .inl hb)⟩
    · exact absurd rfl hquorum
  case distinct => exact h.distinct
  case others => exact h.others
  case confirmed =>
    intro w g latest hg hanswer
    rcases hold w g hg with hg | rfl
    · exact (h.confirmed w g latest hg hanswer).of_same rfl rfl rfl
    · simp at hanswer

/-- With a quorum of one the future is answered at once. -/
theorem Sound.verifyAlone (h : Sound n) (hf : n.futures[v]? = some f)
    (hself : n.localID ∈ n.latest.voterIDs) (hone : n.latest.quorumSize = 1) :
    Sound (n.verifyLeader v) := by
  simp only [Verification.verifyLeader, if_pos hone]
  refine h.update rfl rfl id id (fun w hw _ => hw) (getElem?_modifyFuture hf _) rfl
    (fun w _ => .refl _) rfl (fun b hb => hb) ?_ ?_ ?_ ?_
  · intro _
    simp
  · intro _ hanswer
    exact absurd hanswer (answer_respond_ne_none _ _)
  · intro _ hanswer
    exact absurd hanswer (answer_respond_ne_none _ _)
  · intro latest hanswer
    rcases answer_respond hanswer with hold | ⟨-, hnew⟩
    · exact (h.confirmed v f latest hf hold).of_same rfl rfl (called_respond _ _)
    · cases hnew
      refine ⟨[n.localID], ⟨List.nodup_singleton _, ?_, ?_⟩, ?_⟩
      · intro id hmem
        rw [List.mem_singleton.mp hmem]
        exact hself
      · have hlength : n.latest.voterIDs.length = n.latest.voters.length := List.length_map _
        rw [Configuration.quorumSize] at hone
        rw [List.length_singleton]
        omega
      · intro id hmem
        exact .inl (List.mem_singleton.mp hmem)

/-- Otherwise its votes are awaited of the peers in `replState`, which are other
servers. -/
theorem Sound.verifyLeader (h : Sound n) (hlive : n.Live) (hpoint : n.point ≠ .outside)
    (hf : n.futures[v]? = some f) (hquorum : f.quorumSize = 0)
    (hself : n.localID ∈ n.latest.voterIDs) : Sound (n.verifyLeader v) := by
  by_cases hone : n.latest.quorumSize = 1
  · exact h.verifyAlone hf hself hone
  obtain ⟨hwaiting, hballots⟩ := List.append_eq_nil_iff.mp (h.awaited_unstarted hf hquorum)
  have hawaited : (n.verifyLeader v).awaited v = activeIDs n.followers := by
    simp only [Verification.verifyLeader, if_neg hone, awaited]
    rw [waiting_register hwaiting]
    simp [modifyFuture, hballots]
  revert hawaited
  simp only [Verification.verifyLeader, if_neg hone]
  intro hawaited
  refine h.update rfl rfl id id (fun w hw _ => List.mem_cons_of_mem _ hw)
    (getElem?_modifyFuture hf _) ?_ ?_ rfl (fun b hb => hb) ?_ ?_ ?_ ?_
  · apply activeIDs_map
    · intro s
      split <;> rfl
    · intro s
      split <;> rfl
  · intro w hw
    rw [awaited, awaited, waiting_register_ne hw]
    exact .refl _
  · intro _
    exact Nat.succ_ne_zero _
  · intro _ _
    exact ⟨hpoint, List.mem_cons_self⟩
  · intro _ _ _
    refine ⟨[], rfl, rfl, ?_, hself, by simp, ?_⟩
    · rw [hawaited, List.append_nil, List.nodup_cons]
      refine ⟨?_, h.distinct⟩
      intro hmem
      exact h.others hlive _ hmem rfl
    · intro b hb hv _
      have hmem : b ∈ n.ballots.filter (fun b => b.future == v) :=
        List.mem_filter.mpr ⟨hb, by simp [hv]⟩
      rw [List.map_eq_nil_iff.mp hballots] at hmem
      simp at hmem
  · intro latest hanswer
    exact (h.confirmed v f latest hf hanswer).of_same rfl rfl rfl

/-- Its last part: the future is answered by its votes. -/
theorem Sound.finishVerify (h : Sound n) (hf : n.futures[v]? = some f) (hquorum : f.quorumSize ≠ 0)
    (answer : VerifyAnswer)
    (hanswer : ∀ latest, f.answer = none → answer = .confirmed latest → n.ConfirmedBy f latest) :
    Sound (n.finishVerify v answer) := by
  refine h.update rfl rfl id id ?_ (getElem?_modifyFuture hf _) ?_ ?_ rfl (fun b hb => hb) ?_ ?_ ?_ ?_
  · intro w hw hne
    exact List.mem_filter.mpr ⟨hw, by simp [hne]⟩
  · apply activeIDs_map
    · intro s
      split <;> rfl
    · intro s
      split <;> rfl
  · intro w hw
    simp only [awaited, Verification.finishVerify, modifyFuture]
    rw [waiting_clean hw]
  · intro _
    rw [quorumSize_respond]
    exact hquorum
  · intro _ hnone
    exact absurd hnone (answer_respond_ne_none _ _)
  · intro _ hnone
    exact absurd hnone (answer_respond_ne_none _ _)
  · intro latest hconfirmed
    rcases answer_respond hconfirmed with hold | ⟨hnone, hnew⟩
    · exact (h.confirmed v f latest hf hold).of_same rfl rfl (called_respond _ _)
    · exact (hanswer latest hnone hnew).of_same rfl rfl (called_respond _ _)

theorem Sound.handleVerify (h : Sound n) (hlive : n.Live) (hpoint : n.point ≠ .outside)
    (hf : n.futures[v]? = some f)
    (hstart : f.quorumSize = 0 → n.localID ∈ n.latest.voterIDs) : Sound (n.handleVerify v f) := by
  unfold Verification.handleVerify
  split
  · rename_i hquorum
    exact h.verifyLeader hlive hpoint hf hquorum (hstart hquorum)
  · rename_i hquorum
    split
    · have hdown : Sound { n with state := .follower } :=
        h.frame rfl rfl id (fun _ => hlive) rfl rfl rfl (fun _ => .refl _) (fun _ hp => hp)
          (fun b hb _ => .inl hb)
      refine hdown.finishVerify hf hquorum _ ?_
      intro latest _ hne
      simp at hne
    · rename_i hvotes
      refine h.finishVerify hf hquorum _ ?_
      intro latest hnone heq
      cases heq
      obtain ⟨heard, ht⟩ := h.tallied v f hf hquorum hnone hlive
      exact ht.confirmedBy (Nat.le_of_not_lt hvotes)

theorem handleVerify_point (n : Verification) (v : Nat) (f : VerifyFuture) :
    (n.handleVerify v f).point = n.point := by
  unfold Verification.handleVerify Verification.verifyLeader
  dsimp only
  split
  · split <;> rfl
  · split <;> rfl

theorem Sound.takeVerify (h : Sound n) (hpoint : n.point = .select) (hf : n.futures[v]? = some f)
    (rest : List Nat)
    (hstart : f.quorumSize = 0 → n.localID ∈ n.latest.voterIDs) :
    Sound { { n with verifyCh := rest }.handleVerify v f with point := .loopTest } := by
  have htaken : Sound { n with verifyCh := rest } :=
    h.frame rfl rfl id id rfl rfl rfl (fun _ => .refl _) (fun _ hp => hp) (fun b hb _ => .inl hb)
  have hhandled := htaken.handleVerify (.inl hpoint) (by simp [hpoint]) hf hstart
  exact hhandled.frame rfl rfl (fun _ => by simp)
    (fun _ => .inl ((handleVerify_point _ v f).trans hpoint)) rfl rfl rfl (fun _ => .refl _)
    (fun _ hp => hp) (fun b hb _ => .inl hb)

/-- The other loops answer `ErrNotLeader`. -/
theorem Sound.turnDown (h : Sound n) (hpoint : n.point = .outside) (hf : n.futures[v]? = some f)
    (rest : List Nat) :
    Sound ({ n with verifyCh := rest }.modifyFuture v (fun f => f.respond .notLeader)) := by
  have hidle : ¬ n.Live := by simp [Live, hpoint]
  refine h.update rfl rfl id id (fun w hw _ => hw)
    (getElem?_modifyFuture (n := { n with verifyCh := rest }) hf _) rfl (fun _ _ => .refl _) rfl
    (fun b hb => hb) ?_ ?_ ?_ ?_
  · intro hne
    rw [quorumSize_respond]
    obtain ⟨g, hg, hquorum⟩ := h.started v hne
    rw [hf] at hg
    cases hg
    exact hquorum
  · intro _ hnone
    exact absurd hnone (answer_respond_ne_none _ _)
  · intro _ _ hl
    exact absurd hl hidle
  · intro latest hanswer
    rcases answer_respond hanswer with hold | ⟨-, hnew⟩
    · exact (h.confirmed v f latest hf hold).of_same rfl rfl (called_respond _ _)
    · simp at hnew

theorem Sound.leave (h : Sound n) : Sound n.leave := by
  have hold : ∀ (w : Nat) g, n.leave.futures[w]? = some g →
      ∃ g₀, n.futures[w]? = some g₀ ∧
        g = if w ∈ n.notify then g₀.respond .leadershipLost else g₀ := by
    intro w g hg
    simp only [Verification.leave, List.getElem?_mapIdx, Option.map_eq_some_iff] at hg
    obtain ⟨g₀, hg₀, heq⟩ := hg
    exact ⟨g₀, hg₀, heq.symm⟩
  have hdone : ∀ (w : Nat) g, n.leave.futures[w]? = some g → g.quorumSize ≠ 0 → g.answer ≠ none := by
    intro w g hg hquorum hnone
    obtain ⟨g₀, hg₀, heq⟩ := hold w g hg
    split at heq
    · subst heq
      exact answer_respond_ne_none _ _ hnone
    · rename_i hout
      subst heq
      exact hout (h.kept w g hg₀ hquorum hnone).2
  have hawaited : ∀ w, n.leave.awaited w = n.awaited w := by
    intro w
    simp only [awaited, Verification.leave]
    rw [waiting_map]
    intro s
    rfl
  constructor
  case started =>
    intro w hne
    rw [hawaited] at hne
    obtain ⟨g, hg, hquorum⟩ := h.started w hne
    simp only [Verification.leave, List.getElem?_mapIdx, hg, Option.map_some]
    refine ⟨_, rfl, ?_⟩
    split
    · rw [quorumSize_respond]
      exact hquorum
    · exact hquorum
  case kept =>
    intro w g hg hquorum hnone
    exact absurd hnone (hdone w g hg hquorum)
  case tallied =>
    intro w g hg hquorum hnone
    exact absurd hnone (hdone w g hg hquorum)
  case distinct => simp [Verification.leave, activeIDs, List.filter_map, Function.comp_def]
  case others =>
    intro hl
    simp [Live, Verification.leave] at hl
  case confirmed =>
    intro w g latest hg hanswer
    obtain ⟨g₀, hg₀, heq⟩ := hold w g hg
    split at heq
    · subst heq
      rcases answer_respond hanswer with hconfirmed | ⟨-, hlost⟩
      · exact (h.confirmed w g₀ latest hg₀ hconfirmed).of_same rfl rfl (called_respond _ _)
      · simp at hlost
    · subst heq
      exact (h.confirmed w g latest hg₀ hanswer).of_same rfl rfl rfl

/-- The verifications under way are kept as long as the voters are the same. -/
theorem Sound.startStopReplication (h : Sound n) (term : Nat) (hid : n'.localID = n.localID)
    (hfollowers : n'.followers = n.followers) (hballots : n'.ballots = n.ballots)
    (hfutures : n'.futures = n.futures) (hanswered : n'.answered = n.answered)
    (hkept : ∀ (w : Nat) g, n.futures[w]? = some g → g.quorumSize ≠ 0 → g.answer = none →
      n'.point ≠ .outside ∧ w ∈ n'.notify ∧ n.Live ∧ n'.latest.voterIDs = n.latest.voterIDs) :
    Sound (n'.startStopReplication term) := by
  have hfold : ∀ w, waiting w (n'.latest.servers.foldl (startReplication n'.localID term)
        n'.followers) = waiting w n.followers ∧
      (activeIDs (n'.latest.servers.foldl (startReplication n'.localID term) n'.followers)).Nodup := by
    intro w
    rw [hfollowers]
    exact foldl_startReplication _ _ h.distinct
  have hactive : activeIDs (n'.startStopReplication term).followers = _ :=
    activeIDs_stopReplication _
  have hawaited : ∀ w, (n'.startStopReplication term).awaited w = n.awaited w := by
    intro w
    simp only [awaited, Verification.startStopReplication, hballots]
    rw [waiting_map, (hfold w).1]
    intro s
    unfold stopReplication
    split <;> rfl
  constructor
  case started =>
    intro w hne
    rw [hawaited] at hne
    simp only [Verification.startStopReplication, hfutures]
    exact h.started w hne
  case kept =>
    intro w g hg hquorum hnone
    simp only [Verification.startStopReplication, hfutures] at hg
    obtain ⟨hpoint, hmem, -⟩ := hkept w g hg hquorum hnone
    exact ⟨hpoint, hmem⟩
  case tallied =>
    intro w g hg hquorum hnone _
    simp only [Verification.startStopReplication, hfutures] at hg
    obtain ⟨-, -, hlive, hvoters⟩ := hkept w g hg hquorum hnone
    obtain ⟨heard, ht⟩ := h.tallied w g hg hquorum hnone hlive
    refine ⟨heard, ht.frame hid hvoters (by rw [hawaited]) ?_ ?_⟩
    · intro p hp
      show p ∈ n'.answered
      rw [hanswered]
      exact hp
    · intro b hb _ _
      have hold : b ∈ n'.ballots := hb
      rw [hballots] at hold
      exact .inl hold
  case distinct =>
    rw [hactive]
    exact (hfold 0).2.filter _
  case others =>
    intro _ id hmem
    rw [hactive] at hmem
    have hin := (List.mem_filter.mp hmem).2
    simp only [List.any_eq_true, Bool.and_eq_true, bne_iff_ne, beq_iff_eq] at hin
    obtain ⟨server, -, hne, heq⟩ := hin
    exact heq ▸ hne
  case confirmed =>
    intro w g latest hg hanswer
    simp only [Verification.startStopReplication, hfutures] at hg
    exact (h.confirmed w g latest hg hanswer).of_same hid hanswered rfl

theorem Sound.followConfiguration (h : Sound n) (hid : n'.localID = n.localID)
    (hlive : ¬ n'.Live) (hpoint : n.point ≠ .outside → n'.point ≠ .outside)
    (hnotify : n'.notify = n.notify) (hfollowers : n'.followers = n.followers)
    (hballots : n'.ballots = n.ballots) (hfutures : n'.futures = n.futures)
    (hanswered : n'.answered = n.answered) : Sound n' := by
  constructor
  case started =>
    intro w hne
    rw [awaited, hfollowers, hballots] at hne
    rw [hfutures]
    exact h.started w hne
  case kept =>
    intro w g hg hquorum hnone
    rw [hfutures] at hg
    obtain ⟨hp, hmem⟩ := h.kept w g hg hquorum hnone
    exact ⟨hpoint hp, hnotify ▸ hmem⟩
  case tallied =>
    intro w g _ _ _ hl
    exact absurd hl hlive
  case distinct =>
    rw [hfollowers]
    exact h.distinct
  case others =>
    intro hl
    exact absurd hl hlive
  case confirmed =>
    intro w g latest hg hanswer
    rw [hfutures] at hg
    exact (h.confirmed w g latest hg hanswer).of_same hid hanswered rfl

theorem Sound.setFollower (h : Sound n) {i : Nat} {s s' : NotifiedFollower}
    (hs : n.followers[i]? = some s) (hnotify : s'.notify = s.notify) (hpeer : s'.peer = s.peer)
    (hstopped : s'.stopped = s.stopped) :
    Sound { n with followers := n.followers.set i s' } := by
  refine h.frame rfl rfl id id rfl rfl (activeIDs_set hs hstopped (by rw [hpeer])) ?_
    (fun _ hp => hp) (fun b hb _ => .inl hb)
  intro w
  have hset := perm_waiting_set (v := w) hs s'
  have hwaits : s'.waits w = s.waits w := by simp [NotifiedFollower.waits, hnotify, hpeer]
  rw [hwaits] at hset
  exact ((List.perm_append_left_iff _).mp hset).append_right _

theorem Sound.record (h : Sound n) (succeeded : Bool) (p : ServerID × Nat) :
    Sound { n with answered := if succeeded then p :: n.answered else n.answered } := by
  refine h.frame rfl rfl id id rfl rfl rfl (fun _ => .refl _) ?_ (fun b hb _ => .inl hb)
  intro q hq
  simp only
  split
  · exact List.mem_cons_of_mem _ hq
  · exact hq

theorem Sound.reply (h : Sound n) {i k : Nat} {s : NotifiedFollower} {req : SentRequest}
    {result : CallResult FollowerResponse} (hs : n.followers[i]? = some s)
    (hreq : s.outstanding[k]? = some req) (hok : n.Countable (.reply i k result)) :
    Sound (n.reply i s req k result) := by
  have hrecorded := h.record result.succeeded (s.peer.id, req.sent)
  simp only [Verification.reply]
  split
  · exact hrecorded.setFollower hs rfl rfl rfl
  · rename_i leader hleader
    refine hrecorded.frame rfl rfl id id rfl rfl (activeIDs_set hs rfl rfl)
      (perm_awaited_reply hs rfl leader) (fun _ hp => hp) ?_
    intro b hb htrue
    rcases List.mem_append.mp hb with hold | hnew
    · exact .inl hold
    · refine .inr ?_
      intro f hf hlive hnone
      obtain ⟨v, hv, rfl⟩ := List.mem_map.mp hnew
      simp only at htrue
      subst htrue
      have hsuccess := succeeded_of_stillLeader hleader
      obtain ⟨hsent, hvoter⟩ := hok hsuccess s hs req hreq v hv f hf
      refine ⟨⟨req.sent, ?_, hsent⟩, hvoter hlive hnone⟩
      simp [hsuccess]

/-- A submitted ballot is counted, or no longer awaited. -/
theorem Sound.submit (h : Sound n) {j : Nat} {b : Ballot} (hb : n.ballots[j]? = some b)
    (hf : n.futures[b.future]? = some f) (verifyCh : List Nat) :
    Sound { n with
      ballots := n.ballots.eraseIdx j, futures := n.futures.set b.future (f.vote b.leader).1,
      verifyCh := verifyCh } := by
  have hfutures : ∀ w, (n.futures.set b.future (f.vote b.leader).1)[w]? =
      if w = b.future then some (f.vote b.leader).1 else n.futures[w]? := by
    intro w
    rw [List.getElem?_set]
    by_cases hw : b.future = w
    · subst hw
      simp [(List.getElem?_eq_some_iff.mp hf).1]
    · simp [hw, Ne.symm hw]
  have hballots : ∀ b ∈ n.ballots.eraseIdx j, b ∈ n.ballots := fun _ hb => List.mem_of_mem_eraseIdx hb
  have hperm : ∀ w, (n.awaited w).Perm ((if b.future = w then [b.peer] else []) ++
      Verification.awaited
        { n with
          ballots := n.ballots.eraseIdx j, futures := n.futures.set b.future (f.vote b.leader).1
          verifyCh := verifyCh } w) :=
    perm_awaited_submit hb rfl rfl
  obtain ⟨hquorum, hanswer, hcalled⟩ := vote_keeps f b.leader
  refine h.update rfl rfl id id (fun w hw _ => hw) hfutures rfl ?_ rfl hballots ?_ ?_ ?_ ?_
  · intro w hw
    have := hperm w
    rw [if_neg (Ne.symm hw)] at this
    exact this.symm
  · intro hne
    rw [hquorum]
    have hself := hperm b.future
    rw [if_pos rfl] at hself
    intro hzero
    have hnil := h.awaited_unstarted hf hzero
    rw [hnil] at hself
    simpa using hself.length_eq
  · rw [hquorum, hanswer]
    exact h.kept b.future f hf
  · rw [hquorum, hanswer]
    intro hq hnone hl
    obtain ⟨heard, ht⟩ := h.tallied b.future f hf hq hnone hl
    have hself := hperm b.future
    rw [if_pos rfl] at hself
    rcases vote_cases f b.leader with ⟨hleader, notifyCh, hvote⟩ | ⟨notifyCh, hvote⟩
    · have hcount := ht.count (List.mem_of_getElem? hb) rfl hleader (by rfl) (by rfl) hself (by rfl)
        hballots notifyCh
      rw [← hvote] at hcount
      exact ⟨_, hcount⟩
    · have hdrop := ht.drop (by rfl) (by rfl) hself (by rfl) hballots notifyCh
      rw [← hvote] at hdrop
      exact ⟨heard, hdrop⟩
  · rw [hanswer]
    intro latest hconfirmed
    exact (h.confirmed b.future f latest hf hconfirmed).of_same rfl rfl hcalled

theorem Sound.tick (h : Sound n) (clock : Nat) : Sound { n with clock := clock } :=
  h.frame rfl rfl id id rfl rfl rfl (fun _ => .refl _) (fun _ hp => hp) (fun _ hb _ => .inl hb)

theorem Sound.act (h : Sound n) {a : VerifyAction} (hok : n.Countable a) (hs : n.act a = some n') :
    Sound n' := by
  cases a with
  | verifyLeader =>
    simp only [Verification.act] at hs
    split at hs
    · cases hs
      exact h.call _ _
    · simp at hs
  | lead term =>
    simp only [Verification.act] at hs
    split at hs
    · rename_i hpoint
      cases hs
      refine h.startStopReplication term rfl rfl rfl rfl rfl ?_
      intro w g hg hquorum hnone
      exact absurd hpoint (h.kept w g hg hquorum hnone).1
    · simp at hs
  | loopTest =>
    simp only [Verification.act] at hs
    split at hs
    · rename_i hpoint
      cases hs
      split
      · rename_i hleader
        exact h.frame rfl rfl (fun _ => by simp) (fun _ => .inr ⟨hpoint, hleader⟩) rfl rfl rfl
          (fun _ => .refl _) (fun _ hp => hp) (fun b hb _ => .inl hb)
      · exact h.leave
    · simp at hs
  | setFollower =>
    simp only [Verification.act, Option.some.injEq] at hs
    subst hs
    refine h.frame rfl rfl id ?_ rfl rfl rfl (fun _ => .refl _) (fun _ hp => hp)
      (fun b hb _ => .inl hb)
    rintro (hselect | ⟨-, hleader⟩)
    · exact .inl hselect
    · simp at hleader
  | configure latest term =>
    simp only [Verification.act] at hs
    split at hs
    · rename_i hpoint
      cases hs
      refine h.startStopReplication term rfl rfl rfl rfl rfl ?_
      intro w g hg hquorum hnone
      have hmem := (h.kept w g hg hquorum hnone).2
      exact ⟨by simp, hmem, .inl hpoint, hok (List.ne_nil_of_mem hmem)⟩
    · simp at hs
  | followConfiguration latest =>
    simp only [Verification.act] at hs
    split at hs
    · rename_i hpoint
      cases hs
      refine h.followConfiguration rfl ?_ id rfl rfl rfl rfl rfl
      simp [Live, hpoint]
    · cases hs
      refine h.followConfiguration rfl ?_ (fun _ => by simp) rfl rfl rfl rfl rfl
      simp [Live]
    · simp at hs
  | takeVerify =>
    simp only [Verification.act] at hs
    split at hs
    · simp at hs
    · rename_i v rest hch
      split at hs
      · rename_i f hf hpoint
        cases hs
        exact h.takeVerify hpoint hf rest (hok hpoint v (by rw [hch]; rfl) f hf)
      · rename_i f hf hpoint
        cases hs
        exact h.turnDown hpoint hf rest
      · simp at hs
  | send i kind =>
    simp only [Verification.act] at hs
    split at hs
    · simp at hs
    · rename_i s hi
      cases hs
      exact h.setFollower hi rfl rfl rfl
  | reply i k result =>
    simp only [Verification.act] at hs
    split at hs
    · simp at hs
    · rename_i s hi
      split at hs
      · simp at hs
      · rename_i req hreq
        cases hs
        exact h.reply hi hreq hok
  | submit j =>
    simp only [Verification.act, Verification.submit] at hs
    split at hs
    · simp at hs
    · rename_i b hb
      split at hs
      · simp at hs
      · rename_i f hf
        split at hs
        · cases hs
          exact h.submit hb hf _
        · split at hs
          · cases hs
            exact h.submit hb hf _
          · simp at hs

theorem sound_of_reachable (h : system.Reachable Countable n) : Sound n := by
  refine Lib.System.Reachable.invariant ?_ ?_ h
  · rintro n ⟨localID, latest, rfl⟩
    constructor <;> simp [awaited, waiting, activeIDs]
  · intro n a n' hn hok hs
    obtain ⟨m, hm, rfl⟩ := Option.map_eq_some_iff.mp hs
    exact (hn.act hok hm).tick _

/-- A nil answer of `VerifyLeader` is backed by a majority of the voters of the latest
configuration, each of which is this server or has answered a request sent after the
call, in every run of countable actions. -/
theorem confirmed_by_majority (h : system.Reachable Countable n) (hf : n.futures[v]? = some f)
    {latest : Configuration} (hanswer : f.answer = some (.confirmed latest)) :
    ∃ Q, Lib.Majority latest.voterIDs Q ∧
      ∀ id ∈ Q, id = n.localID ∨ ∃ t, (id, t) ∈ n.answered ∧ f.called < t :=
  (sound_of_reachable h).confirmed v f latest hf hanswer

/-- The server `A` leads, and only its second peer hears from it after the call. -/
def verifySecond : List (Verification → VerifyAction) :=
  [fun _ => .lead 1, fun _ => .loopTest, fun _ => .verifyLeader, fun _ => .takeVerify,
    fun _ => .loopTest, fun _ => .send 1 .heartbeat, fun _ => .reply 1 0 (.response ⟨1, true⟩),
    fun _ => .submit 0, fun _ => .takeVerify]

def threeVoters : Configuration :=
  ⟨[⟨.voter, [1], [1]⟩, ⟨.voter, [2], [2]⟩, ⟨.voter, [3], [3]⟩]⟩

def twoVoters : Configuration :=
  ⟨[⟨.voter, [1], [1]⟩, ⟨.voter, [2], [2]⟩, ⟨.nonvoter, [3], [3]⟩]⟩

/-- The answer of a non-voter makes the quorum full: the other voter has not been
heard of. -/
theorem confirmed_by_nonvoter :
    ∃ (n : Verification) (f : VerifyFuture), system.Reachable (fun _ _ => True) n ∧
      n.futures[0]? = some f ∧ f.answer = some (.confirmed twoVoters) ∧
      ¬ ∃ Q, Lib.Majority twoVoters.voterIDs Q ∧
        ∀ id ∈ Q, id = n.localID ∨ ∃ t, (id, t) ∈ n.answered ∧ f.called < t := by
  obtain ⟨n, hreach, hanswered, f, hf, hanswer⟩ : ∃ n : Verification,
      system.Reachable (fun _ _ => True) n ∧ n.answered = [([3], 5)] ∧
      ∃ f, n.futures[0]? = some f ∧ f.answer = some (.confirmed twoVoters) :=
    Lib.System.exists_reachable (s := { localID := [1], latest := twoVoters }) ⟨_, _, rfl⟩ verifySecond
      (by decide +kernel)
  refine ⟨n, f, hreach, hf, hanswer, ?_⟩
  rintro ⟨Q, hmajority, hall⟩
  have hself : ∀ id ∈ Q, id ∈ [n.localID] := by
    intro id hmem
    rcases hall id hmem with heq | ⟨t, ht, -⟩
    · exact List.mem_singleton.mpr heq
    · rw [hanswered, List.mem_singleton] at ht
      have hvoter := hmajority.subset id hmem
      rw [(Prod.mk.inj ht).1] at hvoter
      exact absurd hvoter (by decide)
  have hle := (hmajority.nodup.subperm hself).length_le
  have hlt : 2 < 2 * Q.length := hmajority.length
  rw [List.length_singleton] at hle
  omega

instance (n : Verification) : DecidablePred n.Countable
  | .takeVerify => inferInstanceAs (Decidable (n.point = .select → _))
  | .reply _ _ result => inferInstanceAs (Decidable (result.succeeded = true → _))
  | .configure latest _ =>
    inferInstanceAs (Decidable (_ → latest.voterIDs = n.latest.voterIDs))
  | .verifyLeader | .lead _ | .loopTest | .setFollower | .followConfiguration _ | .send _ _ | .submit _ =>
    isTrue trivial

theorem confirmed_by_majority_three :
    ∃ n : Verification, system.Reachable Countable n ∧ n.answered = [([3], 5)] ∧
      (n.futures[0]?.map VerifyFuture.called) = some 2 ∧ ∃ Q, Lib.Majority threeVoters.voterIDs Q ∧
        ∀ id ∈ Q, id = n.localID ∨ ∃ t, (id, t) ∈ n.answered ∧ 2 < t := by
  obtain ⟨n, hreach, hanswered, f, hf, hcalled, hanswer⟩ : ∃ n : Verification,
      system.Reachable Countable n ∧ n.answered = [([3], 5)] ∧
      ∃ f, n.futures[0]? = some f ∧ f.called = 2 ∧ f.answer = some (.confirmed threeVoters) :=
    Lib.System.exists_reachable (s := { localID := [1], latest := threeVoters }) ⟨_, _, rfl⟩
      verifySecond (by decide +kernel)
  refine ⟨n, hreach, hanswered, by rw [hf, Option.map_some, hcalled], ?_⟩
  rw [← hcalled]
  exact confirmed_by_majority hreach hf hanswer

end PerfRaft.Verification
