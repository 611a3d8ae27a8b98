import PerfRaft.ConnPool

namespace PerfRaft

namespace NetConn

/-- Every response to what was sent on the connection has been read. -/
structure Clean (c : NetConn) : Prop where
  requests : c.requests = []
  responses : c.responses = []
  dirty : c.dirty = false
  released : c.released = false

/-- The one response still to come is the one to this call. -/
structure Pending (call : Nat) (c : NetConn) : Prop where
  expected : c.responses.map RPCReply.call ++ c.requests = [call]
  dirty : c.dirty = false
  released : c.released = false

theorem Clean.send {c : NetConn} (h : c.Clean) (call : Nat) : Pending call (c.send call) :=
  ⟨by simp [NetConn.send, h.requests, h.responses], h.dirty, h.released⟩

theorem Pending.decode {c : NetConn} {call : Nat} {reply : RPCReply} {rest : List RPCReply}
    (h : Pending call c) (hr : c.responses = reply :: rest) :
    reply.call = call ∧ Clean { c with responses := rest } := by
  have hexpected := h.expected
  rw [hr, List.map_cons, List.cons_append, List.cons.injEq, List.append_eq_nil_iff,
    List.map_eq_nil_iff] at hexpected
  exact ⟨hexpected.1, hexpected.2.2, hexpected.2.1, h.dirty, h.released⟩

end NetConn

/-- What the goroutine knows of the connection it uses. -/
def Caller.Fits (conns : Nat → NetConn) : Caller → Prop
  | .acquired c _ => (conns c).Clean
  | .waiting c call => (conns c).Pending call
  | .decoded c => (conns c).Clean
  | _ => True

/-- Each connection is in one place: used by one goroutine, in the pool once under its
target, or given up. -/
structure Sound (callers : Nat → Caller) (conns : Nat → NetConn)
    (pool : ServerAddress → List Nat) (dialed : Nat) : Prop where
  exclusive : ∀ i j c, (callers i).conn? = some c → (callers j).conn? = some c → i = j
  unused : ∀ target, ∀ c ∈ pool target, ∀ i, (callers i).conn? ≠ some c
  once : ∀ target, (pool target).Nodup
  key : ∀ target, ∀ c ∈ pool target, (conns c).target = target
  clean : ∀ target, ∀ c ∈ pool target, (conns c).Clean
  fits : ∀ i, (callers i).Fits conns
  used_dialed : ∀ i c, (callers i).conn? = some c → c < dialed
  pool_dialed : ∀ target, ∀ c ∈ pool target, c < dialed

namespace Sound

variable {callers : Nat → Caller} {conns : Nat → NetConn} {pool : ServerAddress → List Nat}
  {dialed : Nat}

theorem fits_update {caller : Caller} {c : Nat} (h : caller.Fits conns) (hc : caller.conn? ≠ some c)
    (conn : NetConn) : caller.Fits (Function.update conns c conn) := by
  cases caller with
  | idle => trivial
  | streaming c' => trivial
  | pipeline c' => trivial
  | acquired c' use =>
    have hne : c' ≠ c := fun heq => hc (by rw [heq]; rfl)
    simpa [Caller.Fits, Function.update_of_ne hne] using h
  | waiting c' call =>
    have hne : c' ≠ c := fun heq => hc (by rw [heq]; rfl)
    simpa [Caller.Fits, Function.update_of_ne hne] using h
  | decoded c' =>
    have hne : c' ≠ c := fun heq => hc (by rw [heq]; rfl)
    simpa [Caller.Fits, Function.update_of_ne hne] using h

/-- A connection that is dialed and in no place. -/
structure Free (callers : Nat → Caller) (pool : ServerAddress → List Nat) (dialed c : Nat) : Prop where
  unused : ∀ i, (callers i).conn? ≠ some c
  unpooled : ∀ target, c ∉ pool target
  dialed : c < dialed

/-- A goroutine lets go of its connection. -/
theorem release (h : Sound callers conns pool dialed) {i c : Nat} (hi : (callers i).conn? = some c) :
    Sound (Function.update callers i .idle) conns pool dialed ∧
      Free (Function.update callers i .idle) pool dialed c := by
  have hkeeps : ∀ j c', (Function.update callers i .idle j).conn? = some c' →
      j ≠ i ∧ (callers j).conn? = some c' := by
    intro j c' hj
    by_cases hji : j = i
    · rw [hji, Function.update_self] at hj
      cases hj
    · rw [Function.update_of_ne hji] at hj
      exact ⟨hji, hj⟩
  refine ⟨{ h with exclusive := ?_, unused := ?_, fits := ?_, used_dialed := ?_ }, ?_, ?_, ?_⟩
  · exact fun j k c' hj hk => h.exclusive j k c' (hkeeps j c' hj).2 (hkeeps k c' hk).2
  · exact fun target c' hc' j hj => h.unused target c' hc' j (hkeeps j c' hj).2
  · intro j
    by_cases hji : j = i
    · rw [hji, Function.update_self]
      trivial
    · rw [Function.update_of_ne hji]
      exact h.fits j
  · exact fun j c' hj => h.used_dialed j c' (hkeeps j c' hj).2
  · exact fun j hj => (hkeeps j c hj).1 (h.exclusive j i c (hkeeps j c hj).2 hi)
  · exact fun target hc => h.unused target c hc i hi
  · exact h.used_dialed i c hi

/-- What becomes of a free connection is no concern of the others. -/
theorem change (h : Sound callers conns pool dialed) {c : Nat} (hfree : Free callers pool dialed c)
    (conn : NetConn) : Sound callers (Function.update conns c conn) pool dialed := by
  have hpool : ∀ target, ∀ c' ∈ pool target, c' ≠ c :=
    fun target c' hc' heq => hfree.unpooled target (heq ▸ hc')
  refine { h with key := ?_, clean := ?_, fits := fun j => fits_update (h.fits j) (hfree.unused j) conn }
  · intro target c' hc'
    rw [Function.update_of_ne (hpool target c' hc')]
    exact h.key target c' hc'
  · intro target c' hc'
    rw [Function.update_of_ne (hpool target c' hc')]
    exact h.clean target c' hc'

/-- A goroutine gets a free connection. -/
theorem give (h : Sound callers conns pool dialed) {c : Nat} (hfree : Free callers pool dialed c)
    (i : Nat) {next : Caller} (hnext : next.conn? = some c) (hfits : next.Fits conns) :
    Sound (Function.update callers i next) conns pool dialed := by
  have hkeeps : ∀ j c', (Function.update callers i next j).conn? = some c' →
      (j = i ∧ c' = c) ∨ (c' ≠ c ∧ (callers j).conn? = some c') := by
    intro j c' hj
    by_cases hji : j = i
    · rw [hji, Function.update_self, hnext] at hj
      exact .inl ⟨hji, (Option.some.inj hj).symm⟩
    · rw [Function.update_of_ne hji] at hj
      exact .inr ⟨fun heq => hfree.unused j (heq ▸ hj), hj⟩
  refine { h with exclusive := ?_, unused := ?_, fits := ?_, used_dialed := ?_ }
  · intro j k c' hj hk
    rcases hkeeps j c' hj with ⟨hji, hc'⟩ | ⟨hne, hj'⟩
    · rcases hkeeps k c' hk with ⟨hki, _⟩ | ⟨hne, _⟩
      · exact hji.trans hki.symm
      · exact absurd hc' hne
    · rcases hkeeps k c' hk with ⟨_, hc'⟩ | ⟨_, hk'⟩
      · exact absurd hc' hne
      · exact h.exclusive j k c' hj' hk'
  · intro target c' hc' j hj
    rcases hkeeps j c' hj with ⟨_, rfl⟩ | ⟨_, hj'⟩
    · exact hfree.unpooled target hc'
    · exact h.unused target c' hc' j hj'
  · intro j
    by_cases hji : j = i
    · rw [hji, Function.update_self]
      exact hfits
    · rw [Function.update_of_ne hji]
      exact h.fits j
  · intro j c' hj
    rcases hkeeps j c' hj with ⟨_, rfl⟩ | ⟨_, hj'⟩
    · exact hfree.dialed
    · exact h.used_dialed j c' hj'

/-- A goroutine does something with its connection, and keeps it or gives it up. -/
theorem act (h : Sound callers conns pool dialed) {i c : Nat} (hi : (callers i).conn? = some c)
    (conn : NetConn) {next : Caller} (hnext : next = .idle ∨ next.conn? = some c)
    (hfits : next.Fits (Function.update conns c conn)) :
    Sound (Function.update callers i next) (Function.update conns c conn) pool dialed := by
  obtain ⟨hreleased, hfree⟩ := h.release hi
  rcases hnext with rfl | hnext
  · exact hreleased.change hfree conn
  · have hgiven := (hreleased.change hfree conn).give hfree i hnext hfits
    rwa [Function.update_idem] at hgiven

/-- The same for a pipeline, which is still open afterwards. -/
theorem act_pipeline (h : Sound callers conns pool dialed) {i c : Nat}
    (hi : callers i = .pipeline c) (conn : NetConn) :
    Sound callers (Function.update conns c conn) pool dialed := by
  have hsame : Function.update callers i (.pipeline c) = callers := by
    rw [← hi]
    exact Function.update_eq_self i callers
  have hact : Sound (Function.update callers i (.pipeline c)) (Function.update conns c conn) pool
      dialed := h.act (by rw [hi]; rfl) conn (.inr rfl) trivial
  rwa [hsame] at hact

/-- The remote side may do to a connection what leaves clean ones clean and does not
mix up a pending response. -/
theorem remote (h : Sound callers conns pool dialed) (c : Nat) {conn : NetConn}
    (htarget : conn.target = (conns c).target) (hclean : (conns c).Clean → conn.Clean)
    (hpending : ∀ call, (conns c).Pending call → conn.Pending call) :
    Sound callers (Function.update conns c conn) pool dialed := by
  have hupdate : ∀ c' (P : NetConn → Prop), (P (conns c) → P conn) → P (conns c') →
      P (Function.update conns c conn c') := by
    intro c' P hP hc'
    by_cases heq : c' = c
    · subst heq
      rw [Function.update_self]
      exact hP hc'
    · rwa [Function.update_of_ne heq]
  constructor
  case exclusive => exact h.exclusive
  case unused => exact h.unused
  case once => exact h.once
  case key =>
    intro target c' hc'
    exact hupdate c' (fun x => x.target = target) (fun ht => htarget.trans ht) (h.key target c' hc')
  case clean =>
    intro target c' hc'
    exact hupdate c' NetConn.Clean hclean (h.clean target c' hc')
  case fits =>
    intro i
    have hi := h.fits i
    cases hc : callers i with
    | idle => trivial
    | streaming c' => trivial
    | pipeline c' => trivial
    | acquired c' use =>
      rw [hc] at hi
      exact hupdate c' NetConn.Clean hclean hi
    | waiting c' call =>
      rw [hc] at hi
      exact hupdate c' (NetConn.Pending call) (hpending call) hi
    | decoded c' =>
      rw [hc] at hi
      exact hupdate c' NetConn.Clean hclean hi
  case used_dialed => exact h.used_dialed
  case pool_dialed => exact h.pool_dialed

/-- A connection moves from the pool to a goroutine. -/
theorem take (h : Sound callers conns pool dialed) {i c : Nat} {target : ServerAddress}
    (hc : (pool target).getLast? = some c) (use : Use) :
    Sound (Function.update callers i (Caller.start c use)) conns
      (Function.update pool target (pool target).dropLast) dialed := by
  have hmem : c ∈ pool target := List.mem_of_getLast? hc
  have hnodup := h.once target
  rw [← List.dropLast_append_getLast? c hc, List.nodup_append] at hnodup
  have hsub : ∀ target', ∀ c' ∈ Function.update pool target (pool target).dropLast target',
      c' ∈ pool target' ∧ c' ≠ c := by
    intro target' c' hc'
    by_cases ht : target' = target
    · subst ht
      rw [Function.update_self] at hc'
      exact ⟨(List.dropLast_sublist _).subset hc', hnodup.2.2 c' hc' c (by simp)⟩
    · rw [Function.update_of_ne ht] at hc'
      refine ⟨hc', ?_⟩
      rintro rfl
      exact ht ((h.key target' c' hc').symm.trans (h.key target c' hmem))
  have hleft : Sound callers conns (Function.update pool target (pool target).dropLast) dialed := by
    refine ⟨h.exclusive, fun t c' hc' => h.unused t c' (hsub t c' hc').1, ?_,
      fun t c' hc' => h.key t c' (hsub t c' hc').1, fun t c' hc' => h.clean t c' (hsub t c' hc').1,
      h.fits, h.used_dialed, fun t c' hc' => h.pool_dialed t c' (hsub t c' hc').1⟩
    intro target'
    by_cases ht : target' = target
    · subst ht
      rw [Function.update_self]
      exact hnodup.1
    · rw [Function.update_of_ne ht]
      exact h.once target'
  refine hleft.give ⟨h.unused target c hmem, fun t hc' => (hsub t c hc').2 rfl,
    h.pool_dialed target c hmem⟩ i (by cases use <;> rfl) ?_
  cases use with
  | pipeline => trivial
  | _ => exact h.clean target c hmem

/-- A goroutine dials a new connection. -/
theorem dial (h : Sound callers conns pool dialed) (i : Nat) (target : ServerAddress) (use : Use) :
    Sound (Function.update callers i (Caller.start dialed use))
      (Function.update conns dialed { target := target }) pool (dialed + 1) := by
  have hfree : Free callers pool (dialed + 1) dialed :=
    ⟨fun j hj => Nat.lt_irrefl _ (h.used_dialed j dialed hj),
      fun t hc => Nat.lt_irrefl _ (h.pool_dialed t dialed hc), Nat.lt_succ_self _⟩
  have hmore : Sound callers conns pool (dialed + 1) :=
    { h with
      used_dialed := fun j c hj => Nat.lt_succ_of_lt (h.used_dialed j c hj)
      pool_dialed := fun t c hc => Nat.lt_succ_of_lt (h.pool_dialed t c hc) }
  refine (hmore.change hfree _).give hfree i (by cases use <;> rfl) ?_
  cases use with
  | pipeline => trivial
  | _ => simpa [Caller.start, Caller.Fits] using ⟨rfl, rfl, rfl, rfl⟩

/-- A goroutine puts its connection into the pool. -/
theorem put (h : Sound callers conns pool dialed) {i c : Nat} (hi : callers i = .decoded c) :
    Sound (Function.update callers i .idle) conns
      (Function.update pool (conns c).target (pool (conns c).target ++ [c])) dialed := by
  have hclean : (conns c).Clean := by
    have hfits := h.fits i
    rwa [hi] at hfits
  obtain ⟨hreleased, hfree⟩ := h.release (show (callers i).conn? = some c by rw [hi]; rfl)
  have hsub : ∀ target, ∀ c' ∈ Function.update pool (conns c).target
      (pool (conns c).target ++ [c]) target, c' ∈ pool target ∨ (c' = c ∧ target = (conns c).target) := by
    intro target c' hc'
    by_cases ht : target = (conns c).target
    · rw [ht, Function.update_self] at hc'
      rcases List.mem_append.mp hc' with hc' | hc'
      · exact .inl (ht ▸ hc')
      · exact .inr ⟨List.mem_singleton.mp hc', ht⟩
    · rw [Function.update_of_ne ht] at hc'
      exact .inl hc'
  refine { hreleased with unused := ?_, once := ?_, key := ?_, clean := ?_, pool_dialed := ?_ }
  · intro target c' hc'
    rcases hsub target c' hc' with hc' | ⟨rfl, _⟩
    · exact hreleased.unused target c' hc'
    · exact hfree.unused
  · intro target
    by_cases ht : target = (conns c).target
    · rw [ht, Function.update_self, List.nodup_append]
      refine ⟨h.once _, by simp, ?_⟩
      intro a ha b hb
      rw [List.mem_singleton.mp hb]
      rintro rfl
      exact hfree.unpooled _ ha
    · rw [Function.update_of_ne ht]
      exact h.once target
  · intro target c' hc'
    rcases hsub target c' hc' with hc' | ⟨rfl, rfl⟩
    · exact h.key target c' hc'
    · rfl
  · intro target c' hc'
    rcases hsub target c' hc' with hc' | ⟨rfl, _⟩
    · exact h.clean target c' hc'
    · exact hclean
  · intro target c' hc'
    rcases hsub target c' hc' with hc' | ⟨rfl, _⟩
    · exact h.pool_dialed target c' hc'
    · exact hfree.dialed

/-- The pool is emptied, and its connections may be closed. -/
theorem drain (h : Sound callers conns pool dialed) {conns' : Nat → NetConn}
    (hused : ∀ i c, (callers i).conn? = some c → conns' c = conns c) :
    Sound callers conns' (fun _ => []) dialed := by
  constructor
  case exclusive => exact h.exclusive
  case unused => simp
  case once => simp
  case key => simp
  case clean => simp
  case fits =>
    intro i
    have hi := h.fits i
    have hu := hused i
    cases hc : callers i with
    | idle => trivial
    | streaming c => trivial
    | pipeline c => trivial
    | acquired c use =>
      rw [hc] at hi hu
      simpa [Caller.Fits, hu c rfl] using hi
    | waiting c call =>
      rw [hc] at hi hu
      simpa [Caller.Fits, hu c rfl] using hi
    | decoded c =>
      rw [hc] at hi hu
      simpa [Caller.Fits, hu c rfl] using hi
  case used_dialed => exact h.used_dialed
  case pool_dialed => simp

end Sound

namespace NetworkTransport

variable {n n' : NetworkTransport}

/-- The invariant of the transport. -/
structure Invariant (n : NetworkTransport) : Prop where
  sound : Sound n.callers n.conns n.connPool n.dialed
  paired : ∀ p ∈ n.results, p.2.call = p.1

theorem Invariant.send (h : Invariant n) {i : Nat} (hs : n.send i = some n') : Invariant n' := by
  unfold NetworkTransport.send at hs
  dsimp only at hs
  split at hs
  · rename_i c hi
    cases hs
    have hclean : (n.conns c).Clean := by
      have hfits := h.sound.fits i
      rwa [hi] at hfits
    refine ⟨h.sound.act (by rw [hi]; rfl) _ (.inr rfl) ?_, h.paired⟩
    simpa [Caller.Fits] using hclean.send n.calls
  · rename_i c hi
    cases hs
    exact ⟨h.sound.act (by rw [hi]; rfl) _ (.inr rfl) trivial, h.paired⟩
  · rename_i c hi
    cases hs
    exact ⟨h.sound.act_pipeline hi _, h.paired⟩
  · simp at hs

theorem Invariant.sendFailed (h : Invariant n) {i : Nat} {whole : Bool}
    (hs : n.sendFailed i whole = some n') : Invariant n' := by
  unfold NetworkTransport.sendFailed at hs
  dsimp only at hs
  split at hs
  · rename_i c use hi
    cases hs
    exact ⟨h.sound.act (by rw [hi]; rfl) _ (.inl rfl) trivial, h.paired⟩
  · rename_i c hi
    cases hs
    exact ⟨h.sound.act_pipeline hi _, h.paired⟩
  · simp at hs

theorem Invariant.decode (h : Invariant n) {i : Nat} (hs : n.decode i = some n') : Invariant n' := by
  unfold NetworkTransport.decode at hs
  split at hs
  · rename_i c call hi
    have hpending : (n.conns c).Pending call := by
      have hfits := h.sound.fits i
      rwa [hi] at hfits
    split at hs
    · simp at hs
    · rename_i reply rest hr
      cases hs
      obtain ⟨hcall, hclean⟩ := hpending.decode hr
      refine ⟨h.sound.act (by rw [hi]; rfl) _ (.inr rfl) (by simpa [Caller.Fits] using hclean), ?_⟩
      intro p hp
      rcases List.mem_cons.mp hp with rfl | hp
      · exact hcall
      · exact h.paired p hp
  · rename_i c hi
    split at hs
    · simp at hs
    · cases hs
      exact ⟨h.sound.act (by rw [hi]; rfl) _ (.inl rfl) trivial, h.paired⟩
  · rename_i c hi
    split at hs
    · simp at hs
    · cases hs
      exact ⟨h.sound.act_pipeline hi _, h.paired⟩
  · simp at hs

theorem Invariant.decodeFailed (h : Invariant n) {i : Nat} (hs : n.decodeFailed i = some n') :
    Invariant n' := by
  unfold NetworkTransport.decodeFailed at hs
  split at hs
  · rename_i c call hi
    cases hs
    exact ⟨h.sound.act (by rw [hi]; rfl) _ (.inl rfl) trivial, h.paired⟩
  · rename_i c hi
    cases hs
    exact ⟨h.sound.act (by rw [hi]; rfl) _ (.inl rfl) trivial, h.paired⟩
  · rename_i c hi
    cases hs
    exact ⟨h.sound.act_pipeline hi _, h.paired⟩
  · simp at hs

theorem Invariant.getConn (h : Invariant n) {i : Nat}
    (target : ServerAddress) (use : Use) :
    Invariant ((n.getConn target).1.setCaller i (Caller.start (n.getConn target).2 use)) := by
  unfold NetworkTransport.getConn
  cases hc : (n.connPool target).getLast? with
  | none => exact ⟨h.sound.dial i target use, h.paired⟩
  | some c => exact ⟨h.sound.take hc use, h.paired⟩

theorem Invariant.returnConn (h : Invariant n) {i c : Nat} (hi : n.callers i = .decoded c) :
    Invariant ((n.returnConn c).setCaller i .idle) := by
  unfold NetworkTransport.returnConn
  dsimp only
  split
  · exact ⟨h.sound.put hi, h.paired⟩
  · exact ⟨h.sound.act (by rw [hi]; rfl) _ (.inl rfl) trivial, h.paired⟩

theorem Invariant.answer (h : Invariant n) {c call : Nat} {rest : List Nat} (error body : Bytes)
    (hr : (n.conns c).requests = call :: rest) :
    Invariant (n.setConn c
      { n.conns c with
        requests := rest, responses := (n.conns c).responses ++ [⟨call, error, body⟩] }) := by
  refine ⟨h.sound.remote c rfl ?_ ?_, h.paired⟩
  · intro hclean
    rw [hclean.requests] at hr
    simp at hr
  · intro call' hpending
    refine ⟨?_, hpending.dirty, hpending.released⟩
    have hexpected := hpending.expected
    rw [hr] at hexpected
    simpa using hexpected

theorem Invariant.garble (h : Invariant n) {c : Nat} (hdirty : (n.conns c).dirty = true)
    (reply : RPCReply) :
    Invariant (n.setConn c { n.conns c with responses := (n.conns c).responses ++ [reply] }) := by
  refine ⟨h.sound.remote c rfl ?_ ?_, h.paired⟩
  · intro hclean
    exact absurd (hdirty.symm.trans hclean.dirty) (by simp)
  · intro call hpending
    exact absurd (hdirty.symm.trans hpending.dirty) (by simp)

theorem Invariant.step {a : PoolAction} (h : Invariant n) (hs : n.step a = some n') :
    Invariant n' := by
  cases a with
  | getConn i target use =>
    simp only [NetworkTransport.step] at hs
    split at hs
    · cases hs
      exact h.getConn target use
    · simp at hs
  | send i => exact h.send hs
  | sendFailed i whole => exact h.sendFailed hs
  | streamFailed i =>
    simp only [NetworkTransport.step] at hs
    split at hs
    · rename_i c hi
      cases hs
      exact ⟨h.sound.act (by rw [hi]; rfl) _ (.inl rfl) trivial, h.paired⟩
    · simp at hs
  | decode i => exact h.decode hs
  | decodeFailed i => exact h.decodeFailed hs
  | returnConn i =>
    simp only [NetworkTransport.step] at hs
    split at hs
    · rename_i c hi
      cases hs
      exact h.returnConn hi
    · simp at hs
  | closePipeline i =>
    simp only [NetworkTransport.step] at hs
    split at hs
    · rename_i c hi
      cases hs
      exact ⟨h.sound.act (by rw [hi]; rfl) _ (.inl rfl) trivial, h.paired⟩
    · simp at hs
  | answer c error body =>
    simp only [NetworkTransport.step] at hs
    split at hs
    · simp at hs
    · rename_i call rest hr
      cases hs
      exact h.answer error body hr
  | garble c reply =>
    simp only [NetworkTransport.step] at hs
    split at hs
    · rename_i hdirty
      cases hs
      exact h.garble hdirty reply
    · simp at hs
  | closeStreams =>
    simp only [NetworkTransport.step, Option.some.injEq] at hs
    subst hs
    refine ⟨h.sound.drain ?_, h.paired⟩
    intro i c hi
    exact if_neg (fun hmem => h.sound.unused _ c hmem i hi)
  | close =>
    simp only [NetworkTransport.step, Option.some.injEq] at hs
    subst hs
    exact ⟨h.sound, h.paired⟩

theorem invariant_of_reachable (h : system.Reachable (fun _ _ => True) n) : Invariant n := by
  refine Lib.System.Reachable.invariant ?_ ?_ h
  · rintro n ⟨maxPool, rfl⟩
    refine ⟨?_, by simp⟩
    constructor <;> simp [Caller.conn?, Caller.Fits]
  · intro n a n' hn _ hs
    exact hn.step hs

/-- No connection is used by two goroutines or left in the pool while it is used,
nothing is outstanding on the connections in the pool, and the response `genericRPC`
decodes is the one the remote side has produced for its request. -/
theorem responses_paired (h : system.Reachable (fun _ _ => True) n) :
    (∀ i j c, (n.callers i).conn? = some c → (n.callers j).conn? = some c → i = j) ∧
      (∀ target, (n.connPool target).Nodup ∧ ∀ c ∈ n.connPool target,
        (∀ i, (n.callers i).conn? ≠ some c) ∧ (∀ other, c ∈ n.connPool other → other = target) ∧
        (n.conns c).requests = [] ∧ (n.conns c).responses = [] ∧ (n.conns c).released = false) ∧
      ∀ p ∈ n.results, p.2.call = p.1 := by
  obtain ⟨hsound, hpaired⟩ := invariant_of_reachable h
  refine ⟨hsound.exclusive, ?_, hpaired⟩
  intro target
  refine ⟨hsound.once target, ?_⟩
  intro c hc
  have hclean := hsound.clean target c hc
  refine ⟨hsound.unused target c hc, ?_, hclean.requests, hclean.responses, hclean.released⟩
  intro other hother
  exact (hsound.key other c hother).symm.trans (hsound.key target c hc)

/-- Two goroutines share a connection one after the other; the second is answered with
a remote error. -/
def pooledCalls : List (NetworkTransport → PoolAction) :=
  [fun _ => .getConn 0 [1] .genericRPC, fun _ => .send 0, fun _ => .answer 0 [] [7],
    fun _ => .decode 0, fun _ => .returnConn 0, fun _ => .getConn 1 [1] .genericRPC,
    fun _ => .getConn 0 [1] .genericRPC, fun _ => .send 1, fun _ => .sendFailed 0 true,
    fun _ => .answer 0 [9] [], fun _ => .decode 1, fun _ => .returnConn 1]

theorem responses_paired_pooledCalls :
    ∃ n : NetworkTransport, system.Reachable (fun _ _ => True) n ∧
      n.results = [(1, ⟨1, [9], []⟩), (0, ⟨0, [], [7]⟩)] ∧ n.connPool [1] = [0] ∧ n.dialed = 2 ∧ ∀ p ∈ n.results, p.2.call = p.1 := by
  obtain ⟨n, hreach, hresults, hpool, hdialed⟩ : ∃ n : NetworkTransport,
      system.Reachable (fun _ _ => True) n ∧ n.results = [(1, ⟨1, [9], []⟩), (0, ⟨0, [], [7]⟩)] ∧
      n.connPool [1] = [0] ∧ n.dialed = 2 :=
    Lib.System.exists_reachable ⟨2, rfl⟩ pooledCalls (by decide +kernel)
  exact ⟨n, hreach, hresults, hpool, hdialed, (responses_paired hreach).2.2⟩

/-- A connection is closed, used by a goroutine, or in the pool. -/
def Placed (n : NetworkTransport) (c : Nat) : Prop :=
  (n.conns c).released = true ∨ (∃ i, (n.callers i).conn? = some c) ∨ ∃ target, c ∈ n.connPool target

/-- No connection is lost, and the pool of an address keeps to its limit. -/
structure Accounted (n : NetworkTransport) : Prop where
  bounded : ∀ target, (n.connPool target).length ≤ n.maxPool
  placed : ∀ c < n.dialed, n.Placed c

theorem Accounted.getConn (h : Accounted n) {i : Nat} (hidle : n.callers i = .idle)
    (target : ServerAddress) (use : Use) :
    Accounted ((n.getConn target).1.setCaller i (Caller.start (n.getConn target).2 use)) := by
  have hstart (c : Nat) : (Caller.start c use).conn? = some c := by cases use <;> rfl
  unfold NetworkTransport.getConn
  split
  · rename_i conn hlast
    obtain ⟨rest, hrest⟩ := List.getLast?_eq_some_iff.mp hlast
    refine ⟨fun t => ?_, fun c hc => ?_⟩
    · have hbound := h.bounded t
      simp only [setCaller, setPool, Function.update_apply]
      grind
    · have hplaced := h.placed c hc
      simp only [Placed, setCaller, setPool, Function.update_apply] at hplaced ⊢
      grind [Caller.conn?]
  · refine ⟨h.bounded, fun c hc => ?_⟩
    have hplaced := h.placed c
    simp only [Placed, setCaller, setConn, Function.update_apply] at hc hplaced ⊢
    grind [Caller.conn?]

theorem Accounted.step {a : PoolAction} (h : Accounted n) (hn : Invariant n)
    (hs : n.step a = some n') : Accounted n' := by
  cases a with
  | getConn i target use =>
    simp only [NetworkTransport.step] at hs
    split at hs
    · rename_i hidle
      cases hs
      exact h.getConn hidle target use
    · cases hs
  | closeStreams =>
    cases hs
    refine ⟨fun _ => Nat.zero_le _, fun c hc => ?_⟩
    -- the connections in the pool are there under their own target
    have hkey := hn.sound.key
    have hplaced := h.placed c hc
    simp only [Placed] at hplaced ⊢
    grind [NetConn.release]
  | _ =>
    -- a goroutine that gives up its connection has closed it or put it into the pool
    simp only [NetworkTransport.step, NetworkTransport.send, NetworkTransport.sendFailed,
      NetworkTransport.decode, NetworkTransport.decodeFailed, NetworkTransport.returnConn] at hs
    repeat' split at hs
    all_goals cases hs
    all_goals
      refine ⟨fun t => ?_, fun c hc => ?_⟩
      · have hbound := h.bounded t
        simp only [setConn, setCaller, setPool, Function.update_apply]
        grind
      · have hplaced := h.placed c hc
        simp only [Placed, setConn, setCaller, setPool, Function.update_apply] at hplaced ⊢
        grind [NetConn.send, NetConn.sendFailed, NetConn.release, Caller.conn?]

theorem connections_accounted (h : system.Reachable (fun _ _ => True) n) :
    (∀ target, (n.connPool target).length ≤ n.maxPool) ∧ ∀ c < n.dialed, n.Placed c := by
  have hinv := h.invariant (P := fun n => Invariant n ∧ Accounted n) ?_
    (fun _ _ _ hn _ hs => ⟨hn.1.step hs, hn.2.step hn.1 hs⟩)
  · exact ⟨hinv.2.bounded, hinv.2.placed⟩
  · rintro n ⟨maxPool, rfl⟩
    exact ⟨invariant_of_reachable ⟨_, ⟨maxPool, rfl⟩, .refl⟩, fun _ => Nat.zero_le _, nofun⟩

theorem connections_accounted_pooledCalls : 
    ∃ n : NetworkTransport, system.Reachable (fun _ _ => True) n ∧ n.dialed = 2 ∧
      (∀ target, (n.connPool target).length ≤ n.maxPool) ∧ ∀ c < n.dialed, n.Placed c := by
  obtain ⟨n, hreach, hdialed⟩ : ∃ n : NetworkTransport, system.Reachable (fun _ _ => True) n ∧
      n.dialed = 2 :=
    Lib.System.exists_reachable ⟨1, rfl⟩ pooledCalls (by decide +kernel)
  exact ⟨n, hreach, hdialed, connections_accounted hreach⟩

end NetworkTransport

end PerfRaft
