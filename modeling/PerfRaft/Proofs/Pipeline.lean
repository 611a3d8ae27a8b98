import PerfRaft.Pipeline

namespace PerfRaft

/-- What a future carries once it is answered. -/
def AppendFuture.result (future : AppendFuture) : Option AppendEntriesResponse × Option PipelineError :=
  (future.resp, future.err)

def PipelineReply.result (reply : PipelineReply) : Option AppendEntriesResponse × Option PipelineError :=
  (some reply.resp, if reply.rpcError = [] then none else some (.remote reply.rpcError))

/-- What a future carries when its response could not be read. -/
def unreadResult : Option AppendEntriesResponse × Option PipelineError := (none, some .connection)

def PipelineSender.held : PipelineSender → List AppendEntriesRequest
  | .idle => []
  | .handing args => [args]

def PipelineDecoder.held : PipelineDecoder → List AppendEntriesRequest
  | .decoding args => [args]
  | _ => []

def PipelineDecoder.answered : PipelineDecoder → List AppendFuture
  | .delivering future => [future]
  | _ => []

namespace NetPipeline

/-- The futures answered so far that the consumer has or can still get, in the order
they were answered. -/
def done (n : NetPipeline) : List AppendFuture := n.delivered ++ n.doneCh ++ n.decoder.answered

/-- The requests whose response the decoder has still to read. -/
def behind (n : NetPipeline) : List AppendEntriesRequest :=
  if n.decoder = .stopped then [] else n.decoder.held ++ n.inprogressCh ++ n.sender.held

/-- All the requests on their way, the oldest first. -/
def line (n : NetPipeline) : List AppendEntriesRequest := n.done.map AppendFuture.args ++ n.behind

/-- Where the requests that were sent are. As long as the connection is not released
none is lost; afterwards no more are sent. -/
structure Accounts (n : NetPipeline) : Prop where
  two : 2 ≤ n.maxInFlight
  room : n.inprogressCh.length ≤ n.capacity
  closing : n.closing = true → n.released = true
  shutdown : n.shutdown = true → n.released = true
  stopped : n.decoder = .stopped → n.shutdown = true
  line : n.line <+: n.sent
  whole : n.released = false → n.line = n.sent
  bound : n.sent.length ≤ n.read.length + n.maxInFlight
  results : ∃ k, n.done.map AppendFuture.result <+:
      n.read.map PipelineReply.result ++ List.replicate k unreadResult ∧
    (n.decoder ≠ .stopped → n.done.map AppendFuture.result =
      n.read.map PipelineReply.result ++ List.replicate k unreadResult) ∧
    (0 < k → n.released = true ∧ n.buffered = [])

theorem accounts_new {maxInFlight : Nat} (h : 2 ≤ maxInFlight) :
    Accounts { maxInFlight := maxInFlight } where
  two := h
  room := Nat.zero_le _
  closing := nofun
  shutdown := nofun
  stopped := nofun
  line := List.nil_prefix
  whole := fun _ => rfl
  bound := Nat.zero_le _
  results := ⟨0, List.nil_prefix, fun _ => rfl, nofun⟩

variable {n : NetPipeline}

theorem Accounts.running (h : Accounts n) (hr : n.released = false) :
    n.decoder ≠ .stopped := by
  intro hd
  rw [h.shutdown (h.stopped hd)] at hr
  cases hr

/-- While the connection is in use, every request sent has its response read or is
still on its way to the decoder. -/
theorem Accounts.count (h : Accounts n) (hr : n.released = false) :
    n.sent.length = n.read.length + n.behind.length := by
  obtain ⟨k, -, heq, hk⟩ := h.results
  have hk0 : k = 0 := by
    by_contra hne
    obtain ⟨hrel, -⟩ := hk (Nat.pos_of_ne_zero hne)
    rw [hr] at hrel
    cases hrel
  have hlen := congrArg List.length (heq (h.running hr))
  simp only [hk0, List.replicate_zero, List.append_nil, List.length_map] at hlen
  rw [← h.whole hr, NetPipeline.line, List.length_append, List.length_map, hlen]

theorem length_behind_le (n : NetPipeline) :
    n.behind.length ≤ n.inprogressCh.length + 1 + n.sender.held.length := by
  simp only [behind]
  split
  · simp
  · have : n.decoder.held.length ≤ 1 := by
      cases n.decoder <;> simp [PipelineDecoder.held]
    simp only [List.length_append]
    omega

/-- There is room for one more request when the sender has handed over the last one. -/
theorem Accounts.room_to_send (h : Accounts n) (hs : n.sender = .idle)
    (hr : n.released = false) : n.sent.length + 1 ≤ n.read.length + n.maxInFlight := by
  have hcount := h.count hr
  have hbehind := n.length_behind_le
  have hroom := h.room
  have htwo := h.two
  simp only [hs, PipelineSender.held, List.length_nil, capacity] at hbehind hroom
  omega

/-- A future moves on in the line. -/
theorem Accounts.moved {n n' : NetPipeline} (h : Accounts n) (hmax : n'.maxInFlight = n.maxInFlight)
    (hroom : n'.inprogressCh.length ≤ n.capacity) (hreleased : n'.released = n.released)
    (hclosing : n'.closing = n.closing) (hshutdown : n'.shutdown = n.shutdown)
    (hd : n'.decoder = .stopped ↔ n.decoder = .stopped) (hline : n'.line = n.line)
    (hdone : n'.done = n.done) (hbuffered : n'.buffered = n.buffered) (hsent : n'.sent = n.sent)
    (hread : n'.read = n.read) : Accounts n' where
  two := by rw [hmax]; exact h.two
  room := by simpa only [capacity, hmax] using hroom
  closing := by rw [hclosing, hreleased]; exact h.closing
  shutdown := by rw [hshutdown, hreleased]; exact h.shutdown
  stopped := by rw [hd, hshutdown]; exact h.stopped
  line := by rw [hline, hsent]; exact h.line
  whole := by rw [hline, hsent, hreleased]; exact h.whole
  bound := by rw [hsent, hread, hmax]; exact h.bound
  results := by
    obtain ⟨k, hpre, heq, hk⟩ := h.results
    refine ⟨k, ?_, fun hne => ?_, ?_⟩
    · rw [hdone, hread]; exact hpre
    · rw [hdone, hread]; exact heq (fun he => hne (hd.mpr he))
    · rw [hreleased, hbuffered]; exact hk

theorem Accounts.send (h : Accounts n) (hs : n.sender = .idle)
    (hr : n.released = false) (args : AppendEntriesRequest) :
    Accounts { n with sender := .handing args, sent := n.sent ++ [args] } := by
  have hd := h.running hr
  have hline : NetPipeline.line { n with sender := .handing args, sent := n.sent ++ [args] } =
      n.sent ++ [args] := by
    rw [← h.whole hr]
    simp [NetPipeline.line, behind, done, hd, hs, PipelineSender.held]
  refine ⟨h.two, h.room, h.closing, h.shutdown, h.stopped, ?_, fun _ => hline, ?_, h.results⟩
  · exact hline ▸ List.prefix_rfl
  · simpa using h.room_to_send hs hr

/-- A request that could not be written, or of which that is not known, releases the
connection. -/
theorem Accounts.sendFailed (h : Accounts n) (hs : n.sender = .idle)
    (args : AppendEntriesRequest) (whole : Bool) :
    Accounts
      { n with
        sent := if whole && !n.released then n.sent ++ [args] else n.sent, released := true } := by
  refine ⟨h.two, h.room, fun _ => rfl, fun _ => rfl, h.stopped, ?_, nofun, ?_, ?_⟩
  · apply h.line.trans
    dsimp only
    split
    · exact List.prefix_append _ _
    · exact List.prefix_rfl
  · dsimp only
    split
    · rename_i hw
      simp only [Bool.and_eq_true, Bool.not_eq_true'] at hw
      simpa using h.room_to_send hs hw.2
    · exact h.bound
  · obtain ⟨k, hpre, heq, hk⟩ := h.results
    exact ⟨k, hpre, heq, fun hpos => ⟨rfl, (hk hpos).2⟩⟩

/-- The future that the sender gives up was the last of the line. -/
theorem Accounts.sendShutdown (h : Accounts n) (hshut : n.shutdown = true) :
    Accounts { n with sender := .idle } := by
  have hline : NetPipeline.line { n with sender := .idle } <+: n.line := by
    simp only [NetPipeline.line, behind, done, PipelineSender.held]
    split
    · exact List.prefix_rfl
    · simp
  refine ⟨h.two, h.room, h.closing, h.shutdown, h.stopped, hline.trans h.line, ?_, h.bound,
    h.results⟩
  intro hr
  rw [h.shutdown hshut] at hr
  cases hr

theorem Accounts.fill (h : Accounts n) (hr : n.released = false)
    (replies : List PipelineReply) : Accounts { n with buffered := replies } := by
  refine ⟨h.two, h.room, h.closing, h.shutdown, h.stopped, h.line, h.whole, h.bound, ?_⟩
  obtain ⟨k, hpre, heq, hk⟩ := h.results
  refine ⟨k, hpre, heq, fun hpos => ?_⟩
  obtain ⟨hrel, -⟩ := hk hpos
  rw [hr] at hrel
  cases hrel

theorem result_answer (reply : PipelineReply) (args : AppendEntriesRequest) :
    (reply.answer args).result = reply.result := rfl

variable {args : AppendEntriesRequest} {future : AppendFuture}

theorem line_answered {n n' : NetPipeline}
    (hd : n.decoder = .decoding args) (hd' : n'.decoder = .delivering future)
    (ha : future.args = args) (hdelivered : n'.delivered = n.delivered) (hch : n'.doneCh = n.doneCh)
    (hin : n'.inprogressCh = n.inprogressCh) (hs : n'.sender = n.sender) : n'.line = n.line := by
  simp [line, behind, done, hd, hd', ha, hdelivered, hch, hin, hs, PipelineDecoder.held,
    PipelineDecoder.answered]

/-- A response can be read only as long as none has failed to be read. -/
theorem Accounts.decode (h : Accounts n)
    {reply : PipelineReply} {rest : List PipelineReply} (hd : n.decoder = .decoding args)
    (hb : n.buffered = reply :: rest) :
    Accounts
      { n with
        decoder := .delivering (reply.answer args), buffered := rest, read := n.read ++ [reply] } := by
  obtain ⟨k, hpre, heq, hk⟩ := h.results
  have hk0 : k = 0 := by
    by_contra hne
    obtain ⟨-, hempty⟩ := hk (Nat.pos_of_ne_zero hne)
    rw [hb] at hempty
    cases hempty
  subst hk0
  have hdone := heq (by rw [hd]; nofun)
  simp only [done, hd, PipelineDecoder.answered, List.append_nil, List.replicate_zero] at hdone
  have hline : NetPipeline.line
      { n with
        decoder := .delivering (reply.answer args), buffered := rest, read := n.read ++ [reply] } =
      n.line := line_answered hd rfl rfl rfl rfl rfl rfl
  have hresults : (NetPipeline.done
      { n with
        decoder := .delivering (reply.answer args), buffered := rest
        read := n.read ++ [reply] }).map AppendFuture.result =
      (n.read ++ [reply]).map PipelineReply.result ++ List.replicate 0 unreadResult := by
    simp [done, PipelineDecoder.answered, ← hdone, result_answer]
  refine ⟨h.two, h.room, h.closing, h.shutdown, nofun, ?_, ?_, ?_, 0, ?_, fun _ => hresults, nofun⟩
  · rw [hline]; exact h.line
  · rw [hline]; exact h.whole
  · have := h.bound
    simp only [List.length_append, List.length_singleton]
    omega
  · exact hresults ▸ List.prefix_rfl

theorem Accounts.decodeFailed (h : Accounts n)
    (hd : n.decoder = .decoding args) (hb : n.buffered = []) :
    Accounts { n with decoder := .delivering ⟨args, none, some .connection⟩, released := true } := by
  obtain ⟨k, hpre, heq, hk⟩ := h.results
  have hdone := heq (by rw [hd]; nofun)
  simp only [done, hd, PipelineDecoder.answered, List.append_nil] at hdone
  have hline : NetPipeline.line
      { n with decoder := .delivering ⟨args, none, some .connection⟩, released := true } = n.line :=
    line_answered hd rfl rfl rfl rfl rfl rfl
  have hresults : (NetPipeline.done
      { n with
        decoder := .delivering ⟨args, none, some .connection⟩
        released := true }).map AppendFuture.result =
      n.read.map PipelineReply.result ++ List.replicate (k + 1) unreadResult := by
    simp only [done, PipelineDecoder.answered, List.map_append, List.map_cons, List.map_nil]
    rw [← List.map_append, hdone, List.replicate_succ', List.append_assoc]
    rfl
  refine ⟨h.two, h.room, fun _ => rfl, fun _ => rfl, nofun, ?_, nofun, h.bound,
    k + 1, ?_, fun _ => hresults, fun _ => ⟨rfl, hb⟩⟩
  · rw [hline]; exact h.line
  · exact hresults ▸ List.prefix_rfl

/-- The decoder stops; the future it holds is lost to the consumer. -/
theorem Accounts.decodeShutdown (h : Accounts n) (hshut : n.shutdown = true) :
    Accounts { n with decoder := .stopped } := by
  have hrel := h.shutdown hshut
  have hdone : NetPipeline.done { n with decoder := .stopped } <+: n.done := by
    simp [done, PipelineDecoder.answered]
  have hline : NetPipeline.line { n with decoder := .stopped } <+: n.line := by
    simp only [NetPipeline.line, behind, if_true, List.append_nil]
    exact (hdone.map _).trans (List.prefix_append _ _)
  refine ⟨h.two, h.room, h.closing, h.shutdown, fun _ => hshut, hline.trans h.line, ?_, h.bound, ?_⟩
  · intro hr
    rw [hrel] at hr
    cases hr
  · obtain ⟨k, hpre, -, hk⟩ := h.results
    exact ⟨k, (hdone.map _).trans hpre, fun hne => absurd rfl hne, hk⟩

theorem Accounts.release (h : Accounts n) :
    Accounts { n with closing := true, released := true } := by
  obtain ⟨k, hpre, heq, hk⟩ := h.results
  exact ⟨h.two, h.room, fun _ => rfl, fun _ => rfl, h.stopped, h.line, nofun, h.bound,
    k, hpre, heq, fun hpos => ⟨rfl, (hk hpos).2⟩⟩

theorem Accounts.close (h : Accounts n) (hc : n.closing = true) :
    Accounts { n with closing := false, shutdown := true } :=
  ⟨h.two, h.room, nofun, fun _ => h.closing hc, fun _ => rfl, h.line, h.whole, h.bound, h.results⟩

theorem Accounts.handOff (h : Accounts n)
    (hs : n.sender = .handing args) (hroom : n.inprogressCh.length < n.capacity) :
    Accounts { n with sender := .idle, inprogressCh := n.inprogressCh ++ [args] } := by
  refine h.moved rfl ?_ rfl rfl rfl Iff.rfl ?_ rfl rfl rfl rfl
  · rw [List.length_append]
    exact hroom
  · simp [NetPipeline.line, behind, done, hs, PipelineSender.held]

theorem Accounts.handOver (h : Accounts n)
    (hs : n.sender = .handing args) (hin : n.inprogressCh = []) (hd : n.decoder = .waiting) :
    Accounts { n with sender := .idle, decoder := .decoding args } := by
  refine h.moved rfl h.room rfl rfl rfl ?_ ?_ ?_ rfl rfl rfl
  · simp [hd]
  · simp [NetPipeline.line, behind, done, hs, hin, hd, PipelineSender.held, PipelineDecoder.held,
      PipelineDecoder.answered]
  · simp [done, hd, PipelineDecoder.answered]

theorem Accounts.take (h : Accounts n)
    {rest : List AppendEntriesRequest} (hin : n.inprogressCh = args :: rest)
    (hd : n.decoder = .waiting) :
    Accounts { n with inprogressCh := rest, decoder := .decoding args } := by
  have hroom := h.room
  rw [hin, List.length_cons] at hroom
  refine h.moved rfl (Nat.le_of_succ_le hroom) rfl rfl rfl ?_ ?_ ?_ rfl rfl rfl
  · simp [hd]
  · simp [NetPipeline.line, behind, done, hin, hd, PipelineDecoder.held, PipelineDecoder.answered]
  · simp [done, hd, PipelineDecoder.answered]

/-- The answered future goes into the channel, or to the consumer when the channel is
empty. -/
theorem Accounts.deliver {n n' : NetPipeline} (h : Accounts n)
    (hd : n.decoder = .delivering future)
    (hn : n' = { n with decoder := .waiting, doneCh := n.doneCh ++ [future] } ∨
      (n.doneCh = [] ∧ n' = { n with decoder := .waiting, delivered := n.delivered ++ [future] })) :
    Accounts n' := by
  obtain rfl | ⟨hch, rfl⟩ := hn
  · refine h.moved rfl h.room rfl rfl rfl ?_ ?_ ?_ rfl rfl rfl
    · simp [hd]
    · simp [NetPipeline.line, behind, done, hd, PipelineDecoder.held, PipelineDecoder.answered]
    · simp [done, hd, PipelineDecoder.answered]
  · refine h.moved rfl h.room rfl rfl rfl ?_ ?_ ?_ rfl rfl rfl
    · simp [hd]
    · simp [NetPipeline.line, behind, done, hch, hd, PipelineDecoder.held, PipelineDecoder.answered]
    · simp [done, hch, hd, PipelineDecoder.answered]

theorem Accounts.consume (h : Accounts n)
    {rest : List AppendFuture} (hch : n.doneCh = future :: rest) :
    Accounts { n with doneCh := rest, delivered := n.delivered ++ [future] } := by
  refine h.moved rfl h.room rfl rfl rfl Iff.rfl ?_ ?_ rfl rfl rfl
  · simp [NetPipeline.line, behind, done, hch]
  · simp [done, hch]

theorem Accounts.step {n n' : NetPipeline} (h : Accounts n) {a : PipelineAction}
    (hstep : n.step a = some n') : Accounts n' := by
  cases a with
  | send args =>
    simp only [NetPipeline.step, Option.ite_none_right_eq_some, Option.some.injEq] at hstep
    obtain ⟨⟨hs, hr⟩, rfl⟩ := hstep
    exact h.send hs hr args
  | sendFailed args whole =>
    simp only [NetPipeline.step, Option.ite_none_right_eq_some, Option.some.injEq] at hstep
    obtain ⟨hs, rfl⟩ := hstep
    exact h.sendFailed hs args whole
  | handOff =>
    simp only [NetPipeline.step] at hstep
    split at hstep
    · rename_i args hs
      simp only [Option.ite_none_right_eq_some, Option.some.injEq] at hstep
      obtain ⟨hroom, rfl⟩ := hstep
      exact h.handOff hs hroom
    · cases hstep
  | handOver =>
    simp only [NetPipeline.step] at hstep
    split at hstep
    · rename_i args hs hin hd
      cases hstep
      exact h.handOver hs hin hd
    · cases hstep
  | sendShutdown =>
    simp only [NetPipeline.step, Option.ite_none_right_eq_some, Option.some.injEq] at hstep
    obtain ⟨⟨-, hshut⟩, rfl⟩ := hstep
    exact h.sendShutdown hshut
  | take =>
    simp only [NetPipeline.step] at hstep
    split at hstep
    · rename_i args rest hin hd
      cases hstep
      exact h.take hin hd
    · cases hstep
  | fill replies =>
    simp only [NetPipeline.step] at hstep
    split at hstep
    · simp only [Option.ite_none_right_eq_some, Option.some.injEq] at hstep
      obtain ⟨⟨-, hr⟩, rfl⟩ := hstep
      exact h.fill hr replies
    · cases hstep
  | decode =>
    simp only [NetPipeline.step] at hstep
    split at hstep
    · rename_i args reply rest hd hb
      cases hstep
      exact h.decode hd hb
    · cases hstep
  | decodeFailed =>
    simp only [NetPipeline.step] at hstep
    split at hstep
    · rename_i args hd hb
      cases hstep
      exact h.decodeFailed hd hb
    · cases hstep
  | deliver =>
    simp only [NetPipeline.step] at hstep
    split at hstep
    · rename_i future hd
      simp only [Option.ite_none_right_eq_some, Option.some.injEq] at hstep
      obtain ⟨-, rfl⟩ := hstep
      exact h.deliver hd (.inl rfl)
    · cases hstep
  | deliverOver =>
    simp only [NetPipeline.step] at hstep
    split at hstep
    · rename_i future hd hch
      cases hstep
      exact h.deliver hd (.inr ⟨hch, rfl⟩)
    · cases hstep
  | decodeShutdown =>
    simp only [NetPipeline.step] at hstep
    split at hstep
    · simp only [Option.ite_none_right_eq_some, Option.some.injEq] at hstep
      obtain ⟨hshut, rfl⟩ := hstep
      exact h.decodeShutdown hshut
    · simp only [Option.ite_none_right_eq_some, Option.some.injEq] at hstep
      obtain ⟨hshut, rfl⟩ := hstep
      exact h.decodeShutdown hshut
    · cases hstep
  | consume =>
    simp only [NetPipeline.step] at hstep
    split at hstep
    · rename_i future rest hch
      cases hstep
      exact h.consume hch
    · cases hstep
  | release =>
    simp only [NetPipeline.step, Option.ite_none_right_eq_some, Option.some.injEq] at hstep
    obtain ⟨-, rfl⟩ := hstep
    exact h.release
  | close =>
    simp only [NetPipeline.step, Option.ite_none_right_eq_some, Option.some.injEq] at hstep
    obtain ⟨hc, rfl⟩ := hstep
    exact h.close hc

theorem accounts_of_reachable (h : system.Reachable (fun _ _ => True) n) :
    Accounts n := by
  apply h.invariant
  · rintro n ⟨maxInFlight, htwo, rfl⟩
    exact accounts_new htwo
  · intro n a n' hn _ hstep
    exact hn.step hstep

/-- The `k`-th future delivered carries an error, or what was read in the `k`-th place. -/
theorem Accounts.delivered_result (h : Accounts n) {k : Nat}
    (hk : n.delivered[k]? = some future) (herr : future.err = none) :
    ∃ reply, n.read[k]? = some reply ∧ future.result = reply.result := by
  obtain ⟨failures, hpre, -⟩ := h.results
  have hdone : n.delivered <+: n.done := by
    rw [done, List.append_assoc]
    exact List.prefix_append _ _
  have hget : (n.read.map PipelineReply.result ++ List.replicate failures unreadResult)[k]? =
      some future.result := by
    obtain ⟨rest, hrest⟩ := (hdone.map AppendFuture.result).trans hpre
    have hlt : k < (n.delivered.map AppendFuture.result).length := by
      rw [List.length_map]
      exact (List.getElem?_eq_some_iff.mp hk).1
    rw [← hrest, List.getElem?_append_left hlt, List.getElem?_map, hk]
    rfl
  by_cases hlt : k < n.read.length
  · refine ⟨n.read[k], List.getElem?_eq_getElem hlt, ?_⟩
    rw [List.getElem?_append_left (by simpa using hlt), List.getElem?_map,
      List.getElem?_eq_getElem hlt] at hget
    exact (Option.some.inj hget).symm
  · rw [List.getElem?_append_right (by simpa using hlt)] at hget
    have hunread : future.result = unreadResult :=
      List.eq_of_mem_replicate (List.mem_of_getElem? hget)
    have : future.err = some .connection := congrArg Prod.snd hunread
    rw [herr] at this
    cases this

/-- However the sender, the decoder, the consumer and `Close` interleave: at most
`maxInFlight` requests have been written without their response being read, the futures
come out in the order their requests were written, and one without an error has the
response that was read in its place. -/
theorem pipeline_bounded_in_order {n : NetPipeline} (h : system.Reachable (fun _ _ => True) n) :
    n.sent.length ≤ n.read.length + n.maxInFlight ∧
    n.delivered.map AppendFuture.args <+: n.sent ∧
    ∀ (k : Nat) (future : AppendFuture), n.delivered[k]? = some future → future.err = none →
      ∃ reply, n.read[k]? = some reply ∧ reply.rpcError = [] ∧ future.resp = some reply.resp := by
  have hn := accounts_of_reachable h
  refine ⟨hn.bound, ?_, ?_⟩
  · have hdone : n.delivered.map AppendFuture.args <+: n.line := by
      rw [NetPipeline.line, done, List.append_assoc, List.map_append, List.append_assoc]
      exact List.prefix_append _ _
    exact hdone.trans hn.line
  · intro k future hk herr
    obtain ⟨reply, hread, hresult⟩ := hn.delivered_result hk herr
    have hresp : future.resp = some reply.resp := congrArg Prod.fst hresult
    have herr' : future.err = if reply.rpcError = [] then none else some (.remote reply.rpcError) :=
      congrArg Prod.snd hresult
    refine ⟨reply, hread, ?_, hresp⟩
    rw [herr] at herr'
    split at herr'
    · assumption
    · cases herr'

/-- With two in flight: a request is decoded while the next has been written and waits
to be handed over. The remote answers the first with an error. -/
def twoInFlight : List (NetPipeline → PipelineAction) :=
  [fun _ => .send ⟨{}, 1, [], 0, 0, [], 0⟩, fun _ => .handOver, fun _ => .send ⟨{}, 2, [], 0, 0, [], 0⟩,
    fun _ => .fill [⟨[9], ⟨{}, 1, 4, false, false⟩⟩, ⟨[], ⟨{}, 2, 5, true, false⟩⟩], fun _ => .decode,
    fun _ => .deliverOver, fun _ => .handOver, fun _ => .release, fun _ => .decode,
    fun _ => .deliverOver, fun _ => .sendFailed ⟨{}, 3, [], 0, 0, [], 0⟩ false, fun _ => .close]

theorem pipeline_bounded_in_order_two :
    ∃ n : NetPipeline, system.Reachable (fun _ _ => True) n ∧
      n.delivered = [⟨⟨{}, 1, [], 0, 0, [], 0⟩, some ⟨{}, 1, 4, false, false⟩,
        some (.remote [9])⟩, ⟨⟨{}, 2, [], 0, 0, [], 0⟩, some ⟨{}, 2, 5, true, false⟩, none⟩] ∧
      n.shutdown = true ∧ n.delivered.map AppendFuture.args <+: n.sent := by
  obtain ⟨n, hreach, hdelivered, hshut⟩ : ∃ n : NetPipeline, system.Reachable (fun _ _ => True) n ∧
      n.delivered = [⟨⟨{}, 1, [], 0, 0, [], 0⟩, some ⟨{}, 1, 4, false, false⟩, some (.remote [9])⟩,
        ⟨⟨{}, 2, [], 0, 0, [], 0⟩, some ⟨{}, 2, 5, true, false⟩, none⟩] ∧ n.shutdown = true :=
    Lib.System.exists_reachable ⟨2, Nat.le_refl 2, rfl⟩ twoInFlight (by decide +kernel)
  exact ⟨n, hreach, hdelivered, hshut, (pipeline_bounded_in_order hreach).2.1⟩

end NetPipeline

end PerfRaft
