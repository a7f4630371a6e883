import Canal.LoopThread.Delivery
import Canal.Proxy.Slices

/-!
# The proxy passes on whole slices

Every state that the proxy reaches is one that the loop thread of `LoopThread` reaches,
so that what has been proved of slices holds of a thread that reads bytes. And the bytes
are accounted for: those that have arrived have been cut into slices or are in an input
buffer, and those that have been written are the slices of requests and replies, whole
and one behind the other. Only a bufferevent that goes takes bytes with it.
-/

namespace Canal.Proxy

open Buffer RespParser Reading LoopThread Trace

variable {s t : State} {c : Nat} {conn : Connection} {slices : List (List Byte)}

/-! ## The other actions -/

section

variable {a : LoopThread.Action} {u v : LoopThread.State}

theorem discard_eq (s : State) (a : LoopThread.Action) :
    ∃ connectionInput outbox heard answers,
      s.discard a = { s with connectionInput, outbox, heard, answers } := by
  unfold State.discard
  split <;> exact ⟨_, _, _, _, rfl⟩

/-- A bufferevent that goes takes its buffers with it. -/
theorem discard_severed (h : a.severs = some c) :
    (s.discard a).outbox c = [] ∧ (s.discard a).answers c = [] ∧ (s.discard a).heard c = [] ∧
      (s.discard a).connectionInput c = [] := by
  simp [State.discard, h]

theorem discard_kept (h : a.severs ≠ some c) :
    (s.discard a).outbox c = s.outbox c ∧ (s.discard a).answers c = s.answers c ∧
      (s.discard a).heard c = s.heard c ∧
      (s.discard a).connectionInput c = s.connectionInput c := by
  unfold State.discard
  split
  · exact ⟨rfl, rfl, rfl, rfl⟩
  · rename_i d hd
    have hne : c ≠ d := fun heq => h (heq ▸ hd)
    simp [Function.update_of_ne hne]

/-- A connection with nothing outstanding, whose bufferevent is new. -/
def Fresh (u : LoopThread.State) (a : LoopThread.Action) (c : Nat) (conn : Connection) : Prop :=
  (a.severs = some c ∨ u.connections.length ≤ c) ∧ conn.outstanding = []

/-- A connection that keeps its bufferevent. -/
def Stays (u : LoopThread.State) (a : LoopThread.Action) (c : Nat) (conn' : Connection) : Prop :=
  a.severs ≠ some c ∧ ∃ conn, u.connections[c]? = some conn ∧
    conn'.outstanding = conn.outstanding

theorem stays_of_eq (hsevers : a.severs = none) (heq : v.connections = u.connections)
    (found : v.connections[c]? = some conn) : Stays u a c conn :=
  ⟨by simp [hsevers], conn, heq ▸ found, rfl⟩

theorem fresh_or_stays_of_set {d : Nat} {conn₀ conn' : Connection}
    (before : u.connections[d]? = some conn₀)
    (hd : a.severs = some d ∧ conn'.outstanding = [] ∨
      a.severs = none ∧ conn'.outstanding = conn₀.outstanding)
    (found : (u.connections.set d conn')[c]? = some conn) :
    Fresh u a c conn ∨ Stays u a c conn := by
  obtain ⟨hlt, -⟩ := List.getElem?_eq_some_iff.mp before
  by_cases hc : c = d
  · subst hc
    obtain rfl := Option.some.inj ((List.getElem?_set_self hlt).symm.trans found)
    obtain ⟨hsevers, hnil⟩ | ⟨hsevers, hsame⟩ := hd
    · exact Or.inl ⟨Or.inl hsevers, hnil⟩
    · exact Or.inr ⟨by simp [hsevers], conn₀, before, hsame⟩
  · rw [List.getElem?_set_ne (Ne.symm hc)] at found
    refine Or.inr ⟨?_, conn, found, rfl⟩
    obtain ⟨hsevers, -⟩ | ⟨hsevers, -⟩ := hd <;> simp [hsevers, Ne.symm hc]

/-- What an action that dispatches and delivers nothing does. -/
structure Spares (u : LoopThread.State) (a : LoopThread.Action) (v : LoopThread.State) : Prop where
  forwarded : v.forwarded = u.forwarded
  deliveries : v.deliveries = u.deliveries
  length : u.connections.length ≤ v.connections.length
  connections : ∀ c conn, v.connections[c]? = some conn → Fresh u a c conn ∨ Stays u a c conn

theorem spares_of_set {d : Nat} {conn₀ conn' : Connection}
    (before : u.connections[d]? = some conn₀)
    (hd : a.severs = some d ∧ conn'.outstanding = [] ∨
      a.severs = none ∧ conn'.outstanding = conn₀.outstanding) :
    Spares u a { u with connections := u.connections.set d conn' } :=
  ⟨rfl, rfl, by simp, fun _ _ found => fresh_or_stays_of_set before hd found⟩

theorem spares_of_eq (hforwarded : v.forwarded = u.forwarded)
    (hdeliveries : v.deliveries = u.deliveries) (hconnections : v.connections = u.connections)
    (hsevers : a.severs = none) : Spares u a v :=
  ⟨hforwarded, hdeliveries, by rw [hconnections],
    fun _ _ found => Or.inr (stays_of_eq hsevers hconnections found)⟩

theorem spares_of_step (hplain : Plain a) (h : LoopThread.Step u a v) : Spares u a v := by
  cases h with
  | dispatch => exact hplain.elim
  | reply => exact hplain.elim
  | batch =>
      obtain ⟨added, hadded, hnil⟩ := connections_processMsg u
      refine ⟨forwarded_processMsg u, u.processMsg_deliveries, by simp [hadded], ?_⟩
      intro c conn found
      rw [hadded] at found
      by_cases hlt : c < u.connections.length
      · rw [List.getElem?_append_left hlt] at found
        exact Or.inr ⟨by simp [LoopThread.Action.severs], conn, found, rfl⟩
      · rw [List.getElem?_append_right (Nat.le_of_not_lt hlt)] at found
        exact Or.inl ⟨Or.inr (Nat.le_of_not_lt hlt), hnil conn (List.mem_of_getElem? found)⟩
  | clientEvent e found live =>
      by_cases hfailed : e.failed = true
      · refine spares_of_set found (Or.inl ⟨LoopThread.Action.severs_clientEvent hfailed, ?_⟩)
        simp [Connection.handleEvent, hfailed, Connection.sever]
      · refine spares_of_set found (Or.inr ⟨if_neg hfailed, ?_⟩)
        simp [Connection.handleEvent, hfailed, Connection.keep]
  | connect outcome found =>
      by_cases hunreached : outcome = .unreached
      · exact spares_of_set found
          (Or.inr ⟨if_pos hunreached, outstanding_connect_of_unreached hunreached⟩)
      · exact spares_of_set found
          (Or.inl ⟨LoopThread.Action.severs_connect hunreached, outstanding_connect hunreached⟩)
  | reconnect outcome found => exact spares_of_set found (Or.inl ⟨rfl, rfl⟩)
  | disConnect found => exact spares_of_set found (Or.inl ⟨rfl, rfl⟩)
  | _ => exact spares_of_eq rfl rfl rfl rfl

/-- Nothing is in the buffers of a bufferevent that is gone or has yet to be created. -/
theorem Whole.empty (hs : Whole s) (h : a.severs = some c ∨ s.connections.length ≤ c) :
    (s.discard a).outbox c = [] ∧ (s.discard a).answers c = [] := by
  by_cases hsevers : a.severs = some c
  · exact ⟨(discard_severed hsevers).1, (discard_severed hsevers).2.1⟩
  · obtain ⟨houtbox, hanswers, -⟩ := discard_kept (s := s) hsevers
    rw [houtbox, hanswers]
    exact hs.unused c (h.resolve_left hsevers)

theorem Whole.answered_discard (hs : Whole s) (a : LoopThread.Action) (c : Nat) :
    ((s.discard a).answers c).Sublist s.exchanges := by
  by_cases hsevers : a.severs = some c
  · rw [(discard_severed hsevers).2.1]
    exact List.nil_sublist _
  · rw [(discard_kept hsevers).2.1]
    exact hs.answered c

theorem Whole.other (hs : Whole s) (h : Spares s.toState a u) :
    Whole { s.discard a with toState := u } := by
  obtain ⟨connectionInput, outbox, heard, answers, hdiscard⟩ := discard_eq s a
  have houtbox : ∀ c, (s.discard a).outbox c = outbox c := fun c => by rw [hdiscard]
  have hanswers : ∀ c, (s.discard a).answers c = answers c := fun c => by rw [hdiscard]
  have hempty : ∀ c, a.severs = some c ∨ s.connections.length ≤ c →
      outbox c = [] ∧ answers c = [] := by
    intro c hc
    rw [← houtbox, ← hanswers]
    exact hs.empty hc
  rw [hdiscard]
  refine ⟨hs.inOrder, ?_, fun c conn found => ?_, fun c hc => ?_, fun c => ?_, ?_, ?_, hs.shaped,
    hs.replies⟩
  · exact fun i => (congrFun h.forwarded i).trans (hs.numbered i)
  · obtain ⟨hnew, hnil⟩ | ⟨hkept, conn', found', hsame⟩ := h.connections c conn found
    · exact sent_nil hnil (hempty c hnew).1 (hempty c hnew).2
    · obtain ⟨hout, hans, -⟩ := discard_kept (s := s) hkept
      exact (hs.outbox c conn' found').stays (fun _ => List.prefix_rfl)
        ((houtbox c).symm.trans hout) (sent_eq ((hanswers c).symm.trans hans) hsame)
  · exact hempty c (Or.inr (h.length.trans hc))
  · show (answers c).Sublist ((u.deliveries.map Delivery.request).zip s.texts)
    rw [h.deliveries, ← hanswers c]
    exact hs.answered_discard a c
  · exact hs.recorded.trans (congrArg List.length h.deliveries).symm
  · intro i
    simp only [State.repliesTo, h.deliveries]
    exact hs.written i

end

/-! ## Runs -/

/-- What has arrived from a client, and what has been heard on the bufferevent that a
connection has, has been cut into slices or is in the input buffer. -/
structure Conserved (s : State) : Prop where
  sessions : ∀ i, (s.cut i).flatten ++ s.sessionInput i = s.received i
  connections : ∀ c, (s.answers c).flatMap Prod.snd ++ s.connectionInput c = s.heard c

/-- In every run of the loop thread that leads to the state, each request has one fate. -/
def Fates (clients : List TcpClient) (u : LoopThread.State) : Prop :=
  ∀ run, Steps LoopThread.Step (LoopThread.start clients) run →
    final (LoopThread.start clients) run = u →
      Enumerates (u.answered ++ u.outstanding ++ lost (LoopThread.start clients) run) u.forwarded

/-- The loop thread is in a state that slices lead to, the bytes in its buffers are whole
slices, no byte is lost on the way into them, and each request has one fate. -/
structure Proxied (clients : List TcpClient) (s : State) : Prop where
  reaches : Reaches LoopThread.Step (LoopThread.start clients) s.toState
  whole : Whole s
  conserved : Conserved s
  fates : Fates clients s.toState

theorem fates (clients : List TcpClient) (u : LoopThread.State) : Fates clients u := by
  rintro run hrun rfl
  apply enumerates_of_count
  intro r
  rw [List.count_append, List.count_append]
  exact fate_of_run hrun r

/-- One input buffer. The bytes of what has been cut off come one behind the other. -/
theorem conserved_update {ι α : Type} [DecidableEq ι] {bytes : List α → List Byte}
    (happend : ∀ {xs ys}, bytes (xs ++ ys) = bytes xs ++ bytes ys) {cut : ι → List α}
    {input received : ι → List Byte} (h : ∀ k, bytes (cut k) ++ input k = received k) (i : ι)
    {new : List α} {chunk left : List Byte} (hsplit : bytes new ++ left = input i ++ chunk)
    (k : ι) : bytes (Function.update cut i (cut i ++ new) k) ++ Function.update input i left k =
      Function.update received i (received i ++ chunk) k := by
  by_cases hk : k = i
  · subst hk
    simp only [Function.update_self]
    rw [happend, List.append_assoc, hsplit, ← List.append_assoc, h k]
  · simp only [Function.update_of_ne hk]
    exact h k

theorem Conserved.other {a : LoopThread.Action} {u : LoopThread.State} (hs : Conserved s) :
    Conserved { s.discard a with toState := u } where
  sessions := by
    obtain ⟨_, _, _, _, hdiscard⟩ := discard_eq s a
    rw [hdiscard]
    exact hs.sessions
  connections c := by
    show ((s.discard a).answers c).flatMap Prod.snd ++ (s.discard a).connectionInput c =
      (s.discard a).heard c
    by_cases hsevers : a.severs = some c
    · obtain ⟨-, hanswers, hheard, hinput⟩ := discard_severed (s := s) hsevers
      rw [hanswers, hheard, hinput]
      rfl
    · obtain ⟨-, hanswers, hheard, hinput⟩ := discard_kept (s := s) hsevers
      rw [hanswers, hheard, hinput]
      exact hs.connections c

/-- The input buffers have no part in what is passed on. -/
theorem Whole.drained (hs : Whole s) (sessionInput received : SessionId → List Byte)
    (connectionInput heard : Nat → List Byte) :
    Whole { s with sessionInput, received, connectionInput, heard } :=
  { hs with
    outbox := fun c conn found => by
      obtain ⟨hmade, houtbox⟩ := hs.outbox c conn found
      exact ⟨hmade, houtbox⟩ }

theorem proxied_start (clients : List TcpClient) : Proxied clients (start clients) where
  reaches := .nil
  whole := by
    refine ⟨fun _ => .slnil, fun _ => rfl, fun c conn found => ?_, fun _ _ => ⟨rfl, rfl⟩,
      fun _ => .slnil, rfl, fun _ => rfl, fun _ slice hslice => ?_, fun slice hslice => ?_⟩
    · obtain ⟨client, -, rfl⟩ := List.mem_map.mp (List.mem_of_getElem? found)
      exact sent_nil rfl rfl rfl
    · cases hslice
    · cases hslice
  conserved := ⟨fun _ => rfl, fun _ => rfl⟩
  fates := fates clients _

/-- What a read event does. -/
structure Reads (s t : State) : Prop where
  reaches : Reaches LifeStep s.toState t.toState
  whole : Whole t
  conserved : Conserved t

theorem reads_of_read {i : SessionId} {sess : TcpSession} {chunk : List Byte} {past : Memory}
    {r : ReadResult} (hs : Whole s) (hconserved : Conserved s) (active : s.active i = some sess)
    (quiet : Quiet past) (parsed : onRead (s.sessionInput i ++ chunk) past = .ok r)
    (writes : Nat → Nat → Bool) :
    Reads s ((s.drainSession i chunk r.input).dispatchAll i r.slices writes) := by
  obtain ⟨hsplit, hshaped⟩ := onRead_split quiet parsed
  have hdrained : Whole (s.drainSession i chunk r.input) := hs.drained _ _ _ _
  have hdispatched := dispatchAll_dispatched hdrained active hshaped writes
  refine ⟨hdispatched.reaches, hdispatched.whole, ?_, ?_⟩
  · rw [hdispatched.cut, hdispatched.sessionInput, hdispatched.received]
    exact conserved_update List.flatten_append hconserved.sessions i hsplit
  · rw [hdispatched.answers, hdispatched.connectionInput, hdispatched.heard]
    exact hconserved.connections

theorem reads_of_receive {chunk : List Byte} {past : Memory} {r : ReadResult} (hs : Whole s)
    (hconserved : Conserved s) (hstocked : Stocked s.toState)
    (found : s.connections[c]? = some conn) (quiet : Quiet past)
    (parsed : onRead (s.connectionInput c ++ chunk) past = .ok r)
    (solicited : r.slices.length ≤ conn.outstanding.length) (writes : Nat → Bool) :
    Reads s ((s.drainConnection c chunk r.input).deliverAll c r.slices writes) := by
  obtain ⟨hsplit, hshaped⟩ := onRead_split quiet parsed
  have hdrained : Whole (s.drainConnection c chunk r.input) := hs.drained _ _ _ _
  have hdelivered :=
    deliverAll_delivered hdrained hstocked found hshaped solicited writes
  refine ⟨hdelivered.reaches, hdelivered.whole, ?_, ?_⟩
  · rw [hdelivered.cut, hdelivered.sessionInput, hdelivered.received]
    exact hconserved.sessions
  · rw [hdelivered.answers, hdelivered.connectionInput, hdelivered.heard]
    apply conserved_update List.flatMap_append hconserved.connections c
    rw [List.flatMap_def, List.map_snd_zip solicited, hsplit]

/-- An action is a read event, or one that the loop thread itself has. -/
theorem Step.reads {clients : List TcpClient} {a : Action} (h : Step s a t)
    (hs : Proxied clients s) :
    ((∀ b, a ≠ .other b) ∧ Reads s t) ∨
      ∃ b, a = .other b ∧ LoopThread.Step s.toState b t.toState ∧ Whole t ∧ Conserved t := by
  cases h with
  | read writes active quiet parsed =>
      exact Or.inl ⟨by simp, reads_of_read hs.whole hs.conserved active quiet parsed writes⟩
  | receive writes found live quiet parsed solicited =>
      exact Or.inl ⟨by simp, reads_of_receive hs.whole hs.conserved
        (stocked_of_reaches hs.reaches) found quiet parsed solicited writes⟩
  | other plain step =>
      exact Or.inr ⟨_, rfl, step, hs.whole.other (spares_of_step plain step), hs.conserved.other⟩

theorem Step.proxied {clients : List TcpClient} {a : Action} (h : Step s a t)
    (hs : Proxied clients s) : Proxied clients t := by
  obtain ⟨-, hreads⟩ | ⟨b, -, hstep, hwhole, hconserved⟩ := h.reads hs
  · have hreaches := hs.reaches.trans (hreads.reaches.mono fun _ _ _ hlife => hlife.1)
    exact ⟨hreaches, hreads.whole, hreads.conserved, fates clients _⟩
  · have hreaches := hs.reaches.trans (.cons hstep .nil)
    exact ⟨hreaches, hwhole, hconserved, fates clients _⟩

/-- In every run of read events and other actions, the proxy passes on whole slices, as
the loop thread does. -/
theorem proxied_along (clients : List TcpClient) (run : List (Action × State))
    (h : Steps Step (start clients) run) : Along (Proxied clients) (start clients) run :=
  h.along (proxied_start clients) fun _ _ _ hs hstep => hstep.proxied hs

/-- Two requests come in one piece, are sent on, and the first one is answered. -/
theorem proxied_two_requests :
    ∃ t, Reaches Step (start [idle]) t ∧
      t.outbox 0 = [43, 97, 13, 10, 43, 98, 13, 10] ∧ t.written 0 = [43, 99, 13, 10] ∧
      t.answers 0 = [(⟨0, 0⟩, [43, 99, 13, 10])] ∧ t.connectionInput 0 = [43] ∧
      Proxied [idle] t := by
  have hquiet : Quiet fun _ => some 0 := fun _ _ => ⟨0, rfl, by decide⟩
  have hreach : ∃ t, Reaches Step (start [idle]) t ∧
      t.outbox 0 = [43, 97, 13, 10, 43, 98, 13, 10] ∧ t.written 0 = [43, 99, 13, 10] ∧
      t.answers 0 = [(⟨0, 0⟩, [43, 99, 13, 10])] ∧ t.connectionInput 0 = [43] :=
    ⟨_, .cons (.other (a := .accept 5 true 0) trivial (.accept true 0 rfl)) <|
      .cons (a := Action.read 0 [43, 97, 13, 10, 43, 98, 13, 10] (fun _ => some 0) fun _ _ => true)
        (.read _ rfl hquiet rfl) <|
      .cons (a := Action.receive 0 [43, 99, 13, 10, 43] (fun _ => some 0) fun _ => true)
        (.receive _ rfl rfl hquiet rfl (by decide)) .nil, rfl, rfl, rfl, rfl⟩
  obtain ⟨t, ⟨run, hrun, rfl⟩, houtbox, hwritten, hanswers, hinput⟩ := hreach
  have hproxied := (proxied_along _ run hrun).final
  exact ⟨_, ⟨run, hrun, rfl⟩, houtbox, hwritten, hanswers, hinput, hproxied⟩

/-! ## What a client gets to see -/

/-- A client has been written the replies to its own requests, and nothing else. -/
structure Private (s : State) : Prop where
  aligned : Aligned s.toState
  own : ∀ i, s.written i = (((s.deliveries.zip s.texts).filter fun p =>
    p.1.receiver = some i ∧ p.1.request.session = i).map Prod.snd).flatten

/-- If the action drops or replaces a bufferevent, no session waits on its connection. -/
def Action.Drained (a : Action) (s : State) : Prop :=
  match a with
  | .other b => LoopThread.Drained s.toState b
  | _ => True

theorem private_iff (hs : Whole s) : Private s ↔ Aligned s.toState := by
  refine ⟨fun h => h.aligned, fun h => ⟨h, fun i => ?_⟩⟩
  rw [hs.written, State.repliesTo]
  congr 2
  apply List.filter_congr
  intro p hp
  have hrouted : p.1.receiver = some i → p.1.request.session = i := fun hi =>
    (h.routed p.1 (List.of_mem_zip hp).1 i hi).symm
  simpa using hrouted

theorem Step.private_iff {clients : List TcpClient} {a : Action} (h : Step s a t)
    (hs : Proxied clients s) (hprivate : Private s) : Private t ↔ a.Drained s := by
  rw [Proxy.private_iff (h.proxied hs).whole]
  obtain ⟨hne, hreads⟩ | ⟨b, rfl, hstep, -⟩ := h.reads hs
  · refine iff_of_true ?_ ?_
    · apply hreads.reaches.invariant hprivate.aligned
      intro u b v hu hlife
      exact (hlife.1.aligned_iff hu).mpr (drained_of_severs_none hlife.2)
    · cases a with
      | other b => exact absurd rfl (hne b)
      | read | receive => trivial
  · exact hstep.aligned_iff hprivate.aligned

/-- In every run, no client gets to see what is due to another one, and each queue names
those who wait, exactly if no bufferevent goes while a session waits on its connection. -/
theorem private_along_iff (clients : List TcpClient) (run : List (Action × State))
    (h : Steps Step (start clients) run) :
    Along Private (start clients) run ↔
      Steps (fun s a _ => a.Drained s) (start clients) run := by
  have hproxied : Along (Proxied clients) (start clients) run :=
    h.along (proxied_start clients) fun _ _ _ hs hstep => hstep.proxied hs
  apply h.along_iff_under hproxied
  · exact (private_iff hproxied.initial.whole).mpr (aligned_start clients)
  · exact fun s a t hs hprivate hstep => hstep.private_iff hs hprivate

/-- A backend answers two clients, and goes away when nobody waits for it. -/
theorem private_after_disConnect :
    ∃ t, Reaches Step (start [idle]) t ∧ t.outbox 0 = [] ∧ t.written 0 = [43, 99, 13, 10] ∧
      t.written 1 = [43, 100, 13, 10] ∧ Private t := by
  have hquiet : Quiet fun _ => some 0 := fun _ _ => ⟨0, rfl, by decide⟩
  have hreach : ∃ t, Reaches (fun s a t => Step s a t ∧ a.Drained s) (start [idle]) t ∧
      t.outbox 0 = [] ∧ t.written 0 = [43, 99, 13, 10] ∧ t.written 1 = [43, 100, 13, 10] :=
    ⟨_, .cons ⟨.other (a := .accept 5 true 0) trivial (.accept true 0 rfl),
        drained_of_severs_none rfl⟩ <|
      .cons ⟨.other (a := .accept 6 true 0) trivial (.accept true 0 rfl),
        drained_of_severs_none rfl⟩ <|
      .cons (a := Action.read 0 [43, 97, 13, 10] (fun _ => some 0) fun _ _ => true)
        ⟨.read _ rfl hquiet rfl, trivial⟩ <|
      .cons (a := Action.read 1 [43, 98, 13, 10] (fun _ => some 0) fun _ _ => true)
        ⟨.read _ rfl hquiet rfl, trivial⟩ <|
      .cons (a := Action.receive 0 [43, 99, 13, 10, 43, 100, 13, 10] (fun _ => some 0)
          fun _ => true) ⟨.receive _ rfl rfl hquiet rfl (by decide), trivial⟩ <|
      .cons ⟨.other (a := .disConnect 0) trivial (.disConnect rfl), (drained_iff rfl rfl).mpr rfl⟩
        .nil, rfl, rfl, rfl⟩
  obtain ⟨t, ⟨run, hsteps, rfl⟩, houtbox, hfirst, hsecond⟩ := hreach
  have hrun := hsteps.mono fun _ _ _ h => h.1
  have hdrained := hsteps.mono fun _ _ _ h => h.2
  have hprivate := (private_along_iff _ run hrun).mpr hdrained
  exact ⟨_, ⟨run, hrun, rfl⟩, houtbox, hfirst, hsecond, hprivate.final⟩

end Canal.Proxy
