import Canal.LoopThread.Basic

/-!
# Replies find their sessions

The queue of a connection is aligned when it lists the sessions of the requests
that its current bufferevent owes an answer to. Dispatching, answering and
closing sessions keep every queue aligned. An action that drops or replaces a
bufferevent forgets the requests sent on it, but nothing clears the queue: it
stays aligned only if it was empty.
-/

namespace Canal.LoopThread

open Trace

/-- The queue holds the sessions of the unanswered requests, in order. -/
def Connection.Aligned (conn : Connection) : Prop :=
  conn.sessionQueue = conn.outstanding.map Request.session

/-- All queues are aligned, and no reply has been written to a session other
than the one that sent the request. -/
structure Aligned (s : State) : Prop where
  queues : ∀ conn ∈ s.connections, conn.Aligned
  routed : ∀ d ∈ s.deliveries, ∀ i, d.receiver = some i → i = d.request.session

/-- The connection whose bufferevent the action drops or replaces. -/
def Action.severs : Action → Option Nat
  | .clientEvent c e => if e.failed then some c else none
  | .connect c outcome => if outcome = .unreached then none else some c
  | .reconnect c _ => some c
  | .disConnect c => some c
  | _ => none

theorem Action.severs_clientEvent {c : Nat} {e : Events} (h : e.failed = true) :
    (Action.clientEvent c e).severs = some c := if_pos h

theorem Action.severs_connect {c : Nat} {outcome : ConnectOutcome} (h : outcome ≠ .unreached) :
    (Action.connect c outcome).severs = some c := if_neg h

/-- A connection whose bufferevent is about to go has no session in its queue. -/
def Drained (s : State) (a : Action) : Prop :=
  ∀ c conn, a.severs = some c → s.connections[c]? = some conn → conn.sessionQueue = []

variable {s t : State} {a : Action} {c : Nat} {conn : Connection}

/-! ## One connection -/

namespace Connection

variable {client : TcpClient}

theorem aligned_push (h : conn.Aligned) (r : Request) : (conn.push r).Aligned := by
  simp only [Aligned] at h
  simp [Aligned, push, h]

theorem aligned_pop (h : conn.Aligned) : conn.pop.Aligned := by
  simp only [Aligned] at h
  simp [Aligned, pop, h, List.map_tail]

@[simp] theorem aligned_keep : (conn.keep client).Aligned ↔ conn.Aligned := Iff.rfl

@[simp] theorem aligned_sever : (conn.sever client).Aligned ↔ conn.sessionQueue = [] := by
  simp [Aligned, sever]

theorem aligned_handleEvent (h : conn.Aligned) (e : Events) :
    (conn.handleEvent e).Aligned ↔ (e.failed = true → conn.sessionQueue = []) := by
  unfold handleEvent
  split <;> simp [*]

theorem aligned_connect (h : conn.Aligned) (outcome : ConnectOutcome) :
    (conn.connect outcome).Aligned ↔ (outcome ≠ .unreached → conn.sessionQueue = []) := by
  unfold connect
  split <;> simp [*]

theorem aligned_fresh (outcome : ConnectOutcome) : (Connection.connect {} outcome).Aligned :=
  (aligned_connect (show ({} : Connection).Aligned from rfl) outcome).mpr fun _ => rfl

end Connection

/-! ## One step -/

/-- Replacing one connection of a pool. -/
theorem forall_mem_set {P : Connection → Prop} {conns : List Connection} {conn' : Connection}
    (h : ∀ x ∈ conns, P x) (found : conns[c]? = some conn) :
    (∀ x ∈ conns.set c conn', P x) ↔ P conn' := by
  have hlt : c < conns.length := (List.getElem?_eq_some_iff.mp found).1
  constructor
  · intro hall
    exact hall conn' (List.mem_set hlt conn')
  · intro hconn x hx
    obtain hx | rfl := List.mem_or_eq_of_mem_set hx
    · exact h x hx
    · exact hconn

theorem aligned_set (h : Aligned s) (found : s.connections[c]? = some conn) {conn' : Connection} :
    Aligned { s with connections := s.connections.set c conn' } ↔ conn'.Aligned := by
  rw [← forall_mem_set h.queues found]
  exact ⟨fun ht => ht.queues, fun hq => ⟨hq, h.routed⟩⟩

theorem Aligned.of_eq (h : Aligned s) (hconns : t.connections = s.connections)
    (hdeliveries : t.deliveries = s.deliveries) : Aligned t :=
  ⟨hconns ▸ h.queues, hdeliveries ▸ h.routed⟩

theorem Aligned.get (h : Aligned s) (found : s.connections[c]? = some conn) : conn.Aligned :=
  h.queues conn (List.mem_of_getElem? found)

theorem Aligned.dispatch (h : Aligned s) {i : SessionId} {sess : TcpSession}
    (write : Nat → Bool) (hsess : s.sessions[i]? = some sess) :
    Aligned (s.dispatch i sess write) := by
  obtain ⟨gen, heq | ⟨c, conn, found, -, -, -, heq⟩⟩ := s.dispatch_cases write hsess
  · rw [heq]
    exact h.of_eq rfl rfl
  · rw [heq]
    exact ⟨(forall_mem_set h.queues found).mpr (Connection.aligned_push (h.get found) _), h.routed⟩

/-- A reply that arrives never finds the queue empty: in front is the session of
the request being answered. -/
theorem Aligned.exists_front (h : Aligned s) (found : s.connections[c]? = some conn) {r : Request}
    {rs : List Request} (answers : conn.outstanding = r :: rs) :
    ∃ q, conn.sessionQueue = r.session :: q := by
  have hconn := h.get found
  rw [Connection.Aligned, answers, List.map_cons] at hconn
  exact ⟨_, hconn⟩

theorem Aligned.front (h : Aligned s) (found : s.connections[c]? = some conn) {r : Request}
    {rs : List Request} {i : SessionId} {q : List SessionId} (answers : conn.outstanding = r :: rs)
    (front : conn.sessionQueue = i :: q) : i = r.session := by
  obtain ⟨q', hq'⟩ := h.exists_front found answers
  exact (List.cons.inj (front.symm.trans hq')).1

theorem Aligned.reply (h : Aligned s) (found : s.connections[c]? = some conn) {r : Request}
    {i : SessionId} (hi : i = r.session) (write : Bool) : Aligned (s.reply c conn r i write) := by
  refine ⟨(forall_mem_set h.queues found).mpr (Connection.aligned_pop (h.get found)), ?_⟩
  intro d hd j hj
  obtain hd | hd := List.mem_append.mp hd
  · exact h.routed d hd j hj
  · obtain rfl := List.mem_singleton.mp hd
    simp only [Option.ite_none_right_eq_some, Option.some.injEq] at hj
    rw [← hj.2, hi]

theorem Aligned.processMsg (h : Aligned s) : Aligned s.processMsg := by
  apply State.processMsg_induction (h.of_eq rfl rfl)
  intro t x _ ht
  cases x with
  | delSession fd => exact ht.of_eq rfl rfl
  | addConn outcome =>
      refine ⟨?_, ht.routed⟩
      intro conn hconn
      obtain hconn | hconn := List.mem_append.mp hconn
      · exact ht.queues conn hconn
      · rw [List.mem_singleton.mp hconn]
        exact Connection.aligned_fresh outcome

theorem drained_of_severs_none (h : a.severs = none) : Drained s a := by
  intro c conn hc
  simp [h] at hc

theorem drained_iff (hc : a.severs = some c) (found : s.connections[c]? = some conn) :
    Drained s a ↔ conn.sessionQueue = [] := by
  constructor
  · intro h
    exact h c conn hc found
  · intro hq c' conn' hc' found'
    obtain rfl := Option.some.inj (hc.symm.trans hc')
    obtain rfl := Option.some.inj (found.symm.trans found')
    exact hq

/-- The queues stay aligned exactly if no queue of a severed connection holds a session. -/
theorem Step.aligned_iff (hs : Aligned s) (h : Step s a t) : Aligned t ↔ Drained s a := by
  cases h with
  | accept bev gen closed => exact iff_of_true (hs.of_eq rfl rfl) (drained_of_severs_none rfl)
  | event active => exact iff_of_true (hs.of_eq rfl rfl) (drained_of_severs_none rfl)
  | dispatch write active =>
      exact iff_of_true (hs.dispatch write (State.active_eq_some.mp active).1)
        (drained_of_severs_none rfl)
  | reply write found answers front =>
      exact iff_of_true (hs.reply found (hs.front found answers front) write)
        (drained_of_severs_none rfl)
  | batch => exact iff_of_true hs.processMsg (drained_of_severs_none rfl)
  | post outcome => exact iff_of_true (hs.of_eq rfl rfl) (drained_of_severs_none rfl)
  | clientEvent e found live =>
      rw [aligned_set hs found, Connection.aligned_handleEvent (hs.get found)]
      by_cases hfailed : e.failed = true
      · rw [drained_iff (Action.severs_clientEvent hfailed) found]
        simp [hfailed]
      · exact iff_of_true (by simp [hfailed]) (drained_of_severs_none (if_neg hfailed))
  | connect outcome found =>
      rw [aligned_set hs found, Connection.aligned_connect (hs.get found)]
      by_cases hunreached : outcome = .unreached
      · exact iff_of_true (by simp [hunreached]) (drained_of_severs_none (if_pos hunreached))
      · rw [drained_iff (Action.severs_connect hunreached) found]
        simp [hunreached]
  | reconnect outcome found =>
      rw [aligned_set hs found, drained_iff rfl found]
      exact Connection.aligned_sever
  | disConnect found =>
      rw [aligned_set hs found, drained_iff rfl found]
      exact Connection.aligned_sever

theorem aligned_start (clients : List TcpClient) : Aligned (start clients) := by
  refine ⟨?_, by simp [start]⟩
  intro conn hconn
  obtain ⟨client, -, rfl⟩ := List.mem_map.mp hconn
  rfl

/-- The backend drops with a request of session 0 outstanding and comes back.
The reply to the first request of session 1 is written to session 0. -/
theorem reply_crosses_reconnect :
    ∃ run, Steps Step (start [idle]) run ∧
      (final (start [idle]) run).deliveries = [⟨⟨1, 0⟩, false, some 0⟩] ∧
      ¬ Along Aligned (start [idle]) run := by
  have hreach : ∃ t, Reaches Step (start [idle]) t ∧
      t.deliveries = [⟨⟨1, 0⟩, false, some 0⟩] :=
    ⟨_, .cons (a := Action.accept 5 true 0) (.accept true 0 rfl) <|
      .cons (a := Action.dispatch 0 fun _ => true) (.dispatch _ rfl) <|
      .cons (a := Action.clientEvent 0 { eof := true }) (.clientEvent _ rfl rfl) <|
      .cons (a := Action.connect 0 .started) (.connect _ rfl) <|
      .cons (a := Action.clientEvent 0 { connected := true }) (.clientEvent _ rfl rfl) <|
      .cons (a := Action.accept 6 true 0) (.accept true 0 rfl) <|
      .cons (a := Action.dispatch 1 fun _ => true) (.dispatch _ rfl) <|
      .cons (a := Action.reply 0 true) (.reply true rfl rfl rfl) .nil, rfl⟩
  obtain ⟨t, ⟨run, hsteps, rfl⟩, hdeliveries⟩ := hreach
  refine ⟨run, hsteps, hdeliveries, fun h => ?_⟩
  have hrouted := h.final.routed ⟨⟨1, 0⟩, false, some 0⟩ (by simp [hdeliveries]) 0 rfl
  simp at hrouted

/-- In every run the queues list the unanswered requests of the current
bufferevents at every point, exactly if each action that drops or replaces a
bufferevent finds the queue of its connection empty. -/
theorem aligned_along_iff (clients : List TcpClient) (run : List (Action × State))
    (h : Steps Step (start clients) run) :
    Along Aligned (start clients) run ↔ Steps (fun s a _ => Drained s a) (start clients) run :=
  h.along_iff (aligned_start clients) fun _ _ _ hs hstep => hstep.aligned_iff hs

theorem aligned_after_request :
    ∃ t, Reaches Step (start [idle]) t ∧ t.connections.map (·.sessionQueue) = [[0]] ∧
      Aligned t := by
  have hreach : ∃ t, Reaches (fun s a t => Step s a t ∧ Drained s a) (start [idle]) t ∧
      t.connections.map (·.sessionQueue) = [[0]] :=
    ⟨_, .cons (a := Action.clientEvent 0 { eof := true })
        ⟨.clientEvent _ rfl rfl, (drained_iff rfl rfl).mpr rfl⟩ <|
      .cons (a := Action.reconnect 0 .started) ⟨.reconnect _ rfl, (drained_iff rfl rfl).mpr rfl⟩ <|
      .cons (a := Action.clientEvent 0 { connected := true })
        ⟨.clientEvent _ rfl rfl, drained_of_severs_none rfl⟩ <|
      .cons (a := Action.accept 5 true 0) ⟨.accept true 0 rfl, drained_of_severs_none rfl⟩ <|
      .cons (a := Action.dispatch 0 fun _ => true) ⟨.dispatch _ rfl, drained_of_severs_none rfl⟩
        .nil, rfl⟩
  obtain ⟨t, ⟨run, hsteps, rfl⟩, hqueue⟩ := hreach
  have hrun := hsteps.mono fun _ _ _ h => h.1
  exact ⟨_, ⟨run, hrun, rfl⟩, hqueue,
    ((aligned_along_iff [idle] run hrun).mpr (hsteps.mono fun _ _ _ h => h.2)).final⟩

/-! ## The queue never runs dry -/

/-- The queue ends with the sessions of the unanswered requests. -/
def Connection.Stocked (conn : Connection) : Prop :=
  conn.outstanding.map Request.session <:+ conn.sessionQueue

namespace Connection

theorem stocked_push (h : conn.Stocked) (r : Request) : (conn.push r).Stocked := by
  obtain ⟨stale, hstale⟩ := h
  refine ⟨stale, ?_⟩
  simp [push, ← hstale]

theorem stocked_pop (h : conn.Stocked) : conn.pop.Stocked := by
  obtain ⟨stale, hstale⟩ := h
  cases stale with
  | nil => exact ⟨[], by simp [pop, ← hstale, List.map_tail]⟩
  | cons i stale =>
      refine List.IsSuffix.trans ?_ (show conn.outstanding.map Request.session <:+ _ from
        ⟨stale, by simp [pop, ← hstale]⟩)
      rw [pop, List.map_tail]
      exact List.tail_suffix _

theorem stocked_keep (h : conn.Stocked) (client : TcpClient) : (conn.keep client).Stocked := h

theorem stocked_sever (client : TcpClient) : (conn.sever client).Stocked := List.nil_suffix

theorem stocked_handleEvent (h : conn.Stocked) (e : Events) : (conn.handleEvent e).Stocked := by
  unfold handleEvent
  split
  · exact stocked_sever _
  · exact stocked_keep h _

theorem stocked_connect (h : conn.Stocked) (outcome : ConnectOutcome) :
    (conn.connect outcome).Stocked := by
  unfold connect
  split
  · exact stocked_keep h _
  · exact stocked_sever _

theorem stocked_fresh (outcome : ConnectOutcome) : (Connection.connect {} outcome).Stocked :=
  stocked_connect (show ({} : Connection).Stocked from List.nil_suffix) outcome

end Connection

/-- Stale sessions of earlier bufferevents stand in front. -/
def Stocked (s : State) : Prop := ∀ conn ∈ s.connections, conn.Stocked

theorem Stocked.get (h : Stocked s) (found : s.connections[c]? = some conn) : conn.Stocked :=
  h conn (List.mem_of_getElem? found)

theorem Stocked.set (h : Stocked s) (found : s.connections[c]? = some conn) {conn' : Connection}
    (hconn : conn'.Stocked) : ∀ x ∈ s.connections.set c conn', x.Stocked :=
  (forall_mem_set h found).mpr hconn

theorem Step.stocked (hs : Stocked s) (h : Step s a t) : Stocked t := by
  cases h with
  | accept bev gen closed => exact hs
  | event active => exact hs
  | dispatch write active =>
      obtain ⟨gen, heq | ⟨c, conn, found, -, -, -, heq⟩⟩ :=
        s.dispatch_cases write (State.active_eq_some.mp active).1
      · rw [heq]
        exact hs
      · rw [heq]
        exact hs.set found (Connection.stocked_push (hs.get found) _)
  | reply write found answers front => exact hs.set found (Connection.stocked_pop (hs.get found))
  | batch =>
      apply State.processMsg_induction (P := Stocked) hs
      intro t x _ ht
      cases x with
      | delSession fd => exact ht
      | addConn outcome =>
          intro conn hconn
          obtain hconn | hconn := List.mem_append.mp hconn
          · exact ht conn hconn
          · rw [List.mem_singleton.mp hconn]
            exact Connection.stocked_fresh outcome
  | post outcome => exact hs
  | clientEvent e found live =>
      exact hs.set found (Connection.stocked_handleEvent (hs.get found) e)
  | connect outcome found =>
      exact hs.set found (Connection.stocked_connect (hs.get found) outcome)
  | reconnect outcome found => exact hs.set found (Connection.stocked_sever _)
  | disConnect found => exact hs.set found (Connection.stocked_sever _)

/-! ## One life of the bufferevents -/

/-- The steps that leave every bufferevent in place. -/
def LifeStep (s : State) (a : Action) (t : State) : Prop := Step s a t ∧ a.severs = none

/-- Queues are aligned, replies go to the sessions that sent the requests, and a
reply for a closing session goes nowhere. -/
structure Routed (s : State) : Prop extends Aligned s where
  silent : ∀ d ∈ s.deliveries, d.closing = true → d.receiver = none

theorem State.reply_silent {i : SessionId} {r : Request} (hi : i = r.session) (write : Bool)
    (h : ∀ d ∈ s.deliveries, d.closing = true → d.receiver = none) :
    ∀ d ∈ (s.reply c conn r i write).deliveries, d.closing = true → d.receiver = none := by
  intro d hd hclosing
  obtain hd | hd := List.mem_append.mp hd
  · exact h d hd hclosing
  · obtain rfl := List.mem_singleton.mp hd
    change s.closing r.session = true at hclosing
    cases hsess : s.sessions[r.session]? with
    | none => simp [State.closing, hsess] at hclosing
    | some sess =>
        have hsend : sess.isClosing = true := by simpa [State.closing, hsess] using hclosing
        simp [hi, hsess, TcpSession.send, hsend]

theorem LifeStep.routed (hs : Routed s) (h : LifeStep s a t) : Routed t := by
  obtain ⟨hstep, hsevers⟩ := h
  refine ⟨(hstep.aligned_iff hs.toAligned).mpr (drained_of_severs_none hsevers), ?_⟩
  cases hstep with
  | reply write found answers front =>
      exact State.reply_silent (hs.front found answers front) write hs.silent
  | dispatch write active => simpa using hs.silent
  | batch => simpa using hs.silent
  | accept bev gen closed => exact hs.silent
  | event active => exact hs.silent
  | post outcome => exact hs.silent
  | clientEvent e found live => exact hs.silent
  | connect outcome found => exact hs.silent
  | reconnect outcome found => exact hs.silent
  | disConnect found => exact hs.silent

/-- While the bufferevents live, sessions may close and be erased at any point:
every queue lists the unanswered requests, and no reply reaches a wrong session. -/
theorem routed_along (clients : List TcpClient) (run : List (Action × State))
    (h : Steps LifeStep (start clients) run) : Along Routed (start clients) run :=
  h.along ⟨aligned_start clients, by simp [start]⟩ fun _ _ _ hs hstep => hstep.routed hs

/-- A session closes and is erased between its request and the reply, which is then
written to nobody. The reply behind it still goes to the session that waits for it. -/
theorem routed_after_erasure :
    ∃ t, Reaches LifeStep (start [idle]) t ∧ t.erased = [0] ∧
      t.deliveries = [⟨⟨0, 0⟩, true, none⟩, ⟨⟨1, 0⟩, false, some 1⟩] ∧ Routed t := by
  have hreach : ∃ t, Reaches LifeStep (start [idle]) t ∧ t.erased = [0] ∧
      t.deliveries = [⟨⟨0, 0⟩, true, none⟩, ⟨⟨1, 0⟩, false, some 1⟩] :=
    ⟨_, .cons (a := Action.accept 5 true 0) ⟨.accept true 0 rfl, rfl⟩ <|
      .cons (a := Action.accept 6 true 0) ⟨.accept true 0 rfl, rfl⟩ <|
      .cons (a := Action.dispatch 0 fun _ => true) ⟨.dispatch _ rfl, rfl⟩ <|
      .cons (a := Action.dispatch 1 fun _ => true) ⟨.dispatch _ rfl, rfl⟩ <|
      .cons (a := Action.event 0) ⟨.event rfl, rfl⟩ <|
      .cons (a := Action.batch) ⟨.batch, rfl⟩ <|
      .cons (a := Action.reply 0 true) ⟨.reply true rfl rfl rfl, rfl⟩ <|
      .cons (a := Action.reply 0 true) ⟨.reply true rfl rfl rfl, rfl⟩ .nil, rfl, rfl⟩
  obtain ⟨t, ⟨run, hsteps, rfl⟩, herased, hdeliveries⟩ := hreach
  exact ⟨_, ⟨run, hsteps, rfl⟩, herased, hdeliveries, (routed_along [idle] run hsteps).final⟩

end Canal.LoopThread
