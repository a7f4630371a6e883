import Canal.Foundation.Progress
import Canal.LoopThread.Alignment

/-!
# What becomes of a request

A request that has been forwarded waits on the connection that took it until the
backend answers, or until the bufferevent of the connection ends. Whatever else
happens, sessions that close or queues that are misaligned included, a request has
exactly one of these fates, and none that has been answered is answered again.

No reply is ever stuck either. As long as the backends answer, in any order among
each other, nothing remains unanswered but what a bufferevent has taken with it.
-/

namespace Canal.LoopThread

open Trace

namespace State

/-- The requests that have been answered. -/
def answered (s : State) : List Request := s.deliveries.map Delivery.request

/-- The requests that wait on some connection. -/
def outstanding (s : State) : List Request := s.connections.flatMap Connection.outstanding

/-- The requests that are lost with the bufferevent that the action drops or replaces. -/
def severed (s : State) (a : Action) : List Request :=
  (a.severs.bind fun c => (s.connections[c]?).map Connection.outstanding).getD []

end State

/-- `1` for a request that has been forwarded, and otherwise `0`. -/
def made (forwarded : SessionId → Nat) (r : Request) : Nat :=
  if r.number < forwarded r.session then 1 else 0

/-- The requests that a run loses. -/
def lost : State → List (Action × State) → List Request
  | _, [] => []
  | s, (a, t) :: run => s.severed a ++ lost t run

/-- A backend answers. -/
def Answers (s : State) (a : Action) (t : State) : Prop :=
  Step s a t ∧ ∃ c write, a = .reply c write

variable {s t : State} {a : Action} {c : Nat} {conn conn' : Connection} {r : Request}
  {run : List (Action × State)}

/-! ## One step -/

theorem perm_flatMap_set {conns : List Connection} (found : conns[c]? = some conn)
    (conn' : Connection) (f : Connection → List Request) :
    List.Perm ((conns.set c conn').flatMap f ++ f conn) (conns.flatMap f ++ f conn') := by
  induction conns generalizing c with
  | nil => cases found
  | cons x conns ih =>
      cases c with
      | zero =>
          obtain rfl : x = conn := Option.some.inj found
          rw [List.set_cons_zero, List.flatMap_cons, List.flatMap_cons, List.append_assoc]
          apply List.perm_append_comm.trans
          exact List.perm_append_comm.append_right _
      | succ c =>
          rw [List.set_cons_succ, List.flatMap_cons, List.flatMap_cons, List.append_assoc,
            List.append_assoc]
          exact (ih found).append_left _

/-- Replacing a connection by one with other requests. -/
theorem count_outstanding_set (found : s.connections[c]? = some conn)
    (hconns : t.connections = s.connections.set c conn') (r : Request) :
    t.outstanding.count r + conn.outstanding.count r =
      s.outstanding.count r + conn'.outstanding.count r := by
  rw [State.outstanding, State.outstanding, hconns, ← List.count_append, ← List.count_append]
  exact (perm_flatMap_set found conn' _).count_eq r

theorem length_outstanding_set (found : s.connections[c]? = some conn)
    (hconns : t.connections = s.connections.set c conn') :
    t.outstanding.length + conn.outstanding.length =
      s.outstanding.length + conn'.outstanding.length := by
  rw [State.outstanding, State.outstanding, hconns, ← List.length_append, ← List.length_append]
  exact (perm_flatMap_set found conn' _).length_eq

theorem severed_of_severs (hc : a.severs = some c) (found : s.connections[c]? = some conn) :
    s.severed a = conn.outstanding := by
  simp [State.severed, hc, found]

theorem severed_of_none (h : a.severs = none) : s.severed a = [] := by
  simp [State.severed, h]

/-- The requests are where they were, apart from those that the step has severed. -/
def Moves (s : State) (a : Action) (t : State) : Prop :=
  ∀ r, t.answered.count r + t.outstanding.count r + (s.severed a).count r + made s.forwarded r =
    s.answered.count r + s.outstanding.count r + made t.forwarded r

theorem moves_of_eq (h : a.severs = none) (hconns : t.outstanding = s.outstanding)
    (hdeliveries : t.deliveries = s.deliveries) (hforwarded : t.forwarded = s.forwarded) :
    Moves s a t := by
  intro r
  simp [severed_of_none h, State.answered, made, hconns, hdeliveries, hforwarded]

theorem outstanding_connect_of_unreached {outcome : ConnectOutcome} (h : outcome = .unreached) :
    (conn.connect outcome).outstanding = conn.outstanding := by
  rw [Connection.connect, if_pos h]
  rfl

theorem outstanding_connect {outcome : ConnectOutcome} (h : outcome ≠ .unreached) :
    (conn.connect outcome).outstanding = [] := by
  rw [Connection.connect, if_neg h]
  rfl

/-- The bufferevent of a connection stays, and so does what has been sent on it. -/
theorem moves_of_keep (h : a.severs = none) (found : s.connections[c]? = some conn)
    (hkeep : conn'.outstanding = conn.outstanding) :
    Moves s a { s with connections := s.connections.set c conn' } := by
  intro r
  have hcount := count_outstanding_set (t := { s with connections := s.connections.set c conn' })
    found rfl r
  rw [hkeep] at hcount
  simp only [severed_of_none h, State.answered, made, List.count_nil]
  omega

/-- The bufferevent of a connection goes, with all that has been sent on it. -/
theorem moves_of_sever (h : a.severs = some c) (found : s.connections[c]? = some conn)
    (hsever : conn'.outstanding = []) :
    Moves s a { s with connections := s.connections.set c conn' } := by
  intro r
  have hcount := count_outstanding_set (t := { s with connections := s.connections.set c conn' })
    found rfl r
  rw [hsever, List.count_nil] at hcount
  simp only [severed_of_severs h found, State.answered, made]
  omega

/-- The next request of a session is the one that had not been forwarded. -/
theorem made_update (forwarded : SessionId → Nat) (i : SessionId) (r : Request) :
    made (Function.update forwarded i (forwarded i + 1)) r =
      made forwarded r + [⟨i, forwarded i⟩].count r := by
  obtain ⟨j, k⟩ := r
  rw [made, made, List.count_singleton]
  by_cases hj : j = i
  · subst hj
    simp only [Function.update_self, beq_iff_eq, Request.mk.injEq, true_and]
    split <;> split <;> split <;> omega
  · simp [Function.update_of_ne hj, Ne.symm hj]

/-- A request that is forwarded has not been forwarded before. -/
theorem moves_of_push {i : SessionId} {sessions : List TcpSession} (h : a.severs = none)
    (found : s.connections[c]? = some conn) :
    Moves s a
      { s with
        sessions
        connections := s.connections.set c (conn.push ⟨i, s.forwarded i⟩)
        forwarded := Function.update s.forwarded i (s.forwarded i + 1) } := by
  intro r
  have hcount := count_outstanding_set (t := { s with
    connections := s.connections.set c (conn.push ⟨i, s.forwarded i⟩) }) found rfl r
  have hpush : (conn.push ⟨i, s.forwarded i⟩).outstanding.count r =
      conn.outstanding.count r + [⟨i, s.forwarded i⟩].count r := List.count_append
  simp only [State.outstanding] at hcount
  simp only [severed_of_none h, State.answered, State.outstanding, List.count_nil, made_update]
  omega

/-- The request in front has been answered. -/
theorem moves_of_pop {rs : List Request} {i : SessionId} (write : Bool) (h : a.severs = none)
    (found : s.connections[c]? = some conn) (answers : conn.outstanding = r :: rs) :
    Moves s a (s.reply c conn r i write) := by
  intro r'
  have hcount := count_outstanding_set (t := s.reply c conn r i write) found rfl r'
  have hanswered : (s.reply c conn r i write).answered = s.answered ++ [r] := by
    simp [State.answered, State.reply]
  have hforwarded : (s.reply c conn r i write).forwarded = s.forwarded := rfl
  simp only [answers, Connection.pop, List.tail_cons, List.count_cons] at hcount
  simp only [severed_of_none h, hanswered, hforwarded, List.count_append, List.count_singleton,
    List.count_nil]
  omega

/-- A batch adds connections on which nothing has been sent. -/
theorem connections_processMsg (s : State) :
    ∃ added : List Connection, s.processMsg.connections = s.connections ++ added ∧
      ∀ conn ∈ added, conn.outstanding = [] := by
  refine State.processMsg_induction
    (P := fun t => ∃ added : List Connection, t.connections = s.connections ++ added ∧
      ∀ conn ∈ added, conn.outstanding = []) ⟨[], by simp, by simp⟩ ?_
  rintro t x - ⟨added, hadded, hnil⟩
  cases x with
  | delSession fd => exact ⟨added, hadded, hnil⟩
  | addConn outcome =>
      refine ⟨added ++ [Connection.connect {} outcome], ?_, fun conn hconn => ?_⟩
      · rw [← List.append_assoc, ← hadded]
        rfl
      · obtain hconn | hconn := List.mem_append.mp hconn
        · exact hnil conn hconn
        · rw [List.mem_singleton.mp hconn]
          cases outcome <;> rfl

theorem outstanding_processMsg (s : State) : s.processMsg.outstanding = s.outstanding := by
  obtain ⟨added, hadded, hnil⟩ := connections_processMsg s
  rw [State.outstanding, hadded, List.flatMap_append, List.flatMap_eq_nil_iff.mpr hnil,
    List.append_nil, State.outstanding]

theorem forwarded_processMsg (s : State) : s.processMsg.forwarded = s.forwarded := by
  refine State.processMsg_induction (P := fun t => t.forwarded = s.forwarded) rfl ?_
  intro t x _ ht
  cases x <;> exact ht

theorem Step.moves (h : Step s a t) : Moves s a t := by
  cases h with
  | accept bev gen closed => exact moves_of_eq rfl rfl rfl rfl
  | event active => exact moves_of_eq rfl rfl rfl rfl
  | dispatch write active =>
      obtain ⟨gen, heq | ⟨c, conn, found, -, -, -, heq⟩⟩ :=
        s.dispatch_cases write (State.active_eq_some.mp active).1
      · rw [heq]
        exact moves_of_eq rfl rfl rfl rfl
      · rw [heq]
        exact moves_of_push rfl found
  | reply write found answers front => exact moves_of_pop write rfl found answers
  | batch =>
      apply moves_of_eq rfl
      · exact outstanding_processMsg s
      · exact s.processMsg_deliveries
      · exact forwarded_processMsg s
  | post outcome => exact moves_of_eq rfl rfl rfl rfl
  | @clientEvent c conn e found live =>
      by_cases hfailed : e.failed = true
      · apply moves_of_sever (Action.severs_clientEvent hfailed) found
        simp [Connection.handleEvent, hfailed, Connection.sever]
      · have hnone : (Action.clientEvent c e).severs = none := if_neg hfailed
        apply moves_of_keep hnone found
        simp [Connection.handleEvent, hfailed, Connection.keep]
  | connect outcome found =>
      by_cases hunreached : outcome = .unreached
      · exact moves_of_keep (if_pos hunreached) found (outstanding_connect_of_unreached hunreached)
      · exact moves_of_sever (Action.severs_connect hunreached) found
          (outstanding_connect hunreached)
  | reconnect outcome found => exact moves_of_sever rfl found rfl
  | disConnect found => exact moves_of_sever rfl found rfl

/-! ## Runs -/

/-- What a run has done to each request: what it adds is what it has forwarded. -/
theorem moves_along (h : Steps Step s run) (r : Request) :
    (final s run).answered.count r + (final s run).outstanding.count r + (lost s run).count r +
        made s.forwarded r =
      s.answered.count r + s.outstanding.count r + made (final s run).forwarded r := by
  induction run generalizing s with
  | nil => simp [lost]
  | cons p run ih =>
      obtain ⟨a, t⟩ := p
      have hfirst := h.1.moves r
      have hrest := ih h.2
      rw [final_cons, lost, List.count_append]
      omega

theorem fate_of_run {clients : List TcpClient} (h : Steps Step (start clients) run) (r : Request) :
    (final (start clients) run).answered.count r + (final (start clients) run).outstanding.count r +
        (lost (start clients) run).count r =
      made (final (start clients) run).forwarded r := by
  have hanswered : (start clients).answered = [] := rfl
  have houtstanding : (start clients).outstanding = [] := by
    simp [State.outstanding, start, List.flatMap_map]
  have hmade : made (start clients).forwarded r = 0 := rfl
  have hmoves := moves_along h r
  rw [hanswered, houtstanding, hmade] at hmoves
  simpa using hmoves

/-- The list holds each request that has been forwarded, once, and no other. -/
structure Enumerates (rs : List Request) (forwarded : SessionId → Nat) : Prop where
  nodup : rs.Nodup
  mem : ∀ r, r ∈ rs ↔ r.number < forwarded r.session

theorem enumerates_of_count {rs : List Request} {forwarded : SessionId → Nat}
    (h : ∀ r, rs.count r = made forwarded r) : Enumerates rs forwarded where
  nodup := by
    apply List.nodup_iff_count.mpr
    intro r
    rw [h, made]
    split <;> simp
  mem r := by
    rw [← List.count_pos_iff, h, made]
    split <;> simp [*]

theorem lost_of_severs_none (h : ∀ p ∈ run, p.1.severs = none) : lost s run = [] := by
  induction run generalizing s with
  | nil => rfl
  | cons p run ih =>
      obtain ⟨a, t⟩ := p
      rw [lost, severed_of_none (h _ List.mem_cons_self), List.nil_append]
      exact ih fun p hp => h p (List.mem_cons_of_mem _ hp)

/-- Each request that has been forwarded has been answered, or waits, or has been
lost with a bufferevent: exactly one of these, and once. -/
structure OneFate (s : State) (run : List (Action × State)) : Prop where
  fates : Enumerates ((final s run).answered ++ (final s run).outstanding ++ lost s run)
    (final s run).forwarded
  calm : (∀ p ∈ run, p.1.severs = none) → lost s run = []

theorem oneFate_along (clients : List TcpClient) (run : List (Action × State))
    (h : Steps Step (start clients) run) : OneFate (start clients) run := by
  refine ⟨enumerates_of_count fun r => ?_, lost_of_severs_none⟩
  rw [List.count_append, List.count_append]
  exact fate_of_run h r

/-- Of two requests on two backends, one is answered, and the other one is lost. -/
theorem oneFate_after_loss :
    ∃ run, Steps Step (start [idle, idle]) run ∧
      (final (start [idle, idle]) run).answered = [⟨0, 0⟩] ∧
      lost (start [idle, idle]) run = [⟨0, 1⟩] ∧ OneFate (start [idle, idle]) run := by
  have hreach : ∃ run, Steps Step (start [idle, idle]) run ∧
      (final (start [idle, idle]) run).answered = [⟨0, 0⟩] ∧
      lost (start [idle, idle]) run = [⟨0, 1⟩] :=
    ⟨[(.accept 5 true 0, _), (.dispatch 0 fun _ => true, _), (.dispatch 0 fun _ => true, _),
      (.reply 0 true, _), (.clientEvent 1 { eof := true }, _)],
      ⟨.accept true 0 rfl, .dispatch _ rfl, .dispatch _ rfl, .reply true rfl rfl rfl,
        .clientEvent _ rfl rfl, trivial⟩, rfl, rfl⟩
  obtain ⟨run, hsteps, hanswered, hlost⟩ := hreach
  exact ⟨run, hsteps, hanswered, hlost, oneFate_along _ run hsteps⟩

/-! ## Nothing is stuck -/

theorem Answers.lower (h : Answers s a t) : t.outstanding.length < s.outstanding.length := by
  obtain ⟨hstep, c, write, rfl⟩ := h
  cases hstep with
  | @reply _ conn r rs i _ _ found answers front =>
      have hlength := length_outstanding_set (t := s.reply c conn r i write) found rfl
      simp only [answers, Connection.pop, List.tail_cons, List.length_cons] at hlength
      omega

theorem stocked_of_reaches {clients : List TcpClient} (h : Reaches Step (start clients) s) :
    Stocked s := by
  refine h.invariant (fun conn hconn => ?_) fun _ _ _ hs hstep => hstep.stocked hs
  obtain ⟨client, -, rfl⟩ := List.mem_map.mp hconn
  exact List.nil_suffix

/-- Wherever a request waits, its backend can answer: the queue of the connection
holds a session for it. -/
theorem Stocked.answers (hs : Stocked s) : s.outstanding = [] ∨ ∃ a t, Answers s a t := by
  by_cases hnone : ∀ conn ∈ s.connections, conn.outstanding = []
  · exact Or.inl (List.flatMap_eq_nil_iff.mpr hnone)
  · right
    push Not at hnone
    obtain ⟨conn, hconn, hne⟩ := hnone
    obtain ⟨c, found⟩ := List.getElem?_of_mem hconn
    obtain ⟨r, rs, answers⟩ := List.exists_cons_of_ne_nil hne
    obtain ⟨stale, hstale⟩ := hs conn hconn
    have hqueue : conn.sessionQueue ≠ [] := by
      rw [← hstale, answers]
      simp
    obtain ⟨i, q, front⟩ := List.exists_cons_of_ne_nil hqueue
    exact ⟨_, _, .reply true found answers front, c, true, rfl⟩

/-- While backends answer, nothing is lost and nothing is forwarded. -/
theorem Answers.moves (h : Answers s a t) (r : Request) :
    t.answered.count r + t.outstanding.count r = s.answered.count r + s.outstanding.count r := by
  have hmoves := h.1.moves r
  obtain ⟨hstep, c, write, rfl⟩ := h
  have hsevered : s.severed (.reply c write) = [] := severed_of_none rfl
  have hforwarded : t.forwarded = s.forwarded := by
    cases hstep
    rfl
  rw [hsevered, hforwarded, List.count_nil] at hmoves
  omega

/-- At the end of any run, if the backends go on answering, each request that has
been forwarded will have been answered once, unless it is lost with a bufferevent. -/
theorem answered_eventually (clients : List TcpClient) (run : List (Action × State))
    (h : Steps Step (start clients) run) :
    Inevitable Answers
      (fun t => Enumerates (t.answered ++ lost (start clients) run)
        (final (start clients) run).forwarded) (final (start clients) run) := by
  have hstocked := stocked_of_reaches ⟨run, h, rfl⟩
  have hsettles : Inevitable Answers (fun t => t.outstanding = []) (final (start clients) run) :=
    .of_measure (fun t => t.outstanding.length) hstocked
      (fun _ _ _ hs hanswers => hanswers.1.stocked hs) (fun _ _ _ _ hanswers => hanswers.lower)
      fun _ hs => hs.answers
  let Fate : State → Prop := fun t => ∀ r, t.answered.count r + t.outstanding.count r +
    (lost (start clients) run).count r = made (final (start clients) run).forwarded r
  have hkeep : ∀ t a u, Fate t → Answers t a u → Fate u := by
    intro t a u ht hanswers r
    rw [hanswers.moves r]
    exact ht r
  apply (hsettles.and_invariant (fate_of_run h) hkeep).mono
  rintro t ⟨hnone, ht⟩
  apply enumerates_of_count
  intro r
  have hr := ht r
  rw [hnone, List.count_nil, Nat.add_zero] at hr
  rwa [List.count_append]

/-- Two backends owe a reply each to the same session. -/
theorem answered_after_two_requests :
    ∃ run, Steps Step (start [idle, idle]) run ∧
      (final (start [idle, idle]) run).outstanding = [⟨0, 0⟩, ⟨0, 1⟩] ∧
      Inevitable Answers
        (fun t => Enumerates (t.answered ++ lost (start [idle, idle]) run)
          (final (start [idle, idle]) run).forwarded) (final (start [idle, idle]) run) := by
  have hreach : ∃ run, Steps Step (start [idle, idle]) run ∧
      (final (start [idle, idle]) run).outstanding = [⟨0, 0⟩, ⟨0, 1⟩] :=
    ⟨[(.accept 5 true 0, _), (.dispatch 0 fun _ => true, _), (.dispatch 0 fun _ => true, _)],
      ⟨.accept true 0 rfl, .dispatch _ rfl, .dispatch _ rfl, trivial⟩, rfl⟩
  obtain ⟨run, hsteps, houtstanding⟩ := hreach
  exact ⟨run, hsteps, houtstanding, answered_eventually _ run hsteps⟩

end Canal.LoopThread
