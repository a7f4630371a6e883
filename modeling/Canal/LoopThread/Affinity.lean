import Canal.LoopThread.Alignment

/-!
# The order of replies over a pool

Each session counts through the pool: successive slices go to successive
connections, and every connection answers in its own time. A session receives
the replies in the order of its requests as long as all its unanswered requests
wait on one connection. This is so if every slice is forwarded at a moment when
no other connection owes the session a reply.

The runs considered here are smooth: all connections are connected, nothing is
disconnected or closed, and every write succeeds.
-/

namespace Canal.LoopThread

open Trace

variable {s t : State} {a : Action} {i j : SessionId} {c k : Nat} {conn : Connection}

/-- Nothing is disconnected or closed, and every write succeeds. -/
def Smooth : Action → Prop
  | .accept _ bev _ => bev = true
  | .dispatch _ write => ∀ k, write k = true
  | .reply _ write => write = true
  | .batch => True
  | _ => False

namespace State

/-- The requests whose replies have been written to the session, in order. -/
def repliesTo (s : State) (i : SessionId) : List Request :=
  (s.deliveries.filter fun d => d.receiver = some i).map Delivery.request

/-- The requests of the session that a connection has not answered. -/
def waiting (s : State) (c : Nat) (i : SessionId) : List Request :=
  (((s.connections[c]?).map Connection.outstanding).getD []).filter fun r => r.session = i

end State

/-- The first requests of a session, in order. -/
def firstRequests (i : SessionId) (n : Nat) : List Request := (List.range n).map (Request.mk i)

/-- The j-th reply written to a session answers its j-th request. -/
def Ordered (s : State) : Prop :=
  ∀ i, s.repliesTo i = firstRequests i (s.repliesTo i).length

/-- When a slice is forwarded, only the connection whose turn it is may owe the
session a reply. -/
def Affine (s : State) : Action → Prop
  | .dispatch i _ => ∀ sess, s.sessions[i]? = some sess →
      ∀ c, c ≠ sess.sIdGenerater.toNat % s.connections.length → s.waiting c i = []
  | _ => True

/-- All unanswered requests of the session wait on connection `c`, and they
continue the requests that have been answered. -/
def InOrder (s : State) (i : SessionId) (c : Nat) : Prop :=
  (∀ c', c' ≠ c → s.waiting c' i = []) ∧
    s.repliesTo i ++ s.waiting c i = firstRequests i (s.forwarded i)

/-- What smooth runs preserve when every slice is forwarded affinely. -/
structure Steady (s : State) : Prop extends Aligned s where
  ready : ∀ conn ∈ s.connections, Ready conn.toTcpClient
  opened : ∀ sess ∈ s.sessions, sess.bev = true ∧ sess.isClosing = false
  known : ∀ conn ∈ s.connections, ∀ r ∈ conn.outstanding, r.session < s.sessions.length
  tasks : s.taskQueue = []
  inOrder : ∀ i, ∃ c, InOrder s i c

theorem firstRequests_succ (i : SessionId) (n : Nat) :
    firstRequests i (n + 1) = firstRequests i n ++ [⟨i, n⟩] := by
  simp [firstRequests, List.range_succ]

theorem InOrder.ordered (h : InOrder s i c) :
    s.repliesTo i = firstRequests i (s.repliesTo i).length := by
  have hpre : s.repliesTo i <+: firstRequests i (s.forwarded i) := ⟨_, h.2⟩
  have hlen := hpre.length_le
  rw [List.prefix_iff_eq_take.mp hpre]
  simp only [firstRequests, List.length_map, List.length_range] at hlen
  simp [firstRequests, ← List.map_take, List.take_range, Nat.min_eq_left hlen]

/-! ## Choosing the connection whose turn it is -/

/-- On a ready pool the slice goes to the connection whose turn it is. -/
theorem dispatch_ready (i : SessionId) (sess : TcpSession) {write : Nat → Bool}
    (hready : ∀ conn ∈ s.connections, Ready conn.toTcpClient) (hwrite : ∀ k, write k = true)
    (hne : s.connections ≠ []) :
    ∃ conn, s.connections[sess.sIdGenerater.toNat % s.connections.length]? = some conn ∧
      s.dispatch i sess write =
        { s with
          sessions := s.sessions.set i { sess with sIdGenerater := sess.sIdGenerater + 1 }
          connections := s.connections.set (sess.sIdGenerater.toNat % s.connections.length)
            (conn.push ⟨i, s.forwarded i⟩)
          forwarded := Function.update s.forwarded i (s.forwarded i + 1) } := by
  have hlt : sess.sIdGenerater.toNat % s.connections.length < s.connections.length :=
    Nat.mod_lt _ (List.length_pos_of_ne_nil hne)
  have found := List.getElem?_eq_getElem hlt
  refine ⟨_, found, ?_⟩
  rw [State.dispatch, if_neg hne, attempts,
    tryConnections_first found (hready _ (List.getElem_mem hlt)) hwrite]

/-! ## How the waiting requests change -/

theorem waiting_set (found : s.connections[c]? = some conn) (conn' : Connection) (k : Nat)
    (i : SessionId) :
    State.waiting { s with connections := s.connections.set c conn' } k i =
      if c = k then conn'.outstanding.filter fun r => r.session = i else s.waiting k i := by
  have hlt := (List.getElem?_eq_some_iff.mp found).1
  simp only [State.waiting, List.getElem?_set]
  by_cases hck : c = k
  · subst hck
    simp [hlt]
  · simp [hck]

theorem waiting_of_found (found : s.connections[c]? = some conn) (i : SessionId) :
    s.waiting c i = conn.outstanding.filter fun r => r.session = i := by
  simp [State.waiting, found]

theorem InOrder.of_eq (h : InOrder s i c) (hconns : t.connections = s.connections)
    (hdeliveries : t.deliveries = s.deliveries) (hforwarded : t.forwarded = s.forwarded) :
    InOrder t i c := by
  simpa only [InOrder, State.waiting, State.repliesTo, hconns, hdeliveries, hforwarded] using h

/-- Forwarding a slice of session `i` where no other connection owes it a reply. -/
theorem inOrder_push {conn : Connection} (found : s.connections[k]? = some conn)
    (hother : ∀ c, c ≠ k → s.waiting c i = []) (h : ∃ c, InOrder s j c) :
    ∃ c, InOrder { s with
      connections := s.connections.set k (conn.push ⟨i, s.forwarded i⟩)
      forwarded := Function.update s.forwarded i (s.forwarded i + 1) } j c := by
  obtain ⟨c, hothers, hreplies⟩ := h
  have hwaiting := waiting_set found (conn.push ⟨i, s.forwarded i⟩)
  by_cases hij : j = i
  · subst hij
    refine ⟨k, ?_, ?_⟩
    · intro c' hc'
      exact (hwaiting c' j).trans (by rw [if_neg (Ne.symm hc'), hother c' hc'])
    · have hk : s.repliesTo j ++ s.waiting k j = firstRequests j (s.forwarded j) := by
        by_cases hck : c = k
        · rwa [hck] at hreplies
        · rw [hother c hck] at hreplies
          rw [hothers k (Ne.symm hck), hreplies]
      apply Eq.trans (congrArg (s.repliesTo j ++ ·) (hwaiting k j))
      simp only [↓reduceIte, Connection.push, List.filter_append, Function.update_self,
        firstRequests_succ, ← hk, waiting_of_found found, ← List.append_assoc]
      simp
  · have hsame : ∀ c', State.waiting { s with
        connections := s.connections.set k (conn.push ⟨i, s.forwarded i⟩) } c' j =
          s.waiting c' j := by
      intro c'
      rw [hwaiting]
      by_cases hck : k = c'
      · subst hck
        simp [Connection.push, waiting_of_found found, Ne.symm hij]
      · rw [if_neg hck]
    refine ⟨c, fun c' hc' => (hsame c').trans (hothers c' hc'), ?_⟩
    apply Eq.trans (congrArg (s.repliesTo j ++ ·) (hsame c))
    simp [hreplies, Function.update_of_ne hij]

/-- A reply that is written to its session moves one request from waiting to answered. -/
theorem inOrder_pop {r : Request} {rs : List Request} (found : s.connections[c]? = some conn)
    (answers : conn.outstanding = r :: rs) {d : Delivery} (hd : d.request = r)
    (hreceiver : d.receiver = some r.session) (h : ∃ c, InOrder s j c) :
    ∃ c₁, InOrder { s with
      connections := s.connections.set c conn.pop
      deliveries := s.deliveries ++ [d] } j c₁ := by
  obtain ⟨c₀, hothers, hreplies⟩ := h
  have hwaiting := waiting_set found conn.pop
  have hpop : conn.pop.outstanding = rs := by simp [Connection.pop, answers]
  by_cases hj : r.session = j
  · have hfront : s.waiting c j = r :: rs.filter fun r => r.session = j := by
      rw [waiting_of_found found, answers, List.filter_cons_of_pos (by simpa using hj)]
    obtain rfl : c₀ = c := by
      by_contra hne
      have hnil := hothers c (Ne.symm hne)
      simp [hfront] at hnil
    refine ⟨c₀, ?_, ?_⟩
    · intro c' hc'
      exact (hwaiting c' j).trans (by rw [if_neg (Ne.symm hc'), hothers c' hc'])
    · have hdelivered : State.repliesTo { s with
          connections := s.connections.set c₀ conn.pop
          deliveries := s.deliveries ++ [d] } j = s.repliesTo j ++ [r] := by
        simp [State.repliesTo, hreceiver, hd, hj]
      have hrest := (hwaiting c₀ j).trans (if_pos rfl)
      rw [hpop] at hrest
      rw [hfront] at hreplies
      rw [hdelivered, List.append_assoc, ← hreplies]
      exact congrArg (fun w => s.repliesTo j ++ r :: w) hrest
  · have hsame : ∀ c', State.waiting { s with
        connections := s.connections.set c conn.pop } c' j = s.waiting c' j := by
      intro c'
      rw [hwaiting]
      by_cases hck : c = c'
      · subst hck
        rw [if_pos rfl, hpop, waiting_of_found found, answers,
          List.filter_cons_of_neg (by simpa using hj)]
      · rw [if_neg hck]
    have hdelivered : State.repliesTo { s with
        connections := s.connections.set c conn.pop
        deliveries := s.deliveries ++ [d] } j = s.repliesTo j := by
      simp [State.repliesTo, hreceiver, hj]
    refine ⟨c₀, fun c' hc' => (hsame c').trans (hothers c' hc'), ?_⟩
    rw [hdelivered, ← hreplies]
    exact congrArg (s.repliesTo j ++ ·) (hsame c₀)

/-! ## Steps and runs -/

theorem forall_mem_set_session {P : TcpSession → Prop} (h : ∀ x ∈ s.sessions, P x)
    (i : SessionId) (sess : TcpSession) (hsess : P sess) : ∀ x ∈ s.sessions.set i sess, P x := by
  intro x hx
  obtain hx | rfl := List.mem_or_eq_of_mem_set hx
  · exact h x hx
  · exact hsess

theorem Steady.dispatch (hs : Steady s) {sess : TcpSession} {write : Nat → Bool}
    (hwrite : ∀ k, write k = true) (haffine : Affine s (.dispatch i write))
    (hsess : s.sessions[i]? = some sess) : Steady (s.dispatch i sess write) := by
  by_cases hne : s.connections = []
  · rw [State.dispatch, if_pos hne]
    exact hs
  · have haligned := hs.toAligned.dispatch write hsess
    obtain ⟨conn, found, heq⟩ := dispatch_ready i sess hs.ready hwrite hne
    have hmem := List.mem_of_getElem? found
    have hi := (List.getElem?_eq_some_iff.mp hsess).1
    have hopen := hs.opened sess (List.mem_of_getElem? hsess)
    rw [heq] at haligned ⊢
    refine ⟨haligned, ?_, forall_mem_set_session hs.opened i _ hopen, ?_, hs.tasks, ?_⟩
    · exact (forall_mem_set (P := fun x => Ready x.toTcpClient) hs.ready found).mpr
        (hs.ready conn hmem)
    · rw [List.length_set]
      refine (forall_mem_set (P := fun x => ∀ r ∈ x.outstanding, r.session < s.sessions.length)
        hs.known found).mpr ?_
      intro r hr
      obtain hr | hr := List.mem_append.mp hr
      · exact hs.known conn hmem r hr
      · rw [List.mem_singleton.mp hr]
        exact hi
    · intro j
      obtain ⟨c, hc⟩ := inOrder_push found (haffine sess hsess) (hs.inOrder j)
      exact ⟨c, hc⟩

theorem Steady.reply (hs : Steady s) {conn : Connection} (found : s.connections[c]? = some conn)
    {r : Request} {rs : List Request} (answers : conn.outstanding = r :: rs) :
    Steady (s.reply c conn r r.session true) := by
  have hmem := List.mem_of_getElem? found
  have hknown := hs.known conn hmem r (by simp [answers])
  have hsess := List.getElem?_eq_getElem hknown
  obtain ⟨hbev, hclosing⟩ := hs.opened _ (List.getElem_mem hknown)
  have hsend : (s.sessions[r.session]?).any (·.send true) = true := by
    simp [hsess, TcpSession.send, hbev, hclosing]
  refine ⟨hs.toAligned.reply found rfl true, ?_, hs.opened, ?_, hs.tasks, ?_⟩
  · exact (forall_mem_set (P := fun x => Ready x.toTcpClient) hs.ready found).mpr
      (hs.ready conn hmem)
  · refine (forall_mem_set (P := fun x => ∀ r ∈ x.outstanding, r.session < s.sessions.length)
      hs.known found).mpr ?_
    intro r hr
    exact hs.known conn hmem r (List.mem_of_mem_tail hr)
  · intro j
    exact inOrder_pop found answers rfl (if_pos hsend) (hs.inOrder j)

theorem Step.steady (hs : Steady s) (hsmooth : Smooth a) (haffine : Affine s a)
    (h : Step s a t) : Steady t := by
  cases h with
  | accept bev gen closed =>
      refine ⟨hs.toAligned.of_eq rfl rfl, hs.ready, ?_, ?_, hs.tasks, fun j => ?_⟩
      · intro sess hsess
        obtain hsess | hsess := List.mem_append.mp hsess
        · exact hs.opened sess hsess
        · rw [List.mem_singleton.mp hsess]
          exact ⟨hsmooth, rfl⟩
      · intro conn hconn r hr
        exact Nat.lt_of_lt_of_le (hs.known conn hconn r hr) (by simp [State.accept])
      · obtain ⟨c, hc⟩ := hs.inOrder j
        exact ⟨c, hc.of_eq rfl rfl rfl⟩
  | dispatch write active =>
      exact hs.dispatch hsmooth haffine (State.active_eq_some.mp active).1
  | reply write found answers front =>
      obtain rfl := hs.front found answers front
      obtain rfl : write = true := hsmooth
      exact hs.reply found answers
  | batch =>
      have hidle : s.processMsg = s := by
        rw [State.processMsg, hs.tasks, List.foldl_nil, ← hs.tasks]
      rwa [hidle]
  | event active => exact absurd hsmooth id
  | post outcome => exact absurd hsmooth id
  | clientEvent e found live => exact absurd hsmooth id
  | connect outcome found => exact absurd hsmooth id
  | reconnect outcome found => exact absurd hsmooth id
  | disConnect found => exact absurd hsmooth id

theorem steady_start {clients : List TcpClient} (hclients : ∀ client ∈ clients, Ready client) :
    Steady (start clients) where
  toAligned := aligned_start clients
  ready conn hconn := by
    obtain ⟨client, hclient, rfl⟩ := List.mem_map.mp hconn
    exact hclients client hclient
  opened sess hsess := by simp [start] at hsess
  known conn hconn r hr := by
    obtain ⟨client, -, rfl⟩ := List.mem_map.mp hconn
    simp at hr
  tasks := rfl
  inOrder i := by
    have hwaiting : ∀ c, (start clients).waiting c i = [] := by
      intro c
      simp only [State.waiting, start, List.getElem?_map]
      cases clients[c]? <;> rfl
    refine ⟨0, fun c _ => hwaiting c, ?_⟩
    rw [hwaiting]
    rfl

/-- One session forwards two slices, which go to two backends. The second
backend is the first to answer. -/
theorem second_backend_overtakes :
    ∃ run, Steps (fun s a t => Step s a t ∧ Smooth a) (start [idle, idle]) run ∧
      (final (start [idle, idle]) run).repliesTo 0 = [⟨0, 1⟩] ∧
      ¬ Along Ordered (start [idle, idle]) run := by
  have hreach : ∃ t, Reaches (fun s a t => Step s a t ∧ Smooth a) (start [idle, idle]) t ∧
      t.repliesTo 0 = [⟨0, 1⟩] :=
    ⟨_, .cons (a := Action.accept 5 true 0) ⟨.accept true 0 rfl, rfl⟩ <|
      .cons (a := Action.dispatch 0 fun _ => true) ⟨.dispatch _ rfl, fun _ => rfl⟩ <|
      .cons (a := Action.dispatch 0 fun _ => true) ⟨.dispatch _ rfl, fun _ => rfl⟩ <|
      .cons (a := Action.reply 1 true) ⟨.reply true rfl rfl rfl, rfl⟩ .nil, rfl⟩
  obtain ⟨t, ⟨run, hsteps, rfl⟩, hreplies⟩ := hreach
  refine ⟨run, hsteps, hreplies, fun h => ?_⟩
  have hordered := h.final 0
  rw [hreplies] at hordered
  exact absurd hordered (by decide)

/-- Replies are in order in every smooth run in which each slice is forwarded
while no other connection owes its session a reply. -/
theorem ordered_along (clients : List TcpClient) (hclients : ∀ client ∈ clients, Ready client)
    (run : List (Action × State))
    (h : Steps (fun s a t => Step s a t ∧ Smooth a) (start clients) run)
    (haffine : Steps (fun s a _ => Affine s a) (start clients) run) :
    Along Ordered (start clients) run := by
  have hsteady : Along Steady (start clients) run :=
    (h.and haffine).along (steady_start hclients) fun _ _ _ hs hstep =>
      hstep.1.1.steady hs hstep.1.2 hstep.2
  apply hsteady.mono
  intro s hs i
  obtain ⟨c, hc⟩ := hs.inOrder i
  exact hc.ordered

theorem ordered_after_replies :
    ∃ t, Reaches (fun s a t => Step s a t ∧ Smooth a) (start [idle, idle]) t ∧
      t.repliesTo 0 = [⟨0, 0⟩, ⟨0, 1⟩] ∧ Ordered t := by
  have hreach : ∃ t, Reaches (fun s a t => (Step s a t ∧ Smooth a) ∧ Affine s a)
      (start [idle, idle]) t ∧ t.repliesTo 0 = [⟨0, 0⟩, ⟨0, 1⟩] :=
    ⟨_, .cons (a := Action.accept 5 true 0) ⟨⟨.accept true 0 rfl, rfl⟩, trivial⟩ <|
      .cons (a := Action.dispatch 0 fun _ => true) ⟨⟨.dispatch _ rfl, fun _ => rfl⟩,
        fun _ _ c _ => match c with | 0 => rfl | 1 => rfl | _ + 2 => rfl⟩ <|
      .cons (a := Action.reply 0 true) ⟨⟨.reply true rfl rfl rfl, rfl⟩, trivial⟩ <|
      .cons (a := Action.dispatch 0 fun _ => true) ⟨⟨.dispatch _ rfl, fun _ => rfl⟩,
        fun _ _ c _ => match c with | 0 => rfl | 1 => rfl | _ + 2 => rfl⟩ <|
      .cons (a := Action.reply 1 true) ⟨⟨.reply true rfl rfl rfl, rfl⟩, trivial⟩ .nil, rfl⟩
  obtain ⟨t, ⟨run, hsteps, rfl⟩, hreplies⟩ := hreach
  have hrun := hsteps.mono fun _ _ _ h => h.1
  exact ⟨_, ⟨run, hrun, rfl⟩, hreplies,
    (ordered_along [idle, idle] (by simp [Ready, idle]) run hrun
      (hsteps.mono fun _ _ _ h => h.2)).final⟩

end Canal.LoopThread
