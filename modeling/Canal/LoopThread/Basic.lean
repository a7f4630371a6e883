import Canal.Foundation.Trace
import Canal.LoopThread.Client
import Mathlib.Logic.Function.Basic

/-!
# One loop thread

The state of a loop thread: its sessions, the map from descriptors to sessions,
the connections of its pool and the tasks waiting for it. Callbacks and task
batches run one after the other in the thread; each is one action. Requests and
replies are whole slices.

A session lives as long as the map or the queue of a connection refers to it.
Its bufferevent, and with it the descriptor, is released together with the
session, and only the callbacks of a session that lives can run.

The last three fields record what has happened and influence nothing.
-/

namespace Canal.LoopThread

/-- The tasks that the program sends. -/
inductive Task where
  | delSession (fd : Nat)
  | addConn (outcome : ConnectOutcome)
  deriving DecidableEq

/-- A reply that has been taken off a connection: the request it answers, whether
the session of that request was closing, and the session it was written to. -/
structure Delivery where
  request : Request
  closing : Bool
  receiver : Option SessionId
  deriving DecidableEq

structure State where
  sessions : List TcpSession := []
  fdToSession : Nat → Option SessionId := fun _ => none
  connections : List Connection := []
  taskQueue : List Task := []
  forwarded : SessionId → Nat := fun _ => 0
  deliveries : List Delivery := []
  erased : List SessionId := []

inductive Action where
  | accept (fd : Nat) (bev : Bool) (sIdGenerater : UInt32)
  | event (i : SessionId)
  | dispatch (i : SessionId) (write : Nat → Bool)
  | reply (c : Nat) (write : Bool)
  | batch
  | post (outcome : ConnectOutcome)
  | clientEvent (c : Nat) (e : Events)
  | connect (c : Nat) (outcome : ConnectOutcome)
  | reconnect (c : Nat) (outcome : ConnectOutcome)
  | disConnect (c : Nat)

namespace State

/-- Some connection still holds the session for an unanswered request. -/
def queued (s : State) (i : SessionId) : Bool :=
  s.connections.any fun conn => conn.sessionQueue.contains i

/-- The session is referred to by the map, where it can only stand under its own
descriptor, or by a queue. -/
def alive (s : State) (i : SessionId) : Bool :=
  match s.sessions[i]? with
  | none => false
  | some sess => s.fdToSession sess.fd = some i || s.queued i

/-- `handleEvent` has run on the session. -/
def closing (s : State) (i : SessionId) : Bool := (s.sessions[i]?).any (·.isClosing)

/-- The session can have callbacks: it lives and has a bufferevent. -/
def active (s : State) (i : SessionId) : Option TcpSession :=
  (s.sessions[i]?).filter fun sess => sess.bev && s.alive i

/-- The session holds its descriptor open by a bufferevent. Where `init` has left
none, the descriptor may be closed already, and nothing is assumed about it. -/
def owns (s : State) (fd : Nat) (i : SessionId) : Bool :=
  match s.sessions[i]? with
  | none => false
  | some sess => sess.fd = fd && sess.bev && s.alive i

def isOpen (s : State) (fd : Nat) : Bool := (List.range s.sessions.length).any (s.owns fd)

/-- `TCPListener::listenEventCallback`; `bev` is the result of `init`. -/
def accept (s : State) (fd : Nat) (bev : Bool) (sIdGenerater : UInt32) : State :=
  { s with
    sessions := s.sessions ++ [{ fd, bev, sIdGenerater }]
    fdToSession := Function.update s.fdToSession fd (some s.sessions.length) }

/-- `TcpSession::handleEvent` -/
def handleEvent (s : State) (i : SessionId) (sess : TcpSession) : State :=
  { s with
    sessions := s.sessions.set i { sess with isClosing := true }
    taskQueue := s.taskQueue ++ [.delSession sess.fd] }

/-- The dispatch callback of `TcpSession::onRead` for one slice. -/
def dispatch (s : State) (i : SessionId) (sess : TcpSession) (write : Nat → Bool) : State :=
  if s.connections = [] then
    s
  else
    let (chosen, sIdGenerater) :=
      tryConnections s.connections write (attempts s.connections.length) sess.sIdGenerater
    let s := { s with sessions := s.sessions.set i { sess with sIdGenerater } }
    match chosen with
    | none => s
    | some (c, conn) =>
        { s with
          connections := s.connections.set c (conn.push ⟨i, s.forwarded i⟩)
          forwarded := Function.update s.forwarded i (s.forwarded i + 1) }

/-- The callback of `redis_tcp_client::onRead` for one reply, given the request
it answers and the session at the front of the queue. -/
def reply (s : State) (c : Nat) (conn : Connection) (r : Request) (i : SessionId)
    (write : Bool) : State :=
  { s with
    connections := s.connections.set c conn.pop
    deliveries := s.deliveries ++
      [{ request := r
         closing := s.closing r.session
         receiver := if (s.sessions[i]?).any (·.send write) then some i else none }] }

/-- One task of `loop_thread::process_msg`. -/
def processTask (s : State) : Task → State
  | .delSession fd =>
      { s with
        fdToSession := Function.update s.fdToSession fd none
        erased := s.erased ++ (s.fdToSession fd).toList }
  | .addConn outcome =>
      { s with connections := s.connections ++ [Connection.connect {} outcome] }

/-- `loop_thread::process_msg`: the queue is swapped out, then handled. -/
def processMsg (s : State) : State := s.taskQueue.foldl processTask { s with taskQueue := [] }

/-- What the dispatch of a slice does: the counter advances, and the slice is
dropped, or one connection takes it. -/
theorem dispatch_cases {s : State} {i : SessionId} {sess : TcpSession} (write : Nat → Bool)
    (h : s.sessions[i]? = some sess) :
    ∃ gen, s.dispatch i sess write =
        { s with sessions := s.sessions.set i { sess with sIdGenerater := gen } } ∨
      ∃ c conn, s.connections[c]? = some conn ∧ conn.isConnected = true ∧ conn.bev = true ∧
        conn.isClosing = false ∧ s.dispatch i sess write =
          { s with
            sessions := s.sessions.set i { sess with sIdGenerater := gen }
            connections := s.connections.set c (conn.push ⟨i, s.forwarded i⟩)
            forwarded := Function.update s.forwarded i (s.forwarded i + 1) } := by
  by_cases hconns : s.connections = []
  · refine ⟨sess.sIdGenerater, Or.inl ?_⟩
    have hset : s.sessions.set i sess = s.sessions := by
      obtain ⟨hlt, rfl⟩ := List.getElem?_eq_some_iff.mp h
      exact List.set_getElem_self hlt
    rw [dispatch, if_pos hconns, hset]
  · rcases htry : tryConnections s.connections write (attempts s.connections.length)
      sess.sIdGenerater with ⟨_ | ⟨c, conn⟩, gen⟩
    · exact ⟨gen, Or.inl (by simp [dispatch, hconns, htry])⟩
    · obtain ⟨hget, hconnected, hbev, hclosing⟩ := tryConnections_some htry
      refine ⟨gen, Or.inr ⟨c, conn, hget, hconnected, hbev, hclosing, ?_⟩⟩
      simp [dispatch, hconns, htry]

/-- What every task of a batch preserves, the batch preserves. -/
theorem processMsg_induction {P : State → Prop} {s : State} (swapped : P { s with taskQueue := [] })
    (task : ∀ t x, x ∈ s.taskQueue → P t → P (t.processTask x)) : P s.processMsg := by
  have hfold : ∀ (tasks : List Task) (t : State), (∀ x ∈ tasks, x ∈ s.taskQueue) → P t →
      P (tasks.foldl processTask t) := by
    intro tasks
    induction tasks with
    | nil => exact fun t _ ht => ht
    | cons x tasks ih =>
        intro t hmem ht
        exact ih _ (fun y hy => hmem y (by simp [hy])) (task t x (hmem x (by simp)) ht)
  exact hfold s.taskQueue _ (fun _ hx => hx) swapped

/-- A dispatch changes sessions, connections and the count of what is forwarded. -/
theorem dispatch_eq (s : State) (i : SessionId) (sess : TcpSession) (write : Nat → Bool) :
    ∃ sessions connections forwarded,
      s.dispatch i sess write = { s with sessions, connections, forwarded } := by
  unfold dispatch
  split
  · exact ⟨_, _, _, rfl⟩
  · dsimp only
    split <;> exact ⟨_, _, _, rfl⟩

@[simp] theorem dispatch_deliveries (s : State) (i : SessionId) (sess : TcpSession)
    (write : Nat → Bool) : (s.dispatch i sess write).deliveries = s.deliveries := by
  obtain ⟨_, _, _, heq⟩ := s.dispatch_eq i sess write
  rw [heq]

@[simp] theorem dispatch_taskQueue (s : State) (i : SessionId) (sess : TcpSession)
    (write : Nat → Bool) : (s.dispatch i sess write).taskQueue = s.taskQueue := by
  obtain ⟨_, _, _, heq⟩ := s.dispatch_eq i sess write
  rw [heq]

@[simp] theorem dispatch_erased (s : State) (i : SessionId) (sess : TcpSession)
    (write : Nat → Bool) : (s.dispatch i sess write).erased = s.erased := by
  obtain ⟨_, _, _, heq⟩ := s.dispatch_eq i sess write
  rw [heq]

@[simp] theorem processMsg_deliveries (s : State) : s.processMsg.deliveries = s.deliveries := by
  refine processMsg_induction (P := fun t => t.deliveries = s.deliveries) rfl ?_
  intro t x _ ht
  cases x <;> exact ht

/-- An active session exists, lives and has a bufferevent. -/
theorem active_eq_some {s : State} {i : SessionId} {sess : TcpSession} :
    s.active i = some sess ↔ s.sessions[i]? = some sess ∧ sess.bev = true ∧ s.alive i = true := by
  simp [active, Option.filter_eq_some_iff]

end State

/-- One action, if it can happen: a descriptor that is held open is not handed
out, callbacks need a live bufferevent, and a backend answers only what it was
sent. -/
inductive Step : State → Action → State → Prop where
  | accept {s : State} {fd : Nat} (bev : Bool) (sIdGenerater : UInt32)
      (closed : s.isOpen fd = false) :
      Step s (.accept fd bev sIdGenerater) (s.accept fd bev sIdGenerater)
  | event {s : State} {i : SessionId} {sess : TcpSession} (active : s.active i = some sess) :
      Step s (.event i) (s.handleEvent i sess)
  | dispatch {s : State} {i : SessionId} {sess : TcpSession} (write : Nat → Bool)
      (active : s.active i = some sess) :
      Step s (.dispatch i write) (s.dispatch i sess write)
  | reply {s : State} {c : Nat} {conn : Connection} {r : Request} {rs : List Request}
      {i : SessionId} {q : List SessionId} (write : Bool) (found : s.connections[c]? = some conn)
      (answers : conn.outstanding = r :: rs) (front : conn.sessionQueue = i :: q) :
      Step s (.reply c write) (s.reply c conn r i write)
  | batch {s : State} : Step s .batch s.processMsg
  | post {s : State} (outcome : ConnectOutcome) :
      Step s (.post outcome) { s with taskQueue := s.taskQueue ++ [.addConn outcome] }
  | clientEvent {s : State} {c : Nat} {conn : Connection} (e : Events)
      (found : s.connections[c]? = some conn) (live : conn.bev) :
      Step s (.clientEvent c e) { s with connections := s.connections.set c (conn.handleEvent e) }
  | connect {s : State} {c : Nat} {conn : Connection} (outcome : ConnectOutcome)
      (found : s.connections[c]? = some conn) :
      Step s (.connect c outcome)
        { s with connections := s.connections.set c (conn.connect outcome) }
  | reconnect {s : State} {c : Nat} {conn : Connection} (outcome : ConnectOutcome)
      (found : s.connections[c]? = some conn) :
      Step s (.reconnect c outcome)
        { s with connections := s.connections.set c (conn.reconnect outcome) }
  | disConnect {s : State} {c : Nat} {conn : Connection}
      (found : s.connections[c]? = some conn) :
      Step s (.disConnect c) { s with connections := s.connections.set c conn.disConnect }

/-- A loop thread with the given pool, before anything has been accepted. -/
def start (clients : List TcpClient) : State :=
  { connections := clients.map fun client => { toTcpClient := client } }

end Canal.LoopThread
