import Mathlib.Algebra.Group.Nat.Defs
import Mathlib.Data.List.Basic

/-!
# Sessions and backend clients

A `TcpSession` serves one accepted descriptor, a `redis_tcp_client` one backend
connection. Both own a bufferevent through a shared pointer; here it is only
recorded whether that pointer is set, since a bufferevent that has been replaced
or dropped is freed and never comes back.

The results of libevent calls are parameters: whether `bufferevent_write`
accepts the data, and how far `connect` gets.
-/

namespace Canal.LoopThread

/-- Sessions are identified by the order of their creation. -/
abbrev SessionId := Nat

/-- `TcpSession`. The counter is never initialised. -/
structure TcpSession where
  fd : Nat
  bev : Bool
  isClosing : Bool := false
  sIdGenerater : UInt32
  deriving DecidableEq

/-- `TcpSession::send`; `write` is the result of `bufferevent_write`. -/
def TcpSession.send (s : TcpSession) (write : Bool) : Bool :=
  if !s.bev || s.isClosing then false else write

/-- `TcpClient` with its base class `TcpSocket`. -/
structure TcpClient where
  bev : Bool := false
  isClosing : Bool := false
  isConnected : Bool := false
  deriving DecidableEq

/-- How far `connect` gets. `unreached`: it returns before `_bev_sptr` is
touched, for want of a socket, a port or a known type. `failed`: `_bev_sptr` is
null afterwards, because no bufferevent was created, or because connecting or
enabling it failed. -/
inductive ConnectOutcome where
  | unreached
  | failed
  | started
  deriving DecidableEq

/-- The flags of an event callback; `refused` stands for the socket errors
`ECONNREFUSED` and `ETIMEDOUT`. -/
structure Events where
  eof : Bool := false
  error : Bool := false
  timeout : Bool := false
  connected : Bool := false
  refused : Bool := false
  deriving DecidableEq

def Events.failed (e : Events) : Bool := e.eof || e.error || e.timeout

namespace TcpClient

/-- `TcpSocket::send` -/
def send (c : TcpClient) (write : Bool) : Bool :=
  if !c.bev || c.isClosing then false else write

def disConnect (c : TcpClient) : TcpClient := { c with bev := false }

def connect (c : TcpClient) : ConnectOutcome → TcpClient
  | .unreached => c
  | .failed => { c with bev := false }
  | .started => { c with bev := true }

def reconnect (c : TcpClient) (outcome : ConnectOutcome) : TcpClient :=
  c.disConnect.connect outcome

/-- `TcpClient::handleEvent`; the hooks it calls are empty. -/
def handleEvent (c : TcpClient) (e : Events) : TcpClient :=
  if e.failed then
    { c with isConnected := false, bev := false }
  else if e.connected && !e.refused then
    { c with isConnected := true }
  else
    c

end TcpClient

/-- A request that has been forwarded: the session it came from, and its number
among the forwarded requests of that session. -/
structure Request where
  session : SessionId
  number : Nat
  deriving DecidableEq

/-- A `redis_tcp_client`, and the requests sent on its current bufferevent that
the backend has not answered. -/
structure Connection extends TcpClient where
  sessionQueue : List SessionId := []
  outstanding : List Request := []
  deriving DecidableEq

namespace Connection

/-- A request is sent and its session is pushed. -/
def push (conn : Connection) (r : Request) : Connection :=
  { conn with
    sessionQueue := conn.sessionQueue ++ [r.session]
    outstanding := conn.outstanding ++ [r] }

/-- A request is answered and the front of the queue is popped. -/
def pop (conn : Connection) : Connection :=
  { conn with
    sessionQueue := conn.sessionQueue.tail
    outstanding := conn.outstanding.tail }

/-- The client changes while its bufferevent stays. -/
def keep (conn : Connection) (client : TcpClient) : Connection :=
  { conn with toTcpClient := client }

/-- The client drops or replaces its bufferevent. What was sent on the old one
is not answered any more; the queue of sessions is left as it is. -/
def sever (conn : Connection) (client : TcpClient) : Connection :=
  { conn with toTcpClient := client, outstanding := [] }

def handleEvent (conn : Connection) (e : Events) : Connection :=
  if e.failed then conn.sever (conn.toTcpClient.handleEvent e)
  else conn.keep (conn.toTcpClient.handleEvent e)

def connect (conn : Connection) (outcome : ConnectOutcome) : Connection :=
  if outcome = .unreached then conn.keep (conn.toTcpClient.connect outcome)
  else conn.sever (conn.toTcpClient.connect outcome)

def reconnect (conn : Connection) (outcome : ConnectOutcome) : Connection :=
  conn.sever (conn.toTcpClient.reconnect outcome)

def disConnect (conn : Connection) : Connection := conn.sever conn.toTcpClient.disConnect

@[simp] theorem sessionQueue_handleEvent (conn : Connection) (e : Events) :
    (conn.handleEvent e).sessionQueue = conn.sessionQueue := by
  unfold handleEvent
  split <;> rfl

@[simp] theorem sessionQueue_connect (conn : Connection) (outcome : ConnectOutcome) :
    (conn.connect outcome).sessionQueue = conn.sessionQueue := by
  unfold connect
  split <;> rfl

@[simp] theorem sessionQueue_reconnect (conn : Connection) (outcome : ConnectOutcome) :
    (conn.reconnect outcome).sessionQueue = conn.sessionQueue := rfl

@[simp] theorem sessionQueue_disConnect (conn : Connection) :
    conn.disConnect.sessionQueue = conn.sessionQueue := rfl

end Connection

/-! ## Choosing a connection -/

/-- How often the body of the `do … while (retry_time)` loop runs at most: the
`unsigned short` is incremented before the loop and decremented in front of each
turn, so a value of 0 stands for 2 ^ 16 turns. -/
def attempts (size : Nat) : Nat :=
  let retryTime := UInt16.ofNat size + 1
  (retryTime - 1).toNat + 1

/-- The loop of the dispatch callback, with the number of turns that remain. The
connection that has taken the data, if any, and the counter afterwards. -/
def tryConnections (conns : List Connection) (write : Nat → Bool) :
    (retry : Nat) → UInt32 → Option (Nat × Connection) × UInt32
  | 0, sIdGenerater => (none, sIdGenerater)
  | retry + 1, sIdGenerater =>
      let index := sIdGenerater.toNat % conns.length
      match conns[index]? with
      | none => tryConnections conns write retry (sIdGenerater + 1)
      | some conn =>
          if !conn.isConnected then
            tryConnections conns write retry (sIdGenerater + 1)
          else if !conn.send (write retry) then
            tryConnections conns write retry (sIdGenerater + 1)
          else
            (some (index, conn), sIdGenerater + 1)

/-- A chosen connection is in the pool, connected, and open for writing. -/
theorem tryConnections_some {conns : List Connection} {write : Nat → Bool} {retry c : Nat}
    {gen gen' : UInt32} {conn : Connection}
    (h : tryConnections conns write retry gen = (some (c, conn), gen')) :
    conns[c]? = some conn ∧ conn.isConnected = true ∧ conn.bev = true ∧ conn.isClosing = false := by
  induction retry generalizing gen with
  | zero => simp [tryConnections] at h
  | succ retry ih =>
      rw [tryConnections] at h
      cases hget : conns[gen.toNat % conns.length]? with
      | none =>
          simp only [hget] at h
          exact ih h
      | some conn' =>
          simp only [hget] at h
          split at h
          · exact ih h
          · rename_i hconnected
            split at h
            · exact ih h
            · rename_i hsend
              obtain ⟨⟨rfl, rfl⟩, -⟩ : (_ = c ∧ conn' = conn) ∧ _ := by simpa using h
              simp only [TcpClient.send, Bool.not_eq_eq_eq_not] at hsend
              refine ⟨hget, by simpa using hconnected, ?_⟩
              cases hb : conn'.bev <;> cases hc : conn'.isClosing <;> simp_all

/-- Connected, and open for writing. -/
def Ready (client : TcpClient) : Prop :=
  client.bev = true ∧ client.isConnected = true ∧ client.isClosing = false

/-- A backend that is connected and idle. -/
def idle : TcpClient := { bev := true, isConnected := true }

/-- A ready connection whose turn it is takes the data at once. -/
theorem tryConnections_first {conns : List Connection} {conn : Connection}
    {write : Nat → Bool} {retry : Nat}
    {gen : UInt32} (found : conns[gen.toNat % conns.length]? = some conn)
    (hready : Ready conn.toTcpClient) (hwrite : ∀ k, write k = true) :
    tryConnections conns write (retry + 1) gen =
      (some (gen.toNat % conns.length, conn), gen + 1) := by
  obtain ⟨hbev, hconnected, hclosing⟩ := hready
  rw [tryConnections]
  simp [found, hconnected, TcpClient.send, hbev, hclosing, hwrite]

end Canal.LoopThread
