import Canal.LoopThread.Alignment
import Canal.Reading.OnRead

/-!
# A loop thread with its buffers

`LoopThread` speaks of slices: a session dispatches them one at a time, and a
connection delivers them one at a time. What runs in the thread is `onRead`. It
parses all that is in the input buffer of a session or of a connection, calls back for
each slice that it finds, and drains what the parse has consumed.

Here each session and each connection has its buffers. `outbox` is what has been
written to the bufferevent that a connection has, and `written` what has been written
to a client. A bufferevent that a connection drops takes its buffers with it.

The remaining fields record what has happened. Of a session they are the bytes that have
arrived, the slices they have been cut into, and among these the ones that a connection
has taken; of a connection, what has been heard on the bufferevent that it has, and which
request has been answered there with which slice.
-/

namespace Canal.Proxy

open Buffer RespParser Reading LoopThread Trace

structure State extends LoopThread.State where
  sessionInput : SessionId → List Byte := fun _ => []
  connectionInput : Nat → List Byte := fun _ => []
  outbox : Nat → List Byte := fun _ => []
  written : SessionId → List Byte := fun _ => []
  received : SessionId → List Byte := fun _ => []
  cut : SessionId → List (List Byte) := fun _ => []
  requests : SessionId → List (List Byte) := fun _ => []
  heard : Nat → List Byte := fun _ => []
  answers : Nat → List (Request × List Byte) := fun _ => []
  texts : List (List Byte) := []

/-- A read event of a session or of a connection: the bytes that have arrived, the
memory behind the view, and the results of the writes, slice by slice. -/
inductive Action where
  | read (i : SessionId) (chunk : List Byte) (past : Memory) (writes : Nat → Nat → Bool)
  | receive (c : Nat) (chunk : List Byte) (past : Memory) (writes : Nat → Bool)
  | other (a : LoopThread.Action)

/-- The connection that takes a slice of the session, if any does. -/
def taker (s : LoopThread.State) (sess : TcpSession) (write : Nat → Bool) : Option Nat :=
  if s.connections = [] then
    none
  else
    (tryConnections s.connections write (attempts s.connections.length)
      sess.sIdGenerater).1.map Prod.fst

namespace State

/-- The callback of `TcpSession::onRead` for one slice. -/
def dispatchSlice (s : State) (i : SessionId) (sess : TcpSession) (slice : List Byte)
    (write : Nat → Bool) : State :=
  let cut := Function.update s.cut i (s.cut i ++ [slice])
  match taker s.toState sess write with
  | none => { s with toState := s.toState.dispatch i sess write, cut }
  | some c =>
      { s with
        toState := s.toState.dispatch i sess write
        cut
        outbox := Function.update s.outbox c (s.outbox c ++ slice)
        requests := Function.update s.requests i (s.requests i ++ [slice]) }

/-- The callback of `redis_tcp_client::onRead` for one slice, given the request that is
answered and the session at the front of the queue. -/
def deliverSlice (s : State) (c : Nat) (conn : Connection) (r : Request) (i : SessionId)
    (slice : List Byte) (write : Bool) : State :=
  { s with
    toState := s.toState.reply c conn r i write
    written :=
      if (s.sessions[i]?).any (·.send write) then
        Function.update s.written i (s.written i ++ slice)
      else
        s.written
    answers := Function.update s.answers c (s.answers c ++ [(r, slice)])
    texts := s.texts ++ [slice] }

/-- The slices of one read event of a session. -/
def dispatchAll (s : State) (i : SessionId) : List (List Byte) → (Nat → Nat → Bool) → State
  | [], _ => s
  | slice :: slices, writes =>
      match s.sessions[i]? with
      | none => s
      | some sess =>
          (s.dispatchSlice i sess slice (writes 0)).dispatchAll i slices fun k => writes (k + 1)

/-- The slices of one read event of a connection. -/
def deliverAll (s : State) (c : Nat) : List (List Byte) → (Nat → Bool) → State
  | [], _ => s
  | slice :: slices, writes =>
      match s.connections[c]? with
      | none => s
      | some conn =>
          match conn.outstanding, conn.sessionQueue with
          | r :: _, i :: _ =>
              (s.deliverSlice c conn r i slice (writes 0)).deliverAll c slices fun k =>
                writes (k + 1)
          | _, _ => s

/-- What an `onRead` of the session has left in its input buffer. -/
def drainSession (s : State) (i : SessionId) (chunk input : List Byte) : State :=
  { s with
    sessionInput := Function.update s.sessionInput i input
    received := Function.update s.received i (s.received i ++ chunk) }

/-- What an `onRead` of the connection has left in its input buffer. -/
def drainConnection (s : State) (c : Nat) (chunk input : List Byte) : State :=
  { s with
    connectionInput := Function.update s.connectionInput c input
    heard := Function.update s.heard c (s.heard c ++ chunk) }

/-- The buffers of a bufferevent that is dropped or replaced. -/
def discard (s : State) (a : LoopThread.Action) : State :=
  match a.severs with
  | none => s
  | some c =>
      { s with
        connectionInput := Function.update s.connectionInput c []
        outbox := Function.update s.outbox c []
        heard := Function.update s.heard c []
        answers := Function.update s.answers c [] }

end State

/-- The slices are dispatched and delivered in read events only. -/
def Plain : LoopThread.Action → Prop
  | .dispatch .. | .reply .. => False
  | _ => True

/-- One action. Behind a view there is no LF, and a connection finds no more replies
than there are requests that wait for one. -/
inductive Step : State → Action → State → Prop where
  | read {s : State} {i : SessionId} {sess : TcpSession} {chunk : List Byte} {past : Memory}
      {r : ReadResult} (writes : Nat → Nat → Bool) (active : s.active i = some sess)
      (quiet : Quiet past) (parsed : onRead (s.sessionInput i ++ chunk) past = .ok r) :
      Step s (.read i chunk past writes)
        ((s.drainSession i chunk r.input).dispatchAll i r.slices writes)
  | receive {s : State} {c : Nat} {conn : Connection} {chunk : List Byte} {past : Memory}
      {r : ReadResult} (writes : Nat → Bool) (found : s.connections[c]? = some conn)
      (live : conn.bev = true) (quiet : Quiet past)
      (parsed : onRead (s.connectionInput c ++ chunk) past = .ok r)
      (solicited : r.slices.length ≤ conn.outstanding.length) :
      Step s (.receive c chunk past writes)
        ((s.drainConnection c chunk r.input).deliverAll c r.slices writes)
  | other {s : State} {a : LoopThread.Action} {t : LoopThread.State} (plain : Plain a)
      (step : LoopThread.Step s.toState a t) :
      Step s (.other a) { s.discard a with toState := t }

def start (clients : List TcpClient) : State := { toState := LoopThread.start clients }

end Canal.Proxy
