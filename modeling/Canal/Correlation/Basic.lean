import Canal.Foundation.Trace
import Canal.LoopThread.Client
import Canal.Reading.OnRead
import Mathlib.Logic.Function.Basic

/-!
# Clients, proxy and backend

Any number of clients talk to one backend through a loop thread that has a single
connection. Everything is bytes: a client sends commands, the proxy reads them in
pieces of any size and forwards the slices it finds, the backend takes commands
off the bytes it receives and answers each of them, and the proxy reads the
replies in pieces of any size and writes the slices it finds to the sessions that
it takes off its queue.

The bytes that the backend has received carry the session they came from. Neither
the proxy nor the backend looks at this; it says whose command is answered, and so
to whom the reply is due. An access to the front of an empty queue is recorded.
-/

namespace Canal.Correlation

open Buffer RespParser Reading LoopThread

/-- A client with its session. `wire` is on the way to the session, `input` its
input buffer, `written` what has been written to the client, and `due` the replies
to the commands of this client. -/
structure Client where
  session : TcpSession
  wire : List Byte := []
  input : List Byte := []
  written : List Byte := []
  due : List Byte := []

/-- `inbox` is what the backend has received, `wire` what is on the way from the
backend to the connection, and `input` the input buffer of the connection. -/
structure State where
  client : SessionId → Client
  conn : Connection
  inbox : List (SessionId × Byte) := []
  wire : List Byte := []
  input : List Byte := []
  fault : Bool := false

inductive Action where
  | command (i : SessionId) (v : Value)
  | read (i : SessionId) (n : Nat) (past : Memory)
  | answer (v r : Value)
  | receive (n : Nat) (past : Memory)

namespace State

def modify (s : State) (i : SessionId) (f : Client → Client) : State :=
  { s with client := Function.update s.client i (f (s.client i)) }

/-- The dispatch callback of `TcpSession::onRead`; every write succeeds. -/
def dispatch (i : SessionId) (s : State) (slice : List Byte) : State :=
  let session := (s.client i).session
  let (chosen, sIdGenerater) :=
    tryConnections [s.conn] (fun _ => true) (attempts 1) session.sIdGenerater
  let s := s.modify i fun c => { c with session := { session with sIdGenerater } }
  match chosen with
  | none => s
  | some (_, conn) =>
      { s with
        conn := { conn with sessionQueue := conn.sessionQueue ++ [i] }
        inbox := s.inbox ++ slice.map fun c => (i, c) }

/-- The callback of `redis_tcp_client::onRead`; every write succeeds. -/
def deliver (s : State) (slice : List Byte) : State :=
  match s.conn.sessionQueue with
  | [] => { s with fault := true }
  | i :: queue =>
      let s :=
        if (s.client i).session.send true then
          s.modify i fun c => { c with written := c.written ++ slice }
        else
          s
      { s with conn := { s.conn with sessionQueue := queue } }

end State

/-- One action. A read event takes the next `n` bytes off the wire. Commands and
replies are well-formed, and the backend answers the command at the front of what
it has received. Behind a view there is no LF. -/
inductive Step : State → Action → State → Prop where
  | command {s : State} (i : SessionId) {v : Value} (wellFormed : v.WellFormed) :
      Step s (.command i v) (s.modify i fun c => { c with wire := c.wire ++ v.encode })
  | read {s : State} {i : SessionId} {n : Nat} {past : Memory} {r : ReadResult}
      (quiet : Quiet past)
      (parsed : onRead ((s.client i).input ++ (s.client i).wire.take n) past = .ok r) :
      Step s (.read i n past)
        (r.slices.foldl (State.dispatch i)
          (s.modify i fun c => { c with wire := c.wire.drop n, input := r.input }))
  | answer {s : State} {v r : Value} {i : SessionId} {c : Byte}
      (commandWellFormed : v.WellFormed) (replyWellFormed : r.WellFormed)
      (front : v.encode <+: s.inbox.map Prod.snd) (owner : s.inbox.head? = some (i, c)) :
      Step s (.answer v r)
        { s.modify i fun c => { c with due := c.due ++ r.encode } with
          inbox := s.inbox.drop v.encode.length
          wire := s.wire ++ r.encode }
  | receive {s : State} {n : Nat} {past : Memory} {r : ReadResult} (quiet : Quiet past)
      (parsed : onRead (s.input ++ s.wire.take n) past = .ok r) :
      Step s (.receive n past)
        (r.slices.foldl State.deliver { s with wire := s.wire.drop n, input := r.input })

/-- Sessions and a connection on which nothing has been sent. -/
def start (session : SessionId → TcpSession) (backend : TcpClient) : State :=
  { client := fun i => { session := session i }
    conn := { toTcpClient := backend } }

/-- What has been written to a client is a part of what is due to it, from the
start, and no reply has met an empty queue. -/
structure Correct (s : State) : Prop where
  sound : s.fault = false
  inOrder : ∀ i, (s.client i).written <+: (s.client i).due

end Canal.Correlation
