import Canal.Foundation.Ledger
import Canal.Foundation.Numeral
import Canal.LoopThread.Batch
import Canal.LoopThread.Closing
import Canal.LoopThread.Connected

/-!
# Sockets and their owners

The functions that get descriptors from the system: `TcpClient::connect` and what
belongs to it, `TCPListener::listen`, and `TcpSession::init` on an accepted
descriptor. A descriptor is closed by the bufferevent or the listener that it has
been given to, when that is freed.

What the system answers is a parameter of each function, and the calls that the
function makes on descriptors are a result of it. Two functions may write past the
end of an address: `connect` if the path of a unix socket is too long, and `listen`
for every IPv6 address. Nothing is said about what follows.
-/

namespace Canal.Sockets

open Buffer Decimal Ledger LoopThread Trace

/-- The address families that are told apart. -/
inductive Family where
  | inet
  | inet6
  | other
  deriving DecidableEq

/-- `CONN_INFO`, as far as `connect` looks at it. -/
structure ConnInfo extends Batch.ConnInfo where
  sourceIp : String := ""
  path : List Byte := []
  dscp : UInt32 := 0
  deriving DecidableEq

/-- The address for `connect`. `evutil_inet_pton` converts the host, and its result is
not looked at. -/
inductive Address where
  | inet (host : String) (port : UInt16)
  | inet6 (host : String) (port : UInt16)
  | unix (path : List Byte)
  deriving DecidableEq

/-- What is done with a descriptor. -/
inductive Op where
  | nonblocking
  | bindSource (index : Nat)
  | bufferevent
  | connect (addr : Address)
  | enable
  | disable
  | sockname
  | setTos (family : Family) (tos : UInt8)
  | reusePort
  | bind (host : String) (port : UInt16)
  | listener
  deriving DecidableEq

abbrev Calls := List (Call Nat Op)

def uses (fd : Nat) (ops : List Op) : Calls := ops.map fun op => .use op fd

/-- What the system answers to `connect`: a new descriptor, the result of `bind` for
each address that `getaddrinfo` finds, whether a bufferevent is created, connected and
enabled, and the family that `getsockname` reports. -/
structure Answers where
  socket : Option Nat
  source : Option (List Bool)
  bufferevent : Bool
  connect : Bool
  enable : Bool
  sockname : Option Family

/-- `sizeof(sun_path)` -/
def sunPathSize : Nat := 108

/-- `CONN_INFO::get_port` -/
def ConnInfo.getPort (info : ConnInfo) : List Byte := decimal info.port.toNat

/-- An `int` that is stored in a `uint16_t`. -/
def toUInt16 (n : Int) : UInt16 := UInt16.ofNat (n % 2 ^ 16).toNat

/-- `TcpClient` with its base class. `_bev_sptr` is the descriptor of the bufferevent. -/
structure TcpClient where
  bev : Option Nat := none
  isClosing : Bool := false
  isConnected : Bool := false
  connInfo : ConnInfo := { type := .unKnown, ip := "", port := 0 }

/-- The bufferevent, if any, is freed, with `BEV_OPT_CLOSE_ON_FREE`. -/
def freed : Option Nat → Calls
  | none => []
  | some fd => [.release fd]

/-- The loop of `set_source_addr`, which ends at the first address that can be bound. -/
def bindSource : Nat → List Bool → List Op
  | _, [] => []
  | index, bound :: rest => .bindSource index :: if bound then [] else bindSource (index + 1) rest

/-- `set_source_addr` on a valid descriptor. -/
def setSourceAddr (source : String) (a : Answers) : List Op :=
  if source.isEmpty then [] else (a.source.map (bindSource 0)).getD []

/-- The byte for `IP_TOS` and `IPV6_TCLASS`. -/
def tos (dscp : UInt32) : UInt8 := ((dscp &&& 0x3f) <<< 2).toUInt8

/-- `set_sockopt_tos` on a valid descriptor. -/
def setSockoptTos (dscp : UInt32) (a : Answers) : List Op :=
  .sockname ::
    match a.sockname with
    | some .inet => [.setTos .inet (tos dscp)]
    | some .inet6 => [.setTos .inet6 (tos dscp)]
    | _ => []

namespace TcpClient

/-- `TcpClient::_connect`. `reset` frees the old bufferevent when the new one has been
created. -/
def connectFd (c : TcpClient) (addr : Address) (fd : Nat) (a : Answers) :
    Bool × TcpClient × Calls :=
  let prepared : Calls :=
    uses fd (.nonblocking :: setSourceAddr c.connInfo.sourceIp a ++ [.bufferevent]) ++ freed c.bev
  if !a.bufferevent then
    (false, { c with bev := none }, prepared)
  else if !a.connect then
    (false, { c with bev := none }, prepared ++ uses fd [.connect addr] ++ [.release fd])
  else if !a.enable then
    (false, { c with bev := none }, prepared ++ uses fd [.connect addr, .enable] ++ [.release fd])
  else
    (true, { c with bev := some fd },
      prepared ++ uses fd (.connect addr :: .enable :: setSockoptTos c.connInfo.dscp a))

/-- `TcpClient::connect` behind `socket`, for an IP address. -/
def connectIp (c : TcpClient) (addr : UInt16 → Address) (fd : Nat) (a : Answers) :
    Bool × TcpClient × Calls :=
  match stoi c.connInfo.getPort with
  | none => (false, c, [])
  | some n => c.connectFd (addr (toUInt16 n)) fd a

/-- `TcpClient::connect`; `none` if the path is copied past the end of the address. -/
def connect (c : TcpClient) (info : ConnInfo) (a : Answers) : Option (Bool × TcpClient × Calls) :=
  let c := { c with connInfo := info }
  match info.type, a.socket with
  | .ipV4, some fd => do
      let (ok, c, calls) := c.connectIp (.inet info.ip) fd a
      return (ok, c, .acquire fd :: calls)
  | .ipV6, some fd => do
      let (ok, c, calls) := c.connectIp (.inet6 info.ip) fd a
      return (ok, c, .acquire fd :: calls)
  | .unixSocket, some fd =>
      if info.path.length > sunPathSize then
        none
      else do
        let (ok, c, calls) := c.connectFd (.unix info.path) fd a
        return (ok, c, .acquire fd :: calls)
  | _, _ => some (false, c, [])

/-- `TcpClient::disConnect` -/
def disConnect (c : TcpClient) : TcpClient × Calls := ({ c with bev := none }, freed c.bev)

/-- `TcpClient::reconnect` -/
def reconnect (c : TcpClient) (a : Answers) : Option (TcpClient × Calls) := do
  let (c, calls) := c.disConnect
  let (_, c, more) ← c.connect c.connInfo a
  return (c, calls ++ more)

/-- `TcpSocket::get_socket`. Without a bufferevent it follows a null pointer. -/
def getSocket (c : TcpClient) : Option Int := c.bev.map fun _ => Closing.socketFdInvalid

/-- `evutil_closesocket`; a negative descriptor is refused. -/
def closesocket (fd : Int) : Calls := if fd < 0 then [] else [.release fd.toNat]

/-- `TcpClient::handleEvent`, for the bufferevent with the descriptor `fd`. -/
def handleEvent (c : TcpClient) (fd : Nat) (e : Events) : TcpClient × Calls :=
  if e.failed then
    ({ c with isConnected := false, bev := none },
      .use .disable fd :: c.getSocket.toList.flatMap closesocket ++ freed c.bev)
  else if e.connected && !e.refused then
    ({ c with isConnected := true }, [])
  else
    (c, [])

end TcpClient

/-- `TcpSession::init`: the descriptor of the bufferevent, if there is one. -/
def sessionInit (fd : Nat) (bufferevent enable : Bool) : Option Nat × Calls :=
  if !bufferevent then
    (none, uses fd [.nonblocking, .bufferevent])
  else if !enable then
    (none, uses fd [.nonblocking, .bufferevent, .enable] ++ [.release fd])
  else
    (some fd, uses fd [.nonblocking, .bufferevent, .enable])

/-- What `address::from_string` makes of a string. -/
inductive Literal where
  | v4
  | v6
  deriving DecidableEq

/-- What the system answers to `listen`. -/
structure ListenAnswers where
  socket : Option Nat
  reusePort : Bool
  bind : Bool
  listener : Bool

/-- `TCPListener::listen`, given the listener that there has been. `none` is an exception,
or an IPv6 address that is written into a `sockaddr_in`. -/
def listen (literal : String → Option Literal) (old : Option Nat) (ip : String) (port : UInt16)
    (a : ListenAnswers) : Option (Bool × Option Nat × Calls) :=
  match literal ip, a.socket with
  | none, _ | some .v6, _ => none
  | some .v4, none => some (false, old, [])
  | some .v4, some fd =>
      if !a.reusePort then
        some (false, old, .acquire fd :: uses fd [.reusePort])
      else if !a.bind then
        some (false, old, .acquire fd :: uses fd [.reusePort, .bind ip port])
      else
        let calls : Calls :=
          .acquire fd :: uses fd [.reusePort, .bind ip port, .listener] ++ freed old
        if !a.listener then
          some (false, none, calls)
        else
          some (true, some fd, calls ++ uses fd [.nonblocking])

/-! ## A process -/

/-- The owners of descriptors. -/
inductive Holder where
  | client (c : Nat)
  | session (i : Nat)
  | listener (l : Nat)
  deriving DecidableEq

/-- All clients, sessions and listeners; those that have not been constructed yet are
as their constructors leave them. The last four fields record what has happened and
influence nothing: the calls on descriptors, the descriptors that have no owner any
more, and for each client what it has been through. -/
structure State where
  clients : Nat → TcpClient := fun _ => {}
  sessions : Nat → Option Nat := fun _ => none
  listeners : Nat → Option Nat := fun _ => none
  calls : Calls := []
  lost : List Nat := []
  created : Nat → Nat := fun _ => 0
  events : Nat → List (Nat × Events) := fun _ => []

def State.holder (s : State) : Holder → Option Nat
  | .client c => (s.clients c).bev
  | .session i => s.sessions i
  | .listener l => s.listeners l

inductive Action where
  | connect (c : Nat) (info : ConnInfo) (a : Answers)
  | reconnect (c : Nat) (a : Answers)
  | disConnect (c : Nat)
  | event (c : Nat) (e : Events)
  | accept (i fd : Nat) (bufferevent enable : Bool)
  | release (i : Nat)
  | listen (l : Nat) (ip : String) (port : UInt16) (a : ListenAnswers)

/-- A descriptor that is not open: the system hands out no other. -/
def Free (calls : Calls) (fd : Nat) : Prop :=
  ∀ table, replay (fun _ => false) calls = some table → table fd = false

/-- How far `connect` gets. -/
def outcome (info : ConnInfo) (a : Answers) : ConnectOutcome :=
  match info.type, a.socket with
  | .ipV4, some _ | .ipV6, some _ | .unixSocket, some _ =>
      if a.bufferevent && a.connect && a.enable then .started else .failed
  | _, _ => .unreached

/-- `connect` loses its descriptor if no bufferevent is created for it. -/
def lostByConnect (info : ConnInfo) (a : Answers) : List Nat :=
  match info.type, a.socket with
  | .ipV4, some fd | .ipV6, some fd | .unixSocket, some fd =>
      if a.bufferevent then [] else [fd]
  | _, _ => []

/-- `listen` loses its descriptor whenever it fails. -/
def lostByListen (a : ListenAnswers) : List Nat :=
  if a.reusePort && a.bind && a.listener then [] else a.socket.toList

/-- A call or a callback. A session is released when nothing refers to it any more. -/
inductive Step (literal : String → Option Literal) : State → Action → State → Prop where
  | connect {s : State} {c : Nat} {info : ConnInfo} {a : Answers} {ok : Bool} {client : TcpClient}
      {calls : Calls} (free : ∀ fd, a.socket = some fd → Free s.calls fd)
      (done : (s.clients c).connect info a = some (ok, client, calls)) :
      Step literal s (.connect c info a)
        { s with
          clients := Function.update s.clients c client
          calls := s.calls ++ calls
          lost := lostByConnect info a ++ s.lost
          created := Function.update s.created c
            (s.created c + Connected.fresh (outcome info a)) }
  | reconnect {s : State} {c : Nat} {a : Answers} {client : TcpClient} {calls : Calls}
      (free : ∀ fd, a.socket = some fd → Free (s.calls ++ freed (s.clients c).bev) fd)
      (done : (s.clients c).reconnect a = some (client, calls)) :
      Step literal s (.reconnect c a)
        { s with
          clients := Function.update s.clients c client
          calls := s.calls ++ calls
          lost := lostByConnect (s.clients c).connInfo a ++ s.lost
          created := Function.update s.created c
            (s.created c + Connected.fresh (outcome (s.clients c).connInfo a)) }
  | disConnect {s : State} {c : Nat} :
      Step literal s (.disConnect c)
        { s with
          clients := Function.update s.clients c (s.clients c).disConnect.1
          calls := s.calls ++ (s.clients c).disConnect.2 }
  | event {s : State} {c fd : Nat} (e : Events) (live : (s.clients c).bev = some fd) :
      Step literal s (.event c e)
        { s with
          clients := Function.update s.clients c ((s.clients c).handleEvent fd e).1
          calls := s.calls ++ ((s.clients c).handleEvent fd e).2
          events := Function.update s.events c (s.events c ++ [(s.created c, e)]) }
  | accept {s : State} {i fd : Nat} (bufferevent enable : Bool) (free : Free s.calls fd)
      (new : s.sessions i = none) :
      Step literal s (.accept i fd bufferevent enable)
        { s with
          sessions := Function.update s.sessions i (sessionInit fd bufferevent enable).1
          calls := s.calls ++ .acquire fd :: uses fd [.nonblocking] ++
            (sessionInit fd bufferevent enable).2
          lost := if bufferevent then s.lost else fd :: s.lost }
  | release {s : State} {i fd : Nat} (live : s.sessions i = some fd) :
      Step literal s (.release i)
        { s with
          sessions := Function.update s.sessions i none
          calls := s.calls ++ freed (some fd) }
  | listen {s : State} {l : Nat} {ip : String} {port : UInt16} {a : ListenAnswers} {ok : Bool}
      {listener : Option Nat} {calls : Calls}
      (free : ∀ fd, a.socket = some fd → Free s.calls fd)
      (done : Sockets.listen literal (s.listeners l) ip port a = some (ok, listener, calls)) :
      Step literal s (.listen l ip port a)
        { s with
          listeners := Function.update s.listeners l listener
          calls := s.calls ++ calls
          lost := lostByListen a ++ s.lost }

end Canal.Sockets
