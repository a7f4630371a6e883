import Canal.Sockets.Accounts

/-!
# What `connect` does for the client

The model of a client in which `connect` has an outcome, and nothing else is known of
it, is what is seen of a client here: every run is a run of that model, for each of
the clients. And a descriptor is connected to no other address than the client has
been given; the port, which is converted to a text and back, is among it.
-/

namespace Canal.Sockets

open Buffer Ledger LoopThread Trace

/-! ## Outcomes -/

/-- What the model with outcomes knows of a client. -/
def TcpClient.forget (c : TcpClient) : LoopThread.TcpClient where
  bev := c.bev.isSome
  isClosing := c.isClosing
  isConnected := c.isConnected

theorem connectFd_eq {c client : TcpClient} {addr : Address} {fd : Nat} {a : Answers} {ok : Bool}
    {calls : Calls} (h : c.connectFd addr fd a = (ok, client, calls)) :
    client = { c with
      bev := if a.bufferevent && a.connect && a.enable then some fd else none } := by
  rw [TcpClient.connectFd] at h
  cases hbev : a.bufferevent <;> cases hconnect : a.connect <;> cases henable : a.enable <;>
    · simp only [hbev, hconnect, henable] at h
      cases h
      rfl

/-- The client `k`, as the model with outcomes sees it. -/
def seen (k : Nat) : Abstraction State Action Connected.State Connected.Action where
  state s :=
    { toTcpClient := (s.clients k).forget
      created := s.created k
      events := s.events k }
  action s
    | .connect c info a => if c = k then some (.connect (outcome info a)) else none
    | .reconnect c a =>
        if c = k then some (.reconnect (outcome (s.clients k).connInfo a)) else none
    | .disConnect c => if c = k then some .disConnect else none
    | .event c e => if c = k then some (.event e) else none
    | .accept .. | .release _ | .listen .. => none

variable {literal : String → Option Literal}

/-- Descriptors are connected only to addresses in `D`. -/
def Aims (D : Address → Prop) (calls : Calls) : Prop :=
  ∀ x fd, .use (.connect x) fd ∈ calls → D x

variable {D : Address → Prop} {calls rest : Calls}

theorem Aims.append (h : Aims D calls) (h' : Aims D rest) : Aims D (calls ++ rest) :=
  fun x fd hx => (List.mem_append.mp hx).elim (h x fd) (h' x fd)

theorem aims_uses {fd : Nat} {ops : List Op} (h : ∀ x, .connect x ∈ ops → D x) :
    Aims D (uses fd ops) := by
  intro x d hx
  obtain ⟨op, hop, heq⟩ := List.mem_map.mp hx
  obtain ⟨rfl, -⟩ := Call.use.inj heq
  exact h x hop

theorem aims_nil : Aims D [] := by simp [Aims]

theorem aims_acquire (D : Address → Prop) (fd : Nat) : Aims D [.acquire fd] := by simp [Aims]

theorem aims_release (D : Address → Prop) (fd : Nat) : Aims D [.release fd] := by simp [Aims]

theorem aims_freed (D : Address → Prop) (bev : Option Nat) : Aims D (freed bev) := by
  cases bev with
  | none => exact aims_nil
  | some fd => exact aims_release D fd

theorem connect_notMem_setSourceAddr (source : String) (a : Answers) (x : Address) :
    Op.connect x ∉ setSourceAddr source a := by
  have hloop : ∀ binds index, Op.connect x ∉ bindSource index binds := by
    intro binds
    induction binds with
    | nil => simp [bindSource]
    | cons bound rest ih =>
        intro index
        cases bound <;> simp [bindSource, ih]
  rw [setSourceAddr]
  split
  · exact List.not_mem_nil
  · cases a.source with
    | none => exact List.not_mem_nil
    | some binds => exact hloop binds 0

theorem connect_notMem_setSockoptTos (dscp : UInt32) (a : Answers) (x : Address) :
    Op.connect x ∉ setSockoptTos dscp a := by
  rw [setSockoptTos]
  split <;> simp

theorem connectFd_aims {c client : TcpClient} {addr : Address} {fd : Nat} {a : Answers} {ok : Bool}
    (h : c.connectFd addr fd a = (ok, client, calls)) (haddr : D addr) : Aims D calls := by
  have hprepared : Aims D
      (uses fd (.nonblocking :: setSourceAddr c.connInfo.sourceIp a ++ [.bufferevent]) ++
        freed c.bev) := by
    refine (aims_uses fun x hx => ?_).append (aims_freed D c.bev)
    simp [connect_notMem_setSourceAddr] at hx
  rw [TcpClient.connectFd] at h
  split at h
  · cases h
    exact hprepared
  · split at h
    · cases h
      exact (hprepared.append (aims_uses (by simp [haddr]))).append (aims_release D fd)
    · split at h
      · cases h
        exact (hprepared.append (aims_uses (by simp [haddr]))).append (aims_release D fd)
      · cases h
        refine hprepared.append (aims_uses fun x hx => ?_)
        obtain rfl : x = addr := by simpa [connect_notMem_setSockoptTos] using hx
        exact haddr

/-- Without a type there is no address. -/
theorem connect_aims {c client : TcpClient} {info : ConnInfo} {a : Answers} {ok : Bool}
    (h : c.connect info a = some (ok, client, calls))
    (hinfo : info.type = .unKnown ∨ D info.address) : Aims D calls := by
  obtain ⟨-, -, -, rfl⟩ | ⟨fd, rest, -, rfl, houtcome, -, hrest⟩ := connect_cases h
  · exact aims_nil
  · obtain hunknown | haddr := hinfo
    · simp only [outcome, hunknown] at houtcome
      split at houtcome <;> cases houtcome
    · exact (aims_acquire D fd).append (connectFd_aims hrest haddr)

theorem connect_connInfo {c client : TcpClient} {info : ConnInfo} {a : Answers} {ok : Bool}
    (h : c.connect info a = some (ok, client, calls)) : client.connInfo = info := by
  obtain ⟨-, -, rfl, -⟩ | ⟨fd, rest, -, -, -, -, hrest⟩ := connect_cases h
  · rfl
  · rw [connectFd_eq hrest]

theorem handleEvent_aims (c : TcpClient) (fd : Nat) (e : Events) :
    Aims D (c.handleEvent fd e).2 ∧ (c.handleEvent fd e).1.connInfo = c.connInfo := by
  rw [TcpClient.handleEvent]
  split
  · have hdisable : Aims D (uses fd [.disable]) := aims_uses (by simp)
    rw [closesocket_getSocket]
    exact ⟨hdisable.append (aims_freed D c.bev), rfl⟩
  · split <;> exact ⟨aims_nil, rfl⟩

theorem sessionInit_aims (fd : Nat) (bufferevent enable : Bool) :
    Aims D (sessionInit fd bufferevent enable).2 := by
  rw [sessionInit]
  split
  · exact aims_uses (by simp)
  · split
    · exact (aims_uses (by simp)).append (aims_release D fd)
    · exact aims_uses (by simp)

theorem listen_aims {literal : String → Option Literal} {old listener : Option Nat} {ip : String}
    {port : UInt16} {a : ListenAnswers} {ok : Bool}
    (h : listen literal old ip port a = some (ok, listener, calls)) : Aims D calls := by
  rw [listen] at h
  split at h
  · cases h
  · cases h
  · cases h
    exact aims_nil
  · rename_i fd _ _
    have hacquire := aims_acquire D fd
    split at h
    · cases h
      exact hacquire.append (aims_uses (by simp))
    · split at h
      · cases h
        exact hacquire.append (aims_uses (by simp))
      · split at h
        · cases h
          exact (hacquire.append (aims_uses (by simp))).append (aims_freed D old)
        · cases h
          exact ((hacquire.append (aims_uses (by simp))).append (aims_freed D old)).append
            (aims_uses (by simp))

/-- Only addresses in `D` have been given to clients, and connected to. -/
structure Given (D : Address → Prop) (s : State) : Prop where
  calls : Aims D s.calls
  clients : ∀ c, (s.clients c).connInfo.type = .unKnown ∨ D (s.clients c).connInfo.address

variable {s t : State} {act : Action}

theorem Given.update {c : Nat} {client : TcpClient} (hs : Given D s)
    (hclient : client.connInfo.type = .unKnown ∨ D client.connInfo.address) (d : Nat) :
    (Function.update s.clients c client d).connInfo.type = .unKnown ∨
      D (Function.update s.clients c client d).connInfo.address := by
  by_cases hd : d = c
  · subst hd
    rwa [Function.update_self]
  · rw [Function.update_of_ne hd]
    exact hs.clients d

theorem Step.given (h : Step literal s act t) (hs : Given D s)
    (hact : ∀ c info a, act = .connect c info a → D info.address) : Given D t := by
  cases h with
  | @connect c info a ok client calls free done =>
      have hinfo : info.type = .unKnown ∨ D info.address := Or.inr (hact c info a rfl)
      exact ⟨hs.calls.append (connect_aims done hinfo),
        hs.update (by rwa [connect_connInfo done])⟩
  | @reconnect c a client calls free done =>
      simp only [TcpClient.reconnect, TcpClient.disConnect, Option.bind_eq_bind,
        Option.bind_eq_some_iff, Option.pure_def, Option.some.injEq, Prod.mk.injEq] at done
      obtain ⟨⟨ok, client', more⟩, hconnect, rfl, rfl⟩ := done
      exact ⟨hs.calls.append ((aims_freed D _).append (connect_aims hconnect (hs.clients c))),
        hs.update (by rw [connect_connInfo hconnect]; exact hs.clients c)⟩
  | @disConnect c => exact ⟨hs.calls.append (aims_freed D _), hs.update (hs.clients c)⟩
  | @event c fd e live =>
      obtain ⟨haims, hinfo⟩ := handleEvent_aims (D := D) (s.clients c) fd e
      exact ⟨hs.calls.append haims, hs.update (by rw [hinfo]; exact hs.clients c)⟩
  | @accept i fd bufferevent enable free new =>
      refine ⟨?_, hs.clients⟩
      have hcallback : Aims D (.acquire fd :: uses fd [.nonblocking]) :=
        (aims_acquire D fd).append (aims_uses (by simp))
      exact (hs.calls.append hcallback).append (sessionInit_aims fd bufferevent enable)
  | @release i fd live => exact ⟨hs.calls.append (aims_freed D _), hs.clients⟩
  | listen free done => exact ⟨hs.calls.append (listen_aims done), hs.clients⟩

/-! ## Runs -/

end Canal.Sockets
