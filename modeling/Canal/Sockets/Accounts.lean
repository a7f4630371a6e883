import Canal.Foundation.Simulation
import Canal.Sockets.Basic

/-!
# Descriptors are neither used nor closed twice

In every run, each call on a descriptor finds it open, and a descriptor that is open
belongs to one bufferevent or listener, or has been lost on one of the error paths:
where no bufferevent or no listener could be created for it.

That `handleEvent` does not close a descriptor which its bufferevent closes as well is
due to `get_socket`: it answers with the invalid descriptor.

The second part connects the clients with the model in which `connect` has an outcome
and nothing else.
-/

namespace Canal.Sockets

open Buffer Decimal Ledger LoopThread Trace

/-! ## The functions, by their cases -/

/-- The port is converted to a text and back. -/
theorem toUInt16_stoi_getPort (info : ConnInfo) :
    (stoi info.getPort).map toUInt16 = some info.port := by
  have hlt := info.port.toNat_lt
  have hmod : ((info.port.toNat : Int) % 2 ^ 16).toNat = info.port.toNat := by omega
  rw [ConnInfo.getPort, stoi_decimal (by omega), Option.map_some, toUInt16, hmod]
  simp

theorem connectIp_eq (c : TcpClient) (addr : UInt16 → Address) (fd : Nat) (a : Answers) :
    c.connectIp addr fd a = c.connectFd (addr c.connInfo.port) fd a := by
  have hport := toUInt16_stoi_getPort c.connInfo
  rw [TcpClient.connectIp]
  cases hn : stoi c.connInfo.getPort with
  | none => simp [hn] at hport
  | some n =>
      rw [hn] at hport
      rw [← Option.some.inj hport]

/-- The address that `connect` is to use. -/
def ConnInfo.address (info : ConnInfo) : Address :=
  match info.type with
  | .ipV4 => .inet info.ip info.port
  | .ipV6 => .inet6 info.ip info.port
  | _ => .unix info.path

/-- Either `connect` does not get a descriptor, or it goes on with the one it gets, to
the address that it has been given. -/
theorem connect_cases {c client : TcpClient} {info : ConnInfo} {a : Answers} {ok : Bool}
    {calls : Calls} (h : c.connect info a = some (ok, client, calls)) :
    (outcome info a = .unreached ∧ lostByConnect info a = [] ∧
      client = { c with connInfo := info } ∧ calls = []) ∨
    ∃ fd rest, a.socket = some fd ∧ calls = .acquire fd :: rest ∧
      outcome info a = (if a.bufferevent && a.connect && a.enable then .started else .failed) ∧
      lostByConnect info a = (if a.bufferevent then [] else [fd]) ∧
      TcpClient.connectFd { c with connInfo := info } info.address fd a = (ok, client, rest) := by
  have hnone : ∀ {o : ConnectOutcome} {lost : List Nat}, o = .unreached → lost = [] →
      some (false, { c with connInfo := info }, []) = some (ok, client, calls) →
      o = .unreached ∧ lost = [] ∧ client = { c with connInfo := info } ∧ calls = [] := by
    intro o lost ho hlost heq
    obtain ⟨-, hclient, hcalls⟩ := by simpa using heq
    exact ⟨ho, hlost, hclient.symm, hcalls⟩
  have hsome : ∀ {fd : Nat} {x : Bool × TcpClient × Calls},
      some (x.1, x.2.1, .acquire fd :: x.2.2) = some (ok, client, calls) →
      calls = .acquire fd :: x.2.2 ∧ x = (ok, client, x.2.2) := by
    intro fd x heq
    obtain ⟨hok, hclient, hcalls⟩ := by simpa using heq
    exact ⟨hcalls.symm, by rw [← hok, ← hclient]⟩
  cases hsocket : a.socket with
  | none =>
      refine Or.inl (hnone ?_ ?_ ?_)
      · simp [outcome, hsocket]
      · simp [lostByConnect, hsocket]
      · rw [← h, TcpClient.connect]
        simp [hsocket]
  | some fd =>
      cases htype : info.type with
      | unKnown | other =>
          refine Or.inl (hnone ?_ ?_ ?_)
          · simp [outcome, htype]
          · simp [lostByConnect, htype]
          · rw [← h, TcpClient.connect]
            simp [htype]
      | ipV4 | ipV6 =>
          simp only [TcpClient.connect, htype, hsocket, connectIp_eq] at h
          obtain ⟨hcalls, hresult⟩ := hsome h
          refine Or.inr ⟨fd, _, rfl, hcalls, by simp [outcome, htype, hsocket],
            by simp [lostByConnect, htype, hsocket], ?_⟩
          rw [ConnInfo.address, htype]
          exact hresult
      | unixSocket =>
          simp only [TcpClient.connect, htype, hsocket] at h
          split at h
          · cases h
          · obtain ⟨hcalls, hresult⟩ := hsome h
            refine Or.inr ⟨fd, _, rfl, hcalls, by simp [outcome, htype, hsocket],
              by simp [lostByConnect, htype, hsocket], ?_⟩
            rw [ConnInfo.address, htype]
            exact hresult

/-! ## Accounts -/

variable {holder : Holder → Option Nat} {aside : List Nat} {k : Holder}

theorem freed_brings {old : Option Nat} (hk : holder k = old) :
    Brings (freed old) holder aside (Function.update holder k none) aside := by
  cases old with
  | none =>
      have hsame : Function.update holder k none = holder :=
        Function.update_eq_self_iff.mpr hk.symm
      rw [hsame]
      exact .nil
  | some fd => exact .drop hk

/-- A function takes the descriptor that it has been working with. -/
theorem take_brings {fd : Nat} :
    Brings ([] : Calls) (Function.update holder k none) (fd :: aside)
      (Function.update holder k (some fd)) aside := by
  have hnone := Function.update_self k (none : Option Nat) holder
  have htake : Brings ([] : Calls) _ (fd :: aside) _ aside := Brings.take hnone
  rwa [Function.update_idem] at htake

theorem connectFd_brings {c client : TcpClient} {addr : Address} {fd : Nat} {a : Answers}
    {ok : Bool} {calls : Calls} (hk : holder k = c.bev)
    (h : c.connectFd addr fd a = (ok, client, calls)) :
    Brings calls holder (fd :: aside) (Function.update holder k client.bev)
      ((if a.bufferevent then [] else [fd]) ++ aside) := by
  have hfd : fd ∈ fd :: aside := List.mem_cons_self
  have hprepared : Brings
      (uses fd (.nonblocking :: setSourceAddr c.connInfo.sourceIp a ++ [.bufferevent]) ++
        freed c.bev) holder (fd :: aside) (Function.update holder k none) (fd :: aside) :=
    (Brings.uses hfd).append (freed_brings hk)
  rw [TcpClient.connectFd] at h
  cases hbev : a.bufferevent with
  | false =>
      rw [hbev, if_pos (by rfl)] at h
      cases h
      exact hprepared
  | true =>
      rw [hbev, if_neg (by simp)] at h
      split at h
      · cases h
        exact (hprepared.append (.uses hfd)).append .release
      · split at h
        · cases h
          exact (hprepared.append (.uses hfd)).append .release
        · cases h
          exact (hprepared.append (.uses hfd)).finally take_brings

theorem sessionInit_brings {fd : Nat} (bufferevent enable : Bool) (hk : holder k = none) :
    Brings (sessionInit fd bufferevent enable).2 holder (fd :: aside)
      (Function.update holder k (sessionInit fd bufferevent enable).1)
      (if bufferevent then aside else fd :: aside) := by
  have hfd : fd ∈ fd :: aside := List.mem_cons_self
  have hsame : Function.update holder k none = holder :=
    Function.update_eq_self_iff.mpr hk.symm
  rw [sessionInit]
  cases bufferevent with
  | false =>
      rw [if_pos (by rfl), hsame]
      exact .uses hfd
  | true =>
      rw [if_neg (by simp)]
      cases enable with
      | false =>
          rw [if_pos (by rfl), hsame]
          exact (Brings.uses hfd).append .release
      | true =>
          exact (Brings.uses hfd).finally (.take hk)

theorem listen_cases {literal : String → Option Literal} {old listener : Option Nat} {ip : String}
    {port : UInt16} {a : ListenAnswers} {ok : Bool} {calls : Calls} (aside : List Nat)
    (hk : holder k = old) (h : listen literal old ip port a = some (ok, listener, calls)) :
    (calls = [] ∧ listener = old ∧ lostByListen a = []) ∨
    ∃ fd rest, a.socket = some fd ∧ calls = .acquire fd :: rest ∧
      Brings rest holder (fd :: aside) (Function.update holder k listener)
        (lostByListen a ++ aside) := by
  have hsame : Function.update holder k old = holder :=
    Function.update_eq_self_iff.mpr hk.symm
  rw [listen] at h
  split at h
  · cases h
  · cases h
  · rename_i hsocket
    cases h
    refine Or.inl ⟨rfl, rfl, ?_⟩
    simp [lostByListen, hsocket]
  · rename_i fd hliteral hsocket
    have hfd : fd ∈ fd :: aside := List.mem_cons_self
    refine Or.inr ⟨fd, ?_⟩
    split at h
    · rename_i hfail
      cases h
      have hlost : lostByListen a = [fd] := by simp_all [lostByListen]
      refine ⟨_, hsocket, rfl, ?_⟩
      rw [hlost, hsame]
      exact .uses hfd
    · split at h
      · rename_i hfail
        cases h
        have hlost : lostByListen a = [fd] := by simp_all [lostByListen]
        refine ⟨_, hsocket, rfl, ?_⟩
        rw [hlost, hsame]
        exact .uses hfd
      · split at h
        · rename_i hfail
          cases h
          have hlost : lostByListen a = [fd] := by simp_all [lostByListen]
          refine ⟨_, hsocket, rfl, ?_⟩
          rw [hlost]
          exact (Brings.uses hfd).append (freed_brings hk)
        · cases h
          have hlost : lostByListen a = [] := by simp_all [lostByListen]
          refine ⟨_, hsocket, rfl, ?_⟩
          rw [hlost]
          exact (((Brings.uses hfd).append (freed_brings hk)).append (.uses hfd)).finally
            take_brings

/-! ## Runs -/

/-- No call has failed, and what is open has one owner, or is lost. -/
def Accounted (s : State) : Prop :=
  ∃ table, replay (fun _ => false) s.calls = some table ∧ Accounts table s.holder s.lost

section

variable {literal : String → Option Literal} {s t : State} {act : Action}

theorem holder_client {c : Nat} {client : TcpClient} {bev : Option Nat}
    (hclients : t.clients = Function.update s.clients c client)
    (hsessions : t.sessions = s.sessions)
    (hlisteners : t.listeners = s.listeners) (hbev : client.bev = bev) :
    t.holder = Function.update s.holder (.client c) bev := by
  subst hbev
  funext h
  cases h with
  | client d =>
      by_cases hd : d = c
      · subst hd
        simp [State.holder, hclients]
      · simp [State.holder, hclients, hd]
  | session i => simp [State.holder, hsessions]
  | listener l => simp [State.holder, hlisteners]

theorem holder_session {i : Nat} {bev : Option Nat} (hclients : t.clients = s.clients)
    (hsessions : t.sessions = Function.update s.sessions i bev)
    (hlisteners : t.listeners = s.listeners) :
    t.holder = Function.update s.holder (.session i) bev := by
  funext h
  cases h with
  | client c => simp [State.holder, hclients]
  | session j =>
      by_cases hj : j = i
      · subst hj
        simp [State.holder, hsessions]
      · simp [State.holder, hsessions, hj]
  | listener l => simp [State.holder, hlisteners]

theorem holder_listener {l : Nat} {listener : Option Nat} (hclients : t.clients = s.clients)
    (hsessions : t.sessions = s.sessions)
    (hlisteners : t.listeners = Function.update s.listeners l listener) :
    t.holder = Function.update s.holder (.listener l) listener := by
  funext h
  cases h with
  | client c => simp [State.holder, hclients]
  | session i => simp [State.holder, hsessions]
  | listener k =>
      by_cases hk : k = l
      · subst hk
        simp [State.holder, hlisteners]
      · simp [State.holder, hlisteners, hk]

theorem Accounted.brings {calls : Calls} {holder' : Holder → Option Nat} {lost' : List Nat}
    (hs : Accounted s) (h : Brings calls s.holder s.lost holder' lost')
    (hholder : t.holder = holder')
    (hlost : t.lost = lost') (hcalls : t.calls = s.calls ++ calls) : Accounted t := by
  obtain ⟨table, hreplay, haccounts⟩ := hs
  obtain ⟨table', hrest, haccounts'⟩ := h table haccounts
  refine ⟨table', ?_, ?_⟩
  · rw [hcalls, replay_append, hreplay, Option.bind_some, hrest]
  · rwa [hholder, hlost]

/-- A function that works with a new descriptor. -/
theorem Accounted.acquires {fd : Nat} {rest : Calls} {holder' : Holder → Option Nat}
    {lost' : List Nat} (hs : Accounted s) (free : Free s.calls fd)
    (h : Brings rest s.holder (fd :: s.lost) holder' lost') (hholder : t.holder = holder')
    (hlost : t.lost = lost') (hcalls : t.calls = s.calls ++ .acquire fd :: rest) :
    Accounted t := by
  obtain ⟨table, hreplay, haccounts⟩ := hs
  obtain ⟨table', hrest, haccounts'⟩ := haccounts.replay_cons (free table hreplay) h
  refine ⟨table', ?_, ?_⟩
  · rw [hcalls, replay_append, hreplay, Option.bind_some, hrest]
  · rwa [hholder, hlost]

/-- Nothing is done with descriptors. -/
theorem Accounted.keeps {h : Holder} (hs : Accounted s)
    (hholder : t.holder = Function.update s.holder h (s.holder h)) (hlost : t.lost = s.lost)
    (hcalls : t.calls = s.calls ++ []) : Accounted t := by
  refine hs.brings .nil ?_ hlost hcalls
  rw [hholder, Function.update_eq_self]

theorem Accounted.connects {c : TcpClient} {k : Nat} {info : ConnInfo} {a : Answers} {ok : Bool}
    {client : TcpClient} {calls : Calls} (hs : Accounted s)
    (free : ∀ fd, a.socket = some fd → Free s.calls fd)
    (done : c.connect info a = some (ok, client, calls)) (hk : s.holder (.client k) = c.bev)
    (hholder : t.holder = Function.update s.holder (.client k) client.bev)
    (hlost : t.lost = lostByConnect info a ++ s.lost) (hcalls : t.calls = s.calls ++ calls) :
    Accounted t := by
  obtain ⟨-, hnone, rfl, rfl⟩ | ⟨fd, rest, hsocket, rfl, -, hlost', hrest⟩ := connect_cases done
  · rw [hnone] at hlost
    exact hs.keeps (hholder.trans (by rw [hk])) hlost hcalls
  · rw [hlost'] at hlost
    exact hs.acquires (free fd hsocket) (connectFd_brings (by exact hk) hrest) hholder hlost hcalls

theorem Accounted.disConnects {c : Nat} (hs : Accounted s)
    (hholder : t.holder = Function.update s.holder (.client c) none) (hlost : t.lost = s.lost)
    (hcalls : t.calls = s.calls ++ freed (s.clients c).bev) : Accounted t :=
  hs.brings (freed_brings rfl) hholder hlost hcalls

theorem closesocket_getSocket (c : TcpClient) :
    c.getSocket.toList.flatMap TcpClient.closesocket = [] := by
  rw [TcpClient.getSocket]
  cases c.bev <;> rfl

/-- The descriptor is closed by its bufferevent only. -/
theorem handleEvent_brings {c : TcpClient} {fd : Nat} (e : Events) (hk : holder k = some fd)
    (hc : c.bev = some fd) :
    Brings (c.handleEvent fd e).2 holder aside
      (Function.update holder k (c.handleEvent fd e).1.bev) aside := by
  have hsame : Function.update holder k c.bev = holder :=
    Function.update_eq_self_iff.mpr (hc.trans hk.symm)
  rw [TcpClient.handleEvent]
  split
  · rw [closesocket_getSocket, hc]
    exact .cons (.use_held hk) (.drop hk)
  · split
    · dsimp only
      rw [hsame]
      exact .nil
    · rw [hsame]
      exact .nil

theorem Step.accounted (h : Step literal s act t) (hs : Accounted s) : Accounted t := by
  cases h with
  | connect free done => exact hs.connects free done rfl (holder_client rfl rfl rfl rfl) rfl rfl
  | @reconnect c a client calls free done =>
      simp only [TcpClient.reconnect, TcpClient.disConnect, Option.bind_eq_bind,
        Option.bind_eq_some_iff, Option.pure_def, Option.some.injEq, Prod.mk.injEq] at done
      obtain ⟨⟨ok, client', more⟩, hconnect, rfl, rfl⟩ := done
      -- first the old bufferevent is freed, then `connect` goes on from there
      have hholder : State.holder { s with
          clients := Function.update s.clients c { s.clients c with bev := none }
          calls := s.calls ++ freed (s.clients c).bev } =
            Function.update s.holder (.client c) none := holder_client rfl rfl rfl rfl
      have hdropped := hs.disConnects hholder rfl rfl
      refine hdropped.connects (k := c) free hconnect ?_ ?_ rfl ?_
      · rw [hholder, Function.update_self]
      · rw [hholder, Function.update_idem]
        exact holder_client rfl rfl rfl rfl
      · exact (List.append_assoc ..).symm
  | disConnect => exact hs.disConnects (holder_client rfl rfl rfl rfl) rfl rfl
  | @event c fd e live =>
      have hheld : s.holder (.client c) = some fd := live
      exact hs.brings (handleEvent_brings e hheld live) (holder_client rfl rfl rfl rfl) rfl rfl
  | @accept i fd bufferevent enable free new =>
      have hnone : s.holder (.session i) = none := new
      have hinit : Brings (sessionInit fd bufferevent enable).2 s.holder (fd :: s.lost) _ _ :=
        sessionInit_brings bufferevent enable hnone
      have hcallback : Brings (uses fd [.nonblocking]) s.holder (fd :: s.lost) s.holder
          (fd :: s.lost) := .uses List.mem_cons_self
      refine hs.acquires free (hcallback.append hinit) (holder_session rfl rfl rfl) rfl ?_
      simp
  | release live =>
      exact hs.brings (freed_brings (by exact live)) (holder_session rfl rfl rfl) rfl rfl
  | @listen l ip port a ok listener calls free done =>
      have hold : s.holder (.listener l) = s.listeners l := rfl
      obtain ⟨rfl, rfl, hlost⟩ | ⟨fd, rest, hsocket, rfl, hrest⟩ :=
        listen_cases s.lost hold done
      · refine hs.keeps (h := .listener l) (holder_listener rfl rfl rfl) ?_ rfl
        show lostByListen a ++ s.lost = s.lost
        rw [hlost, List.nil_append]
      · exact hs.acquires (free fd hsocket) hrest (holder_listener rfl rfl rfl) rfl rfl

/-- In every run, no descriptor is used or closed that is not open, and every open
descriptor belongs to one bufferevent or listener, or has been lost where one could not
be created. -/
theorem accounted_along {trace : List (Action × State)}
    (hrun : Steps (Step literal) {} trace) : Along Accounted {} trace := by
  have hstart : State.holder {} = fun _ => none := by
    funext h
    cases h <;> rfl
  have hinit : Accounted {} := ⟨_, rfl, by rw [hstart]; exact accounts_empty⟩
  exact hrun.along hinit fun _ _ _ hs hstep => hstep.accounted hs

theorem free_of_replay {calls : Calls} {fd : Nat}
    (h : (replay (fun _ => false) calls).map (· fd) = some false) : Free calls fd := by
  intro table hreplay
  rw [hreplay] at h
  exact Option.some.inj h

/-- A backend goes away, and its descriptor is handed out again. -/
theorem reaches_reused :
    ∃ t : State, Reaches (Step fun _ => none) {} t ∧ (t.clients 0).bev = none ∧
      t.sessions 0 = some 5 ∧ t.lost = [] := by
  have hconnect : Step (fun _ => none) {} (.connect 0
      { type := .unixSocket, ip := "", port := 0, path := [47] }
      ⟨some 5, none, true, true, true, none⟩) _ :=
    .connect (fun fd h => free_of_replay rfl) rfl
  exact ⟨_, .cons hconnect <|
    .cons (Step.event (c := 0) { eof := true } rfl) <|
    .cons (a := .accept 0 5 true true) (.accept true true (free_of_replay rfl) rfl) .nil,
    rfl, rfl, rfl⟩

theorem accounted_reused :
    ∃ t : State, Reaches (Step fun _ => none) {} t ∧ (t.clients 0).bev = none ∧
      t.sessions 0 = some 5 ∧ t.lost = [] ∧ Accounted t := by
  obtain ⟨t, ⟨trace, hrun, rfl⟩, hbev, hsession, hlost⟩ := reaches_reused
  exact ⟨_, ⟨trace, hrun, rfl⟩, hbev, hsession, hlost, (accounted_along hrun).final⟩

end

end Canal.Sockets
