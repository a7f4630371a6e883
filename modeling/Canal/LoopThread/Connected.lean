import Canal.Foundation.Trace
import Canal.LoopThread.Client

/-!
# What `isConnected` says

The dispatcher trusts `isConnected` when it picks a backend. The flag should be
set only while the client has a bufferevent that has reported `CONNECTED`, and
nothing since that ends the connection.

`handleEvent` keeps the flag and the bufferevent together. `disConnect`,
`reconnect` and `connect` drop or replace the bufferevent and leave the flag as
it is, so that it speaks of a bufferevent that is gone.

Bufferevents are numbered by their creation. A client that has one has the last
one, and a bufferevent that has been dropped or replaced is freed and reports
nothing more.
-/

namespace Canal.LoopThread.Connected

open Trace

/-- A `TcpClient` with the number of bufferevents that it has created, and the
events reported so far with the bufferevent they came from. The second is
recorded and influences nothing. -/
structure State extends TcpClient where
  created : Nat := 0
  events : List (Nat × Events) := []

inductive Action where
  | connect (outcome : ConnectOutcome)
  | reconnect (outcome : ConnectOutcome)
  | disConnect
  | event (e : Events)

/-- Bufferevents that `connect` creates; one that it drops again is not counted. -/
def fresh : ConnectOutcome → Nat
  | .started => 1
  | .unreached | .failed => 0

/-- One call or callback. Only a bufferevent that the client has reports events. -/
inductive Step : State → Action → State → Prop where
  | connect {s : State} (outcome : ConnectOutcome) :
      Step s (.connect outcome)
        { toTcpClient := s.toTcpClient.connect outcome
          created := s.created + fresh outcome
          events := s.events }
  | reconnect {s : State} (outcome : ConnectOutcome) :
      Step s (.reconnect outcome)
        { toTcpClient := s.toTcpClient.reconnect outcome
          created := s.created + fresh outcome
          events := s.events }
  | disConnect {s : State} :
      Step s .disConnect
        { toTcpClient := s.toTcpClient.disConnect
          created := s.created
          events := s.events }
  | event {s : State} (e : Events) (live : s.bev = true) :
      Step s (.event e)
        { toTcpClient := s.toTcpClient.handleEvent e
          created := s.created
          events := s.events ++ [(s.created, e)] }

/-- The bufferevent has reported `CONNECTED`, and no failure since. -/
def Up (b : Nat) (events : List (Nat × Events)) : Prop :=
  ∃ before e after, events = before ++ (b, e) :: after ∧ e.connected = true ∧
    e.failed = false ∧ ∀ x ∈ after, x.1 = b → x.2.failed = false

/-- A client that says it is connected has a bufferevent that is. -/
def Truthful (s : State) : Prop :=
  s.isConnected = true → s.bev = true ∧ Up s.created s.events

/-- The operation drops or replaces the bufferevent. -/
def Action.drops : Action → Bool
  | .connect .unreached => false
  | .connect _ => true
  | .reconnect _ => true
  | .disConnect => true
  | .event _ => false

/-- The bufferevent is dropped only while the flag is not set. -/
def Careful (s : State) (a : Action) : Prop := a.drops = true → s.isConnected = false

/-- Only bufferevents that have been created have reported anything. -/
def Numbered (s : State) : Prop := ∀ x ∈ s.events, x.1 ≤ s.created

variable {s t : State} {a : Action}

theorem not_up_of_fresh {b : Nat} {events : List (Nat × Events)} (h : ∀ x ∈ events, x.1 < b) :
    ¬ Up b events := by
  rintro ⟨before, e, after, rfl, -⟩
  have hlt := h (b, e) (by simp)
  simp at hlt

theorem Up.snoc {b : Nat} {events : List (Nat × Events)} {e : Events} (h : Up b events)
    (he : e.failed = false) : Up b (events ++ [(b, e)]) := by
  obtain ⟨before, first, after, rfl, hconnected, hfirst, hafter⟩ := h
  refine ⟨before, first, after ++ [(b, e)], by simp, hconnected, hfirst, ?_⟩
  intro x hx hb
  obtain hmem | hmem := List.mem_append.mp hx
  · exact hafter x hmem hb
  · obtain rfl := List.mem_singleton.mp hmem
    exact he

theorem up_connected {b : Nat} {e : Events} (events : List (Nat × Events))
    (hconnected : e.connected = true) (he : e.failed = false) : Up b (events ++ [(b, e)]) :=
  ⟨events, e, [], rfl, hconnected, he, by simp⟩

theorem Step.numbered (hs : Numbered s) (h : Step s a t) : Numbered t := by
  cases h with
  | connect outcome => exact fun x hx => Nat.le_add_right_of_le (hs x hx)
  | reconnect outcome => exact fun x hx => Nat.le_add_right_of_le (hs x hx)
  | disConnect => exact hs
  | event e live =>
      intro x hx
      obtain hmem | hmem := List.mem_append.mp hx
      · exact hs x hmem
      · obtain rfl := List.mem_singleton.mp hmem
        exact Nat.le_refl _

/-- An operation that keeps the flag, and leaves no bufferevent that is up. -/
theorem truthful_iff_of_drops (hdrops : a.drops = true) (hflag : t.isConnected = s.isConnected)
    (hdown : t.bev = true → ¬ Up t.created t.events) : Truthful t ↔ Careful s a := by
  constructor
  · intro h _
    cases hconnected : s.isConnected with
    | false => rfl
    | true =>
        obtain ⟨hbev, hup⟩ := h (hflag.trans hconnected)
        exact absurd hup (hdown hbev)
  · intro h hconnected
    simp [hflag, h hdrops] at hconnected

/-- A new bufferevent has not reported anything. -/
theorem not_up_succ (hn : Numbered s) : ¬ Up (s.created + 1) s.events :=
  not_up_of_fresh fun x hx => Nat.lt_succ_of_le (hn x hx)

/-- A truthful client stays so exactly if it is careful. -/
theorem Step.truthful_iff (hn : Numbered s) (hs : Truthful s) (h : Step s a t) :
    Truthful t ↔ Careful s a := by
  cases h with
  | connect outcome =>
      cases outcome with
      | unreached => exact iff_of_true hs (by simp [Careful, Action.drops])
      | failed => exact truthful_iff_of_drops rfl rfl nofun
      | started => exact truthful_iff_of_drops rfl rfl fun _ => not_up_succ hn
  | reconnect outcome =>
      cases outcome with
      | unreached => exact truthful_iff_of_drops rfl rfl nofun
      | failed => exact truthful_iff_of_drops rfl rfl nofun
      | started => exact truthful_iff_of_drops rfl rfl fun _ => not_up_succ hn
  | disConnect => exact truthful_iff_of_drops rfl rfl nofun
  | event e live =>
      refine iff_of_true ?_ (by simp [Careful, Action.drops])
      intro hconnected
      cases hfailed : e.failed with
      | true => simp [TcpClient.handleEvent, hfailed] at hconnected
      | false =>
          have hbev : (s.toTcpClient.handleEvent e).bev = true := by
            rw [TcpClient.handleEvent, if_neg (by simp [hfailed])]
            split <;> exact live
          refine ⟨hbev, ?_⟩
          cases hnew : e.connected with
          | true => exact up_connected s.events hnew hfailed
          | false =>
              have hold : s.isConnected = true := by
                simpa [TcpClient.handleEvent, hfailed, hnew] using hconnected
              exact (hs hold).2.snoc hfailed

/-- A client that has connected and is then told to disconnect. -/
theorem connected_after_disConnect :
    ∃ t, Reaches Step {} t ∧ t.isConnected = true ∧ t.bev = false ∧ ¬ Truthful t := by
  have hreach : ∃ t, Reaches Step {} t ∧ t.isConnected = true ∧ t.bev = false :=
    ⟨_, .cons (a := .connect .started) (.connect .started) <|
      .cons (a := .event { connected := true }) (.event { connected := true } rfl) <|
      .cons (a := .disConnect) .disConnect .nil, rfl, rfl⟩
  obtain ⟨t, ht, hconnected, hbev⟩ := hreach
  refine ⟨t, ht, hconnected, hbev, fun h => ?_⟩
  have hlive := (h hconnected).1
  simp [hbev] at hlive

/-- `isConnected` is truthful exactly along the runs in which no operation drops
or replaces a bufferevent while it is set. -/
theorem truthful_along_iff (run : List (Action × State)) (h : Steps Step {} run) :
    Along Truthful {} run ↔ Steps (fun s a _ => Careful s a) {} run := by
  have hnumbered : Along Numbered {} run :=
    h.along (by simp [Numbered]) fun _ _ _ hs hstep => hstep.numbered hs
  apply h.along_iff_under hnumbered (by simp [Truthful])
  exact fun _ _ _ hn hs hstep => hstep.truthful_iff hn hs

/-- A client that connects, fails, and connects again. -/
theorem truthful_after_failure :
    ∃ t, Reaches Step {} t ∧ t.isConnected = true ∧ t.created = 2 ∧ Truthful t := by
  have hreach : ∃ t, Reaches (fun s a t => Step s a t ∧ Careful s a) {} t ∧
      t.isConnected = true ∧ t.created = 2 :=
    ⟨_, .cons (a := .connect .started) ⟨.connect .started, fun _ => rfl⟩ <|
      .cons (a := .event { connected := true }) ⟨.event _ rfl, nofun⟩ <|
      .cons (a := .event { eof := true }) ⟨.event _ rfl, nofun⟩ <|
      .cons (a := .reconnect .started) ⟨.reconnect .started, fun _ => rfl⟩ <|
      .cons (a := .event { connected := true }) ⟨.event _ rfl, nofun⟩ .nil, rfl, rfl⟩
  obtain ⟨t, ⟨run, hrun, rfl⟩, hconnected, hcreated⟩ := hreach
  have hsteps := hrun.mono fun _ _ _ h => h.1
  have hcareful := hrun.mono fun _ _ _ h => h.2
  exact ⟨_, ⟨run, hsteps, rfl⟩, hconnected, hcreated,
    ((truthful_along_iff run hsteps).mpr hcareful).final⟩

end Canal.LoopThread.Connected
