import Canal.Handover.Mutex

/-!
# Refused tasks

A call of `send2loop_thread` that returns false should leave no trace. It pushes
its task before it looks at `_evfd`, though, and a refused task stays in
`_task_queue`. The queue outlives `stop` and a later `init`, so the task is
handled as soon as another caller wakes the loop, and again if its own caller
repeats it.

The hand-over is extended by `init` and by `stop`. `init` sets `_evfd`, then the
client of the eventfd and then its server, and can give up in between; a producer
may call at any time. Without a client the call does not return, and without a
server nobody reads the eventfd. While the loop runs a callback it holds on to
what `init` replaces, so `init` begins with a loop that waits.

The last two fields of the state record what has happened and influence nothing.
-/

namespace Canal.Handover.Refusal

open Trace

/-- Where `init` is: before it has an eventfd, with an eventfd, or with a client. -/
inductive Init where
  | outside
  | opened
  | connected
  deriving DecidableEq

/-- `client` is the descriptor that `_event_client_sptr` has been given, `server`
says whether the loop watches the eventfd. `atLock` is the queue that the last
holder of the mutex has found, and `refused` are the positions at which the tasks
of refused calls have been pushed. -/
structure State (ι χ θ : Type) extends Handover.State ι χ θ where
  init : Init := .outside
  client : Option Nat := none
  server : Bool := false
  atLock : List (TaskMsg χ) := []
  refused : List Nat := []

inductive Action (ι χ : Type) where
  | hand (a : Handover.Action ι χ)
  | stale (p : ι)
  | stop
  | eventfd (fd : Nat)
  | giveUp
  | client
  | server (added : Bool)

variable {ι χ θ : Type}

/-- A call that finds `_evfd` at zero is refused; its task has been pushed last. -/
def State.note (s : State ι χ θ) (a : Handover.Action ι χ) (t : Handover.State ι χ θ) :
    State ι χ θ :=
  { s with
    toState := t
    atLock := match a with
      | .lock _ _ => s.taskQueue
      | _ => s.atLock
    refused := match a with
      | .check _ => if s.evfd = 0 then s.refused ++ [s.pushed.length - 1] else s.refused
      | _ => s.refused }

/-- What an action of the hand-over needs of `init`. -/
def State.Prepared (s : State ι χ θ) : Handover.Action ι χ → Prop
  | .send _ => s.client = some s.evfd
  | .evfcCb => s.server = true
  | _ => True

/-- What `eventfd` returns if it fails, as it is stored in `_evfd`. -/
def failed : Nat := 4294967295

/-- One action. A client with another descriptor than `_evfd` is left over from an
eventfd that has been closed. -/
inductive Step [DecidableEq ι] (run : TaskMsg χ → θ → θ) :
    State ι χ θ → Action ι χ → State ι χ θ → Prop where
  | hand {s : State ι χ θ} {a : Handover.Action ι χ} {t : Handover.State ι χ θ}
      (step : Handover.Step run s.toState a t) (prepared : s.Prepared a) :
      Step run s (.hand a) (s.note a t)
  | stale {s : State ι χ θ} {p : ι} {fd : Nat} (ready : s.producer p = .ready)
      (client : s.client = some fd) (old : fd ≠ s.evfd) :
      Step run s (.stale p)
        { s with producer := Function.update s.producer p (.leaving true) }
  | stop {s : State ι χ θ} : Step run s .stop { s with toState := s.toState.stop }
  | eventfd {s : State ι χ θ} (fd : Nat) (outside : s.init = .outside)
      (waiting : s.loop = .waiting) :
      Step run s (.eventfd fd)
        { s with
          evfd := fd
          counter := .zero
          server := false
          init := if fd = 0 ∨ fd = failed then .outside else .opened }
  | giveUp {s : State ι χ θ} (opened : s.init = .opened) :
      Step run s .giveUp { s with init := .outside }
  | client {s : State ι χ θ} (opened : s.init = .opened) :
      Step run s .client { s with client := some s.evfd, init := .connected }
  | server {s : State ι χ θ} (added : Bool) (connected : s.init = .connected) :
      Step run s (.server added) { s with server := added, init := .outside }

/-- A loop thread that has been constructed. -/
def start (thread : θ) : State ι χ θ := { evfd := 0, thread }

/-- A refused call has left the queue as it was, no refused task has been handled,
and of the calls that repeat a task until it is accepted at most one is handled. -/
structure Untouched (s : State ι χ θ) : Prop where
  queue : ∀ p, s.producer p = .leaving false → s.taskQueue = s.atLock
  inOrder : s.handled = s.pushed.take s.handled.length
  refused : ∀ i ∈ s.refused, s.handled.length ≤ i
  once : ∀ tries : List Nat, (∀ i ∈ tries.dropLast, i ∈ s.refused) →
    (tries.filter fun i => i < s.handled.length).length ≤ 1

/-- No call is refused. -/
def Accepts (s : State ι χ θ) (a : Action ι χ) : Prop :=
  ∀ p, a = .hand (.check p) → s.evfd ≠ 0

variable {run : TaskMsg χ → θ → θ} {s t : State ι χ θ} {a : Action ι χ}

/-! ## What holds in every run -/

/-- What a call finds in the queue when it takes the mutex is in front of its task
until it gives the mutex back. -/
structure Inv (s : State ι χ θ) : Prop where
  exclusive : s.toState.Exclusive
  conserved : s.toState.Conserved
  noBatch : s.loop.hasBatch = false → s.tmpTaskQueue = []
  locked : ∀ p msg, s.producer p = .locked msg → s.taskQueue = s.atLock
  pushed : ∀ p, s.producer p = .pushed → ∃ msg, s.taskQueue = s.atLock ++ [msg]

theorem start_inv (thread : θ) : Inv (start thread : State ι χ θ) where
  exclusive := start_exclusive 0 thread
  conserved := rfl
  noBatch _ := rfl
  locked _ _ h := by cases h
  pushed _ h := by cases h

/-- At most one producer is inside, and none while the loop holds the mutex. -/
theorem outside_of_held (hs : s.toState.Exclusive) {k : Holder ι} {p : ι} (held : s.mtx = some k)
    (hk : k ≠ .producer p) : s.producer p = .outside := by
  refine Classical.byContradiction fun hinside => hk ?_
  have hp := (hs (.producer p)).mp hinside
  exact Option.some.inj (held.symm.trans hp)

theorem outside_of_free (hs : s.toState.Exclusive) (free : s.mtx = none) (p : ι) :
    s.producer p = .outside := by
  apply Classical.byContradiction
  intro hinside
  have hp := (hs (.producer p)).mp hinside
  simp [free] at hp

/-- A step that leaves the queue, and brings no producer into the phases in which it
has found or extended the queue. -/
theorem Inv.keep (hs : Inv s) (exclusive : t.toState.Exclusive) (conserved : t.toState.Conserved)
    (noBatch : t.loop.hasBatch = false → t.tmpTaskQueue = []) (hqueue : t.taskQueue = s.taskQueue)
    (hlock : t.atLock = s.atLock)
    (hproducer : ∀ p, (∀ msg, t.producer p = .locked msg → s.producer p = .locked msg) ∧
      (t.producer p = .pushed → s.producer p = .pushed)) : Inv t where
  exclusive := exclusive
  conserved := conserved
  noBatch := noBatch
  locked p msg h := by rw [hqueue, hlock, hs.locked p msg ((hproducer p).1 msg h)]
  pushed p h := by
    rw [hqueue, hlock]
    exact hs.pushed p ((hproducer p).2 h)

/-- A step that leaves the queue and the producers. -/
theorem Inv.stay (hs : Inv s) (exclusive : t.toState.Exclusive) (conserved : t.toState.Conserved)
    (noBatch : t.loop.hasBatch = false → t.tmpTaskQueue = []) (hqueue : t.taskQueue = s.taskQueue)
    (hlock : t.atLock = s.atLock) (hproducer : t.producer = s.producer) : Inv t := by
  apply hs.keep exclusive conserved noBatch hqueue hlock
  intro p
  rw [hproducer]
  exact ⟨fun _ h => h, fun h => h⟩

variable [DecidableEq ι]

/-- A producer that moves to another phase. -/
theorem producer_update {f : ι → Producer χ} {p : ι} {phase : Producer χ}
    (hlocked : ∀ msg, phase ≠ .locked msg) (hpushed : phase ≠ .pushed) (q : ι) :
    (∀ msg, Function.update f p phase q = .locked msg → f q = .locked msg) ∧
      (Function.update f p phase q = .pushed → f q = .pushed) := by
  by_cases hq : q = p
  · subst hq
    rw [Function.update_self]
    exact ⟨fun msg h => absurd h (hlocked msg), fun h => absurd h hpushed⟩
  · rw [Function.update_of_ne hq]
    exact ⟨fun _ h => h, fun h => h⟩

theorem Inv.hand {a : Handover.Action ι χ} {t : Handover.State ι χ θ} (hs : Inv s)
    (h : Handover.Step run s.toState a t) : Inv (s.note a t) := by
  have hexclusive := h.exclusive hs.exclusive
  have hconserved := h.conserved hs.conserved hs.noBatch
  have hnoBatch := h.noBatch hs.noBatch
  cases h with
  | @lock p msg outside free =>
      refine ⟨hexclusive, hconserved, hnoBatch, fun _ _ _ => rfl, fun q hq => ?_⟩
      have hq' : Function.update s.producer p (.locked msg) q = .pushed := hq
      by_cases hqp : q = p
      · simp [hqp] at hq'
      · simp [hqp, outside_of_free hs.exclusive free q] at hq'
  | @push p msg locked =>
      have held := (hs.exclusive (.producer p)).mp (by simp [State.Inside, locked])
      refine ⟨hexclusive, hconserved, hnoBatch, fun q msg' hq => ?_, fun q hq => ⟨msg, ?_⟩⟩
      · have hq' : Function.update s.producer p .pushed q = .locked msg' := hq
        by_cases hqp : q = p
        · simp [hqp] at hq'
        · have hout := outside_of_held hs.exclusive held (p := q) (by simpa using Ne.symm hqp)
          simp [hqp, hout] at hq'
      · exact congrArg (· ++ [msg]) (hs.locked p msg locked)
  | check pushed =>
      exact hs.keep hexclusive hconserved hnoBatch rfl rfl
        (producer_update (by intro; split <;> simp) (by split <;> simp))
  | send ready =>
      obtain ⟨counter, -, heq⟩ := s.toState.send_eq
      have hproducer : s.toState.send.producer = s.producer := by rw [heq]
      refine hs.keep hexclusive hconserved hnoBatch (show s.toState.send.taskQueue = _ by rw [heq])
        rfl ?_
      rw [← hproducer]
      exact producer_update (by simp) (by simp)
  | unlock leaving =>
      exact hs.keep hexclusive hconserved hnoBatch rfl rfl (producer_update (by simp) (by simp))
  | evfcCb waiting =>
      have heq : s.toState.evfcCb.taskQueue = s.taskQueue ∧
          s.toState.evfcCb.producer = s.producer := by
        obtain ⟨-, -, heq⟩ | ⟨-, heq⟩ := s.toState.evfcCb_cases <;> rw [heq] <;> exact ⟨rfl, rfl⟩
      exact hs.stay hexclusive hconserved hnoBatch heq.1 rfl heq.2
  | acquire woken free => exact hs.stay hexclusive hconserved hnoBatch rfl rfl rfl
  | swap locked =>
      have held := (hs.exclusive .loop).mp (by simp [State.Inside, locked, Loop.holds])
      have hout : ∀ q, s.producer q = .outside := fun q =>
        outside_of_held hs.exclusive held (by simp)
      refine ⟨hexclusive, hconserved, hnoBatch, fun q msg hq => ?_, fun q hq => ?_⟩
      · have hq' : s.producer q = .locked msg := hq
        simp [hout q] at hq'
      · have hq' : s.producer q = .pushed := hq
        simp [hout q] at hq'
  | release swapped => exact hs.stay hexclusive hconserved hnoBatch rfl rfl rfl
  | @task msg rest handling front =>
      obtain ⟨evfd, thread, -, heq⟩ := s.toState.processTask_eq run msg
      exact hs.stay hexclusive hconserved hnoBatch
        (show (s.toState.processTask run msg).taskQueue = _ by rw [heq]) rfl
        (show (s.toState.processTask run msg).producer = _ by rw [heq])
  | finish handling empty => exact hs.stay hexclusive hconserved hnoBatch rfl rfl rfl

theorem Step.inv (hs : Inv s) (h : Step run s a t) : Inv t := by
  cases h with
  | hand step prepared => exact hs.hand step
  | @stale p fd ready client old =>
      have hexclusive := hs.exclusive.keep (t := { s.toState with
        producer := Function.update s.producer p (.leaving true) }) rfl
        (Handover.State.inside_advance (by simp [ready]) (by simp) rfl rfl)
      exact hs.keep hexclusive hs.conserved hs.noBatch rfl rfl
        (producer_update (by simp) (by simp))
  | stop => exact hs.stay hs.exclusive hs.conserved hs.noBatch rfl rfl rfl
  | eventfd fd outside waiting =>
      exact hs.stay hs.exclusive hs.conserved hs.noBatch rfl rfl rfl
  | giveUp opened => exact hs.stay hs.exclusive hs.conserved hs.noBatch rfl rfl rfl
  | client opened => exact hs.stay hs.exclusive hs.conserved hs.noBatch rfl rfl rfl
  | server added connected => exact hs.stay hs.exclusive hs.conserved hs.noBatch rfl rfl rfl

/-! ## Runs in which no call is refused -/

/-- No call has been refused so far. -/
structure Clean (s : State ι χ θ) : Prop extends Inv s where
  refused : s.refused = []
  accepted : ∀ p, s.producer p ≠ .leaving false

omit [DecidableEq ι] in
theorem Clean.untouched (h : Clean s) : Untouched s where
  queue p hp := absurd hp (h.accepted p)
  inOrder := by
    have hcons : s.handled ++ s.tmpTaskQueue ++ s.taskQueue = s.pushed := h.conserved
    rw [← hcons, List.append_assoc, List.take_left]
  refused i hi := by simp [h.refused] at hi
  once tries htries := by
    have hnil : tries.dropLast = [] := by
      apply List.eq_nil_iff_forall_not_mem.mpr
      intro i hi
      simpa [h.refused] using htries i hi
    have hlen := congrArg List.length hnil
    have hle := List.length_filter_le (fun i => decide (i < s.handled.length)) tries
    rw [List.length_dropLast, List.length_nil] at hlen
    omega

/-- A producer is told false only when it finds the eventfd closed. -/
theorem refused_of_leaving {s t : Handover.State ι χ θ} {a : Handover.Action ι χ}
    (h : Handover.Step run s a t) {q : ι} (hq : t.producer q = .leaving false) :
    s.producer q = .leaving false ∨ (a = .check q ∧ s.evfd = 0) := by
  -- a producer that has moved to another phase is not `q`
  have hupdate : ∀ {p : ι} {phase : Producer χ}, phase ≠ .leaving false →
      Function.update s.producer p phase q = .leaving false →
        s.producer q = .leaving false := by
    intro p phase hphase hq
    by_cases hqp : q = p
    · subst hqp
      rw [Function.update_self] at hq
      exact absurd hq hphase
    · rwa [Function.update_of_ne hqp] at hq
  cases h with
  | lock msg outside free => exact Or.inl (hupdate (by simp) hq)
  | push locked => exact Or.inl (hupdate (by simp) hq)
  | @check p pushed =>
      by_cases hclosed : s.evfd = 0
      · by_cases hqp : q = p
        · exact Or.inr ⟨by rw [hqp], hclosed⟩
        · have hq' : Function.update s.producer p _ q = .leaving false := hq
          rw [Function.update_of_ne hqp] at hq'
          exact Or.inl hq'
      · exact Or.inl (hupdate (by simp [hclosed]) hq)
  | send ready =>
      obtain ⟨counter, -, heq⟩ := s.send_eq
      rw [heq] at hq
      exact Or.inl (hupdate (by simp) hq)
  | unlock leaving => exact Or.inl (hupdate (by simp) hq)
  | evfcCb waiting =>
      obtain ⟨-, -, heq⟩ | ⟨-, heq⟩ := s.evfcCb_cases <;> rw [heq] at hq <;> exact Or.inl hq
  | @task msg rest handling front =>
      obtain ⟨evfd, thread, -, heq⟩ := s.processTask_eq run msg
      rw [heq] at hq
      exact Or.inl hq
  | _ => exact Or.inl hq

theorem Step.clean (hs : Clean s) (h : Step run s a t) (haccepts : Accepts s a) : Clean t := by
  refine ⟨Step.inv hs.toInv h, ?_, ?_⟩
  · cases h with
    | @hand a t step prepared =>
        cases a with
        | check p => exact (if_neg (haccepts p rfl)).trans hs.refused
        | _ => exact hs.refused
    | _ => exact hs.refused
  · intro q hq
    cases h with
    | @hand a t step prepared =>
        obtain hleaving | ⟨rfl, hclosed⟩ := refused_of_leaving step hq
        · exact hs.accepted q hleaving
        · exact haccepts q rfl hclosed
    | @stale p fd ready client old =>
        have hq' : Function.update s.producer p (.leaving true) q = .leaving false := hq
        by_cases hqp : q = p
        · simp [hqp] at hq'
        · rw [Function.update_of_ne hqp] at hq'
          exact hs.accepted q hq'
    | _ => exact hs.accepted q hq

/-- A refused call leaves its task behind. -/
theorem Step.accepts (hs : Inv s) (h : Step run s a t) (ht : Untouched t) : Accepts s a := by
  rintro p rfl hclosed
  cases h with
  | hand step prepared =>
      cases step with
      | check pushed =>
          obtain ⟨msg, hqueue⟩ := hs.pushed p pushed
          have hsame := ht.queue p (by simp [State.note, hclosed])
          have hlock : s.atLock ++ [msg] = s.atLock := hqueue.symm.trans hsame
          simp at hlock

/-- A task that has been refused before `init`. -/
def refusedTask (producer : Unit → Producer Unit) : State Unit Unit Nat :=
  { evfd := 0
    thread := 0
    taskQueue := [⟨.delSession, .socket 5⟩]
    pushed := [⟨.delSession, .socket 5⟩]
    producer
    refused := [0] }

/-- The task has been repeated after `init`, and the loop has taken both. -/
def repeatedTask (producer : Unit → Producer Unit) : State Unit Unit Nat :=
  { evfd := 3
    thread := 0
    tmpTaskQueue := [⟨.delSession, .socket 5⟩, ⟨.delSession, .socket 5⟩]
    pushed := [⟨.delSession, .socket 5⟩, ⟨.delSession, .socket 5⟩]
    producer
    loop := .handling
    client := some 3
    server := true
    atLock := [⟨.delSession, .socket 5⟩]
    refused := [0] }

theorem refusedTask_reached :
    ∃ producer, producer () = .outside ∧
      Reaches (Step fun _ n => n + 1) (start 0) (refusedTask producer) :=
  ⟨_, rfl, .cons (a := .hand (.lock () ⟨.delSession, .socket 5⟩))
      (.hand (.lock _ rfl rfl) trivial) <|
    .cons (a := .hand (.push ())) (.hand (.push rfl) trivial) <|
    .cons (a := .hand (.check ())) (.hand (.check rfl) trivial) <|
    .cons (a := .hand (.unlock ())) (.hand (.unlock rfl) trivial) .nil⟩

theorem repeatedTask_reached {f : Unit → Producer Unit} (houtside : f () = .outside) :
    ∃ producer, Reaches (Step fun _ n => n + 1) (refusedTask f) (repeatedTask producer) :=
  ⟨_, .cons (a := .eventfd 3) (.eventfd 3 rfl rfl) <|
    .cons (a := .client) (.client rfl) <|
    .cons (a := .server true) (.server true rfl) <|
    .cons (a := .hand (.lock () ⟨.delSession, .socket 5⟩))
      (.hand (.lock _ houtside rfl) trivial) <|
    .cons (a := .hand (.push ())) (.hand (.push rfl) trivial) <|
    .cons (a := .hand (.check ())) (.hand (.check rfl) trivial) <|
    .cons (a := .hand (.send ())) (.hand (.send rfl) (by rfl)) <|
    .cons (a := .hand (.unlock ())) (.hand (.unlock rfl) trivial) <|
    .cons (a := .hand .evfcCb) (.hand (.evfcCb rfl) (by rfl)) <|
    .cons (a := .hand .acquire) (.hand (.acquire rfl rfl) trivial) <|
    .cons (a := .hand .swap) (.hand (.swap rfl) trivial) <|
    .cons (a := .hand .release) (.hand (.release rfl) trivial) .nil⟩

/-- A task that is refused before `init` and repeated after it is handled twice. -/
theorem refused_task_handled :
    ∃ t : State Unit Unit Nat, Reaches (Step fun _ n => n + 1) (start 0) t ∧
      t.refused = [0] ∧ t.handled = [⟨.delSession, .socket 5⟩, ⟨.delSession, .socket 5⟩] ∧
        ¬ Untouched t := by
  obtain ⟨f, houtside, hbefore⟩ := refusedTask_reached
  obtain ⟨producer, hrepeated⟩ := repeatedTask_reached houtside
  have hafter : ∃ t : State Unit Unit Nat,
      Reaches (Step fun _ n => n + 1) (repeatedTask producer) t ∧
        t.refused = [0] ∧ t.handled = [⟨.delSession, .socket 5⟩, ⟨.delSession, .socket 5⟩] :=
    ⟨_, .cons (a := .hand .task) (.hand (.task rfl rfl) trivial) <|
      .cons (a := .hand .task) (.hand (.task rfl rfl) trivial) .nil, rfl, rfl⟩
  obtain ⟨t, ht, hrefused, hhandled⟩ := hafter
  refine ⟨t, (hbefore.trans hrepeated).trans ht, hrefused, hhandled, fun h => ?_⟩
  have hle := h.refused 0 (by simp [hrefused])
  simp [hhandled] at hle

/-- Refused tasks leave no trace exactly along the runs in which none is refused. -/
theorem untouched_along_iff (thread : θ) (trace : List (Action ι χ × State ι χ θ))
    (h : Steps (Step run) (start thread) trace) :
    Along Untouched (start thread) trace ↔
      Steps (fun s a _ => Accepts s a) (start thread) trace := by
  have hinv : Along Inv (start thread) trace :=
    h.along (start_inv thread) fun _ _ _ hs hstep => hstep.inv hs
  have hclean : Clean (start thread : State ι χ θ) :=
    ⟨start_inv thread, rfl, fun p hp => by cases hp⟩
  apply h.along_iff_stronger hinv hclean
  · exact fun s a t hs hstep haccepts => hstep.clean hs haccepts
  · exact fun s hs => hs.untouched
  · exact fun s a t hs hstep ht => hstep.accepts hs ht

/-- A call that is accepted after `init`. -/
theorem untouched_after_init :
    ∃ t : State Unit Unit Nat, Reaches (Step fun _ n => n + 1) (start 0) t ∧
      t.producer () = .leaving true ∧ Untouched t := by
  have hreach : ∃ t : State Unit Unit Nat,
      Reaches (fun s a t => Step (fun _ n => n + 1) s a t ∧ Accepts s a) (start 0) t ∧
        t.producer () = .leaving true :=
    ⟨_, .cons (a := .eventfd 3) ⟨.eventfd 3 rfl rfl, nofun⟩ <|
      .cons (a := .client) ⟨.client rfl, nofun⟩ <|
      .cons (a := .server true) ⟨.server true rfl, nofun⟩ <|
      .cons (a := .hand (.lock () ⟨.delSession, .socket 5⟩))
        ⟨.hand (.lock _ rfl rfl) trivial, nofun⟩ <|
      .cons (a := .hand (.push ())) ⟨.hand (.push rfl) trivial, nofun⟩ <|
      .cons (a := .hand (.check ())) ⟨.hand (.check rfl) trivial, fun _ _ => by decide⟩ <|
      .cons (a := .hand (.send ())) ⟨.hand (.send rfl) (by rfl), nofun⟩ .nil, rfl⟩
  obtain ⟨t, ⟨trace, hrun, rfl⟩, hleaving⟩ := hreach
  have hsteps := hrun.mono fun _ _ _ h => h.1
  have haccepts := hrun.mono fun _ _ _ h => h.2
  have huntouched := (untouched_along_iff 0 trace hsteps).mpr haccepts
  exact ⟨_, ⟨trace, hsteps, rfl⟩, hleaving, huntouched.final⟩

end Canal.Handover.Refusal
