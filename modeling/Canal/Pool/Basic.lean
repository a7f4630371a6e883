import Canal.Handover.Refusal

/-!
# The pool of loop threads

`loop_thread_pool` owns `_loop_num` loop threads. `init` starts a thread for each
and polls it until its loop runs; `send_to_all` hands a task to every loop thread,
`get_loop_thread` picks one of them; `stop` sends `EXIT_LOOP` to all and joins the
threads.

Any number of threads are interleaved: the one that owns the pool, the loop threads
on their way through `loop_thread::init` and then in their loops, and other callers
of `send2loop_thread`. What goes on at the queue of a loop thread are the steps of
the hand-over. A loop thread is made, and its loop started, once.

`status` returns a number that can be read from a `Loop` at any time; here it follows
from how far the thread has got.
-/

namespace Canal.Pool

open Handover Trace

/-- Who calls `send2loop_thread`: the thread that owns the pool, or another one. -/
inductive Caller (ι : Type) where
  | main
  | other (p : ι)
  deriving DecidableEq

/-- `Loop::_status` -/
inductive Status where
  | init
  | running
  | finished
  deriving DecidableEq

/-- How far a loop thread has got: it has been made, it has a `Loop`, an eventfd, a
client and a server of the eventfd, its loop runs, and its loop has ended. `failed`:
`init` has returned false. -/
inductive Phase where
  | absent
  | created
  | looped
  | opened
  | connected
  | served
  | running
  | finished
  | failed
  deriving DecidableEq

namespace Phase

/-- `get_loop()->status()`, if there is a loop. -/
def status : Phase → Option Status
  | .absent | .created => none
  | .looped | .opened | .connected | .served | .failed => some .init
  | .running => some .running
  | .finished => some .finished

/-- The loop has been started. -/
def started : Phase → Bool
  | .running | .finished => true
  | _ => false

/-- `_event_client_sptr` has been set. -/
def hasClient : Phase → Bool
  | .connected | .served | .running | .finished => true
  | _ => false

/-- The function of the thread has returned. -/
def returned : Phase → Bool
  | .finished | .failed => true
  | _ => false

end Phase

/-- A loop thread. `loopexit` is set by `Loop::stop`, and `origins` records who has
pushed the tasks. -/
structure Member (ι χ θ : Type) extends Handover.State (Caller ι) χ θ where
  phase : Phase := .absent
  loopexit : Bool := false
  origins : List (Caller ι) := []

namespace Member

inductive Action (ι χ : Type) where
  | construct
  | loop
  | eventfd (fd : Nat)
  | client
  | server (added : Bool)
  | run
  | hand (a : Handover.Action (Caller ι) χ)
  | exit

variable {ι χ θ : Type}

/-- An action at the queue. Where it closes the eventfd, `loop_thread::stop` calls
`Loop::stop` as well. -/
def note (s : Member ι χ θ) (a : Handover.Action (Caller ι) χ)
    (t : Handover.State (Caller ι) χ θ) : Member ι χ θ :=
  { s with
    toState := t
    loopexit := s.loopexit || (s.evfd ≠ 0 && t.evfd = 0)
    origins := match a with
      | .push p => s.origins ++ [p]
      | _ => s.origins }

/-- An action that pushes nothing and leaves the eventfd. -/
theorem note_eq (s : Member ι χ θ) {a : Handover.Action (Caller ι) χ}
    {t : Handover.State (Caller ι) χ θ} (ha : ∀ p, a ≠ .push p) (hevfd : t.evfd = s.evfd) :
    s.note a t = { s with toState := t } := by
  have hexit : (s.evfd ≠ 0 && s.evfd = 0) = false := by
    by_cases hzero : s.evfd = 0 <;> simp [hzero]
  cases a with
  | push p => exact absurd rfl (ha p)
  | _ => simp only [note, hevfd, hexit, Bool.or_false]

/-- What an action at the queue needs of the thread. The loop dispatches while it
runs; a caller follows `_event_client_sptr`; and other callers get to know a loop
thread when its loop runs. -/
def Prepared (s : Member ι χ θ) : Handover.Action (Caller ι) χ → Prop
  | .lock (.other _) _ => s.phase.started = true
  | .send _ => s.phase.hasClient = true
  | .evfcCb | .acquire | .swap | .release | .task | .finish => s.phase = .running
  | _ => True

/-- One action of a loop thread, or at its queue. The loop ends between two callbacks,
once `event_base_loopexit` has been called. -/
inductive Step [DecidableEq ι] (run : TaskMsg χ → θ → θ) :
    Member ι χ θ → Action ι χ → Member ι χ θ → Prop where
  | construct {s : Member ι χ θ} (absent : s.phase = .absent) :
      Step run s .construct { s with phase := .created }
  | loop {s : Member ι χ θ} (created : s.phase = .created) :
      Step run s .loop { s with phase := .looped }
  | eventfd {s : Member ι χ θ} (fd : Nat) (looped : s.phase = .looped) :
      Step run s (.eventfd fd)
        { s with
          evfd := fd
          counter := .zero
          phase := if fd = 0 ∨ fd = Refusal.failed then .failed else .opened }
  | client {s : Member ι χ θ} (opened : s.phase = .opened) :
      Step run s .client { s with phase := .connected }
  | server {s : Member ι χ θ} (added : Bool) (connected : s.phase = .connected) :
      Step run s (.server added) { s with phase := if added then .served else .failed }
  | run {s : Member ι χ θ} (served : s.phase = .served) :
      Step run s .run { s with phase := .running }
  | hand {s : Member ι χ θ} {a : Handover.Action (Caller ι) χ} {t : Handover.State (Caller ι) χ θ}
      (step : Handover.Step run s.toState a t) (prepared : s.Prepared a) :
      Step run s (.hand a) (s.note a t)
  | exit {s : Member ι χ θ} (running : s.phase = .running) (waiting : s.loop = .waiting)
      (exiting : s.loopexit = true) :
      Step run s .exit { s with phase := .finished }

end Member

/-- Where the thread is that owns the pool: in the two loops of `init`, between two
calls, in `send_to_all`, in `send2loop_thread` on one loop thread, and in the two
loops of `stop`. -/
inductive Main (χ : Type) where
  | init (i : Nat)
  | poll (i : Nat)
  | idle
  | sendToAll (msg : TaskMsg χ) (i : Nat)
  | send (msg : TaskMsg χ) (i : Nat)
  | stop (i : Nat)
  | join (i : Nat)
  | stopped

/-- The task that `stop` sends. -/
def exitLoop (χ : Type) : TaskMsg χ := ⟨.exitLoop, .other⟩

namespace Main

variable {χ : Type}

/-- The call of `send2loop_thread` that is made, or is to be made next. -/
def call : Main χ → Option (Nat × TaskMsg χ)
  | .sendToAll msg i => some (i, msg)
  | .send msg i => some (i, msg)
  | .stop i => some (i, exitLoop χ)
  | _ => none

/-- Where the thread goes when the call returns. -/
def next : Main χ → Main χ
  | .sendToAll msg i => .sendToAll msg (i + 1)
  | .send _ _ => .idle
  | .stop i => .stop (i + 1)
  | m => m

/-- Where the thread goes behind a loop over `n` loop threads. -/
def leave (n : Nat) : Main χ → Option (Main χ)
  | .init i => if i = n then some (.poll 0) else none
  | .poll i => if i = n then some .idle else none
  | .sendToAll _ i => if i = n then some .idle else none
  | .stop i => if i = n then some (.join 0) else none
  | .join i => if i = n then some .stopped else none
  | _ => none

end Main

/-- A task for one loop thread, or for all. -/
structure Request (χ : Type) where
  target : Option Nat
  msg : TaskMsg χ

/-- `log` records what the owner has asked for. -/
structure State (n : Nat) (ι χ θ : Type) where
  members : Fin n → Member ι χ θ
  main : Main χ := .init 0
  selectIndex : UInt32 := 0
  log : List (Request χ) := []

inductive Action (n : Nat) (ι χ : Type) where
  | member (i : Fin n) (a : Member.Action ι χ)
  | poll
  | leave
  | sendToAll (msg : TaskMsg χ)
  | getLoopThread (msg : TaskMsg χ)
  | stop
  | join

section

variable {n : Nat} {ι χ θ : Type}

/-- `get_loop_thread`: the new value of `_select_index`, and the loop thread. A
remainder by zero is not defined. -/
def getLoopThread (n : Nat) (selectIndex : UInt32) : UInt32 × Nat :=
  (selectIndex + 1, (selectIndex + 1).toNat % n)

/-- The task that a step brings into the pool, and who sends it. -/
def Action.sends : Action n ι χ → Option (Caller ι × TaskMsg χ)
  | .member _ (.hand (.lock (.other p) msg)) => some (.other p, msg)
  | .sendToAll msg | .getLoopThread msg => some (.main, msg)
  | .stop => some (.main, exitLoop χ)
  | _ => none

/-- A step of one loop thread. -/
def State.update (s : State n ι χ θ) (i : Fin n) (t : Member ι χ θ) : State n ι χ θ :=
  { s with members := Function.update s.members i t }

theorem members_update (s : State n ι χ θ) (i : Fin n) (t : Member ι χ θ) :
    (s.update i t).members i = t := by
  simp [State.update]

theorem members_update_of_ne (s : State n ι χ θ) {i j : Fin n} (t : Member ι χ θ) (h : j ≠ i) :
    (s.update i t).members j = s.members j := by
  simp [State.update, h]

/-- The owner makes the action, or another thread. -/
def byMain : Member.Action ι χ → Bool
  | .construct => true
  | .hand (.lock .main _) | .hand (.push .main) | .hand (.check .main) | .hand (.send .main)
  | .hand (.unlock .main) => true
  | _ => false

/-- The owner goes on when its call returns. -/
def Main.after (m : Main χ) : Member.Action ι χ → Main χ
  | .hand (.unlock .main) => m.next
  | _ => m

theorem Main.after_of_ne {m : Main χ} {b : Handover.Action (Caller ι) χ} (h : b ≠ .unlock .main) :
    m.after (.hand b) = m := by
  unfold Main.after
  split
  · rename_i heq
    exact absurd (Member.Action.hand.inj heq) h
  · rfl

/-- One action of the pool. -/
inductive Step [DecidableEq ι] (run : TaskMsg χ → θ → θ) :
    State n ι χ θ → Action n ι χ → State n ι χ θ → Prop where
  | init {s : State n ι χ θ} {i : Fin n} {t : Member ι χ θ} (at_ : s.main = .init i)
      (step : Member.Step run (s.members i) .construct t) :
      Step run s (.member i .construct) { s.update i t with main := .init (i + 1) }
  | member {s : State n ι χ θ} {i : Fin n} {a : Member.Action ι χ} {t : Member ι χ θ}
      (other : byMain a = false) (step : Member.Step run (s.members i) a t) :
      Step run s (.member i a) (s.update i t)
  | call {s : State n ι χ θ} {i : Fin n} {msg : TaskMsg χ} {a : Handover.Action (Caller ι) χ}
      {t : Member ι χ θ} (calls : s.main.call = some (i.val, msg))
      (own : byMain (.hand a : Member.Action ι χ) = true)
      (sent : ∀ p m, a = .lock p m → m = msg)
      (step : Member.Step run (s.members i) (.hand a) t) :
      Step run s (.member i (.hand a)) { s.update i t with main := s.main.after (.hand a) }
  | poll {s : State n ι χ θ} {i : Fin n} (at_ : s.main = .poll i)
      (running : (s.members i).phase.status = some .running) :
      Step run s .poll { s with main := .poll (i + 1) }
  | leave {s : State n ι χ θ} {m : Main χ} (behind : s.main.leave n = some m) :
      Step run s .leave { s with main := m }
  | sendToAll {s : State n ι χ θ} (msg : TaskMsg χ) (idle : s.main = .idle) :
      Step run s (.sendToAll msg)
        { s with
          main := .sendToAll msg 0
          log := s.log ++ [⟨none, msg⟩] }
  | getLoopThread {s : State n ι χ θ} (msg : TaskMsg χ) (idle : s.main = .idle) (pos : 0 < n) :
      Step run s (.getLoopThread msg)
        { s with
          main := .send msg (getLoopThread n s.selectIndex).2
          selectIndex := (getLoopThread n s.selectIndex).1
          log := s.log ++ [⟨some (getLoopThread n s.selectIndex).2, msg⟩] }
  | stop {s : State n ι χ θ} (idle : s.main = .idle) :
      Step run s .stop
        { s with
          main := .stop 0
          log := s.log ++ [⟨none, exitLoop χ⟩] }
  | join {s : State n ι χ θ} {i : Fin n} (at_ : s.main = .join i)
      (returned : (s.members i).phase.returned = true) :
      Step run s .join { s with main := .join (i + 1) }

/-- A pool that has been constructed; `threads` are what the loop threads start from. -/
def start (threads : Fin n → θ) : State n ι χ θ :=
  { members := fun i => { evfd := 0, thread := threads i } }

end

end Canal.Pool
