import Canal.Foundation.Trace
import Mathlib.Algebra.Group.Nat.Defs
import Mathlib.Logic.Function.Basic

/-!
# Handing tasks to a loop thread

Any number of producers call `send2loop_thread`, while the loop reads its eventfd
and processes what has been queued. The functions are cut where another thread
can come in between: one action is what a thread does to the mutex, to
`_task_queue`, to `_evfd` or to the eventfd in one go.

What the tasks do to the rest of the loop thread is a parameter, since no step
of the hand-over depends on it. Of the switch in `process_msg` we keep which
tasks run, which fail to be cast, and that `EXIT_LOOP` stops the loop.

The last two fields of the state record what has happened and influence nothing.
-/

namespace Canal.Handover

/-- The value at which an eventfd refuses to be incremented. -/
def saturated : Nat := 2 ^ 64 - 2

/-- The kernel's counter behind an eventfd. -/
structure EventFd where
  value : Nat
  bounded : value ≤ saturated

namespace EventFd

/-- `eventfd(0, EFD_NONBLOCK | EFD_CLOEXEC)` -/
def zero : EventFd := ⟨0, Nat.zero_le _⟩

/-- `write` of the value one, and whether it succeeds. -/
def write (e : EventFd) : Bool × EventFd :=
  if h : e.value < saturated then (true, ⟨e.value + 1, h⟩) else (false, e)

/-- `read` resets the counter. It fails on a counter that is zero. -/
def read (e : EventFd) : Option Nat × EventFd :=
  if e.value = 0 then (none, e) else (some e.value, zero)

/-- A write leaves the counter positive even when it fails. -/
theorem write_pos (e : EventFd) : 0 < e.write.2.value := by
  unfold write
  split
  · exact Nat.succ_pos _
  · rename_i h
    have : 0 < saturated := by decide
    show 0 < e.value
    omega

end EventFd

/-- `TASK_MSG_TYPE` -/
inductive TaskMsgType where
  | newSession
  | delSession
  | newListener
  | delListener
  | exitLoop
  | addConn
  | delConn
  | taskMsgTypeMax
  deriving DecidableEq

/-- The contents of a `TASK_ANY`; `χ` stands for `CONN_INFO`. -/
inductive TaskBody (χ : Type) where
  | socket (fd : Int)
  | connInfo (conn : χ)
  | other
  deriving DecidableEq

/-- `TASK_MSG` -/
structure TaskMsg (χ : Type) where
  type : TaskMsgType
  body : TaskBody χ
  deriving DecidableEq

/-- Whether the case of the task's type casts the body without an exception. -/
def TaskMsg.casts {χ : Type} (msg : TaskMsg χ) : Bool :=
  match msg.type, msg.body with
  | .newSession, .socket _ => true
  | .delSession, .socket _ => true
  | .newListener, .connInfo _ => true
  | .addConn, .connInfo _ => true
  | _, _ => false

/-- Where a producer is in `send2loop_thread`. -/
inductive Producer (χ : Type) where
  | outside
  | locked (msg : TaskMsg χ)
  | pushed
  | ready
  | leaving (result : Bool)

/-- Where the loop is: in `event_base_dispatch`, in `evfc_cb` behind the read, or
in `process_msg` with the mutex, behind the swap, or in the `while` loop. -/
inductive Loop where
  | waiting
  | woken
  | locked
  | swapped
  | handling
  deriving DecidableEq

/-- The holder of the mutex. -/
inductive Holder (ι : Type) where
  | producer (p : ι)
  | loop

structure State (ι χ θ : Type) where
  evfd : Nat
  counter : EventFd := .zero
  mtx : Option (Holder ι) := none
  taskQueue : List (TaskMsg χ) := []
  tmpTaskQueue : List (TaskMsg χ) := []
  producer : ι → Producer χ := fun _ => .outside
  loop : Loop := .waiting
  thread : θ
  pushed : List (TaskMsg χ) := []
  handled : List (TaskMsg χ) := []

inductive Action (ι χ : Type) where
  | lock (p : ι) (msg : TaskMsg χ)
  | push (p : ι)
  | check (p : ι)
  | send (p : ι)
  | unlock (p : ι)
  | evfcCb
  | acquire
  | swap
  | release
  | task
  | finish

/-- The thread that takes the action. -/
def Action.thread {ι χ : Type} : Action ι χ → Holder ι
  | .lock p _ | .push p | .check p | .send p | .unlock p => .producer p
  | .evfcCb | .acquire | .swap | .release | .task | .finish => .loop

namespace State

variable {ι χ θ : Type}

/-- `loop_thread::stop`. The eventfd is closed; it is shut for good. -/
def stop (s : State ι χ θ) : State ι χ θ := { s with evfd := 0 }

/-- `EventFdClient::send`; nothing is written to a descriptor that is closed. -/
def send (s : State ι χ θ) : State ι χ θ :=
  if s.evfd = 0 then s else { s with counter := s.counter.write.2 }

/-- `evfc_cb` up to the call of `process_msg`, which starts with an empty batch. -/
def evfcCb (s : State ι χ θ) : State ι χ θ :=
  if s.evfd = 0 then
    s
  else
    match s.counter.read with
    | (none, _) => s
    | (some _, counter) => { s with counter, tmpTaskQueue := [], loop := .woken }

/-- What the `switch` of `process_msg` does; `run` is the effect on the rest of
the thread. -/
def switch (run : TaskMsg χ → θ → θ) (s : State ι χ θ) (msg : TaskMsg χ) : State ι χ θ :=
  match msg.type with
  | .exitLoop => s.stop
  | _ => if msg.casts then { s with thread := run msg s.thread } else s

/-- One turn of the `while` loop. The `catch` clauses and the unsupported
connection pop the front before they `continue`, all others pop it at the end. -/
def processTask (run : TaskMsg χ → θ → θ) (s : State ι χ θ) (msg : TaskMsg χ) : State ι χ θ :=
  let s := s.switch run msg
  { s with
    tmpTaskQueue := s.tmpTaskQueue.tail
    handled := s.handled ++ [msg] }

/-- Sending touches only the counter, and leaves it positive while the eventfd is
open. -/
theorem send_eq (s : State ι χ θ) :
    ∃ counter, (s.evfd ≠ 0 → 0 < counter.value) ∧ s.send = { s with counter } := by
  by_cases hopen : s.evfd = 0
  · exact ⟨s.counter, fun h => absurd hopen h, if_pos hopen⟩
  · exact ⟨s.counter.write.2, fun _ => s.counter.write_pos, if_neg hopen⟩

/-- The callback goes on to `process_msg` if the counter is positive, and does
nothing otherwise. -/
theorem evfcCb_cases (s : State ι χ θ) :
    (s.evfd ≠ 0 ∧ 0 < s.counter.value ∧
      s.evfcCb = { s with counter := .zero, tmpTaskQueue := [], loop := .woken }) ∨
    ((s.evfd = 0 ∨ s.counter.value = 0) ∧ s.evfcCb = s) := by
  by_cases hopen : s.evfd = 0
  · exact Or.inr ⟨Or.inl hopen, by simp [evfcCb, hopen]⟩
  · by_cases hzero : s.counter.value = 0
    · exact Or.inr ⟨Or.inr hzero, by simp [evfcCb, hopen, EventFd.read, hzero]⟩
    · refine Or.inl ⟨hopen, Nat.pos_of_ne_zero hzero, ?_⟩
      simp [evfcCb, hopen, EventFd.read, hzero]

/-- A turn of the loop touches the batch, `_evfd` and the rest of the thread; it
closes the eventfd only for `EXIT_LOOP`. -/
theorem processTask_eq (run : TaskMsg χ → θ → θ) (s : State ι χ θ) (msg : TaskMsg χ) :
    ∃ evfd thread, (msg.type ≠ .exitLoop → evfd = s.evfd) ∧
      s.processTask run msg =
        { s with
          evfd
          thread
          tmpTaskQueue := s.tmpTaskQueue.tail
          handled := s.handled ++ [msg] } := by
  by_cases hexit : msg.type = .exitLoop
  · refine ⟨0, s.thread, fun h => absurd hexit h, ?_⟩
    simp [processTask, switch, hexit, stop]
  · refine ⟨s.evfd, if msg.casts then run msg s.thread else s.thread, fun _ => rfl, ?_⟩
    cases htype : msg.type <;> first | exact absurd htype hexit | skip
    all_goals
      simp only [processTask, switch, htype]
      split <;> rfl

end State

/-- One action. A thread waits for the mutex while another one holds it. -/
inductive Step {ι χ θ : Type} [DecidableEq ι] (run : TaskMsg χ → θ → θ) :
    State ι χ θ → Action ι χ → State ι χ θ → Prop where
  | lock {s : State ι χ θ} {p : ι} (msg : TaskMsg χ) (outside : s.producer p = .outside)
      (free : s.mtx = none) :
      Step run s (.lock p msg)
        { s with
          mtx := some (.producer p)
          producer := Function.update s.producer p (.locked msg) }
  | push {s : State ι χ θ} {p : ι} {msg : TaskMsg χ} (locked : s.producer p = .locked msg) :
      Step run s (.push p)
        { s with
          taskQueue := s.taskQueue ++ [msg]
          pushed := s.pushed ++ [msg]
          producer := Function.update s.producer p .pushed }
  | check {s : State ι χ θ} {p : ι} (pushed : s.producer p = .pushed) :
      Step run s (.check p)
        { s with
          producer :=
            Function.update s.producer p (if s.evfd = 0 then .leaving false else .ready) }
  | send {s : State ι χ θ} {p : ι} (ready : s.producer p = .ready) :
      Step run s (.send p)
        { s.send with producer := Function.update s.producer p (.leaving true) }
  | unlock {s : State ι χ θ} {p : ι} {result : Bool} (leaving : s.producer p = .leaving result) :
      Step run s (.unlock p)
        { s with
          mtx := none
          producer := Function.update s.producer p .outside }
  | evfcCb {s : State ι χ θ} (waiting : s.loop = .waiting) : Step run s .evfcCb s.evfcCb
  | acquire {s : State ι χ θ} (woken : s.loop = .woken) (free : s.mtx = none) :
      Step run s .acquire { s with mtx := some .loop, loop := .locked }
  | swap {s : State ι χ θ} (locked : s.loop = .locked) :
      Step run s .swap
        { s with
          taskQueue := s.tmpTaskQueue
          tmpTaskQueue := s.taskQueue
          loop := .swapped }
  | release {s : State ι χ θ} (swapped : s.loop = .swapped) :
      Step run s .release
        { s with
          mtx := none
          loop := if s.tmpTaskQueue = [] then .waiting else .handling }
  | task {s : State ι χ θ} {msg : TaskMsg χ} {rest : List (TaskMsg χ)}
      (handling : s.loop = .handling) (front : s.tmpTaskQueue = msg :: rest) :
      Step run s .task (s.processTask run msg)
  | finish {s : State ι χ θ} (handling : s.loop = .handling) (empty : s.tmpTaskQueue = []) :
      Step run s .finish { s with loop := .waiting }

/-- A loop thread after `init`. -/
def start {ι χ θ : Type} (evfd : Nat) (thread : θ) : State ι χ θ := { evfd, thread }

end Canal.Handover
