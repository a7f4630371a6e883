import Canal.Foundation.Simulation
import Canal.Handover.WakeUp
import Canal.LoopThread.Batch

/-!
# The hand-over as a mailbox

What `send2loop_thread` and `process_msg` are for: a mailbox into which anybody
can post and from which the loop takes one task after the other. Posting and
taking are one step each, and there are no mutex, no second queue and no eventfd.

The hand-over refines the mailbox. A task is posted when it is pushed to
`_task_queue`, and it is taken when its turn of the `while` loop comes; nothing
else can be seen. So the loop thread is, at any time, in the state that one thread
would have reached by handling the same tasks in the order of their pushes, no
matter how they have been cut into batches.
-/

namespace Canal.Handover

open Trace

/-- The tasks that wait, and the loop thread that will handle them. -/
structure Mailbox (χ θ : Type) where
  queue : List (TaskMsg χ) := []
  thread : θ

namespace Mailbox

variable {χ θ : Type}

inductive Action (χ : Type) where
  | post (msg : TaskMsg χ)
  | take

/-- The effect of a task on the loop thread. A task that is not cast has none, and
`EXIT_LOOP` ends the loop only. -/
def deliver (run : TaskMsg χ → θ → θ) (thread : θ) (msg : TaskMsg χ) : θ :=
  if msg.casts then run msg thread else thread

inductive Step (run : TaskMsg χ → θ → θ) : Mailbox χ θ → Action χ → Mailbox χ θ → Prop where
  | post {m : Mailbox χ θ} (msg : TaskMsg χ) :
      Step run m (.post msg) { m with queue := m.queue ++ [msg] }
  | take {m : Mailbox χ θ} {msg : TaskMsg χ} {rest : List (TaskMsg χ)}
      (front : m.queue = msg :: rest) :
      Step run m .take ⟨rest, deliver run m.thread msg⟩

end Mailbox

/-! ## The refinement -/

section

variable {ι χ θ : Type} [DecidableEq ι] {run : TaskMsg χ → θ → θ} {s t : State ι χ θ}
  {a : Action ι χ}

open Mailbox

/-- The batch comes before the queue, a push posts, and a turn of the loop takes. -/
def asMailbox : Abstraction (State ι χ θ) (Action ι χ) (Mailbox χ θ) (Mailbox.Action χ) where
  state s := ⟨s.tmpTaskQueue ++ s.taskQueue, s.thread⟩
  action s
    | .push p =>
        match s.producer p with
        | .locked msg => some (.post msg)
        | _ => none
    | .task => some .take
    | _ => none

omit [DecidableEq ι] in
theorem processTask_thread (msg : TaskMsg χ) :
    (s.processTask run msg).thread = deliver run s.thread msg := by
  obtain ⟨type, body⟩ := msg
  cases type <;> cases body <;> rfl

/-- What the refinement needs of a state: a batch is there only while it is
handled. -/
def State.BatchOnly (s : State ι χ θ) : Prop := s.loop.hasBatch = false → s.tmpTaskQueue = []

theorem simulates : asMailbox.Simulates (Step run) (Mailbox.Step run)
    (State.BatchOnly (ι := ι) (χ := χ) (θ := θ)) := by
  intro s a t hs h
  cases h with
  | push hlocked =>
      simp only [asMailbox, hlocked, ← List.append_assoc]
      exact .post _
  | send hready =>
      obtain ⟨counter, -, heq⟩ := s.send_eq
      simp [asMailbox, heq]
  | evfcCb hwaiting =>
      obtain ⟨-, -, heq⟩ | ⟨-, heq⟩ := s.evfcCb_cases
      · simp [asMailbox, heq, hs (by rw [hwaiting]; rfl)]
      · simp [asMailbox, heq]
  | swap hlocked =>
      have hempty : s.tmpTaskQueue = [] := hs (by rw [hlocked]; rfl)
      simp [asMailbox, hempty]
  | @task msg rest hhandling hfront =>
      have hfront' : (asMailbox.state s).queue = msg :: (rest ++ s.taskQueue) := by
        simp [asMailbox, hfront]
      have htake : Mailbox.Step run (asMailbox.state s) .take _ := .take hfront'
      obtain ⟨evfd, thread, -, heq⟩ := s.processTask_eq run msg
      have hthread : (s.processTask run msg).thread = deliver run s.thread msg :=
        processTask_thread msg
      rw [heq] at hthread ⊢
      dsimp only at hthread
      subst hthread
      simpa [asMailbox, hfront] using htake
  | _ => simp [asMailbox]

/-- The state of the loop thread is the tasks handled, one after the other. -/
def Sequential (run : TaskMsg χ → θ → θ) (thread : θ) (s : State ι χ θ) : Prop :=
  s.thread = s.handled.foldl (deliver run) thread

theorem Step.sequential {thread : θ} (h : Step run s a t) (hs : Sequential run thread s) :
    Sequential run thread t := by
  cases h with
  | send hready =>
      obtain ⟨counter, -, heq⟩ := s.send_eq
      rw [heq]
      exact hs
  | evfcCb hwaiting =>
      obtain ⟨-, -, heq⟩ | ⟨-, heq⟩ := s.evfcCb_cases <;> rw [heq] <;> exact hs
  | @task msg rest hhandling hfront =>
      obtain ⟨evfd, thread', -, heq⟩ := s.processTask_eq run msg
      have hthread : (s.processTask run msg).thread = deliver run s.thread msg :=
        processTask_thread msg
      rw [heq] at hthread ⊢
      show thread' = (s.handled ++ [msg]).foldl (deliver run) thread
      rw [List.foldl_append, ← show s.thread = _ from hs]
      exact hthread
  | _ => exact hs

/-- The tasks that are posted in a run of the mailbox. -/
def posts : List (Mailbox.Action χ × Mailbox χ θ) → List (TaskMsg χ)
  | [] => []
  | (.post msg, _) :: rest => msg :: posts rest
  | (.take, _) :: rest => posts rest

/-- A push is seen as a post of the same task, and nothing else is. -/
theorem Step.pushed_seen (h : Step run s a t) (rest : List (Action ι χ × State ι χ θ)) :
    s.pushed ++ posts (asMailbox.run s ((a, t) :: rest)) =
      t.pushed ++ posts (asMailbox.run t rest) := by
  cases h with
  | push hlocked => simp [Abstraction.run, asMailbox, hlocked, posts]
  | send hready =>
      obtain ⟨counter, -, heq⟩ := s.send_eq
      simp [Abstraction.run, asMailbox, heq]
  | evfcCb hwaiting =>
      obtain ⟨-, -, heq⟩ | ⟨-, heq⟩ := s.evfcCb_cases <;>
        simp [Abstraction.run, asMailbox, heq]
  | @task msg tail hhandling hfront =>
      obtain ⟨evfd, thread, -, heq⟩ := s.processTask_eq run msg
      simp [Abstraction.run, asMailbox, heq, posts]
  | _ => simp [Abstraction.run, asMailbox]

theorem pushed_final {trace : List (Action ι χ × State ι χ θ)} (hrun : Steps (Step run) s trace) :
    (final s trace).pushed = s.pushed ++ posts (asMailbox.run s trace) := by
  induction trace generalizing s with
  | nil => simp [Abstraction.run, posts]
  | cons p rest ih =>
      obtain ⟨a, t⟩ := p
      rw [final_cons, ih hrun.2]
      exact (hrun.1.pushed_seen rest).symm

/-- In every run, the tasks are posted to a mailbox in the order of their pushes
and taken from it, and the loop thread is what the tasks handled make of it. -/
theorem refines_mailbox {evfd : Nat} {thread : θ} {trace : List (Action ι χ × State ι χ θ)}
    (hrun : Steps (Step run) (start evfd thread) trace) :
    Steps (Mailbox.Step run) ⟨[], thread⟩ (asMailbox.run (start evfd thread) trace) ∧
      final ⟨[], thread⟩ (asMailbox.run (start evfd thread) trace) =
        asMailbox.state (final (start evfd thread) trace) ∧
      posts (asMailbox.run (start evfd thread) trace) = (final (start evfd thread) trace).pushed ∧
      Sequential run thread (final (start evfd thread) trace) := by
  have hbatch : Along State.BatchOnly (start evfd thread) trace :=
    hrun.along (fun _ => rfl) fun s a t hs hstep => hstep.noBatch hs
  obtain ⟨hseen, hfinal⟩ := simulates.run hbatch hrun
  have hsequential : Along (Sequential run thread) (start evfd thread) trace :=
    hrun.along rfl fun s a t hs hstep => hstep.sequential hs
  exact ⟨hseen, hfinal, (pushed_final hrun).symm, hsequential.final⟩

/-- Two producers push before the loop reads, and their tasks come in one batch. -/
theorem refines_mailbox_two_producers :
    ∃ trace : List (Action Bool Unit × State Bool Unit (List TaskMsgType)),
      Steps (Mailbox.Step fun msg types => types ++ [msg.type]) ⟨[], []⟩
          (asMailbox.run (start 3 []) trace) ∧
        posts (asMailbox.run (start 3 []) trace) =
          [⟨.delSession, .socket 5⟩, ⟨.newSession, .socket 6⟩] ∧
        (final (start 3 []) trace).thread = [.delSession] := by
  have hreach : ∃ t : State Bool Unit (List TaskMsgType),
      Reaches (Step fun msg types => types ++ [msg.type]) (start 3 []) t ∧
        t.handled = [⟨.delSession, .socket 5⟩] ∧
        t.pushed = [⟨.delSession, .socket 5⟩, ⟨.newSession, .socket 6⟩] :=
    ⟨_, .cons (a := Action.lock true ⟨.delSession, .socket 5⟩) (.lock _ rfl rfl) <|
      .cons (a := Action.push true) (.push rfl) <|
      .cons (a := Action.check true) (.check rfl) <|
      .cons (a := Action.send true) (.send rfl) <|
      .cons (a := Action.unlock true) (.unlock rfl) <|
      .cons (a := Action.lock false ⟨.newSession, .socket 6⟩) (.lock _ rfl rfl) <|
      .cons (a := Action.push false) (.push rfl) <|
      .cons (a := Action.check false) (.check rfl) <|
      .cons (a := Action.send false) (.send rfl) <|
      .cons (a := Action.unlock false) (.unlock rfl) <|
      .cons (a := Action.evfcCb) (.evfcCb rfl) <|
      .cons (a := Action.acquire) (.acquire rfl rfl) <|
      .cons (a := Action.swap) (.swap rfl) <|
      .cons (a := Action.release) (.release rfl) <|
      .cons (a := Action.task) (.task rfl rfl) .nil, rfl, rfl⟩
  obtain ⟨t, ⟨trace, hrun, rfl⟩, hhandled, hpushed⟩ := hreach
  obtain ⟨hseen, -, hposts, hsequential⟩ := refines_mailbox hrun
  refine ⟨trace, hseen, hposts.trans hpushed, ?_⟩
  rw [show (final (start 3 []) trace).thread = _ from hsequential, hhandled]
  rfl

end

/-! ## Tasks that raise -/

/-- The effect of a task as if an exception that leaves it had been caught. Behind a
task that raises, a run goes further than the program does. -/
def caught {χ θ : Type} (perform : TaskMsg χ → θ → Option θ) (msg : TaskMsg χ) (thread : θ) : θ :=
  (perform msg thread).getD thread

/-! ## Batches are invisible -/

section

open LoopThread.Batch

/-- What the system answers while a task is handled, and the counter that a new session
finds. -/
structure Answers where
  init : Bool
  listen : Bool
  connect : LoopThread.ConnectOutcome
  sIdGenerater : UInt32

/-- The task, when it meets these answers. -/
def Answers.meet (a : Answers) (msg : TaskMsg ConnInfo) : Task :=
  { toTaskMsg := msg
    init := a.init
    listen := a.listen
    connect := a.connect
    sIdGenerater := a.sIdGenerater }

/-- A loop thread, and what the system is going to answer, task by task. -/
structure Asking extends Thread where
  answers : Nat → Answers

/-- The `switch` of `process_msg` as the effect of a task; `none` is an exception. -/
def perform (literal : String → Bool) (msg : TaskMsg ConnInfo) (s : Asking) : Option Asking :=
  (processTask literal s.toThread ((s.answers 0).meet msg)).map fun thread =>
    { toThread := thread, answers := fun k => s.answers (k + 1) }

/-- The tasks with the answers that they meet. Nothing is asked for a task that is not
cast. -/
def meeting : (Nat → Answers) → List (TaskMsg ConnInfo) → List Task
  | _, [] => []
  | answers, msg :: msgs =>
      (answers 0).meet msg ::
        meeting (if msg.casts then fun k => answers (k + 1) else answers) msgs

variable {literal : String → Bool} {s s' : Thread} {t : Task} {answers : Nat → Answers}

/-- A task that is not cast changes nothing but `_evfd`. -/
theorem processTask_of_not_casts (literal : String → Bool) (h : t.casts = false) (s : Thread) :
    ∃ evfd, processTask literal s t = some { s with evfd } := by
  obtain ⟨⟨type, body⟩, _⟩ := t
  cases type <;> cases body <;> first | exact ⟨s.evfd, rfl⟩ | exact ⟨0, rfl⟩ | cases h

/-- A task has the same effect on threads that agree. -/
theorem processTask_agree (hquiet : t.raises literal = false) (h : s.Agree s') :
    ∃ u u', processTask literal s t = some u ∧ processTask literal s' t = some u' ∧ u.Agree u' := by
  obtain ⟨hsessions, hconns, hlisteners⟩ := h
  cases effect literal t with
  | raises raises _ => simp [raises] at hquiet
  | nothing _ _ _ same => exact ⟨s, s', same s, same s', hsessions, hconns, hlisteners⟩
  | adds _ _ pushes =>
      exact ⟨_, _, pushes s, pushes s', hsessions, congrArg (· ++ _) hconns, hlisteners⟩
  | changes _ _ _ evfd fdToSession listeners does =>
      exact ⟨_, _, does s, does s', congrArg fdToSession hsessions, hconns,
        congrArg (· ++ listeners) hlisteners⟩

/-- Taking a task agrees with handling it in a batch, and uses up an answer if the task
is cast. -/
theorem deliver_agree {msg : TaskMsg ConnInfo}
    (hquiet : ((answers 0).meet msg).raises literal = false) (h : s.Agree s') :
    ∃ u u', Mailbox.deliver (caught (perform literal)) ⟨s, answers⟩ msg =
        ⟨u, if msg.casts then fun k => answers (k + 1) else answers⟩ ∧
      processTask literal s' ((answers 0).meet msg) = some u' ∧ u.Agree u' := by
  obtain ⟨u, u', hu, hu', hagree⟩ := processTask_agree hquiet h
  cases hcasts : msg.casts with
  | true => exact ⟨u, u', by simp [Mailbox.deliver, hcasts, caught, perform, hu], hu', hagree⟩
  | false =>
      obtain ⟨evfd, heq⟩ := processTask_of_not_casts (t := (answers 0).meet msg) literal hcasts s
      obtain rfl := Option.some.inj (hu.symm.trans heq)
      refine ⟨s, u', by simp [Mailbox.deliver, hcasts], hu', ?_⟩
      exact ⟨hagree.fdToSession, hagree.connections, hagree.listeners⟩

/-- Taking the tasks one by one agrees with handling them as one batch. -/
theorem foldl_deliver_agree {msgs : List (TaskMsg ConnInfo)}
    (hquiet : ∀ t ∈ meeting answers msgs, t.raises literal = false) (h : s.Agree s') :
    (handleAll literal (meeting answers msgs) s').2 = true ∧
      (msgs.foldl (Mailbox.deliver (caught (perform literal))) ⟨s, answers⟩).toThread.Agree
        (handleAll literal (meeting answers msgs) s').1 := by
  induction msgs generalizing s s' answers with
  | nil => exact ⟨rfl, h⟩
  | cons msg msgs ih =>
      rw [meeting] at hquiet ⊢
      obtain ⟨u, u', hu, hu', hagree⟩ := deliver_agree (hquiet _ List.mem_cons_self) h
      rw [List.foldl_cons, hu, handleAll, hu']
      apply ih fun t ht => hquiet t (List.mem_cons_of_mem _ ht)
      exact ⟨hagree.fdToSession, hagree.connections, hagree.listeners⟩

/-- In every run in which no task raises, and whatever the system answers, the loop
thread agrees with one that handles the same tasks in a single batch and meets the same
answers. -/
theorem batches_invisible {ι : Type} [DecidableEq ι] {evfd : Nat} {thread : Thread}
    {trace : List (Action ι ConnInfo × State ι ConnInfo Asking)}
    (hrun : Steps (Step (caught (perform literal))) (start evfd ⟨thread, answers⟩) trace)
    (hquiet : ∀ t ∈ meeting answers (final (start evfd ⟨thread, answers⟩) trace).handled,
      t.raises literal = false) :
    (handleAll literal
        (meeting answers (final (start evfd ⟨thread, answers⟩) trace).handled) thread).2 = true ∧
      (final (start evfd ⟨thread, answers⟩) trace).thread.Agree
        (handleAll literal
          (meeting answers (final (start evfd ⟨thread, answers⟩) trace).handled) thread).1 := by
  have hsequential : Along (Sequential (caught (perform literal)) ⟨thread, answers⟩)
      (start evfd ⟨thread, answers⟩) trace :=
    hrun.along rfl fun s a t hs hstep => hstep.sequential hs
  have hthread : (final (start evfd ⟨thread, answers⟩) trace).thread = _ := hsequential.final
  rw [hthread]
  exact foldl_deliver_agree hquiet ⟨rfl, rfl, rfl⟩

/-- A system in which every other connection fails, and which numbers the counters that
new sessions find. -/
def alternating (k : Nat) : Answers :=
  { init := true
    listen := true
    connect := if k % 2 = 0 then .started else .failed
    sIdGenerater := UInt32.ofNat k }

/-- The same two tasks come in two batches, and meet different answers. -/
theorem batches_invisible_two_batches :
    ∃ trace : List (Action Bool ConnInfo × State Bool ConnInfo Asking),
      (final (start 3 ⟨{ evfd := 3 }, alternating⟩) trace).handled =
          [⟨.newSession, .socket 5⟩, ⟨.newSession, .socket 5⟩] ∧
        (final (start 3 ⟨{ evfd := 3 }, alternating⟩) trace).thread.fdToSession 5 =
          some ⟨5, true, 1⟩ ∧
        (final (start 3 ⟨{ evfd := 3 }, alternating⟩) trace).thread.Agree
          (handleAll (fun _ => true)
            (meeting alternating [⟨.newSession, .socket 5⟩, ⟨.newSession, .socket 5⟩])
            { evfd := 3 }).1 := by
  have hreach : ∃ t : State Bool ConnInfo Asking,
      Reaches (Step (caught (perform fun _ => true))) (start 3 ⟨{ evfd := 3 }, alternating⟩) t ∧
        t.handled = [⟨.newSession, .socket 5⟩, ⟨.newSession, .socket 5⟩] :=
    ⟨_, .cons (a := Action.lock true ⟨.newSession, .socket 5⟩) (.lock _ rfl rfl) <|
      .cons (a := Action.push true) (.push rfl) <|
      .cons (a := Action.check true) (.check rfl) <|
      .cons (a := Action.send true) (.send rfl) <|
      .cons (a := Action.unlock true) (.unlock rfl) <|
      .cons (a := Action.evfcCb) (.evfcCb rfl) <|
      .cons (a := Action.acquire) (.acquire rfl rfl) <|
      .cons (a := Action.swap) (.swap rfl) <|
      .cons (a := Action.release) (.release rfl) <|
      .cons (a := Action.lock false ⟨.newSession, .socket 5⟩) (.lock _ rfl rfl) <|
      .cons (a := Action.push false) (.push rfl) <|
      .cons (a := Action.check false) (.check rfl) <|
      .cons (a := Action.send false) (.send rfl) <|
      .cons (a := Action.unlock false) (.unlock rfl) <|
      .cons (a := Action.task) (.task rfl rfl) <|
      .cons (a := Action.finish) (.finish rfl rfl) <|
      .cons (a := Action.evfcCb) (.evfcCb rfl) <|
      .cons (a := Action.acquire) (.acquire rfl rfl) <|
      .cons (a := Action.swap) (.swap rfl) <|
      .cons (a := Action.release) (.release rfl) <|
      .cons (a := Action.task) (.task rfl rfl) .nil, rfl⟩
  obtain ⟨t, ⟨trace, hrun, rfl⟩, hhandled⟩ := hreach
  have hquiet : ∀ t ∈ meeting alternating
      (final (start 3 ⟨{ evfd := 3 }, alternating⟩) trace).handled,
      t.raises (fun _ => true) = false := by
    simp [hhandled, meeting, Answers.meet, Task.raises]
  have hagree := (batches_invisible hrun hquiet).2
  rw [hhandled] at hagree
  refine ⟨trace, hhandled, ?_, hagree⟩
  rw [hagree.fdToSession]
  rfl

end

end Canal.Handover
