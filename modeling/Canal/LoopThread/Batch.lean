import Canal.Handover.Basic
import Canal.LoopThread.Client

/-!
# A batch of tasks

`process_msg` takes the queue out of the loop thread and handles one task after
the other. A task can fail: its body has the wrong type, its type is not
supported, its address is not an IP literal, or `connect` returns false. Such a
task should leave the rest of the batch alone and have no effect itself.

The two exceptions are tasks whose failure comes from a callee. `listen` raises
what `address::from_string` throws, and nobody catches it before it leaves
`process_msg` with the rest of the batch. The result of `connect` is ignored, so
that a connection is added to the pool in any case.

What the system answers while a task is handled is attached to the task.
-/

namespace Canal.LoopThread.Batch

open Handover

/-- `CONN_TYPE` -/
inductive ConnType where
  | ipV4
  | ipV6
  | unixSocket
  | unKnown
  | other (value : UInt32)
  deriving DecidableEq

/-- `CONN_INFO`, as far as `process_msg` looks at it. -/
structure ConnInfo where
  type : ConnType
  ip : String
  port : UInt16
  deriving DecidableEq

/-- A task, the results of `TcpSession::init` and of the system calls of `listen`
that it would meet, how far `connect` would get, and the counter that a new
session would find. -/
structure Task extends TaskMsg ConnInfo where
  init : Bool
  listen : Bool
  connect : ConnectOutcome
  sIdGenerater : UInt32

/-- A session that `process_msg` has created. -/
structure Session where
  fd : Int
  bev : Bool
  sIdGenerater : UInt32
  deriving DecidableEq

/-- `popped` records the tasks that have been taken off a batch. -/
structure Thread where
  evfd : Nat
  taskQueue : List Task := []
  fdToSession : Int → Option Session := fun _ => none
  connections : List TcpClient := []
  listeners : List (String × UInt16) := []
  popped : List Task := []

/-- The sessions, the pool and the listeners are the same. -/
structure Thread.Agree (s t : Thread) : Prop where
  fdToSession : s.fdToSession = t.fdToSession
  connections : s.connections = t.connections
  listeners : s.listeners = t.listeners

section

-- the strings that `address::from_string` accepts
variable (literal : String → Bool)

/-- `TCPListener::listen`: `none` is an exception. -/
def listen (conn : ConnInfo) (result : Bool) : Option Bool :=
  if literal conn.ip then some result else none

/-- The `switch` of `process_msg`: `none` is an exception that leaves it. -/
def processTask (s : Thread) (t : Task) : Option Thread :=
  match t.type, t.body with
  | .newSession, .socket fd =>
      some { s with
        fdToSession := Function.update s.fdToSession fd (some ⟨fd, t.init, t.sIdGenerater⟩) }
  | .newListener, .connInfo conn =>
      (listen literal conn t.listen).map fun started =>
        if started then { s with listeners := s.listeners ++ [(conn.ip, conn.port)] } else s
  | .delSession, .socket fd => some { s with fdToSession := Function.update s.fdToSession fd none }
  | .exitLoop, _ => some { s with evfd := 0 }
  | .addConn, .connInfo conn =>
      match conn.type with
      | .ipV4 | .ipV6 | .unixSocket =>
          some { s with connections := s.connections ++ [TcpClient.connect {} t.connect] }
      | .unKnown | .other _ => some s
  -- the `catch` clauses, `DEL_CONN` and the default
  | _, _ => some s

/-- The `while` loop of `process_msg`, and whether it ends without an exception. -/
def handleAll : List Task → Thread → Thread × Bool
  | [], s => (s, true)
  | t :: ts, s =>
      match processTask literal s t with
      | none => (s, false)
      | some s => handleAll ts { s with popped := s.popped ++ [t] }

/-- `loop_thread::process_msg` -/
def processMsg (s : Thread) : Thread × Bool :=
  let tmpTaskQueue := s.taskQueue
  let s := { s with taskQueue := [] }
  if tmpTaskQueue.isEmpty then (s, true) else handleAll literal tmpTaskQueue s

/-- The task fails. -/
def Task.fails (t : Task) : Bool :=
  match t.type, t.body with
  | .newSession, .socket _ => false
  | .newListener, .connInfo conn => !literal conn.ip
  | .delSession, .socket _ => false
  | .exitLoop, _ => false
  | .delConn, _ => false
  | .addConn, .connInfo conn =>
      match conn.type with
      | .ipV4 | .ipV6 => !(literal conn.ip && t.connect = .started)
      | .unixSocket => t.connect ≠ .started
      | .unKnown | .other _ => true
  | _, _ => true

/-- The whole batch is handled in order, and it does what the tasks that do not
fail would do by themselves. -/
structure Isolated (s : Thread) : Prop where
  returns : (processMsg literal s).2 = true
  inOrder : (processMsg literal s).1.popped = s.popped ++ s.taskQueue
  agree : (processMsg literal s).1.Agree
    (processMsg literal { s with taskQueue := s.taskQueue.filter fun t => !t.fails literal }).1

/-- The task starts a listener on something that is no IP literal. -/
def Task.raises (t : Task) : Bool :=
  match t.type, t.body with
  | .newListener, .connInfo conn => !literal conn.ip
  | _, _ => false

/-- The task adds a connection of a supported type. -/
def Task.adds (t : Task) : Bool :=
  match t.type, t.body with
  | .addConn, .connInfo conn =>
      conn.type = .ipV4 || conn.type = .ipV6 || conn.type = .unixSocket
  | _, _ => false

variable {literal} {s s' : Thread} {t : Task} {ts : List Task}

/-! ## One task -/

/-- What a task does: it raises, or it fails and does nothing, or it adds a
connection, or it does not fail and changes the rest. -/
inductive Effect (literal : String → Bool) (t : Task) : Prop where
  | raises (raises : t.raises literal = true) (stops : ∀ s, processTask literal s t = none)
  | nothing (raises : t.raises literal = false) (adds : t.adds = false)
      (fails : t.fails literal = true) (same : ∀ s, processTask literal s t = some s)
  | adds (raises : t.raises literal = false) (adds : t.adds = true)
      (pushes : ∀ s, processTask literal s t =
        some { s with connections := s.connections ++ [TcpClient.connect {} t.connect] })
  | changes (raises : t.raises literal = false) (adds : t.adds = false)
      (fails : t.fails literal = false) (evfd : Nat → Nat)
      (fdToSession : (Int → Option Session) → Int → Option Session)
      (listeners : List (String × UInt16))
      (does : ∀ s, processTask literal s t =
        some { s with
          evfd := evfd s.evfd
          fdToSession := fdToSession s.fdToSession
          listeners := s.listeners ++ listeners })

theorem effect (literal : String → Bool) (t : Task) : Effect literal t := by
  obtain ⟨⟨type, body⟩, init, result, outcome, gen⟩ := t
  cases type with
  | newSession =>
      cases body with
      | socket fd =>
          exact .changes rfl rfl rfl id (fun m => Function.update m fd (some ⟨fd, init, gen⟩)) []
            fun s => by simp [processTask]
      | connInfo conn => exact .nothing rfl rfl rfl fun s => rfl
      | other => exact .nothing rfl rfl rfl fun s => rfl
  | delSession =>
      cases body with
      | socket fd =>
          exact .changes rfl rfl rfl id (fun m => Function.update m fd none) []
            fun s => by simp [processTask]
      | connInfo conn => exact .nothing rfl rfl rfl fun s => rfl
      | other => exact .nothing rfl rfl rfl fun s => rfl
  | newListener =>
      cases body with
      | socket fd => exact .nothing rfl rfl rfl fun s => rfl
      | connInfo conn =>
          cases hliteral : literal conn.ip with
          | false =>
              exact .raises (by simp [Task.raises, hliteral])
                fun s => by simp [processTask, listen, hliteral]
          | true =>
              apply Effect.changes (by simp [Task.raises, hliteral]) rfl
                (by simp [Task.fails, hliteral]) id id
                (if result then [(conn.ip, conn.port)] else [])
              intro s
              cases result <;> simp [processTask, listen, hliteral]
      | other => exact .nothing rfl rfl rfl fun s => rfl
  | delListener => exact .nothing rfl rfl rfl fun s => rfl
  | exitLoop =>
      exact .changes rfl rfl rfl (fun _ => 0) id [] fun s => by simp [processTask]
  | addConn =>
      cases body with
      | socket fd => exact .nothing rfl rfl rfl fun s => rfl
      | connInfo conn =>
          obtain ⟨type, ip, port⟩ := conn
          cases type with
          | ipV4 => exact .adds rfl rfl fun s => rfl
          | ipV6 => exact .adds rfl rfl fun s => rfl
          | unixSocket => exact .adds rfl rfl fun s => rfl
          | unKnown => exact .nothing rfl rfl rfl fun s => rfl
          | other value => exact .nothing rfl rfl rfl fun s => rfl
      | other => exact .nothing rfl rfl rfl fun s => rfl
  | delConn => exact .changes rfl rfl rfl id id [] fun s => by simp [processTask]
  | taskMsgTypeMax => exact .nothing rfl rfl rfl fun s => rfl

/-! ## The batch -/

/-- The task does what a failing task should not: it raises, or it adds a
connection although it fails. -/
def Task.harms (literal : String → Bool) (t : Task) : Bool :=
  t.raises literal || (t.adds && t.fails literal)

theorem harms_eq_false : t.harms literal = false ↔
    t.raises literal = false ∧ (t.adds = true → t.fails literal = false) := by
  simp [Task.harms]

/-- Without harmful tasks the failing tasks make no difference. -/
theorem handleAll_agree (h : ∀ t ∈ ts, t.harms literal = false) (hagree : s.Agree s') :
    (handleAll literal ts s).2 = true ∧ (handleAll literal ts s).1.popped = s.popped ++ ts ∧
      (handleAll literal ts s).1.Agree
        (handleAll literal (ts.filter fun t => !t.fails literal) s').1 := by
  induction ts generalizing s s' with
  | nil => exact ⟨rfl, (List.append_nil _).symm, hagree⟩
  | cons t ts ih =>
      obtain ⟨hraises, hadds⟩ := harms_eq_false.mp (h t (by simp))
      have hrest : ∀ t ∈ ts, t.harms literal = false := fun x hx => h x (by simp [hx])
      obtain ⟨hsessions, hconns, hlisteners⟩ := hagree
      cases effect literal t with
      | raises raises _ => simp [raises] at hraises
      | nothing _ _ fails same =>
          have hnext : Thread.Agree { s with popped := s.popped ++ [t] } s' :=
            ⟨hsessions, hconns, hlisteners⟩
          rw [List.filter_cons_of_neg (by simp [fails]), handleAll, same]
          simpa using ih hrest hnext
      | adds _ adds pushes =>
          have hfails := hadds adds
          have hnext : Thread.Agree
              { s with
                connections := s.connections ++ [TcpClient.connect {} t.connect]
                popped := s.popped ++ [t] }
              { s' with
                connections := s'.connections ++ [TcpClient.connect {} t.connect]
                popped := s'.popped ++ [t] } :=
            ⟨hsessions, congrArg (· ++ _) hconns, hlisteners⟩
          rw [List.filter_cons_of_pos (by simp [hfails]), handleAll, handleAll, pushes, pushes]
          simpa using ih hrest hnext
      | changes _ _ fails evfd fdToSession listeners does =>
          have hnext : Thread.Agree
              { s with
                evfd := evfd s.evfd
                fdToSession := fdToSession s.fdToSession
                listeners := s.listeners ++ listeners
                popped := s.popped ++ [t] }
              { s' with
                evfd := evfd s'.evfd
                fdToSession := fdToSession s'.fdToSession
                listeners := s'.listeners ++ listeners
                popped := s'.popped ++ [t] } :=
            ⟨congrArg fdToSession hsessions, hconns, congrArg (· ++ listeners) hlisteners⟩
          rw [List.filter_cons_of_pos (by simp [fails]), handleAll, handleAll, does, does]
          simpa using ih hrest hnext

/-- A task either raises or lets the loop go on, with one connection more if it
adds one. -/
theorem processTask_length (literal : String → Bool) (t : Task) (s : Thread) :
    (t.raises literal = true ∧ processTask literal s t = none) ∨
      (t.raises literal = false ∧ ∃ u, processTask literal s t = some u ∧
        u.connections.length = s.connections.length + if t.adds then 1 else 0) := by
  cases effect literal t with
  | raises raises stops => exact Or.inl ⟨raises, stops s⟩
  | nothing raises adds _ same => exact Or.inr ⟨raises, s, same s, by simp [adds]⟩
  | adds raises adds pushes => exact Or.inr ⟨raises, _, pushes s, by simp [adds]⟩
  | changes raises adds _ evfd fdToSession listeners does =>
      exact Or.inr ⟨raises, _, does s, by simp [adds]⟩

theorem handleAll_raises (ht : t ∈ ts) (hraises : t.raises literal = true) (s : Thread) :
    (handleAll literal ts s).2 = false := by
  induction ts generalizing s with
  | nil => simp at ht
  | cons x ts ih =>
      rw [handleAll]
      obtain ⟨-, heq⟩ | ⟨hnot, u, heq, -⟩ := processTask_length literal x s
      · rw [heq]
      · rw [heq]
        obtain rfl | htail := List.mem_cons.mp ht
        · simp [hraises] at hnot
        · exact ih htail _

/-- A batch that is handled to its end adds a connection for every task that asks
for one. -/
theorem length_handleAll (h : (handleAll literal ts s).2 = true) :
    (handleAll literal ts s).1.connections.length = s.connections.length + ts.countP Task.adds := by
  induction ts generalizing s with
  | nil => rfl
  | cons t ts ih =>
      rw [handleAll] at h ⊢
      obtain ⟨-, heq⟩ | ⟨-, u, heq, hlength⟩ := processTask_length literal t s
      · simp [heq] at h
      · rw [heq] at h ⊢
        rw [ih h, hlength, List.countP_cons, Nat.add_assoc, Nat.add_comm (List.countP _ ts)]

theorem processMsg_eq (literal : String → Bool) (s : Thread) :
    processMsg literal s = handleAll literal s.taskQueue { s with taskQueue := [] } := by
  unfold processMsg
  cases s.taskQueue <;> rfl

/-- A listener on a name that is not an IP literal, and a session to be deleted. -/
def listenThenDelete : List Task :=
  [{ type := .newListener
     body := .connInfo { type := .ipV4, ip := "localhost", port := 6379 }
     init := true, listen := true, connect := .started, sIdGenerater := 0 },
   { type := .delSession
     body := .socket 5
     init := true, listen := true, connect := .started, sIdGenerater := 0 }]

/-- The exception takes the rest of the batch along. -/
theorem exception_loses_batch :
    (processMsg (· == "127.0.0.1") { evfd := 3, taskQueue := listenThenDelete }).1.popped = [] ∧
      ¬ Isolated (· == "127.0.0.1") { evfd := 3, taskQueue := listenThenDelete } := by
  refine ⟨by decide +kernel, fun h => ?_⟩
  exact absurd h.returns (by decide +kernel)

/-- A batch is handled as without its failing tasks exactly if none of them starts
a listener, and none adds a connection. -/
theorem isolated_iff (literal : String → Bool) (s : Thread) :
    Isolated literal s ↔ ∀ t ∈ s.taskQueue, t.harms literal = false := by
  have hfiltered := processMsg_eq literal
    { s with taskQueue := s.taskQueue.filter fun t => !t.fails literal }
  have hsame : Thread.Agree { s with taskQueue := [] } { s with taskQueue := [] } :=
    ⟨rfl, rfl, rfl⟩
  constructor
  · rintro ⟨hreturns, -, hagree⟩ t ht
    rw [processMsg_eq] at hreturns hagree
    rw [hfiltered] at hagree
    have hquiet : ∀ x ∈ s.taskQueue, x.raises literal = false := by
      intro x hx
      cases hraises : x.raises literal with
      | false => rfl
      | true => simp [handleAll_raises hx hraises] at hreturns
    have hrest : ∀ x ∈ s.taskQueue.filter (fun t => !t.fails literal), x.harms literal = false := by
      intro x hx
      obtain ⟨hmem, hfails⟩ := List.mem_filter.mp hx
      exact harms_eq_false.mpr ⟨hquiet x hmem, fun _ => by simpa using hfails⟩
    have hreturns' := (handleAll_agree hrest hsame).1
    -- both batches end, so they ask for equally many connections
    have hlength := congrArg List.length hagree.connections
    rw [length_handleAll hreturns, length_handleAll hreturns'] at hlength
    rw [List.countP_eq_countP_filter_add s.taskQueue _ fun t => !t.fails literal] at hlength
    have hzero : (s.taskQueue.filter fun t => !!t.fails literal).countP Task.adds = 0 := by
      simp only at hlength
      omega
    refine harms_eq_false.mpr ⟨hquiet t ht, fun hadds => ?_⟩
    cases hfails : t.fails literal with
    | false => rfl
    | true =>
        have hmem : t ∈ s.taskQueue.filter fun t => !!t.fails literal := by
          simp [ht, hfails]
        exact absurd hadds (List.countP_eq_zero.mp hzero t hmem)
  · intro h
    obtain ⟨hreturns, horder, hagree⟩ := handleAll_agree h hsame
    rw [← processMsg_eq] at hreturns horder hagree
    exact ⟨hreturns, horder, hfiltered ▸ hagree⟩

end

end Canal.LoopThread.Batch
