import Canal.Pool.Shutdown
import Canal.Sockets.Basic

/-!
# The loop threads have the same backends

Each loop thread has connections of its own to the backends and listeners of its own;
`ADD_CONN` and `NEW_LISTENER` make them, and they are never taken away again. The
owner of the pool sends these tasks to all loop threads. Since each of them handles
the tasks of the owner in the same order, the connections of one are those of the
other, one by one, up to the tasks that it has not got to yet; and when the pool
settles there is no difference any more.

Other callers send tasks that concern sessions. How far `connect` gets and what `listen`
returns is not up to the loop thread, and different for each of them: the connection and
the listener are there in any case, but they need not work. Only a listener on something
that is no IP literal is not, since it ends the program.
-/

namespace Canal.Pool

open Handover LoopThread Sockets Trace

/-! ## Tables that tasks append to -/

section

variable {n : Nat} {ι χ θ α : Type}

/-- Something that grows with the tasks that are handled, and depends on nothing else. -/
structure Table (run : TaskMsg χ → θ → θ) (α : Type) where
  entries : θ → List α
  emit : TaskMsg χ → List α
  grows : ∀ thread msg, entries (Mailbox.deliver run thread msg) = entries thread ++ emit msg

namespace Table

variable {run : TaskMsg χ → θ → θ}

/-- The task makes no entries, or the owner of the pool has sent it. -/
def Tame (T : Table run α) (p : Caller ι) (msg : TaskMsg χ) : Prop :=
  p.isMain = false → T.emit msg = []

/-- Only the owner of the pool sends tasks that make entries. -/
def Discreet (T : Table run α) (a : Action n ι χ) : Prop := ∀ e ∈ a.sends, T.Tame e.1 e.2

theorem tame_main (T : Table run α) (msg : TaskMsg χ) : T.Tame (Caller.main : Caller ι) msg := by
  intro hmain
  cases hmain

theorem entries_foldl (T : Table run α) (msgs : List (TaskMsg χ)) (thread : θ) :
    T.entries (msgs.foldl (Mailbox.deliver run) thread) =
      T.entries thread ++ msgs.flatMap T.emit := by
  induction msgs generalizing thread with
  | nil => simp
  | cons msg msgs ih => rw [List.foldl_cons, ih, T.grows, List.append_assoc, List.flatMap_cons]

/-- The tasks of others do not count. -/
theorem flatMap_fromMain (T : Table run α) {origins : List (Caller ι)}
    {msgs rest : List (TaskMsg χ)} (hlength : msgs.length ≤ origins.length)
    (h : ∀ e ∈ origins.zip (msgs ++ rest), T.Tame e.1 e.2) :
    (fromMain origins msgs).flatMap T.emit = msgs.flatMap T.emit := by
  induction msgs generalizing origins with
  | nil => simp [fromMain]
  | cons msg msgs ih =>
      cases origins with
      | nil => simp at hlength
      | cons p origins =>
          have htail : (fromMain origins msgs).flatMap T.emit = msgs.flatMap T.emit := by
            apply ih (by simpa using hlength)
            exact fun e he => h e (List.mem_cons_of_mem _ he)
          cases hp : p.isMain with
          | true => simpa [fromMain, hp] using htail
          | false =>
              have hnone : T.emit msg = [] := h (p, msg) List.mem_cons_self hp
              simpa [fromMain, hp, hnone] using htail

end Table

variable [DecidableEq ι] {run : TaskMsg χ → θ → θ} {T : Table run α} {thread : θ}

/-- A loop thread is what its tasks have made of it. -/
theorem Member.Step.sequential {m m' : Member ι χ θ} {b : Member.Action ι χ}
    (h : Member.Step run m b m') (hs : Sequential run thread m.toState) :
    Sequential run thread m'.toState := by
  cases h with
  | hand step prepared => exact step.sequential hs
  | _ => exact hs

omit [DecidableEq ι] in
/-- The entries are those of the owner's tasks that have been handled. -/
theorem Member.Inv.entries {m : Member ι χ θ} (hinv : m.Inv)
    (hs : Sequential run thread m.toState) (htame : m.Carries T.Tame)
    (hempty : T.entries thread = []) : T.entries m.thread = m.served.flatMap T.emit := by
  obtain ⟨rest, hrest⟩ : ∃ rest, m.pushed = m.handled ++ rest := by
    cases hstarted : m.phase.started with
    | true =>
        have hconserved : m.handled ++ m.tmpTaskQueue ++ m.taskQueue = m.pushed :=
          (hinv.live hstarted).inv.conserved
        exact ⟨_, by rw [← hconserved, List.append_assoc]⟩
    | false => exact ⟨[], by rw [(hinv.fresh hstarted).untouched]; rfl⟩
  have hforeign := htame.pushed
  have hlength : m.handled.length ≤ m.origins.length := by
    rw [hinv.length_origins, hrest, List.length_append]
    exact Nat.le_add_right _ _
  rw [hrest] at hforeign
  rw [show m.thread = _ from hs, T.entries_foldl, hempty, List.nil_append,
    Member.served, T.flatMap_fromMain hlength hforeign]

/-! ## The pool -/

variable {threads : Fin n → θ} {s t : State n ι χ θ} {a : Action n ι χ}
  {trace : List (Action n ι χ × State n ι χ θ)}

/-- The tables of the loop threads, as far as they have got, are what the owner has
asked for, and where it has sent everything to all they agree entry by entry. -/
structure Agreeing (T : Table run α) (s : State n ι χ θ) : Prop where
  inOrder : ∀ i, T.entries (s.members i).thread <+: (s.asked i).flatMap T.emit
  common : (∀ r ∈ s.log, r.target = none) → ∀ i j (c : Nat) x y,
    (T.entries (s.members i).thread)[c]? = some x →
    (T.entries (s.members j).thread)[c]? = some y → x = y

/-- What holds in every state of a run in which the others are discreet. -/
structure Kept (T : Table run α) (threads : Fin n → θ) (s : State n ι χ θ) : Prop
    extends Orderly s where
  sequential : ∀ i, Sequential run (threads i) (s.members i).toState
  tame : Carries T.Tame s

theorem Step.kept (h : Step run s a t) (hs : Kept T threads s) (hdiscreet : T.Discreet a) :
    Kept T threads t := by
  refine ⟨h.orderly hs.toOrderly, fun j => ?_, h.carries hs.inv hs.tame hdiscreet⟩
  obtain heq | ⟨b, hstep, -⟩ := h.member_cases j
  · rw [heq]
    exact hs.sequential j
  · exact hstep.sequential (hs.sequential j)

theorem kept_of_run (hrun : Steps (Step run) (start threads) trace)
    (hdiscreet : ∀ p ∈ trace, T.Discreet p.1) : Along (Kept T threads) (start threads) trace := by
  have hstart : Kept T threads (start threads : State n ι χ θ) :=
    ⟨⟨start_inv threads, start_recorded threads, nofun⟩, fun _ => rfl, start_carries threads⟩
  exact hrun.mem.along hstart fun _ _ _ hs hstep => hstep.1.kept hs (hdiscreet _ hstep.2)

omit [DecidableEq ι] in
theorem Kept.entries (hs : Kept T threads s) (hempty : ∀ i, T.entries (threads i) = [])
    (i : Fin n) : T.entries (s.members i).thread = (s.members i).served.flatMap T.emit :=
  (hs.inv.member i).entries (hs.sequential i) (hs.tame.member i) (hempty i)

omit [DecidableEq ι] in
theorem Kept.agreeing (hs : Kept T threads s) (hempty : ∀ i, T.entries (threads i) = []) :
    Agreeing T s := by
  have hagreed := hs.recorded.agreed hs.inv
  have hinOrder : ∀ i, T.entries (s.members i).thread <+: (s.asked i).flatMap T.emit := by
    intro i
    obtain ⟨rest, hrest⟩ := hagreed.inOrder i
    rw [hs.entries hempty i, ← hrest, List.flatMap_append]
    exact List.prefix_append _ _
  refine ⟨hinOrder, fun hcommon i j c x y hx hy => ?_⟩
  obtain ⟨hi, rfl⟩ := List.getElem?_eq_some_iff.mp hx
  obtain ⟨hj, rfl⟩ := List.getElem?_eq_some_iff.mp hy
  have hx' := List.prefix_iff_getElem?.mp (hinOrder i) c hi
  have hy' := List.prefix_iff_getElem?.mp (hinOrder j) c hj
  rw [asked_eq hcommon i j] at hx'
  exact Option.some.inj (hx'.symm.trans hy')

omit [DecidableEq ι] in
/-- When the pool has settled and its owner is between two calls, nothing is missing in
a loop thread that still runs. -/
theorem Kept.complete (hs : Kept T threads s) (hempty : ∀ i, T.entries (threads i) = [])
    (hsettled : Settled s) (hidle : s.main = .idle) {i : Fin n}
    (hrunning : (s.members i).phase = .running) :
    T.entries (s.members i).thread = (s.asked i).flatMap T.emit := by
  have hhandled := ((hsettled.quiet i).drained hrunning).2
  have hreceived := (hs.recorded.agreed hs.inv).complete hidle i
  rw [hs.entries hempty i, Member.served, hhandled, ← hreceived]
  rfl

theorem Internal.kept (h : Internal run s a t) (hs : Kept T threads s) : Kept T threads t := by
  apply h.step.kept hs
  rw [Table.Discreet, h.sends]
  exact nofun

end

/-! ## Backends and listeners -/

/-- A connection of a loop thread, and where it leads to. -/
structure Backend extends LoopThread.TcpClient where
  connInfo : ConnInfo

/-- A `TCPListener`, and what its `listen` has returned. -/
structure Listener where
  address : String × UInt16
  started : Bool
  deriving DecidableEq

/-- The part of a loop thread that `ADD_CONN` and `NEW_LISTENER` concern. `outcomes` are
how far the next calls of `connect` will get, and `results` is what the next calls of
`listen` will return. -/
structure Worker where
  connections : List Backend := []
  listeners : List Listener := []
  outcomes : Nat → ConnectOutcome
  results : Nat → Bool

section

-- the strings that `address::from_string` accepts
variable (literal : String → Bool)

/-- `ADD_CONN` and `NEW_LISTENER` in `process_msg`; `none` is an exception. -/
def process : TaskMsg ConnInfo → Worker → Option Worker
  | ⟨.addConn, .connInfo info⟩, w =>
      match info.type with
      | .ipV4 | .ipV6 | .unixSocket =>
          some { w with
            connections := w.connections ++
              [{ toTcpClient := LoopThread.TcpClient.connect {} (w.outcomes 0), connInfo := info }]
            outcomes := fun k => w.outcomes (k + 1) }
      | .unKnown | .other _ => some w
  | ⟨.newListener, .connInfo info⟩, w =>
      (Batch.listen literal info.toConnInfo (w.results 0)).map fun started =>
        { w with
          listeners := w.listeners ++ [⟨(info.ip, info.port), started⟩]
          results := fun k => w.results (k + 1) }
  | _, w => some w

/-- The connection that a task adds. -/
def addedBackend : TaskMsg ConnInfo → List ConnInfo
  | ⟨.addConn, .connInfo info⟩ =>
      match info.type with
      | .ipV4 | .ipV6 | .unixSocket => [info]
      | .unKnown | .other _ => []
  | _ => []

/-- The address that a task makes the loop thread listen on. -/
def addedListener : TaskMsg ConnInfo → List (String × UInt16)
  | ⟨.newListener, .connInfo info⟩ => if literal info.ip then [(info.ip, info.port)] else []
  | _ => []

theorem connections_deliver (w : Worker) (msg : TaskMsg ConnInfo) :
    (Mailbox.deliver (caught (process literal)) w msg).connections.map Backend.connInfo =
      w.connections.map Backend.connInfo ++ addedBackend msg := by
  obtain ⟨type, body⟩ := msg
  cases type <;> cases body <;>
    simp only [Mailbox.deliver, caught, TaskMsg.casts, process, addedBackend, if_true,
      List.append_nil, Bool.false_eq_true, if_false, Option.getD_some]
  · rename_i info
    cases hliteral : literal info.ip <;> simp [Batch.listen, hliteral]
  · split <;> simp

theorem listeners_deliver (w : Worker) (msg : TaskMsg ConnInfo) :
    (Mailbox.deliver (caught (process literal)) w msg).listeners.map Listener.address =
      w.listeners.map Listener.address ++ addedListener literal msg := by
  obtain ⟨type, body⟩ := msg
  cases type <;> cases body <;>
    simp only [Mailbox.deliver, caught, TaskMsg.casts, process, addedListener, if_true,
      List.append_nil, Bool.false_eq_true, if_false, Option.getD_some]
  · rename_i info
    cases hliteral : literal info.ip <;> simp [Batch.listen, hliteral]
  · split <;> rfl

/-- Where the connections of a loop thread lead to. -/
def backends : Table (caught (process literal)) ConnInfo where
  entries w := w.connections.map Backend.connInfo
  emit := addedBackend
  grows := connections_deliver literal

/-- The addresses that a loop thread has listeners for, be they started or not. -/
def listening : Table (caught (process literal)) (String × UInt16) where
  entries w := w.listeners.map Listener.address
  emit := addedListener literal
  grows := listeners_deliver literal

/-- The listeners are what `listen` has returned so far. -/
structure Worker.Tracks (results : Nat → Bool) (w : Worker) : Prop where
  started : ∀ (c : Nat) l, w.listeners[c]? = some l → l.started = results c
  ahead : ∀ k, w.results k = results (w.listeners.length + k)

variable {literal} {results : Nat → Bool} {w : Worker}

theorem Worker.Tracks.listen (hw : w.Tracks results) (address : String × UInt16) :
    Worker.Tracks results { w with
      listeners := w.listeners ++ [⟨address, w.results 0⟩]
      results := fun k => w.results (k + 1) } := by
  refine ⟨fun c l hl => ?_, fun k => ?_⟩
  · obtain hlt | heq | hgt := Nat.lt_trichotomy c w.listeners.length
    · rw [List.getElem?_append_left hlt] at hl
      exact hw.started c l hl
    · subst heq
      rw [List.getElem?_concat_length] at hl
      rw [← Option.some.inj hl]
      exact hw.ahead 0
    · rw [List.getElem?_eq_none (by simpa using Nat.succ_le_of_lt hgt)] at hl
      cases hl
  · rw [List.length_append, List.length_singleton, Nat.add_assoc, Nat.add_comm 1]
    exact hw.ahead (k + 1)

theorem tracks_deliver (hw : w.Tracks results) (msg : TaskMsg ConnInfo) :
    (Mailbox.deliver (caught (process literal)) w msg).Tracks results := by
  obtain ⟨type, body⟩ := msg
  cases type <;> cases body <;>
    simp only [Mailbox.deliver, caught, TaskMsg.casts, process, if_true, Bool.false_eq_true,
      if_false, Option.getD_some]
  any_goals exact hw
  · rename_i info
    cases hliteral : literal info.ip <;>
      simp only [Batch.listen, hliteral, if_true, if_false, Bool.false_eq_true, Option.map_some,
        Option.map_none, Option.getD_some, Option.getD_none]
    · exact hw
    · exact hw.listen (info.ip, info.port)
  · split
    all_goals exact ⟨hw.started, hw.ahead⟩

theorem tracks_foldl (hw : w.Tracks results) (msgs : List (TaskMsg ConnInfo)) :
    (msgs.foldl (Mailbox.deliver (caught (process literal))) w).Tracks results := by
  induction msgs generalizing w with
  | nil => exact hw
  | cons msg msgs ih => exact ih (tracks_deliver hw msg)

end

section

variable {n : Nat} {ι : Type} [DecidableEq ι] {literal : String → Bool}
  {workers : Fin n → Worker} {trace : List (Action n ι ConnInfo × State n ι ConnInfo Worker)}

/-- A pool whose loop threads have no connections and no listeners yet. -/
def Unsupplied (workers : Fin n → Worker) : Prop :=
  ∀ i, (workers i).connections = [] ∧ (workers i).listeners = []

/-- The loop threads have the same backends, and listeners on the same addresses. A
listener is started if `listen` has returned so in its own loop thread. -/
structure Supplied (literal : String → Bool) (workers : Fin n → Worker)
    (s : State n ι ConnInfo Worker) : Prop where
  backends : Agreeing (backends literal) s
  listeners : Agreeing (listening literal) s
  started : ∀ i (c : Nat) l, (s.members i).thread.listeners[c]? = some l →
    l.started = (workers i).results c

/-- Nobody but the owner adds backends and listeners. -/
def Discreet (literal : String → Bool) (a : Action n ι ConnInfo) : Prop :=
  (backends literal).Discreet a ∧ (listening literal).Discreet a

omit [DecidableEq ι] in
theorem Kept.tracks {s : State n ι ConnInfo Worker} (hs : Kept (listening literal) workers s)
    (hempty : Unsupplied workers) (i : Fin n) :
    (s.members i).thread.Tracks (workers i).results := by
  rw [show (s.members i).thread = _ from hs.sequential i]
  apply tracks_foldl
  refine ⟨?_, fun k => ?_⟩
  · rw [(hempty i).2]
    exact nofun
  · rw [(hempty i).2, List.length_nil, Nat.zero_add]

omit [DecidableEq ι] in
theorem Unsupplied.backends (hempty : Unsupplied workers) (i : Fin n) :
    (backends literal).entries (workers i) = [] := by
  simp [Pool.backends, (hempty i).1]

omit [DecidableEq ι] in
theorem Unsupplied.listening (hempty : Unsupplied workers) (i : Fin n) :
    (listening literal).entries (workers i) = [] := by
  simp [Pool.listening, (hempty i).2]

/-- In every run in which only the owner adds backends and listeners, the loop threads
have the same ones: the next connection of one leads where that of another one does. -/
theorem same_backends_along (hempty : Unsupplied workers)
    (hrun : Steps (Step (caught (process literal))) (start workers) trace)
    (hdiscreet : ∀ p ∈ trace, Discreet literal p.1) :
    Along (Supplied literal workers) (start workers) trace := by
  have hbackends := kept_of_run hrun fun p hp => (hdiscreet p hp).1
  have hlistening := kept_of_run hrun fun p hp => (hdiscreet p hp).2
  refine (hbackends.and hlistening).mono fun s hs => ⟨?_, ?_, ?_⟩
  · exact hs.1.agreeing hempty.backends
  · exact hs.2.agreeing hempty.listening
  · exact fun i => (hs.2.tracks hempty i).started

def localhost (port : UInt16) : ConnInfo := { type := .ipV4, ip := "127.0.0.1", port }

/-- Two loop threads, and a call of `listen` fails in the first one. -/
def twoWorkers (i : Fin 2) : Worker :=
  { outcomes := fun _ => .started, results := fun _ => i.val = 1 }

/-- The owner sends a backend and a listener to both loop threads, one of which has a
session of another caller to look after first. -/
theorem same_backends_after_sendToAll :
    ∃ t : State 2 Bool ConnInfo Worker,
      Reaches (Step (caught (process (· == "127.0.0.1")))) (start twoWorkers) t ∧
        (t.members 1).handled.length = 3 ∧
        (∀ i, (t.members i).thread.connections.map Backend.connInfo = [localhost 6379]) ∧
        (t.members 0).thread.listeners = [⟨("127.0.0.1", 6380), false⟩] ∧
        (t.members 1).thread.listeners = [⟨("127.0.0.1", 6380), true⟩] ∧
        Supplied (· == "127.0.0.1") twoWorkers t := by
  have hrest : ∀ i, ((launched twoWorkers : State 2 Bool ConnInfo Worker).members i).Resting :=
    fun i => Member.resting_launched (twoWorkers i)
  have hrest' := resting_posted (i := 1) hrest (.other true) ⟨.newSession, .socket 5⟩
  have hreach : ∃ t : State 2 Bool ConnInfo Worker,
      Reaches (Sending (fun p msg => (backends (· == "127.0.0.1")).Tame p msg ∧
          (listening (· == "127.0.0.1")).Tame p msg) (caught (process (· == "127.0.0.1"))))
        (start twoWorkers) t ∧
        (t.members 1).handled.length = 3 ∧
        (∀ i, (t.members i).thread.connections.map Backend.connInfo = [localhost 6379]) ∧
        (t.members 0).thread.listeners = [⟨("127.0.0.1", 6380), false⟩] ∧
        (t.members 1).thread.listeners = [⟨("127.0.0.1", 6380), true⟩] := by
    refine ⟨_, (reaches_launched _ twoWorkers).trans <|
      (reaches_post (p := true) _ ⟨fun _ => rfl, fun _ => rfl⟩ (hrest 1)).trans <|
      (reaches_sentToAll _ ⟨.addConn, .connInfo (localhost 6379)⟩
        ⟨Table.tame_main _ _, Table.tame_main _ _⟩ rfl
        hrest').trans <|
      (reaches_sentToAll _ ⟨.newListener, .connInfo (localhost 6380)⟩
        ⟨Table.tame_main _ _, Table.tame_main _ _⟩ rfl
        fun i => (hrest' i).post _ _).trans <|
      reaches_drained _ (fun i => ((hrest' i).post _ _).post _ _)
        (fun i => EventFd.write_pos _) ?_ ?_, ?_, ?_, ?_, ?_⟩
    all_goals decide
  obtain ⟨t, ⟨trace, hsending, rfl⟩, hhandled, hconnections, hfirst, hsecond⟩ := hreach
  have hrun := hsending.mono fun _ _ _ h => h.1
  have hsends := (hsending.mono fun _ _ _ h => h.2).labels
  have hsupplied := same_backends_along (fun _ => ⟨rfl, rfl⟩) hrun fun p hp =>
    ⟨fun e he => (hsends p hp e he).1, fun e he => (hsends p hp e he).2⟩
  exact ⟨_, ⟨trace, hrun, rfl⟩, hhandled, hconnections, hfirst, hsecond, hsupplied.final⟩

/-- A loop thread has the backends and listeners that the owner has asked for. -/
structure Complete (literal : String → Bool) (s : State n ι ConnInfo Worker) (i : Fin n) :
    Prop where
  backends : (s.members i).thread.connections.map Backend.connInfo =
    (s.asked i).flatMap addedBackend
  listeners : (s.members i).thread.listeners.map Listener.address =
    (s.asked i).flatMap (addedListener literal)

/-- The pool has settled, and when its owner is between two calls nothing is missing in
a loop thread that still runs. -/
structure CaughtUp (literal : String → Bool) (s : State n ι ConnInfo Worker) : Prop where
  settled : Settled s
  complete : s.main = .idle → ∀ i, (s.members i).phase = .running → Complete literal s i

omit [DecidableEq ι] in
theorem Settled.caughtUp {s : State n ι ConnInfo Worker} (hsettled : Settled s)
    (hempty : Unsupplied workers) (hbackends : Kept (backends literal) workers s)
    (hlistening : Kept (listening literal) workers s) : CaughtUp literal s := by
  refine ⟨hsettled, fun hidle i hrunning => ⟨?_, ?_⟩⟩
  · exact hbackends.complete hempty.backends hsettled hidle hrunning
  · exact hlistening.complete hempty.listening hsettled hidle hrunning

/-- At the end of any such run, if no new calls begin, every loop thread that still runs
gets all its backends and listeners, unless a listener on something that is no IP
literal ends the program. If none is sent it does not end; and if nobody stops a loop
that has been started, all of them are there, and have everything. -/
theorem same_backends_eventually (hempty : Unsupplied workers)
    (hrun : Steps (Step (caught (process literal))) (start workers) trace)
    (hdiscreet : ∀ p ∈ trace, Discreet literal p.1) :
    Inevitable (Alone (process literal)) (fun o => ∀ t ∈ o, CaughtUp literal t)
        (some (final (start workers) trace)) ∧
      ((∀ p ∈ trace, p.1.Safe (process literal)) →
        Inevitable (Alone (process literal)) (fun o => ∃ t ∈ o, CaughtUp literal t)
            (some (final (start workers) trace)) ∧
          ((∀ p ∈ trace, ∀ e ∈ p.1.sends, e.2.type ≠ .exitLoop) →
            (∀ i, ((final (start workers) trace).members i).phase.started = true) →
            Inevitable (Alone (process literal))
              (fun o => ∃ t ∈ o, t.main = .idle ∧ ∀ i, (t.members i).phase = .running ∧
                Complete literal t i)
              (some (final (start workers) trace)))) := by
  have hbackends := (kept_of_run hrun fun p hp => (hdiscreet p hp).1).final
  have hlistening := (kept_of_run hrun fun p hp => (hdiscreet p hp).2).final
  have hsettles := (hbackends.toOrderly.settles (caught (process literal))).and_invariant
    (I := fun t => Kept (backends literal) workers t ∧ Kept (listening literal) workers t)
    ⟨hbackends, hlistening⟩ fun s a t hs hinternal => ⟨hinternal.kept hs.1, hinternal.kept hs.2⟩
  have hcaughtUp := hsettles.mono fun t ht => ht.1.caughtUp hempty ht.2.1 ht.2.2
  obtain ⟨hunless, hunbroken⟩ := inevitable_alone hrun hcaughtUp
  refine ⟨hunless, fun hsafe => ⟨hunbroken hsafe, fun hopen hstarted => ?_⟩⟩
  have hcarries := (carries_of_run (P := fun _ msg => msg.type ≠ .exitLoop) hrun hopen).final
  have hlasting := hsettles.and_invariant
    (I := fun t => t.Inv ∧ Carries (fun _ msg => msg.type ≠ .exitLoop) t ∧
      ∀ i, (t.members i).phase.started = true)
    ⟨hbackends.inv, hcarries, hstarted⟩ fun s a t hs hinternal =>
      ⟨hinternal.step.inv hs.1, hinternal.carries hs.1 hs.2.1,
        fun i => hinternal.step.started i (hs.2.2 i)⟩
  have hall : Inevitable (Internal (caught (process literal)))
      (fun t => t.main = .idle ∧ ∀ i, (t.members i).phase = .running ∧ Complete literal t i)
      (final (start workers) trace) := by
    apply hlasting.mono
    rintro t ⟨⟨hsettled, hb, hl⟩, -, hcarries, hstarted⟩
    obtain ⟨hidle, hrunning⟩ := hb.runs_on hsettled hcarries hstarted
    have hcomplete := (hsettled.caughtUp hempty hb hl).complete hidle
    exact ⟨hidle, fun i => ⟨hrunning i, hcomplete i (hrunning i)⟩⟩
  exact (inevitable_alone hrun hall).2 hsafe

/-- The listener waits in both loop threads, behind a session of another caller in one of
them, and the backend has just been asked for. -/
theorem same_backends_after_settling :
    ∃ s t : State 2 Bool ConnInfo Worker,
      Reaches (Step (caught (process (· == "127.0.0.1")))) (start twoWorkers) s ∧
        s.main = .sendToAll ⟨.addConn, .connInfo (localhost 6379)⟩ 0 ∧
        (s.members 1).taskQueue =
          [⟨.newSession, .socket 5⟩, ⟨.newListener, .connInfo (localhost 6380)⟩] ∧
        Reaches (Alone (process (· == "127.0.0.1"))) (some s) (some t) ∧
        t.main = .idle ∧ ∀ i, (t.members i).phase = .running ∧
          (t.members i).thread.connections.map Backend.connInfo = [localhost 6379] ∧
          (t.members i).thread.listeners.map Listener.address = [("127.0.0.1", 6380)] := by
  have hrest : ∀ i, ((launched twoWorkers : State 2 Bool ConnInfo Worker).members i).Resting :=
    fun i => Member.resting_launched (twoWorkers i)
  have hrest' := resting_posted (i := 1) hrest (.other true) ⟨.newSession, .socket 5⟩
  have hreach : ∃ s : State 2 Bool ConnInfo Worker,
      Reaches (Sending (fun p msg => (backends (· == "127.0.0.1")).Tame p msg ∧
          (listening (· == "127.0.0.1")).Tame p msg ∧
          (∀ w, process (· == "127.0.0.1") msg w ≠ none) ∧ msg.type ≠ .exitLoop)
        (caught (process (· == "127.0.0.1")))) (start twoWorkers) s ∧
        s.main = .sendToAll ⟨.addConn, .connInfo (localhost 6379)⟩ 0 ∧
        (s.members 1).taskQueue =
          [⟨.newSession, .socket 5⟩, ⟨.newListener, .connInfo (localhost 6380)⟩] ∧
        (∀ i, (s.members i).phase = .running) ∧
        s.log = [⟨none, ⟨.newListener, .connInfo (localhost 6380)⟩⟩,
          ⟨none, ⟨.addConn, .connInfo (localhost 6379)⟩⟩] := by
    refine ⟨_, (reaches_launched _ twoWorkers).trans <|
      (reaches_post (p := true) _ ⟨fun _ => rfl, fun _ => rfl, by simp [process], by decide⟩
        (hrest 1)).trans <|
      (reaches_sentToAll _ ⟨.newListener, .connInfo (localhost 6380)⟩
        ⟨Table.tame_main _ _, Table.tame_main _ _, by simp [process, Batch.listen, localhost],
          by decide⟩ rfl hrest').trans <|
      .cons ⟨.sendToAll ⟨.addConn, .connInfo (localhost 6379)⟩ rfl, ?_⟩ .nil,
      rfl, rfl, ?_, rfl⟩
    · rintro e he
      obtain rfl := Option.some.inj he
      exact ⟨Table.tame_main _ _, Table.tame_main _ _, by simp [process, localhost], by decide⟩
    · exact fun i => (hrest' i).running
  obtain ⟨s, ⟨trace, hsending, rfl⟩, hmain, hqueue, hrunning, hlog⟩ := hreach
  have hrun := hsending.mono fun _ _ _ h => h.1
  have hsends := (hsending.mono fun _ _ _ h => h.2).labels
  have heventually := same_backends_eventually (fun _ => ⟨rfl, rfl⟩) hrun fun p hp =>
    ⟨fun e he => (hsends p hp e he).1, fun e he => (hsends p hp e he).2.1⟩
  have hlasting := (heventually.2 fun p hp e he => (hsends p hp e he).2.2.1).2
    (fun p hp e he => (hsends p hp e he).2.2.2) fun i => by rw [hrunning i]; rfl
  obtain ⟨_, halone, t, rfl, hidle, hcomplete⟩ := hlasting.reaches
  refine ⟨_, t, ⟨trace, hrun, rfl⟩, hmain, hqueue, halone, hidle, fun i => ?_⟩
  obtain ⟨hphase, hconnections, hlisteners⟩ := hcomplete i
  have hasked : t.asked i = [⟨.newListener, .connInfo (localhost 6380)⟩,
      ⟨.addConn, .connInfo (localhost 6379)⟩] := by
    rw [State.asked, log_eq_alone halone, hlog]
    rfl
  rw [hasked] at hconnections hlisteners
  exact ⟨hphase, hconnections, hlisteners⟩

end

end Canal.Pool
