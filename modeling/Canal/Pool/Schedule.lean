import Canal.Handover.Mailbox
import Canal.Pool.Basic

/-!
# Runs that a pool can make

Three pieces of a run, in which no other thread comes in between: all loops are
started, a call of `send2loop_thread` goes through, and a loop handles what is in its
queue. Put together, they lead from the construction of the pool to whatever tasks its
loop threads are to have, for any number of them.
-/

namespace Canal.Pool

open Handover Trace

section

variable {n : Nat} {ι χ θ : Type}

/-! ## One loop thread -/

namespace Member

/-- The loop runs and waits for events, and nobody calls. -/
structure Resting (m : Member ι χ θ) : Prop where
  running : m.phase = .running
  opened : m.evfd ≠ 0
  free : m.mtx = none
  outside : ∀ p, m.producer p = .outside
  waiting : m.loop = .waiting
  noBatch : m.tmpTaskQueue = []

/-- A loop thread whose loop has been started. -/
def launched (thread : θ) : Member ι χ θ := { evfd := 3, thread, phase := .running }

/-- A call has gone through. -/
def posted (m : Member ι χ θ) (p : Caller ι) (msg : TaskMsg χ) : Member ι χ θ :=
  { m with
    counter := m.counter.write.2
    taskQueue := m.taskQueue ++ [msg]
    pushed := m.pushed ++ [msg]
    origins := m.origins ++ [p] }

/-- The loop has handled its queue. -/
def drained (run : TaskMsg χ → θ → θ) (m : Member ι χ θ) : Member ι χ θ :=
  { m with
    counter := .zero
    taskQueue := []
    thread := m.taskQueue.foldl (Mailbox.deliver run) m.thread
    handled := m.handled ++ m.taskQueue }

variable {m : Member ι χ θ}

theorem resting_launched (thread : θ) : (launched thread : Member ι χ θ).Resting :=
  ⟨rfl, by simp [launched], rfl, fun _ => rfl, rfl, rfl⟩

theorem Resting.post (hm : m.Resting) (p : Caller ι) (msg : TaskMsg χ) :
    (m.posted p msg).Resting :=
  ⟨hm.running, hm.opened, hm.free, hm.outside, hm.waiting, hm.noBatch⟩

/-- What a task that does not stop the loop does. -/
theorem processTask_of_serving (run : TaskMsg χ → θ → θ) (s : Handover.State (Caller ι) χ θ)
    {msg : TaskMsg χ} (h : msg.type ≠ .exitLoop) :
    s.processTask run msg =
      { s with
        thread := Mailbox.deliver run s.thread msg
        tmpTaskQueue := s.tmpTaskQueue.tail
        handled := s.handled ++ [msg] } := by
  obtain ⟨evfd, thread, hevfd, heq⟩ := s.processTask_eq run msg
  have hthread : (s.processTask run msg).thread = Mailbox.deliver run s.thread msg :=
    processTask_thread msg
  rw [heq] at hthread ⊢
  rw [hevfd h, show thread = _ from hthread]

/-- The actions of a call up to the release of the mutex. -/
def Calling (p : Caller ι) (msg : TaskMsg χ) : Member.Action ι χ → Prop
  | .hand (.lock q m) => q = p ∧ m = msg
  | .hand (.push q) | .hand (.check q) | .hand (.send q) => q = p
  | _ => False

/-- The rounds of the loop. -/
def Looping : Member.Action ι χ → Prop
  | .hand b => b.thread = .loop
  | _ => False

theorem Calling.own {msg : TaskMsg χ} {a : Member.Action ι χ} (h : Calling .main msg a) :
    ∃ b, a = .hand b ∧ byMain a = true ∧ b ≠ .unlock .main ∧
      ∀ p m, b = .lock p m → m = msg := by
  cases a with
  | hand b =>
      cases b with
      | lock q m =>
          obtain ⟨rfl, rfl⟩ := h
          exact ⟨_, rfl, rfl, by simp, fun p m' heq => (Handover.Action.lock.inj heq).2.symm⟩
      | push q | check q | send q =>
          obtain rfl : q = .main := h
          exact ⟨_, rfl, rfl, by simp, by simp⟩
      | _ => exact h.elim
  | _ => exact h.elim

theorem Calling.other {p : ι} {msg : TaskMsg χ} {a : Member.Action ι χ}
    (h : Calling (.other p) msg a) : byMain a = false := by
  cases a with
  | hand b =>
      cases b with
      | lock q m =>
          obtain ⟨rfl, -⟩ := h
          rfl
      | push q | check q | send q =>
          obtain rfl : q = .other p := h
          rfl
      | _ => exact h.elim
  | _ => exact h.elim

theorem Looping.other {a : Member.Action ι χ} (h : Looping a) : byMain a = false := by
  cases a with
  | hand b => cases b <;> first | rfl | cases h
  | _ => exact h.elim

variable [DecidableEq ι] {run : TaskMsg χ → θ → θ}

/-- A call is about to give the mutex back. -/
def leaving (m : Member ι χ θ) (p : Caller ι) (msg : TaskMsg χ) : Member ι χ θ :=
  { m.posted p msg with
    mtx := some (.producer p)
    producer := Function.update m.producer p (.leaving true) }

/-- A caller takes the mutex, pushes its task, and writes to the eventfd. -/
theorem Resting.reaches_leaving (run : TaskMsg χ → θ → θ) (hm : m.Resting) (p : Caller ι)
    (msg : TaskMsg χ) :
    Reaches (fun s a t => Step run s a t ∧ Calling p msg a) m (m.leaving p msg) := by
  have hlocked : m.Prepared (.lock p msg) := by
    cases p with
    | main => trivial
    | other p => rw [Prepared, hm.running]; rfl
  have hlocking : Function.update m.producer p (.locked msg) p = .locked msg :=
    Function.update_self ..
  have hclient : m.phase.hasClient = true := by rw [hm.running]; rfl
  have hreach : ∃ u, Reaches (fun s a t => Step run s a t ∧ Calling p msg a) m u ∧
      u = m.leaving p msg := by
    refine ⟨_, .cons (a := Member.Action.hand (.lock p msg))
        ⟨.hand (.lock msg (hm.outside p) hm.free) hlocked, rfl, rfl⟩ <|
      .cons (a := Member.Action.hand (.push p))
        ⟨.hand (.push hlocking) trivial, rfl⟩ <|
      .cons (a := Member.Action.hand (.check p))
        ⟨.hand (.check (Function.update_self ..)) trivial, rfl⟩ <|
      .cons (a := Member.Action.hand (.send p))
        ⟨.hand (.send ((Function.update_self ..).trans (if_neg hm.opened))) hclient, rfl⟩ .nil, ?_⟩
    simp [leaving, posted, note, State.send, hm.opened]
  obtain ⟨u, hreach, rfl⟩ := hreach
  exact hreach

theorem Resting.unlock_leaving (run : TaskMsg χ → θ → θ) (hm : m.Resting) (p : Caller ι)
    (msg : TaskMsg χ) : Step run (m.leaving p msg) (.hand (.unlock p)) (m.posted p msg) := by
  have hleaving : (m.leaving p msg).producer p = .leaving true := Function.update_self ..
  have hstep : Step run (m.leaving p msg) (.hand (.unlock p)) _ :=
    .hand (.unlock hleaving) trivial
  have hproducer : Function.update m.producer p .outside = m.producer := by
    rw [← hm.outside p]
    exact Function.update_eq_self p m.producer
  simpa [leaving, posted, note, hproducer, hm.free] using hstep

/-- An action at the queue that pushes nothing and leaves the eventfd. -/
theorem step_of_hand {b : Handover.Action (Caller ι) χ} {u : Handover.State (Caller ι) χ θ}
    (h : Handover.Step run m.toState b u) (prepared : m.Prepared b) (hb : ∀ p, b ≠ .push p)
    (hevfd : u.evfd = m.evfd) : Step run m (.hand b) { m with toState := u } := by
  rw [← note_eq m hb hevfd]
  exact .hand h prepared

/-- The loop handles its batch, and waits again. -/
theorem reaches_waiting (run : TaskMsg χ → θ → θ) (hrunning : m.phase = .running)
    (hloop : m.loop = .handling) (hserving : ∀ msg ∈ m.tmpTaskQueue, msg.type ≠ .exitLoop) :
    Reaches (fun s a t => Step run s a t ∧ Looping a) m
      { m with
        loop := .waiting
        tmpTaskQueue := []
        thread := m.tmpTaskQueue.foldl (Mailbox.deliver run) m.thread
        handled := m.handled ++ m.tmpTaskQueue } := by
  generalize hbatch : m.tmpTaskQueue = batch at hserving
  induction batch generalizing m with
  | nil =>
      have hfinish := step_of_hand (.finish hloop hbatch : Handover.Step run m.toState _ _)
        hrunning (by simp) rfl
      have hreach : Reaches (fun s a t => Step run s a t ∧ Looping a) m _ :=
        .cons ⟨hfinish, rfl⟩ .nil
      simpa [hbatch] using hreach
  | cons msg rest ih =>
      have htask : Handover.Step run m.toState .task _ := .task hloop hbatch
      rw [processTask_of_serving run _ (hserving msg List.mem_cons_self), hbatch] at htask
      have hrest := ih (m := { m with
        thread := Mailbox.deliver run m.thread msg
        tmpTaskQueue := rest
        handled := m.handled ++ [msg] }) hrunning hloop rfl
        fun x hx => hserving x (List.mem_cons_of_mem _ hx)
      have hfirst := step_of_hand htask hrunning (by simp) rfl
      have hreach : Reaches (fun s a t => Step run s a t ∧ Looping a) m _ :=
        .cons ⟨hfirst, rfl⟩ hrest
      simpa using hreach

/-- A loop that has been woken handles its queue. -/
theorem Resting.reaches_drained (run : TaskMsg χ → θ → θ) (hm : m.Resting)
    (hpos : 0 < m.counter.value) (hne : m.taskQueue ≠ [])
    (hserving : ∀ msg ∈ m.taskQueue, msg.type ≠ .exitLoop) :
    Reaches (fun s a t => Step run s a t ∧ Looping a) m (m.drained run) := by
  have hread : m.toState.evfcCb =
      { m.toState with counter := .zero, tmpTaskQueue := [], loop := .woken } := by
    obtain ⟨-, -, heq⟩ | ⟨hshut | hzero, -⟩ := m.toState.evfcCb_cases
    · exact heq
    · exact absurd hshut hm.opened
    · exact absurd hzero (Nat.ne_of_gt hpos)
  have hwake : Handover.Step run m.toState .evfcCb _ := .evfcCb hm.waiting
  rw [hread] at hwake
  have hacquire : Step run { m with counter := .zero, loop := .woken, tmpTaskQueue := [] }
      (.hand .acquire)
      { m with counter := .zero, loop := .locked, tmpTaskQueue := [], mtx := some .loop } :=
    step_of_hand (.acquire rfl hm.free) hm.running (by simp) rfl
  have hswap : Step run
      { m with counter := .zero, loop := .locked, tmpTaskQueue := [], mtx := some .loop }
      (.hand .swap) { m with
        counter := .zero
        loop := .swapped
        taskQueue := []
        tmpTaskQueue := m.taskQueue
        mtx := some .loop } :=
    step_of_hand (.swap rfl) hm.running (by simp) rfl
  have hrelease : Handover.Step run
      { m.toState with
        counter := .zero
        loop := .swapped
        taskQueue := []
        tmpTaskQueue := m.taskQueue
        mtx := some .loop } .release
      { m.toState with
        counter := .zero
        loop := .handling
        taskQueue := []
        tmpTaskQueue := m.taskQueue } := by
    have hstep : Handover.Step run
        { m.toState with
          counter := .zero
          loop := .swapped
          taskQueue := []
          tmpTaskQueue := m.taskQueue
          mtx := some .loop } .release _ := .release rfl
    simpa [hne, hm.free] using hstep
  have hrest := reaches_waiting (m := { m with
    counter := .zero
    taskQueue := []
    tmpTaskQueue := m.taskQueue
    loop := .handling }) run hm.running rfl hserving
  have hreach : Reaches (fun s a t => Step run s a t ∧ Looping a) m _ :=
    .cons ⟨step_of_hand hwake hm.running (by simp) rfl, rfl⟩ <|
    .cons ⟨hacquire, rfl⟩ <|
    .cons ⟨hswap, rfl⟩ <|
    .cons ⟨step_of_hand hrelease hm.running (by simp) rfl, rfl⟩ hrest
  simpa [drained, hm.waiting, hm.noBatch] using hreach

end Member

/-! ## The pool -/

/-- The first `k` loop threads as in `f`, the others as in `g`. -/
def upTo (k : Nat) (f g : Fin n → Member ι χ θ) (i : Fin n) : Member ι χ θ :=
  if i.val < k then f i else g i

theorem upTo_zero (f g : Fin n → Member ι χ θ) : upTo 0 f g = g := by
  funext i
  exact if_neg (Nat.not_lt_zero i)

theorem upTo_all (f g : Fin n → Member ι χ θ) : upTo n f g = f := by
  funext i
  exact if_pos i.isLt

theorem upTo_self {k : Nat} (h : k < n) (f g : Fin n → Member ι χ θ) :
    upTo k f g ⟨k, h⟩ = g ⟨k, h⟩ :=
  if_neg (Nat.lt_irrefl k)

theorem update_upTo {k : Nat} (h : k < n) (f g : Fin n → Member ι χ θ) :
    Function.update (upTo k f g) ⟨k, h⟩ (f ⟨k, h⟩) = upTo (k + 1) f g := by
  funext i
  by_cases hi : i = ⟨k, h⟩
  · subst hi
    rw [Function.update_self]
    exact (if_pos (Nat.lt_succ_self k)).symm
  · have hne : i.val ≠ k := fun heq => hi (Fin.ext heq)
    have hlt : i.val < k ↔ i.val < k + 1 := by omega
    rw [Function.update_of_ne hi, upTo, upTo, if_congr hlt rfl rfl]

/-- A pool whose loops have been started. -/
def launched (threads : Fin n → θ) : State n ι χ θ :=
  { members := fun i => Member.launched (threads i), main := .idle }

/-- A call of the owner has returned. -/
def State.called (s : State n ι χ θ) (i : Fin n) (msg : TaskMsg χ) : State n ι χ θ :=
  { s.update i ((s.members i).posted .main msg) with main := s.main.next }

/-- A task has been sent to all loop threads. -/
def State.sentToAll (s : State n ι χ θ) (msg : TaskMsg χ) : State n ι χ θ :=
  { s with
    members := fun i => (s.members i).posted .main msg
    log := s.log ++ [⟨none, msg⟩] }

/-- All loops have handled their queues. -/
def State.drained (run : TaskMsg χ → θ → θ) (s : State n ι χ θ) : State n ι χ θ :=
  { s with members := fun i => (s.members i).drained run }

/-- A loop thread sends nothing by itself, and the owner has sent its task before. -/
theorem sends_member {i : Fin n} {a : Member.Action ι χ}
    (h : ∀ p msg, a ≠ .hand (.lock (.other p) msg)) : (Action.member i a).sends = none := by
  unfold Action.sends
  split
  · rename_i heq
    exact absurd (Action.member.inj heq).2 (h _ _)
  · rename_i heq
    cases heq
  · rename_i heq
    cases heq
  · rename_i heq
    cases heq
  · rfl

variable [DecidableEq ι] {P : Caller ι → TaskMsg χ → Prop} {run : TaskMsg χ → θ → θ}
  {s : State n ι χ θ} {i : Fin n} {msg : TaskMsg χ}

/-- A step in which only tasks with a property are sent. -/
def Sending (P : Caller ι → TaskMsg χ → Prop) (run : TaskMsg χ → θ → θ) (s : State n ι χ θ)
    (a : Action n ι χ) (t : State n ι χ θ) : Prop :=
  Step run s a t ∧ ∀ e ∈ a.sends, P e.1 e.2

theorem Sending.of_none {a : Action n ι χ} {t : State n ι χ θ} (h : Step run s a t)
    (hsends : a.sends = none) : Sending P run s a t :=
  ⟨h, by simp [hsends]⟩

/-- A run of one loop thread is a run of the pool. -/
theorem reaches_update {Q : Member.Action ι χ → Prop} {u : Member ι χ θ}
    (lift : ∀ (t : State n ι χ θ) a m, t.main = s.main → Q a →
      Member.Step run (t.members i) a m → Sending P run t (.member i a) (t.update i m))
    (h : Reaches (fun m a m' => Member.Step run m a m' ∧ Q a) (s.members i) u) :
    Reaches (Sending P run) s (s.update i u) := by
  obtain ⟨trace, hrun, rfl⟩ := h
  induction trace generalizing s with
  | nil => exact ⟨[], trivial, by simp [State.update]⟩
  | cons p rest ih =>
      obtain ⟨a, m⟩ := p
      obtain ⟨⟨hstep, hQ⟩, hrest⟩ := hrun
      have hself := members_update s i m
      have hreach := ih (s := s.update i m) lift (hself.symm ▸ hrest)
      rw [hself] at hreach
      refine .cons (lift s a m rfl hQ hstep) ?_
      simpa [State.update] using hreach

omit [DecidableEq ι] in
theorem resting_posted (hs : ∀ j, (s.members j).Resting) (p : Caller ι) (msg : TaskMsg χ)
    (j : Fin n) : ((s.update i ((s.members i).posted p msg)).members j).Resting := by
  by_cases hj : j = i
  · subst hj
    rw [members_update]
    exact (hs j).post p msg
  · rw [members_update_of_ne s _ hj]
    exact hs j

/-- A call of the owner goes through. -/
theorem reaches_call (run : TaskMsg χ → θ → θ) (calls : s.main.call = some (i.val, msg))
    (hm : (s.members i).Resting) : Reaches (Sending P run) s (s.called i msg) := by
  have hleaving : Reaches (Sending P run) s (s.update i ((s.members i).leaving .main msg)) := by
    apply reaches_update ?_ (hm.reaches_leaving run .main msg)
    intro t a m hmain hcalling hstep
    obtain ⟨b, rfl, hown, hstays, hsent⟩ := hcalling.own
    rw [← hmain] at calls
    have hcall := Step.call calls hown hsent hstep
    rw [Main.after_of_ne hstays] at hcall
    apply Sending.of_none hcall
    apply sends_member
    rintro p msg' heq
    obtain rfl := Member.Action.hand.inj heq
    cases hown
  have hself := members_update s i ((s.members i).leaving .main msg)
  have hunlock := hm.unlock_leaving run .main msg
  rw [← hself] at hunlock
  have hlast := Step.call (s := s.update i ((s.members i).leaving .main msg)) calls rfl
    (by simp) hunlock
  have hcalled : State.called s i msg =
      { (s.update i ((s.members i).leaving .main msg)).update i ((s.members i).posted .main msg)
        with main := s.main.next } := by
    simp [State.called, State.update]
  rw [hcalled]
  exact hleaving.trans (.cons (.of_none hlast rfl) .nil)

/-- A call of somebody else goes through. -/
theorem reaches_post (run : TaskMsg χ → θ → θ) {p : ι} (hmsg : P (.other p) msg)
    (hm : (s.members i).Resting) :
    Reaches (Sending P run) s (s.update i ((s.members i).posted (.other p) msg)) := by
  apply reaches_update (Q := fun a => byMain a = false ∧
    ∀ q m, a = .hand (.lock (.other q) m) → P (.other q) m)
  · intro t a m _ hother hstep
    refine ⟨.member hother.1 hstep, fun e he => ?_⟩
    by_cases ha : ∃ q m, a = .hand (.lock (.other q) m)
    · obtain ⟨q, m, rfl⟩ := ha
      obtain rfl := Option.some.inj he
      exact hother.2 q m rfl
    · rw [sends_member fun q m heq => ha ⟨q, m, heq⟩] at he
      cases he
  · have hleaving := (hm.reaches_leaving run (.other p) msg).mono
      (R := fun m a m' => Member.Step run m a m' ∧ byMain a = false ∧
        ∀ q m, a = .hand (.lock (.other q) m) → P (.other q) m) fun _ a _ h => by
          refine ⟨h.1, h.2.other, ?_⟩
          rintro q m rfl
          obtain ⟨heq, rfl⟩ := h.2
          rwa [heq]
    exact hleaving.trans (.cons ⟨hm.unlock_leaving run (.other p) msg, rfl, by simp⟩ .nil)

/-- A loop handles its queue. -/
theorem reaches_handled (run : TaskMsg χ → θ → θ) (hm : (s.members i).Resting)
    (hpos : 0 < (s.members i).counter.value) (hne : (s.members i).taskQueue ≠ [])
    (hserving : ∀ msg ∈ (s.members i).taskQueue, msg.type ≠ .exitLoop) :
    Reaches (Sending P run) s (s.update i ((s.members i).drained run)) := by
  apply reaches_update (Q := Member.Looping) ?_ (hm.reaches_drained run hpos hne hserving)
  intro t a m _ hlooping hstep
  apply Sending.of_none (.member hlooping.other hstep)
  apply sends_member
  rintro p msg rfl
  cases hlooping

/-- One loop thread after the other. -/
theorem reaches_all {f : Fin n → Member ι χ θ} (main : Nat → Main χ) (hmain : s.main = main 0)
    (h : ∀ (t : State n ι χ θ) (i : Fin n), t.members i = s.members i → t.main = main i →
      Reaches (Sending P run) t { t.update i (f i) with main := main (i + 1) }) :
    Reaches (Sending P run) s { s with members := f, main := main n } := by
  have hall : ∀ k ≤ n, Reaches (Sending P run) s
      { s with members := upTo k f s.members, main := main k } := by
    intro k
    induction k with
    | zero =>
        intro _
        rw [upTo_zero, ← hmain]
        exact .nil
    | succ k ih =>
        intro hk
        have hnext := h { s with members := upTo k f s.members, main := main k } ⟨k, hk⟩
          (upTo_self hk f s.members) rfl
        rw [State.update, update_upTo] at hnext
        exact (ih (Nat.le_of_succ_le hk)).trans hnext
  simpa only [upTo_all] using hall n (Nat.le_refl n)

/-- A loop thread that has been constructed starts its loop. -/
theorem reaches_running (run : TaskMsg χ → θ → θ) {thread : θ}
    (h : s.members i = { evfd := 0, thread, phase := .created }) :
    Reaches (Sending P run) s (s.update i (Member.launched thread)) := by
  apply reaches_update (Q := fun a => byMain a = false ∧ ∀ b, a ≠ .hand b)
  · intro t a m _ hother hstep
    exact .of_none (.member hother.1 hstep) (sends_member fun p msg => hother.2 _)
  · rw [h]
    exact .cons (a := Member.Action.loop) ⟨.loop rfl, rfl, by simp⟩ <|
      .cons (a := Member.Action.eventfd 3) ⟨.eventfd 3 rfl, rfl, by simp⟩ <|
      .cons (a := Member.Action.client) ⟨.client rfl, rfl, by simp⟩ <|
      .cons (a := Member.Action.server true) ⟨.server true rfl, rfl, by simp⟩ <|
      .cons (a := Member.Action.run) ⟨.run rfl, rfl, by simp⟩ .nil

/-- Every pool can be constructed. -/
theorem reaches_polling (run : TaskMsg χ → θ → θ) (threads : Fin n → θ) :
    Reaches (Sending P run) (start threads : State n ι χ θ)
      { members := fun i => { evfd := 0, thread := threads i, phase := .created }
        main := .poll 0 } := by
  have hinit : Reaches (Sending P run) (start threads : State n ι χ θ)
      { members := fun i => { evfd := 0, thread := threads i, phase := .created }
        main := .init n } := by
    apply reaches_all .init rfl
    intro t i habsent hmain
    refine .cons (a := Action.member i .construct) (.of_none (.init hmain ?_) rfl) .nil
    rw [habsent]
    exact .construct rfl
  exact hinit.trans (.cons (.of_none (Step.leave (if_pos rfl)) rfl) .nil)

/-- Every pool can be started. -/
theorem reaches_launched (run : TaskMsg χ → θ → θ) (threads : Fin n → θ) :
    Reaches (Sending P run) (start threads : State n ι χ θ) (launched threads) := by
  have hpoll : Reaches (Sending P run)
      { members := fun i => { evfd := 0, thread := threads i, phase := .created }
        main := .poll 0 : State n ι χ θ }
      { members := fun i => Member.launched (threads i), main := .poll n } := by
    apply reaches_all .poll rfl
    intro t i hcreated hmain
    refine (reaches_running run hcreated).trans (.cons (a := Action.poll) ?_ .nil)
    refine .of_none (.poll (s := t.update i _) hmain ?_) rfl
    rw [members_update]
    rfl
  apply ((reaches_polling run threads).trans hpoll).trans
  exact .cons (.of_none (Step.leave (if_pos rfl)) rfl) .nil

/-- A task is sent to all loop threads. -/
theorem reaches_sentToAll (run : TaskMsg χ → θ → θ) (msg : TaskMsg χ) (hmsg : P .main msg)
    (idle : s.main = .idle) (hm : ∀ i, (s.members i).Resting) :
    Reaches (Sending P run) s (s.sentToAll msg) := by
  have hsent : Reaches (Sending P run)
      { s with main := .sendToAll msg 0, log := s.log ++ [⟨none, msg⟩] }
      { s with
        members := fun i => (s.members i).posted .main msg
        main := .sendToAll msg n
        log := s.log ++ [⟨none, msg⟩] } := by
    apply reaches_all (.sendToAll msg) rfl
    intro t i hsame hmain
    have hcall := reaches_call (s := t) (i := i) (P := P) run (by rw [hmain]; rfl) (hsame ▸ hm i)
    rwa [State.called, hsame, hmain] at hcall
  have hfirst : ∀ e ∈ (Action.sendToAll msg : Action n ι χ).sends, P e.1 e.2 := by
    intro e he
    rwa [← Option.some.inj he]
  refine .cons ⟨.sendToAll msg idle, hfirst⟩ (hsent.trans ?_)
  refine .cons (.of_none (Step.leave (if_pos rfl)) rfl) ?_
  rw [State.sentToAll, ← idle]
  exact .nil

/-- All loops handle their queues. -/
theorem reaches_drained (run : TaskMsg χ → θ → θ) (hm : ∀ i, (s.members i).Resting)
    (hpos : ∀ i, 0 < (s.members i).counter.value) (hne : ∀ i, (s.members i).taskQueue ≠ [])
    (hserving : ∀ i, ∀ msg ∈ (s.members i).taskQueue, msg.type ≠ .exitLoop) :
    Reaches (Sending P run) s (s.drained run) := by
  apply reaches_all (fun _ => s.main) rfl
  intro t i hsame hmain
  rw [← hsame, ← hmain]
  apply reaches_handled run <;> rw [hsame]
  exacts [hm i, hpos i, hne i, hserving i]

end

end Canal.Pool
