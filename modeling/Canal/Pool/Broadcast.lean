import Canal.Pool.Lifecycle

/-!
# What the owner of the pool asks for

The owner sends tasks to all loop threads, to one that `get_loop_thread` picks, and
in the end `EXIT_LOOP` to all, while other callers push tasks of their own. Every
loop thread handles the tasks of the owner in the order in which it has asked for
them, without a gap. So two loop threads that are only sent to together are never
at odds: one has handled the same tasks as the other, and perhaps more.
-/

namespace Canal.Pool

open Handover Trace

section

variable {n : Nat} {ι χ θ : Type}

def Caller.isMain : Caller ι → Bool
  | .main => true
  | .other _ => false

/-- The tasks of a list that the owner has pushed. -/
def fromMain (origins : List (Caller ι)) (msgs : List (TaskMsg χ)) : List (TaskMsg χ) :=
  ((origins.zip msgs).filter fun p => p.1.isMain).map Prod.snd

namespace Member

/-- The tasks that the owner has pushed. -/
def received (s : Member ι χ θ) : List (TaskMsg χ) := fromMain s.origins s.pushed

/-- The tasks of the owner that have been handled. -/
def served (s : Member ι χ θ) : List (TaskMsg χ) := fromMain s.origins s.handled

end Member

/-- What the owner has asked of a loop thread. -/
def State.asked (s : State n ι χ θ) (i : Nat) : List (TaskMsg χ) :=
  (s.log.filter fun r => r.target.all (· = i)).map Request.msg

/-- What is still to be pushed to a loop thread, the current call included. -/
def Main.rest : Main χ → Nat → List (TaskMsg χ)
  | .sendToAll msg j, i => if j ≤ i then [msg] else []
  | .send msg j, i => if i = j then [msg] else []
  | .stop j, i => if j ≤ i then [exitLoop χ] else []
  | _, _ => []

/-- The task of the call has been pushed. -/
def given : Producer χ → Bool
  | .pushed | .ready | .leaving _ => true
  | _ => false

/-- What the owner has asked for and not pushed yet. -/
def State.pending (s : State n ι χ θ) (i : Fin n) : List (TaskMsg χ) :=
  if given ((s.members i).producer .main) then [] else s.main.rest i

/-- What has been pushed and what is pending is what has been asked for. -/
structure Recorded (s : State n ι χ θ) : Prop where
  locked : ∀ (i : Fin n) msg m, s.main.call = some (i.val, msg) →
    (s.members i).producer .main = .locked m → m = msg
  log : ∀ i : Fin n, (s.members i).received ++ s.pending i = s.asked i

/-! ## Lists of pushes -/

theorem fromMain_append {origins : List (Caller ι)} {msgs : List (TaskMsg χ)}
    (h : origins.length = msgs.length) (p : Caller ι) (msg : TaskMsg χ) :
    fromMain (origins ++ [p]) (msgs ++ [msg]) =
      fromMain origins msgs ++ if p.isMain then [msg] else [] := by
  rw [fromMain, fromMain, List.zip_append h, List.filter_append, List.map_append]
  cases hp : p.isMain <;> simp [hp]

/-- A beginning of the pushes holds a beginning of the owner's pushes. -/
theorem fromMain_of_append {origins : List (Caller ι)} {msgs rest : List (TaskMsg χ)} :
    fromMain origins msgs <+: fromMain origins (msgs ++ rest) := by
  induction msgs generalizing origins with
  | nil => simp [fromMain]
  | cons msg msgs ih =>
      cases origins with
      | nil => simp [fromMain]
      | cons p origins =>
          have htail : fromMain origins msgs <+: fromMain origins (msgs ++ rest) := ih
          cases hp : p.isMain <;> simpa [fromMain, hp] using htail

/-! ## The steps of the owner -/

namespace Main

variable {m m' : Main χ} {msg : TaskMsg χ} {i j : Nat}

theorem rest_of_call (h : m.call = some (i, msg)) : m.rest i = [msg] := by
  cases m <;> simp only [call, Option.some.injEq, Prod.mk.injEq, reduceCtorEq] at h
  all_goals
    obtain ⟨rfl, rfl⟩ := h
    simp [rest]

theorem rest_next (h : m.call = some (i, msg)) : m.next.rest i = [] := by
  cases m <;> simp only [call, Option.some.injEq, Prod.mk.injEq, reduceCtorEq] at h
  all_goals
    obtain ⟨rfl, rfl⟩ := h
    simp [next, rest]

theorem rest_next_of_ne (h : m.call = some (i, msg)) (hij : j ≠ i) : m.next.rest j = m.rest j := by
  have hle : i + 1 ≤ j ↔ i ≤ j := by omega
  cases m <;> simp only [call, Option.some.injEq, Prod.mk.injEq, reduceCtorEq] at h
  all_goals
    obtain ⟨rfl, rfl⟩ := h
    simp [next, rest, hle, hij]

theorem rest_of_leave (h : m.leave n = some m') (hj : j < n) : m'.rest j = m.rest j := by
  have hcut : ∀ {k : Nat} {m₁ m₂ : Main χ}, (if k = n then some m₁ else none) = some m₂ →
      ¬ k ≤ j ∧ m₂ = m₁ := by
    intro k m₁ m₂ hleave
    split at hleave
    · exact ⟨by omega, (Option.some.inj hleave).symm⟩
    · cases hleave
  cases m with
  | send msg k => cases h
  | idle => cases h
  | stopped => cases h
  | init k | poll k | join k =>
      obtain ⟨-, rfl⟩ := hcut h
      rfl
  | sendToAll msg k | stop k =>
      obtain ⟨hk, rfl⟩ := hcut h
      simp [rest, hk]

theorem call_none_of_leave (h : m.leave n = some m') : m'.call = none := by
  have hcut : ∀ {k : Nat} {m₁ : Main χ}, (if k = n then some m₁ else none) = some m' →
      m' = m₁ := by
    intro k m₁ hleave
    split at hleave
    · exact (Option.some.inj hleave).symm
    · cases hleave
  cases m with
  | send msg k | idle | stopped => cases h
  | _ =>
      obtain rfl := hcut h
      rfl

end Main

end

/-! ## The invariant -/

section

variable {n : Nat} {ι χ θ : Type} [DecidableEq ι] {run : TaskMsg χ → θ → θ}

/-- A push appends the task of its caller, and nothing else changes what is pushed. -/
theorem pushed_of_step {s t : Handover.State ι χ θ} {a : Handover.Action ι χ}
    (h : Handover.Step run s a t) :
    (∃ p msg, a = .push p ∧ s.producer p = .locked msg ∧ t.pushed = s.pushed ++ [msg]) ∨
      (∀ p, a ≠ .push p) ∧ t.pushed = s.pushed := by
  cases h with
  | push hlocked => exact Or.inl ⟨_, _, rfl, hlocked, rfl⟩
  | send hready =>
      obtain ⟨counter, -, heq⟩ := s.send_eq
      exact Or.inr ⟨by simp, by rw [heq]⟩
  | evfcCb hwaiting =>
      obtain ⟨-, -, heq⟩ | ⟨-, heq⟩ := s.evfcCb_cases <;> exact Or.inr ⟨by simp, by rw [heq]⟩
  | @task msg rest hhandling hfront =>
      obtain ⟨evfd, thread, -, heq⟩ := s.processTask_eq run msg
      exact Or.inr ⟨by simp, by rw [heq]⟩
  | _ => exact Or.inr ⟨by simp, rfl⟩

namespace Member

variable {s t : Member ι χ θ} {a : Member.Action ι χ}

omit [DecidableEq ι] in
theorem Inv.length_origins (hs : s.Inv) : s.origins.length = s.pushed.length := by
  cases hstarted : s.phase.started with
  | true => exact (hs.live hstarted).origins
  | false =>
      have hpushed : s.pushed = [] := by
        rw [(hs.fresh hstarted).untouched]
        rfl
      rw [(hs.fresh hstarted).origins, hpushed]
      rfl

theorem received_of_hand {b : Handover.Action (Caller ι) χ} {u : Handover.State (Caller ι) χ θ}
    (h : Handover.Step run s.toState b u) (hlength : s.origins.length = s.pushed.length) :
    (∃ msg, b = .push .main ∧ s.producer .main = .locked msg ∧
      (s.note b u).received = s.received ++ [msg]) ∨
      b ≠ .push .main ∧ (s.note b u).received = s.received := by
  obtain ⟨p, msg, rfl, hlocked, hpushed⟩ | ⟨hother, hpushed⟩ := pushed_of_step h
  · have hreceived : (s.note (.push p) u).received =
        s.received ++ if p.isMain then [msg] else [] := by
      rw [received, received, ← fromMain_append hlength, ← hpushed]
      rfl
    cases p with
    | main => exact Or.inl ⟨msg, rfl, hlocked, hreceived⟩
    | other p => exact Or.inr ⟨by simp, by simpa [Caller.isMain] using hreceived⟩
  · refine Or.inr ⟨hother .main, ?_⟩
    have horigins : (s.note b u).origins = s.origins := by
      cases b <;> first | rfl | exact absurd rfl (hother _)
    rw [received, received, horigins, show (s.note b u).pushed = s.pushed from hpushed]

/-- What other threads do concerns neither what the owner has pushed nor its call. -/
theorem Step.other (h : Member.Step run s a t) (hs : s.Inv) (other : byMain a = false) :
    t.received = s.received ∧ t.producer .main = s.producer .main := by
  cases h with
  | @hand b u step prepared =>
      constructor
      · obtain ⟨msg, rfl, -, -⟩ | ⟨-, heq⟩ := received_of_hand step hs.length_origins
        · cases other
        · exact heq
      · apply producer_of_step step
        intro hthread
        cases b <;> cases hthread <;> cases other
  | construct absent => cases other
  | _ => exact ⟨rfl, rfl⟩

/-- What the owner does in one action of a call. -/
inductive Turn (s t : Member ι χ θ) (b : Handover.Action (Caller ι) χ) : Prop where
  | lock (msg : TaskMsg χ) (action : b = .lock .main msg)
      (before : s.producer .main = .outside) (after : t.producer .main = .locked msg)
      (received : t.received = s.received)
  | push (msg : TaskMsg χ) (action : b = .push .main)
      (before : s.producer .main = .locked msg) (after : t.producer .main = .pushed)
      (received : t.received = s.received ++ [msg])
  | stay (action : b ≠ .unlock .main) (before : given (s.producer .main) = true)
      (after : given (t.producer .main) = true) (received : t.received = s.received)
  | unlock (action : b = .unlock .main) (before : given (s.producer .main) = true)
      (after : t.producer .main = .outside) (received : t.received = s.received)

theorem Step.turn {b : Handover.Action (Caller ι) χ} (h : Member.Step run s (.hand b) t)
    (hs : s.Inv) (own : byMain (.hand b : Member.Action ι χ) = true) : Turn s t b := by
  cases h with
  | hand step prepared =>
      have hreceived := received_of_hand step hs.length_origins
      cases step with
      | @lock p msg outside free =>
          cases p with
          | main => exact .lock msg rfl outside (by simp [note]) (by simpa using hreceived)
          | other p => cases own
      | @push p msg locked =>
          cases p with
          | main =>
              obtain ⟨msg', -, hlocked, heq⟩ | ⟨hother, -⟩ := hreceived
              · exact .push msg' rfl hlocked (by simp [note]) heq
              · exact absurd rfl hother
          | other p => cases own
      | @check p pushed =>
          cases p with
          | main =>
              refine .stay (by simp) (by rw [pushed]; rfl) ?_ (by simpa using hreceived)
              simp only [note, Function.update_self]
              split <;> rfl
          | other p => cases own
      | @send p ready =>
          cases p with
          | main =>
              refine .stay (by simp) (by rw [ready]; rfl) ?_ (by simpa using hreceived)
              simp [note, given]
          | other p => cases own
      | @unlock p result leaving =>
          cases p with
          | main =>
              exact .unlock rfl (by rw [leaving]; rfl) (by simp [note]) (by simpa using hreceived)
          | other p => cases own
      | _ => cases own

end Member

variable {s t : State n ι χ θ} {a : Action n ι χ}

omit [DecidableEq ι] in
theorem Recorded.of_same (hs : Recorded s) {j : Fin n}
    (hreceived : (t.members j).received = (s.members j).received)
    (hproducer : (t.members j).producer .main = (s.members j).producer .main)
    (hmain : t.main.rest j = s.main.rest j) (hlog : t.log = s.log) :
    (t.members j).received ++ t.pending j = t.asked j := by
  have hpending : t.pending j = s.pending j := by
    rw [State.pending, State.pending, hproducer, hmain]
  rw [hreceived, hpending, hs.log j, State.asked, State.asked, hlog]

omit [DecidableEq ι] in
/-- A new request is pending where it is meant for. -/
theorem Recorded.of_request (hs : Recorded s) (hinv : s.Inv) (idle : s.main = .idle) {j : Fin n}
    {r : Request χ} (hmembers : t.members = s.members) (hlog : t.log = s.log ++ [r])
    (hrest : t.main.rest j = if r.target.all (· = j.val) then [r.msg] else []) :
    (t.members j).received ++ t.pending j = t.asked j := by
  have houtside : (s.members j).producer .main = .outside :=
    hinv.outside j fun msg => by simp [idle, Main.call]
  have hpending : s.pending j = [] := by
    rw [State.pending, idle, houtside]
    rfl
  have hold := hs.log j
  rw [hpending, List.append_nil] at hold
  rw [State.pending, hmembers, houtside, hrest, hold, State.asked, State.asked, hlog,
    List.filter_append, List.map_append]
  cases hall : r.target.all (· = j.val) <;> simp [given, hall]

omit [DecidableEq ι] in
/-- The owner is inside the call that it makes. -/
theorem State.Inv.called {i : Fin n} (hs : s.Inv)
    (inside : (s.members i).producer .main ≠ .outside) :
    ∃ msg, s.main.call = some (i.val, msg) := by
  by_contra hnone
  exact inside (hs.outside i fun msg hmsg => hnone ⟨msg, hmsg⟩)

theorem Step.locked (h : Step run s a t) (hinv : s.Inv) (hs : Recorded s) (j : Fin n)
    (msg m : TaskMsg χ) (hcall : t.main.call = some (j.val, msg))
    (hlocked : (t.members j).producer .main = .locked m) : m = msg := by
  -- who is not called has not locked
  have hnot : (s.members j).producer .main = .outside →
      (t.members j).producer .main = (s.members j).producer .main → m = msg := by
    intro houtside hsame
    rw [hsame, houtside] at hlocked
    cases hlocked
  cases h with
  | init at_ step => cases hcall
  | @member i b u other step =>
      apply hs.locked j msg m hcall
      by_cases hij : j = i
      · subst hij
        rw [← (step.other (hinv.member j) other).2]
        simpa [State.update] using hlocked
      · simpa [State.update, hij] using hlocked
  | @call i msg' b u calls own sent step =>
      by_cases hij : j = i
      · subst hij
        have hu : u.producer .main = .locked m := by simpa [State.update] using hlocked
        cases step.turn (hinv.member j) own with
        | lock msg'' action before after received =>
            subst action
            obtain rfl := Producer.locked.inj (after.symm.trans hu)
            have hmsg := (Prod.mk.inj (Option.some.inj (calls.symm.trans hcall))).2
            exact (sent _ _ rfl).trans hmsg
        | push msg'' action before after received => simp [after] at hu
        | stay action before after received => simp [hu, given] at after
        | unlock action before after received => simp [after] at hu
      · refine hnot (hinv.outside j fun msg'' hmsg'' => hij (Fin.ext ?_)) ?_
        · exact (Prod.mk.inj (Option.some.inj (hmsg''.symm.trans calls))).1
        · simp [State.update, hij]
  | poll at_ running => cases hcall
  | leave behind =>
      have hnone := Main.call_none_of_leave behind
      rw [show Main.call _ = none from hnone] at hcall
      cases hcall
  | join at_ returned => cases hcall
  | sendToAll _ idle | getLoopThread _ idle _ | stop idle =>
      exact hnot (hinv.outside j fun msg => by simp [idle, Main.call]) rfl

theorem Step.log (h : Step run s a t) (hinv : s.Inv) (hs : Recorded s) (j : Fin n) :
    (t.members j).received ++ t.pending j = t.asked j := by
  cases h with
  | @init i u at_ step =>
      have hsame : ∀ k, (Function.update s.members i u k).received = (s.members k).received ∧
          (Function.update s.members i u k).producer .main = (s.members k).producer .main := by
        intro k
        by_cases hk : k = i
        · subst hk
          cases step
          simp [Member.received]
        · simp [hk]
      exact hs.of_same (hsame j).1 (hsame j).2 (by rw [at_]; rfl) rfl
  | @member i b u other step =>
      by_cases hij : j = i
      · subst hij
        obtain ⟨hreceived, hproducer⟩ := step.other (hinv.member j) other
        exact hs.of_same (by simpa [State.update] using hreceived)
          (by simpa [State.update] using hproducer) rfl rfl
      · exact hs.of_same (by simp [State.update, hij]) (by simp [State.update, hij]) rfl rfl
  | @call i msg b u calls own sent step =>
      by_cases hij : j = i
      · subst hij
        have hlog := hs.log j
        have hrest := Main.rest_of_call calls
        rw [State.pending, hrest] at hlog
        rw [State.pending]
        simp only [State.update, Function.update_self]
        show _ = s.asked j
        cases step.turn (hinv.member j) own with
        | lock msg'' action before after received =>
            subst action
            rw [before] at hlog
            rw [after, received, ← hlog, Main.after_of_ne (by simp), hrest]
            rfl
        | push msg'' action before after received =>
            obtain rfl := hs.locked j msg msg'' calls before
            rw [before] at hlog
            rw [after, received, ← hlog]
            simp [given]
        | stay action before after received =>
            rw [if_pos before] at hlog
            rw [if_pos after, received, hlog]
        | unlock action before after received =>
            subst action
            rw [if_pos before] at hlog
            rw [after, received, ← hlog, Main.after, Main.rest_next calls]
            rfl
      · refine hs.of_same (by simp [State.update, hij]) (by simp [State.update, hij]) ?_ rfl
        show (s.main.after (.hand b)).rest j = s.main.rest j
        by_cases hb : b = .unlock .main
        · subst hb
          exact Main.rest_next_of_ne calls fun heq => hij (Fin.ext heq)
        · rw [Main.after_of_ne hb]
  | poll at_ running => exact hs.of_same rfl rfl (by rw [at_]; rfl) rfl
  | leave behind => exact hs.of_same rfl rfl (Main.rest_of_leave behind j.isLt) rfl
  | join at_ returned => exact hs.of_same rfl rfl (by rw [at_]; rfl) rfl
  | sendToAll msg idle => exact hs.of_request hinv idle rfl rfl (by simp [Main.rest])
  | getLoopThread msg idle pos =>
      refine hs.of_request hinv idle rfl rfl ?_
      simp [Main.rest, eq_comm]
  | stop idle => exact hs.of_request hinv idle rfl rfl (by simp [Main.rest])

theorem Step.recorded (h : Step run s a t) (hinv : s.Inv) (hs : Recorded s) : Recorded t :=
  ⟨h.locked hinv hs, h.log hinv hs⟩

omit [DecidableEq ι] in
theorem start_recorded (threads : Fin n → θ) : Recorded (start threads : State n ι χ θ) where
  locked _ _ _ h := by cases h
  log _ := rfl

/-- What has been pushed stays pushed. -/
theorem Step.pushed_prefix (h : Step run s a t) (j : Fin n) :
    (s.members j).pushed <+: (t.members j).pushed := by
  obtain heq | ⟨b, hstep, -⟩ := h.member_cases j
  · exact ⟨[], by rw [heq, List.append_nil]⟩
  · generalize s.members j = m, t.members j = m' at hstep
    cases hstep with
    | hand step prepared =>
        obtain ⟨p, msg, -, -, hpushed⟩ | ⟨-, hpushed⟩ := pushed_of_step step
        · exact ⟨[msg], hpushed.symm⟩
        · exact ⟨[], (List.append_nil _).trans hpushed.symm⟩
    | _ => exact List.prefix_rfl

/-! ## Agreement -/

/-- Every loop thread handles what the owner asks of it, in order and without a gap;
between two calls of the owner nothing is missing in the queues; and loop threads to
which everything is sent in common do not contradict each other. -/
structure Agreed (s : State n ι χ θ) : Prop where
  inOrder : ∀ i, (s.members i).served <+: s.asked i
  complete : s.main = .idle → ∀ i, (s.members i).received = s.asked i
  common : (∀ r ∈ s.log, r.target = none) → ∀ i j,
    (s.members i).served <+: (s.members j).served ∨ (s.members j).served <+: (s.members i).served

omit [DecidableEq ι] in
theorem Member.Inv.served_received {s : Member ι χ θ} (hs : s.Inv) : s.served <+: s.received := by
  have hconserved : s.Conserved := by
    cases hstarted : s.phase.started with
    | true => exact (hs.live hstarted).inv.conserved
    | false =>
        rw [State.Conserved, (hs.fresh hstarted).untouched]
        rfl
  rw [Member.served, Member.received, ← show _ = s.pushed from hconserved, List.append_assoc]
  exact fromMain_of_append

omit [DecidableEq ι] in
theorem asked_eq (h : ∀ r ∈ s.log, r.target = none) (i j : Nat) : s.asked i = s.asked j := by
  rw [State.asked, State.asked]
  congr 1
  apply List.filter_congr
  intro r hr
  rw [h r hr]
  rfl

omit [DecidableEq ι] in
theorem Recorded.agreed (hs : Recorded s) (hinv : s.Inv) : Agreed s := by
  have hserved : ∀ i, (s.members i).served <+: s.asked i := by
    intro i
    rw [← hs.log i]
    exact (hinv.member i).served_received.trans (List.prefix_append _ _)
  refine ⟨hserved, fun hidle i => ?_, fun hcommon i j => ?_⟩
  · have hlog := hs.log i
    have hpending : s.pending i = [] := by
      rw [State.pending, hidle, hinv.outside i fun msg => by simp [hidle, Main.call]]
      rfl
    rwa [hpending, List.append_nil] at hlog
  · have hj := hserved j
    rw [asked_eq hcommon j i] at hj
    exact List.prefix_or_prefix_of_prefix (hserved i) hj

/-- In every run, the loop threads agree with what has been asked for, and with each
other. -/
theorem agreed_along {threads : Fin n → θ} {trace : List (Action n ι χ × State n ι χ θ)}
    (hrun : Steps (Step run) (start threads) trace) : Along Agreed (start threads) trace := by
  have hrecorded : Along (fun s => s.Inv ∧ Recorded s) (start threads) trace :=
    hrun.along ⟨start_inv threads, start_recorded threads⟩ fun s a t hs hstep =>
      ⟨hstep.inv hs.1, hstep.recorded hs.1 hs.2⟩
  exact hrecorded.mono fun s hs => hs.2.agreed hs.1

/-- A task is sent to both loop threads, and one of them has had a task of another
caller before. -/
theorem agreed_after_sendToAll :
    ∃ t : State 2 Bool Unit Nat,
      Reaches (Step fun _ n => n + 1) (start fun _ => 0) t ∧
        (∀ i, (t.members i).served = [⟨.newListener, .connInfo ()⟩]) ∧
        (t.members 1).handled = [⟨.delSession, .socket 5⟩, ⟨.newListener, .connInfo ()⟩] ∧
        (t.members 1).thread = 2 ∧ t.asked 1 = [⟨.newListener, .connInfo ()⟩] ∧ Agreed t := by
  have hrest : ∀ i, ((launched fun _ => 0 : State 2 Bool Unit Nat).members i).Resting :=
    fun _ => Member.resting_launched 0
  have hrest' := resting_posted (i := 1) hrest (.other true) ⟨.delSession, .socket 5⟩
  have hreach : ∃ t : State 2 Bool Unit Nat,
      Reaches (Sending (fun _ _ => True) fun _ n => n + 1) (start fun _ => 0) t ∧
        (∀ i, (t.members i).served = [⟨.newListener, .connInfo ()⟩]) ∧
        (t.members 1).handled = [⟨.delSession, .socket 5⟩, ⟨.newListener, .connInfo ()⟩] ∧
        (t.members 1).thread = 2 ∧ t.asked 1 = [⟨.newListener, .connInfo ()⟩] := by
    refine ⟨_, (reaches_launched _ fun _ => 0).trans <|
      (reaches_post (p := true) _ trivial (hrest 1)).trans <|
      (reaches_sentToAll _ _ trivial rfl hrest').trans <|
      reaches_drained _ (fun i => (hrest' i).post _ _) (fun i => EventFd.write_pos _) ?_ ?_,
      ?_, rfl, rfl, rfl⟩
    all_goals decide
  obtain ⟨t, ⟨trace, hsending, rfl⟩, hserved, hhandled, hthread, hasked⟩ := hreach
  have hrun := hsending.mono fun _ _ _ h => h.1
  exact ⟨_, ⟨trace, hrun, rfl⟩, hserved, hhandled, hthread, hasked, (agreed_along hrun).final⟩

end

end Canal.Pool
