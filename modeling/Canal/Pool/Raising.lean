import Canal.Handover.Mailbox
import Canal.Pool.Settling

/-!
# Tasks that raise

Nobody catches an exception that leaves `process_msg`, so a task that raises ends the
program. The model of the hand-over goes on as if the exception had been caught; here such a
step leads to no state.

Whether a task may raise is a property of the tasks that callers send. Such a property
goes with the tasks through the pool: it holds of what is about to be pushed, of what
has been pushed, and so of what a loop thread has in front of it.
-/

namespace Canal.Pool

open Handover Trace

section

variable {n : Nat} {ι χ θ : Type}

/-! ## What callers send -/

/-- What has been pushed to a loop thread, or is about to be, has a property. -/
structure Member.Carries (P : Caller ι → TaskMsg χ → Prop) (m : Member ι χ θ) : Prop where
  pushed : ∀ e ∈ m.origins.zip m.pushed, P e.1 e.2
  locked : ∀ p msg, m.producer p = .locked msg → P p msg

/-- All tasks that callers have sent have a property. -/
structure Carries (P : Caller ι → TaskMsg χ → Prop) (s : State n ι χ θ) : Prop where
  member : ∀ i, (s.members i).Carries P
  called : ∀ i msg, s.main.call = some (i, msg) → P .main msg
  log : ∀ r ∈ s.log, P .main r.msg

variable {P : Caller ι → TaskMsg χ → Prop}

theorem start_carries (threads : Fin n → θ) : Carries P (start threads : State n ι χ θ) where
  member _ := ⟨nofun, nofun⟩
  called _ _ h := by cases h
  log _ hr := by cases hr

namespace Member

variable {m m' : Member ι χ θ}

theorem Carries.mem (hm : m.Carries P) (hinv : m.Inv) {msg : TaskMsg χ} (h : msg ∈ m.pushed) :
    ∃ p, P p msg := by
  rw [← List.map_snd_zip (Nat.le_of_eq hinv.length_origins.symm)] at h
  obtain ⟨⟨p, msg⟩, hmem, rfl⟩ := List.mem_map.mp h
  exact ⟨p, hm.pushed _ hmem⟩

/-- The tasks in the hands of the loop have been pushed. -/
theorem Inv.pushed_of_mem (hinv : m.Inv) {msg : TaskMsg χ}
    (h : msg ∈ m.handled ++ m.tmpTaskQueue) : msg ∈ m.pushed := by
  cases hstarted : m.phase.started with
  | true =>
      have hconserved : m.handled ++ m.tmpTaskQueue ++ m.taskQueue = m.pushed :=
        (hinv.live hstarted).inv.conserved
      rw [← hconserved]
      exact List.mem_append_left _ h
  | false =>
      rw [(hinv.fresh hstarted).untouched] at h
      cases h

variable [DecidableEq ι] {run : TaskMsg χ → θ → θ}

/-- A producer that holds a task has taken the mutex with it. -/
theorem locked_of_step {s t : Handover.State ι χ θ} {a : Handover.Action ι χ}
    (h : Handover.Step run s a t) {p : ι} {msg : TaskMsg χ} (hlocked : t.producer p = .locked msg) :
    a = .lock p msg ∨ s.producer p = .locked msg := by
  by_cases hthread : a.thread = .producer p
  · left
    cases h <;> simp only [Handover.Action.thread, Holder.producer.injEq, reduceCtorEq] at hthread
    all_goals
      subst hthread
      simp only [Function.update_self] at hlocked
    · obtain rfl := Producer.locked.inj hlocked
      rfl
    · cases hlocked
    · split at hlocked <;> cases hlocked
    · cases hlocked
    · cases hlocked
  · right
    rw [← producer_of_step h hthread]
    exact hlocked

theorem Step.carries {a : Member.Action ι χ} (h : Step run m a m') (hinv : m.Inv)
    (hm : m.Carries P) (hlock : ∀ p msg, a = .hand (.lock p msg) → P p msg) : m'.Carries P := by
  cases h with
  | @hand b u step prepared =>
      refine ⟨?_, fun p msg hlocked => ?_⟩
      · obtain ⟨p, msg, rfl, hlocked, hpushed⟩ | ⟨hother, hpushed⟩ := pushed_of_step step
        · intro e he
          have hzip : (m.note (.push p) u).origins.zip (m.note (.push p) u).pushed =
              m.origins.zip m.pushed ++ [(p, msg)] := by
            rw [show (m.note (.push p) u).pushed = m.pushed ++ [msg] from hpushed]
            exact List.zip_append hinv.length_origins
          rw [hzip] at he
          obtain he | he := List.mem_append.mp he
          · exact hm.pushed e he
          · obtain rfl := List.mem_singleton.mp he
            exact hm.locked p msg hlocked
        · have horigins : (m.note b u).origins = m.origins := by
            cases b <;> first | rfl | exact absurd rfl (hother _)
          rw [horigins, show (m.note b u).pushed = m.pushed from hpushed]
          exact hm.pushed
      · obtain rfl | hbefore :=
          locked_of_step step (show u.producer p = .locked msg from hlocked)
        · exact hlock p msg rfl
        · exact hm.locked p msg hbefore
  | _ => exact ⟨hm.pushed, hm.locked⟩

end Member

variable [DecidableEq ι] {run : TaskMsg χ → θ → θ} {s t : State n ι χ θ} {a : Action n ι χ}

omit [DecidableEq ι] in
/-- The calls of one loop are all for the same task. -/
theorem Main.call_after {m : Main χ} {b : Member.Action ι χ} {i j : Nat} {msg msg' : TaskMsg χ}
    (h : m.call = some (i, msg)) (hafter : (m.after b).call = some (j, msg')) : msg' = msg := by
  unfold after at hafter
  split at hafter
  · cases m <;> simp_all [call, next]
  · exact ((Prod.mk.inj (Option.some.inj (h.symm.trans hafter))).2).symm

omit [DecidableEq ι] in
/-- A new request. -/
theorem Carries.request (hs : Carries P s) {r : Request χ} (hr : P .main r.msg)
    (hmembers : t.members = s.members) (hlog : t.log = s.log ++ [r])
    (hcall : ∀ i msg, t.main.call = some (i, msg) → msg = r.msg) : Carries P t where
  member := by
    rw [hmembers]
    exact hs.member
  called i msg h := by
    rw [hcall i msg h]
    exact hr
  log := by
    rw [hlog]
    intro r' hr'
    obtain hr' | hr' := List.mem_append.mp hr'
    · exact hs.log r' hr'
    · rwa [List.mem_singleton.mp hr']

theorem Step.carries (h : Step run s a t) (hinv : s.Inv) (hs : Carries P s)
    (hsends : ∀ e ∈ a.sends, P e.1 e.2) : Carries P t := by
  have hupdate : ∀ {i : Fin n} {u : Member ι χ θ}, u.Carries P →
      ∀ j, (Function.update s.members i u j).Carries P := by
    intro i u hu j
    by_cases hj : j = i
    · subst hj
      rwa [Function.update_self]
    · rw [Function.update_of_ne hj]
      exact hs.member j
  cases h with
  | @init i u at_ step =>
      refine ⟨hupdate (step.carries (hinv.member i) (hs.member i) nofun), ?_, hs.log⟩
      exact fun j msg hcall => by cases hcall
  | @member i b u other step =>
      refine ⟨hupdate (step.carries (hinv.member i) (hs.member i) ?_), hs.called, hs.log⟩
      rintro p msg rfl
      cases p with
      | main => cases other
      | other p => exact hsends _ rfl
  | @call i msg b u calls own sent step =>
      have hmsg := hs.called i msg calls
      refine ⟨hupdate (step.carries (hinv.member i) (hs.member i) ?_), ?_, hs.log⟩
      · intro p msg' heq
        obtain rfl := Member.Action.hand.inj heq
        obtain rfl := sent p msg' rfl
        cases p with
        | main => exact hmsg
        | other p => cases own
      · intro j msg' hcall
        rwa [Main.call_after calls hcall]
  | poll at_ running | join at_ returned =>
      exact ⟨hs.member, fun j msg hcall => (by cases hcall), hs.log⟩
  | leave behind =>
      refine ⟨hs.member, fun j msg hcall => ?_, hs.log⟩
      rw [show Main.call _ = none from Main.call_none_of_leave behind] at hcall
      cases hcall
  | sendToAll msg idle | getLoopThread msg idle _ | stop idle =>
      refine hs.request (hsends _ rfl) rfl rfl fun i msg' hcall => ?_
      exact (Prod.mk.inj (Option.some.inj hcall)).2.symm

/-! ## The program left alone -/

/-- The step is a turn of a loop for a task that raises. -/
def raises (perform : TaskMsg χ → θ → Option θ) (s : State n ι χ θ) : Action n ι χ → Bool
  | .member i (.hand .task) =>
      (s.members i).tmpTaskQueue.head?.any fun msg =>
        msg.casts && (perform msg (s.members i).thread).isNone
  | _ => false

/-- What happens while no call begins. A task that raises ends the program. -/
def Alone (perform : TaskMsg χ → θ → Option θ) :
    Option (State n ι χ θ) → Action n ι χ → Option (State n ι χ θ) → Prop :=
  Breakable (Internal (caught perform)) fun s a => raises perform s a = true

/-- A step that sends no task that may raise. -/
def Action.Safe (perform : TaskMsg χ → θ → Option θ) (a : Action n ι χ) : Prop :=
  ∀ e ∈ a.sends, ∀ thread, perform e.2 thread ≠ none

variable {perform : TaskMsg χ → θ → Option θ} {threads : Fin n → θ}
  {trace : List (Action n ι χ × State n ι χ θ)}

omit [DecidableEq ι] in
theorem Carries.not_raises (hs : Carries (fun _ msg => ∀ thread, perform msg thread ≠ none) s)
    (hinv : s.Inv) (a : Action n ι χ) : ¬ raises perform s a = true := by
  unfold raises
  split
  · rename_i i
    rw [Option.any_eq_true]
    rintro ⟨msg, hfront, hraises⟩
    have hpushed := (hinv.member i).pushed_of_mem
      (List.mem_append_right _ (List.mem_of_mem_head? hfront))
    obtain ⟨p, hsafe⟩ := (hs.member i).mem (hinv.member i) hpushed
    simp [hsafe] at hraises
  · simp

theorem Internal.sends (h : Internal run s a t) : a.sends = none := by
  have hbegins := h.begins
  unfold Action.sends
  split <;> first | cases hbegins | rfl

theorem Internal.carries (h : Internal run s a t) (hinv : s.Inv) (hs : Carries P s) :
    Carries P t := by
  apply h.step.carries hinv hs
  rw [h.sends]
  exact nofun

theorem carries_of_run (hrun : Steps (Step run) (start threads) trace)
    (hsends : ∀ p ∈ trace, ∀ e ∈ p.1.sends, P e.1 e.2) :
    Along (Carries P) (start threads) trace := by
  have hall := hrun.mem.along (I := fun s => s.Inv ∧ Carries P s)
    ⟨start_inv threads, start_carries threads⟩ fun s a t hs hstep =>
      ⟨hstep.1.inv hs.1, hstep.1.carries hs.1 hs.2 (hsends _ hstep.2)⟩
  exact hall.mono fun _ hs => hs.2

/-- What has been pushed stays pushed. -/
theorem pushed_prefix_alone (h : Reaches (Alone perform) (some s) (some t))
    (i : Fin n) : (s.members i).pushed <+: (t.members i).pushed := by
  have hall := h.invariant (I := fun o => ∀ u ∈ o, (s.members i).pushed <+: (u.members i).pushed)
    (fun u hu => ?_) fun o a o' ho hstep u hu => ?_
  · exact hall t rfl
  · obtain rfl := Option.some.inj hu
    exact List.prefix_rfl
  · cases hstep with
    | goes step holds =>
        obtain rfl := Option.some.inj hu
        exact (ho _ rfl).trans (step.step.pushed_prefix i)
    | ends step broken => cases hu

/-- Nothing is asked for while no call begins. -/
theorem Internal.log_eq (h : Internal run s a t) : t.log = s.log := by
  have hbegins := h.begins
  cases h.step with
  | sendToAll | getLoopThread | stop => cases hbegins
  | _ => rfl

theorem log_eq_alone (h : Reaches (Alone perform) (some s) (some t)) : t.log = s.log := by
  have hall := h.invariant (I := fun o => ∀ u ∈ o, u.log = s.log)
    (fun u hu => by rw [← Option.some.inj hu]) fun o a o' ho hstep u hu => ?_
  · exact hall t rfl
  · cases hstep with
    | goes step holds =>
        obtain rfl := Option.some.inj hu
        exact step.log_eq.trans (ho _ rfl)
    | ends step broken => cases hu

/-- What is inevitable while no call begins comes true unless a task raises before, and
no task raises that cannot do so. -/
theorem inevitable_alone {Q : State n ι χ θ → Prop}
    (hrun : Steps (Step (caught perform)) (start threads) trace)
    (h : Inevitable (Internal (caught perform)) Q (final (start threads) trace)) :
    Inevitable (Alone perform) (fun o => ∀ t ∈ o, Q t) (some (final (start threads) trace)) ∧
      ((∀ p ∈ trace, p.1.Safe perform) →
        Inevitable (Alone perform) (fun o => ∃ t ∈ o, Q t)
          (some (final (start threads) trace))) := by
  refine ⟨h.unless_broken, fun hsafe => ?_⟩
  let Holds : Caller ι → TaskMsg χ → Prop := fun _ msg => ∀ thread, perform msg thread ≠ none
  have hcarries := (carries_of_run (P := Holds) hrun fun p hp => hsafe p hp).final
  apply h.unbroken (I := fun s => s.Inv ∧ Carries Holds s) ⟨(inv_along hrun).final, hcarries⟩
  · exact fun s a t hs hstep => ⟨hstep.step.inv hs.1, hstep.carries hs.1 hs.2⟩
  · exact fun s a hs => hs.2.not_raises hs.1 a

end

end Canal.Pool
