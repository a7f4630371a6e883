import Canal.Pool.Schedule

/-!
# From construction to the running loop

`loop_thread_pool::init` returns when every loop runs. By then each loop thread has
its eventfd, the client that writes to it and the server that reads it, and nobody
has called `send2loop_thread` on it before. So no call finds a loop thread half made:
a loop thread of the pool refuses a task only after it has handled an `EXIT_LOOP`.

The other side of this is that `init` waits for ever if one loop thread fails.

The invariant of a loop thread has two halves. Until its loop is started, its queue
is untouched; from then on it is a run of the hand-over.
-/

namespace Canal.Pool

open Handover Trace

/-! ## What actions at the queue do to the eventfd -/

section

variable {ι χ θ : Type} [DecidableEq ι] {run : TaskMsg χ → θ → θ} {s t : Handover.State ι χ θ}
  {a : Handover.Action ι χ}

omit [DecidableEq ι] in
theorem processTask_evfd (msg : TaskMsg χ) :
    (s.processTask run msg).evfd = if msg.type = .exitLoop then 0 else s.evfd := by
  obtain ⟨type, body⟩ := msg
  cases type <;> cases body <;> rfl

/-- An eventfd that is closed stays closed. -/
theorem evfd_of_step (h : Handover.Step run s a t) : t.evfd = s.evfd ∨ t.evfd = 0 := by
  cases h with
  | send hready =>
      obtain ⟨counter, -, heq⟩ := s.send_eq
      exact Or.inl (by rw [heq])
  | evfcCb hwaiting =>
      obtain ⟨-, -, heq⟩ | ⟨-, heq⟩ := s.evfcCb_cases <;> exact Or.inl (by rw [heq])
  | @task msg rest hhandling hfront =>
      rw [processTask_evfd]
      split
      · exact Or.inr rfl
      · exact Or.inl rfl
  | _ => exact Or.inl rfl

/-- `EXIT_LOOP` closes the eventfd. -/
theorem closed_of_step (h : Handover.Step run s a t) (hs : ¬ s.Serving → s.evfd = 0)
    (ht : ¬ t.Serving) : t.evfd = 0 := by
  by_cases hserving : s.Serving
  · cases h with
    | send hready =>
        obtain ⟨counter, -, heq⟩ := s.send_eq
        rw [heq] at ht
        exact absurd hserving ht
    | evfcCb hwaiting =>
        obtain ⟨-, -, heq⟩ | ⟨-, heq⟩ := s.evfcCb_cases <;>
          · rw [heq] at ht
            exact absurd hserving ht
    | @task msg rest hhandling hfront =>
        rw [processTask_evfd]
        split
        · rfl
        · rename_i hexit
          obtain ⟨evfd, thread, -, heq⟩ := s.processTask_eq run msg
          rw [heq] at ht
          refine absurd (fun m hm => ?_) ht
          obtain hm | hm := List.mem_append.mp hm
          · exact hserving m hm
          · rwa [List.mem_singleton.mp hm]
    | _ => exact absurd hserving ht
  · obtain heq | hzero := evfd_of_step h
    · rw [heq, hs hserving]
    · exact hzero

/-- A call is refused because the eventfd is closed. -/
theorem refused_of_step (h : Handover.Step run s a t)
    (hs : ∀ p, s.producer p = .leaving false → s.evfd = 0) (p : ι)
    (hp : t.producer p = .leaving false) : t.evfd = 0 := by
  have hclosed : s.evfd = 0 := by
    obtain hleaving | ⟨-, hclosed⟩ := Refusal.refused_of_leaving h hp
    · exact hs p hleaving
    · exact hclosed
  obtain heq | hzero := evfd_of_step h
  · rw [heq, hclosed]
  · exact hzero

/-- Only the loop moves the loop. -/
theorem loop_of_step (h : Handover.Step run s a t) (ha : a.thread ≠ .loop) : t.loop = s.loop := by
  cases h with
  | send hready =>
      obtain ⟨counter, -, heq⟩ := s.send_eq
      rw [heq]
  | lock | push | check | unlock => rfl
  | _ => exact absurd rfl ha

/-- Only a caller moves the caller. -/
theorem producer_of_step (h : Handover.Step run s a t) {p : ι} (ha : a.thread ≠ .producer p) :
    t.producer p = s.producer p := by
  have hne : ∀ {q : ι}, a.thread = .producer q → p ≠ q := by
    rintro q hq rfl
    exact ha hq
  cases h with
  | lock | push | check | send | unlock => exact Function.update_of_ne (hne rfl) _ _
  | evfcCb hwaiting =>
      obtain ⟨-, -, heq⟩ | ⟨-, heq⟩ := s.evfcCb_cases <;> rw [heq]
  | @task msg rest hhandling hfront =>
      obtain ⟨evfd, thread, -, heq⟩ := s.processTask_eq run msg
      rw [heq]
  | _ => rfl

end

/-! ## One loop thread -/

section

variable {n : Nat} {ι χ θ : Type} [DecidableEq ι] {run : TaskMsg χ → θ → θ}

namespace Member

variable {s t : Member ι χ θ} {a : Member.Action ι χ}

/-- Nothing has been done to the queue, and behind `eventfd` the descriptor is valid. -/
structure Fresh (s : Member ι χ θ) : Prop where
  untouched : s.toState = Handover.start s.evfd s.thread
  loopexit : s.loopexit = false
  origins : s.origins = []
  opened : s.phase = .opened ∨ s.phase = .connected ∨ s.phase = .served → s.evfd ≠ 0

/-- The loop has been started. -/
structure Live (s : Member ι χ θ) : Prop where
  inv : s.toState.Inv
  exclusive : s.Exclusive
  shut : s.evfd = 0 ↔ s.loopexit = true
  closed : ¬ s.Serving → s.evfd = 0
  refused : ∀ p, s.producer p = .leaving false → s.evfd = 0
  inLoop : s.loop ≠ .waiting → s.phase = .running
  finished : s.phase = .finished → s.loopexit = true
  origins : s.origins.length = s.pushed.length

structure Inv (s : Member ι χ θ) : Prop where
  fresh : s.phase.started = false → s.Fresh
  live : s.phase.started = true → s.Live

omit [DecidableEq ι] in
theorem Fresh.move (hs : s.Fresh) (phase : Phase)
    (hphase : phase = .opened ∨ phase = .connected ∨ phase = .served → s.evfd ≠ 0) :
    Fresh { s with phase := phase } :=
  ⟨hs.untouched, hs.loopexit, hs.origins, hphase⟩

omit [DecidableEq ι] in
/-- The hand-over begins when the loop is started. -/
theorem Fresh.live (hs : s.Fresh) (served : s.phase = .served) :
    Live { s with phase := .running } := by
  have hopen := hs.opened (Or.inr (Or.inr served))
  have hstart := hs.untouched
  have hproducer : s.producer = fun _ => .outside := by rw [hstart]; rfl
  refine ⟨?_, ?_, ?_, ?_, ?_, fun _ => rfl, nofun, ?_⟩
  · rw [hstart]
    exact start_inv (Nat.pos_of_ne_zero hopen)
  · rw [hstart]
    exact start_exclusive _ _
  · exact iff_of_false hopen (by simp [hs.loopexit])
  · refine fun hserving => absurd (fun msg hmsg => ?_) hserving
    have hhandled : s.handled = [] := by rw [hstart]; rfl
    simp [hhandled] at hmsg
  · intro p hp
    simp [hproducer] at hp
  · have hpushed : s.pushed = [] := by rw [hstart]; rfl
    simp [hs.origins, hpushed]

omit [DecidableEq ι] in
theorem inv_of_fresh (hs : s.Fresh) (h : s.phase.started = false) : s.Inv :=
  ⟨fun _ => hs, fun hstarted => by simp [h] at hstarted⟩

omit [DecidableEq ι] in
theorem inv_of_live (hs : s.Live) (h : s.phase.started = true) : s.Inv :=
  ⟨fun hfresh => by simp [h] at hfresh, fun _ => hs⟩

omit [DecidableEq ι] in
theorem loopAction_running {b : Handover.Action (Caller ι) χ} (hb : b.thread = .loop)
    (h : s.Prepared b) : s.phase = .running := by
  cases b <;> first | exact h | cases hb

/-- Before the loop is started, only the owner of the pool could call. -/
theorem started_of_hand {b : Handover.Action (Caller ι) χ} {u : Handover.State (Caller ι) χ θ}
    (h : Handover.Step run s.toState b u) (prepared : s.Prepared b)
    (hfresh : s.phase.started = false → s.Fresh) (hmain : ∀ msg, b ≠ .lock .main msg) :
    s.phase.started = true := by
  by_contra hstarted
  have hproducer : s.producer = fun _ => .outside := by
    rw [(hfresh (by simpa using hstarted)).untouched]
    rfl
  have hrunning : s.phase ≠ .running := fun hphase => hstarted (by rw [hphase]; rfl)
  cases h with
  | @lock p msg houtside hfree =>
      cases p with
      | main => exact hmain msg rfl
      | other p => exact hstarted prepared
  | push hinside | check hinside | send hinside | unlock hinside => simp [hproducer] at hinside
  | _ => exact hrunning prepared

/-- The steps of the hand-over keep a live loop thread alive. -/
theorem Live.hand {b : Handover.Action (Caller ι) χ} {u : Handover.State (Caller ι) χ θ}
    (hs : s.Live) (h : Handover.Step run s.toState b u) (prepared : s.Prepared b) :
    Live (s.note b u) where
  inv := h.inv hs.inv
  exclusive := h.exclusive hs.exclusive
  shut := by
    have hshut := hs.shut
    simp only [note, Bool.or_eq_true, Bool.and_eq_true, decide_eq_true_eq]
    obtain heq | hzero := evfd_of_step h
    · rw [heq, hshut]
      simp only [ne_eq, hshut]
      tauto
    · simp only [hzero, ne_eq, hshut]
      tauto
  closed := closed_of_step h hs.closed
  refused := refused_of_step h hs.refused
  inLoop hmoved := by
    by_cases hb : b.thread = .loop
    · exact loopAction_running hb prepared
    · exact hs.inLoop (by rwa [show (s.note b u).loop = s.loop from loop_of_step h hb] at hmoved)
  finished hphase := by
    simp [note, hs.finished hphase]
  origins := by
    have hkeep := hs.origins
    cases h with
    | push hlocked => simp [note, hkeep]
    | send hready =>
        obtain ⟨counter, -, heq⟩ := s.toState.send_eq
        simp [note, heq, hkeep]
    | evfcCb hwaiting =>
        obtain ⟨-, -, heq⟩ | ⟨-, heq⟩ := s.toState.evfcCb_cases <;> simp [note, heq, hkeep]
    | @task msg rest hhandling hfront =>
        obtain ⟨evfd, thread, -, heq⟩ := s.toState.processTask_eq run msg
        simp [note, heq, hkeep]
    | _ => exact hkeep

theorem Step.inv (h : Step run s a t) (hs : s.Inv)
    (hmain : ∀ msg, a = .hand (.lock .main msg) → s.phase.started = true) : t.Inv := by
  have hfresh : ∀ {phase : Phase}, s.phase = phase → phase.started = false → s.Fresh :=
    fun hphase hnot => hs.fresh (hphase ▸ hnot)
  cases h with
  | construct absent => exact inv_of_fresh ((hfresh absent rfl).move _ nofun) rfl
  | loop created => exact inv_of_fresh ((hfresh created rfl).move _ nofun) rfl
  | eventfd fd looped =>
      have hs' := hfresh looped rfl
      refine inv_of_fresh ⟨?_, hs'.loopexit, hs'.origins, ?_⟩ ?_
      · exact congrArg (fun u => { u with evfd := fd, counter := .zero }) hs'.untouched
      · intro hphase
        by_cases hfd : fd = 0 ∨ fd = Refusal.failed
        · simp [hfd] at hphase
        · exact fun hzero => hfd (Or.inl hzero)
      · dsimp only
        split <;> rfl
  | client opened =>
      have hs' := hfresh opened rfl
      exact inv_of_fresh (hs'.move _ fun _ => hs'.opened (Or.inl opened)) rfl
  | server added connected =>
      have hs' := hfresh connected rfl
      refine inv_of_fresh (hs'.move _ fun _ => hs'.opened (Or.inr (Or.inl connected))) ?_
      cases added <;> rfl
  | run served => exact inv_of_live ((hfresh served rfl).live served) rfl
  | @hand b u step prepared =>
      have hstarted : s.phase.started = true := by
        by_cases hb : ∃ msg, b = .lock .main msg
        · obtain ⟨msg, rfl⟩ := hb
          exact hmain msg rfl
        · exact started_of_hand step prepared hs.fresh fun msg hmsg => hb ⟨msg, hmsg⟩
      exact inv_of_live ((hs.live hstarted).hand step prepared) hstarted
  | exit running waiting exiting =>
      have hlive := hs.live (by rw [running]; rfl)
      refine inv_of_live ?_ rfl
      exact ⟨hlive.inv, hlive.exclusive, hlive.shut, hlive.closed, hlive.refused,
        fun hmoved => absurd waiting hmoved, fun _ => exiting, hlive.origins⟩

/-- A loop that has been started stays so. -/
theorem Step.started (h : Step run s a t) (hs : s.phase.started = true) :
    t.phase.started = true := by
  cases h with
  | hand step prepared => exact hs
  | exit running waiting exiting => rfl
  | run served => rfl
  | construct hphase | loop hphase | eventfd _ hphase | client hphase | server _ hphase =>
      rw [hphase] at hs
      cases hs

/-- A loop thread that has failed stays so. -/
theorem Step.failed (h : Step run s a t) (hs : s.phase = .failed) : t.phase = .failed := by
  cases h with
  | hand step prepared => exact hs
  | construct hphase | loop hphase | eventfd _ hphase | client hphase | server _ hphase
  | run hphase | exit hphase =>
      rw [hphase] at hs
      cases hs

end Member

/-! ## The pool -/

namespace Main

/-- The owner has seen the loop of a loop thread run. -/
def polled : Main χ → Nat → Prop
  | .init _, _ => False
  | .poll j, i => i < j
  | _, _ => True

/-- The owner has made a loop thread. -/
def made : Main χ → Nat → Prop
  | .init j, i => i < j
  | _, _ => True

/-- The owner has not run past its loop threads. -/
def Within (n : Nat) : Main χ → Prop
  | .init i | .poll i | .sendToAll _ i | .stop i | .join i => i ≤ n
  | .send _ i => i < n
  | .idle | .stopped => True

variable {m m' : Main χ} {msg : TaskMsg χ} {i j : Nat}

theorem within_of_leave (h : m.leave n = some m') : m'.Within n := by
  cases m with
  | send _ _ | idle | stopped => cases h
  | init i | poll i | sendToAll _ i | stop i | join i =>
      rw [leave] at h
      split at h
      · obtain rfl := Option.some.inj h
        first | trivial | exact Nat.zero_le n
      · cases h

theorem next_within (h : m.call = some (i, msg)) (hi : i < n) : m.next.Within n := by
  cases m <;> simp only [call, Option.some.injEq, Prod.mk.injEq, reduceCtorEq] at h
  all_goals
    obtain ⟨rfl, -⟩ := h
    trivial

theorem polled_of_call (h : m.call = some (i, msg)) (j : Nat) : m.polled j := by
  cases m <;> trivial

theorem made_of_polled (h : m.polled j) : m.made j := by
  cases m <;> trivial

/-- Behind a loop over all loop threads, it has been through each of them. -/
theorem polled_of_leave (h : m.leave n = some m') (hj : j < n) (hm : m'.polled j) :
    m.polled j := by
  cases m with
  | init i =>
      rw [leave] at h
      split at h
      · obtain rfl := Option.some.inj h
        exact absurd hm (Nat.not_lt_zero j)
      · cases h
  | poll i =>
      rw [leave] at h
      split at h
      · rename_i heq
        exact heq ▸ hj
      · cases h
  | _ => trivial

theorem made_of_leave (h : m.leave n = some m') (hj : j < n) : m.made j := by
  cases m with
  | init i =>
      rw [leave] at h
      split at h
      · rename_i heq
        exact heq ▸ hj
      · cases h
  | _ => trivial

theorem made_after_leave (h : m.leave n = some m') : m'.made j := by
  cases m with
  | send _ _ | idle | stopped => cases h
  | init i | poll i | sendToAll _ i | stop i | join i =>
      rw [leave] at h
      split at h
      · obtain rfl := Option.some.inj h
        trivial
      · cases h

theorem call_of_leave (h : m.leave n = some m') (hi : i < n) (msg : TaskMsg χ) :
    m.call ≠ some (i, msg) := by
  have hne : ∀ {j : Nat} {m'' : Main χ} {msg' : TaskMsg χ},
      (if j = n then some m'' else none) = some m' → some (j, msg') ≠ some (i, msg) := by
    intro j m'' msg' hleave heq
    obtain ⟨rfl, -⟩ := Prod.mk.inj (Option.some.inj heq)
    rw [if_neg (Nat.ne_of_lt hi)] at hleave
    cases hleave
  cases m with
  | sendToAll msg' j => exact hne h
  | stop j => exact hne h
  | send msg' j => cases h
  | _ => simp [call]

theorem next_polled (h : m.call = some (i, msg)) (j : Nat) : m.next.polled j := by
  cases m <;> trivial

end Main

/-- The owner has seen the loops run that it has polled, it is inside a call only on
the loop thread that it calls, and loop threads exist from their construction on. -/
structure State.Inv (s : State n ι χ θ) : Prop where
  member : ∀ i, (s.members i).Inv
  polled : ∀ i : Fin n, s.main.polled i → (s.members i).phase.started = true
  outside : ∀ i : Fin n, (∀ msg, s.main.call ≠ some (i.val, msg)) →
    (s.members i).producer .main = .outside
  made : ∀ i : Fin n, s.main.made i ↔ (s.members i).phase ≠ .absent
  within : s.main.Within n

variable {s t : State n ι χ θ} {a : Action n ι χ}

/-- A step of the pool is a step of at most one loop thread. What the owner does at
a queue belongs to the call that it makes. -/
theorem Step.member_cases (h : Step run s a t) (j : Fin n) :
    t.members j = s.members j ∨ ∃ b, Member.Step run (s.members j) b (t.members j) ∧
      (byMain b = true → b = .construct ∨ ∃ msg, s.main.call = some (j.val, msg)) := by
  have hupdate : ∀ {i : Fin n} {u : Member ι χ θ} {b : Member.Action ι χ},
      t.members = Function.update s.members i u → Member.Step run (s.members i) b u →
      (byMain b = true → b = .construct ∨ ∃ msg, s.main.call = some (i.val, msg)) →
      t.members j = s.members j ∨ ∃ b, Member.Step run (s.members j) b (t.members j) ∧
        (byMain b = true → b = .construct ∨ ∃ msg, s.main.call = some (j.val, msg)) := by
    intro i u b hmembers hstep hmain
    by_cases hij : j = i
    · subst hij
      rw [hmembers, Function.update_self]
      exact Or.inr ⟨b, hstep, hmain⟩
    · rw [hmembers, Function.update_of_ne hij]
      exact Or.inl rfl
  cases h with
  | init at_ step => exact hupdate rfl step fun _ => Or.inl rfl
  | member other step => exact hupdate rfl step fun hmain => by simp [other] at hmain
  | call calls own sent step => exact hupdate rfl step fun _ => Or.inr ⟨_, calls⟩
  | _ => exact Or.inl rfl

theorem Step.started (h : Step run s a t) (j : Fin n) (hs : (s.members j).phase.started = true) :
    (t.members j).phase.started = true := by
  obtain heq | ⟨b, hstep, -⟩ := h.member_cases j
  · rw [heq, hs]
  · exact hstep.started hs

theorem Step.failed (h : Step run s a t) (j : Fin n) (hs : (s.members j).phase = .failed) :
    (t.members j).phase = .failed := by
  obtain heq | ⟨b, hstep, -⟩ := h.member_cases j
  · rw [heq, hs]
  · exact hstep.failed hs

theorem Step.member_inv (h : Step run s a t) (hs : s.Inv) (j : Fin n) : (t.members j).Inv := by
  obtain heq | ⟨b, hstep, hmain⟩ := h.member_cases j
  · rw [heq]
    exact hs.member j
  · apply hstep.inv (hs.member j)
    intro msg hb
    subst hb
    obtain hconstruct | ⟨msg, hcall⟩ := hmain rfl
    · cases hconstruct
    · exact hs.polled j (Main.polled_of_call hcall j)

theorem Step.polled (h : Step run s a t) (hs : s.Inv) (j : Fin n) (hj : t.main.polled j) :
    (t.members j).phase.started = true := by
  have hkeep : s.main.polled j → (t.members j).phase.started = true :=
    fun hpolled => h.started j (hs.polled j hpolled)
  cases h with
  | init at_ step => exact hj.elim
  | member other step => exact hkeep hj
  | call calls own sent step => exact hkeep (Main.polled_of_call calls j)
  | @poll i at_ running =>
      obtain hlt | heq := Nat.lt_succ_iff_lt_or_eq.mp hj
      · exact hkeep (by rw [at_]; exact hlt)
      · obtain rfl := Fin.ext heq
        show (s.members j).phase.started = true
        cases hphase : (s.members j).phase <;> rw [hphase] at running <;>
          first | rfl | simp [Phase.status] at running
  | leave behind => exact hkeep (Main.polled_of_leave behind j.isLt hj)
  | sendToAll msg idle | getLoopThread msg idle _ | stop idle => exact hkeep (by rw [idle]; trivial)
  | join at_ returned => exact hkeep (by rw [at_]; trivial)

/-- Who is not called by the owner is not called by it after the step either, unless
a call begins. -/
theorem Step.outside (h : Step run s a t) (hs : s.Inv) (j : Fin n)
    (hj : ∀ msg, t.main.call ≠ some (j.val, msg)) : (t.members j).producer .main = .outside := by
  have hkeep : ∀ {i : Fin n} {u : Member ι χ θ},
      (i = j → u.producer .main = .outside) →
      (i ≠ j → (s.members j).producer .main = .outside) →
      ((Function.update s.members i u) j).producer .main = .outside := by
    intro i u hi hne
    by_cases hij : i = j
    · subst hij
      rw [Function.update_self]
      exact hi rfl
    · rw [Function.update_of_ne (Ne.symm hij)]
      exact hne hij
  cases h with
  | @init i u at_ step =>
      have hnocall : (s.members j).producer .main = .outside :=
        hs.outside j fun msg => by simp [at_, Main.call]
      refine hkeep (fun hij => ?_) fun _ => hnocall
      cases step with
      | construct absent => exact hij ▸ hnocall
  | @member i b u other step =>
      have hnocall := hs.outside j hj
      refine hkeep (fun hij => ?_) fun _ => hnocall
      subst hij
      cases step with
      | @hand b u step prepared =>
          refine (producer_of_step step ?_).trans hnocall
          rintro hthread
          cases b <;> cases hthread <;> cases other
      | _ => exact hnocall
  | @call i msg b u calls own sent step =>
      have hother : i ≠ j → (s.members j).producer .main = .outside := by
        refine fun hij => hs.outside j fun msg' hcall => hij (Fin.ext ?_)
        exact (Prod.mk.inj (Option.some.inj (calls.symm.trans hcall))).1
      refine hkeep (fun hij => ?_) hother
      subst hij
      -- a call that goes on is still there, so it is the one that returns
      cases step with
      | hand step prepared =>
          cases step with
          | @unlock p result leaving =>
              cases p with
              | main => simp [Member.note]
              | other p => cases own
          | @lock p | @push p | @check p | @send p =>
              cases p with
              | main => exact absurd calls (hj msg)
              | other p => cases own
          | _ => cases own
  | poll at_ running => exact hs.outside j fun msg => by simp [at_, Main.call]
  | leave behind => exact hs.outside j fun msg => Main.call_of_leave behind j.isLt msg
  | sendToAll msg idle | getLoopThread msg idle _ | stop idle =>
      exact hs.outside j fun msg => by simp [idle, Main.call]
  | join at_ returned => exact hs.outside j fun msg => by simp [at_, Main.call]

/-- A loop thread is there from its construction on. -/
theorem Member.Step.present_iff {s t : Member ι χ θ} {a : Member.Action ι χ}
    (h : Member.Step run s a t) (ha : a ≠ .construct) : t.phase ≠ .absent ↔ s.phase ≠ .absent := by
  have hboth : ∀ {phase : Phase}, s.phase = phase → phase ≠ .absent → t.phase ≠ .absent →
      (t.phase ≠ .absent ↔ s.phase ≠ .absent) :=
    fun hphase hs ht => iff_of_true ht (hphase ▸ hs)
  cases h with
  | construct absent => exact absurd rfl ha
  | loop hphase | client hphase | run hphase | exit hphase => exact hboth hphase (by simp) (by simp)
  | eventfd fd hphase =>
      apply hboth hphase (by simp)
      dsimp only
      split <;> simp
  | server added hphase => exact hboth hphase (by simp) (by cases added <;> simp)
  | hand step prepared => rfl

theorem Step.made (h : Step run s a t) (hs : s.Inv) (j : Fin n) :
    t.main.made j ↔ (t.members j).phase ≠ .absent := by
  have hkeep : t.members j = s.members j → s.main.made j → t.main.made j →
      (t.main.made j ↔ (t.members j).phase ≠ .absent) := by
    intro hsame hbefore hafter
    rw [hsame]
    exact iff_of_true hafter ((hs.made j).mp hbefore)
  cases h with
  | @init i u at_ step =>
      have hs' := hs.made j
      rw [at_] at hs'
      by_cases hij : j = i
      · subst hij
        cases step
        simp [State.update, Main.made]
      · have hlt : j.val < i.val + 1 ↔ j.val < i.val := by
          have : j.val ≠ i.val := fun heq => hij (Fin.ext heq)
          omega
        simpa [State.update, hij, Main.made, hlt] using hs'
  | @member i b u other step =>
      by_cases hij : j = i
      · subst hij
        have hb : b ≠ .construct := by
          rintro rfl
          cases other
        simpa [State.update] using (hs.made j).trans (step.present_iff hb).symm
      · simpa [State.update, hij] using hs.made j
  | @call i msg b u calls own sent step =>
      have hbefore := Main.made_of_polled (Main.polled_of_call calls j)
      have hafter : (s.main.after (.hand b : Member.Action ι χ)).made j := by
        by_cases hb : b = .unlock .main
        · subst hb
          exact Main.made_of_polled (Main.next_polled calls j)
        · rwa [Main.after_of_ne hb]
      apply iff_of_true hafter
      have hpresent := (hs.made j).mp hbefore
      by_cases hij : j = i
      · subst hij
        simpa [State.update] using (step.present_iff (by simp)).mpr hpresent
      · simpa [State.update, hij] using hpresent
  | leave behind =>
      exact hkeep rfl (Main.made_of_leave behind j.isLt) (Main.made_after_leave behind)
  | poll at_ | join at_ => exact hkeep rfl (by rw [at_]; trivial) trivial
  | sendToAll msg idle | getLoopThread msg idle _ | stop idle =>
      exact hkeep rfl (by rw [idle]; trivial) trivial

theorem Step.within (h : Step run s a t) (hs : s.Inv) : t.main.Within n := by
  have hwithin := hs.within
  cases h with
  | @init i u at_ step => exact i.isLt
  | member other step => exact hwithin
  | @call i msg b u calls own sent step =>
      by_cases hb : b = .unlock .main
      · subst hb
        exact Main.next_within calls i.isLt
      · show (s.main.after (.hand b : Member.Action ι χ)).Within n
        rwa [Main.after_of_ne hb]
  | @poll i at_ running => exact i.isLt
  | leave behind => exact Main.within_of_leave behind
  | sendToAll msg idle => exact Nat.zero_le n
  | getLoopThread msg idle pos => exact Nat.mod_lt _ pos
  | stop idle => exact Nat.zero_le n
  | @join i at_ returned => exact i.isLt

theorem Step.inv (h : Step run s a t) (hs : s.Inv) : t.Inv :=
  ⟨h.member_inv hs, h.polled hs, h.outside hs, h.made hs, h.within hs⟩

omit [DecidableEq ι] in
theorem start_inv (threads : Fin n → θ) : (start threads : State n ι χ θ).Inv where
  member _ := Member.inv_of_fresh ⟨rfl, rfl, rfl, nofun⟩ rfl
  polled _ h := h.elim
  outside _ _ := rfl
  made i := iff_of_false (Nat.not_lt_zero i) (by simp [start])
  within := Nat.zero_le n

theorem inv_along {threads : Fin n → θ} {trace : List (Action n ι χ × State n ι χ θ)}
    (hrun : Steps (Step run) (start threads) trace) : Along State.Inv (start threads) trace :=
  hrun.along (start_inv threads) fun _ _ _ hs hstep => hstep.inv hs

/-! ## What `init` ensures -/

/-- `init` is over only when all loops have been started; a call is refused only by a
loop thread that has handled an `EXIT_LOOP`; and the owner calls nobody who has no
client of its eventfd. -/
structure Ready (s : State n ι χ θ) : Prop where
  started : s.main = .idle → ∀ i, (s.members i).phase.started = true
  refused : ∀ i p, (s.members i).producer p = .leaving false →
    ∃ msg ∈ (s.members i).handled, msg.type = .exitLoop
  client : ∀ i, (s.members i).producer .main ≠ .outside → (s.members i).phase.hasClient = true

omit [DecidableEq ι] in
theorem Member.Inv.refused {s : Member ι χ θ} (hs : s.Inv) {p : Caller ι}
    (hp : s.producer p = .leaving false) : ∃ msg ∈ s.handled, msg.type = .exitLoop := by
  cases hstarted : s.phase.started with
  | false =>
      rw [(hs.fresh hstarted).untouched] at hp
      cases hp
  | true =>
      by_contra hexit
      refine (hs.live hstarted).inv.shut ?_ ((hs.live hstarted).refused p hp)
      exact fun msg hmsg htype => hexit ⟨msg, hmsg, htype⟩

/-- In every run, no call finds a loop thread half made. -/
theorem ready_along {threads : Fin n → θ} {trace : List (Action n ι χ × State n ι χ θ)}
    (hrun : Steps (Step run) (start threads) trace) : Along Ready (start threads) trace := by
  refine (inv_along hrun).mono fun s hs => ⟨?_, ?_, ?_⟩
  · intro hidle i
    exact hs.polled i (by rw [hidle]; trivial)
  · intro i p hp
    exact (hs.member i).refused hp
  · intro i hinside
    have hcall : ∃ msg, s.main.call = some (i.val, msg) := by
      by_contra hnone
      exact hinside (hs.outside i fun msg hmsg => hnone ⟨msg, hmsg⟩)
    obtain ⟨msg, hcall⟩ := hcall
    have hstarted := hs.polled i (Main.polled_of_call hcall i)
    cases hphase : (s.members i).phase <;> rw [hphase] at hstarted <;> first | rfl | cases hstarted

/-- Two loop threads are started, and a task is sent to both. -/
theorem ready_after_init :
    ∃ t : State 2 Bool Unit Nat,
      Reaches (Step fun _ n => n + 1) (start fun _ => 0) t ∧ t.main = .idle ∧
        (∀ i, (t.members i).taskQueue = [⟨.newListener, .connInfo ()⟩]) ∧ Ready t := by
  have hreach : ∃ t : State 2 Bool Unit Nat,
      Reaches (Sending (fun _ _ => True) fun _ n => n + 1) (start fun _ => 0) t ∧
        t.main = .idle ∧ ∀ i, (t.members i).taskQueue = [⟨.newListener, .connInfo ()⟩] :=
    ⟨_, (reaches_launched _ fun _ => 0).trans
      (reaches_sentToAll _ _ trivial rfl fun _ => Member.resting_launched 0), rfl, fun _ => rfl⟩
  obtain ⟨t, ⟨trace, hsending, rfl⟩, hidle, hqueue⟩ := hreach
  have hrun := hsending.mono fun _ _ _ h => h.1
  exact ⟨_, ⟨trace, hrun, rfl⟩, hidle, hqueue, (ready_along hrun).final⟩

/-- If a loop thread fails to start, the owner of the pool does not get past polling
it in any run that follows. -/
theorem stuck_along {threads : Fin n → θ} {trace rest : List (Action n ι χ × State n ι χ θ)}
    (hrun : Steps (Step run) (start threads) (trace ++ rest)) {i : Fin n}
    (failed : ((final (start threads) trace).members i).phase = .failed) :
    Along (fun s => ¬ s.main.polled i) (final (start threads) trace) rest := by
  obtain ⟨hbefore, hafter⟩ := steps_append.mp hrun
  have hfailed : Along (fun s => s.Inv ∧ (s.members i).phase = .failed)
      (final (start threads) trace) rest :=
    hafter.along ⟨(inv_along hbefore).final, failed⟩ fun s a t hs hstep =>
      ⟨hstep.inv hs.1, hstep.failed i hs.2⟩
  apply hfailed.mono
  intro s hs hpolled
  have hstarted := hs.1.polled i hpolled
  rw [hs.2] at hstarted
  cases hstarted

/-- Without an eventfd for the first loop thread, its owner goes on polling it when the
other loop thread runs. -/
theorem stuck_without_eventfd :
    ∃ s t : State 2 Bool Unit Nat,
      Reaches (Step fun _ n => n + 1) (start fun _ => 0) s ∧ (s.members 0).phase = .failed ∧
        Reaches (Step fun _ n => n + 1) s t ∧ (t.members 1).phase = .running ∧
        t.main = .poll 0 ∧ ¬ t.main.polled 0 := by
  have hfails : ∃ s : State 2 Bool Unit Nat,
      Reaches (Sending (fun _ _ => True) fun _ n => n + 1) (start fun _ => 0) s ∧
        (s.members 0).phase = .failed ∧
        s.members 1 = { evfd := 0, thread := 0, phase := .created } ∧ s.main = .poll 0 :=
    ⟨_, (reaches_polling _ fun _ => 0).trans <|
      .cons (a := Action.member 0 .loop) (.of_none (.member rfl (.loop rfl)) rfl) <|
      .cons (a := Action.member 0 (.eventfd 0)) (.of_none (.member rfl (.eventfd 0 rfl)) rfl)
        .nil, rfl, rfl, rfl⟩
  obtain ⟨s, ⟨trace, hsending, rfl⟩, hfailed, hcreated, hmain⟩ := hfails
  have hrun := hsending.mono fun _ _ _ h => h.1
  obtain ⟨rest, hgoes, hfinal⟩ :=
    reaches_running (P := fun _ _ => True) (fun _ n => n + 1) hcreated
  have hrest := hgoes.mono fun _ _ _ h => h.1
  have hstuck := (stuck_along (steps_append.mpr ⟨hrun, hrest⟩) hfailed).final
  rw [hfinal] at hstuck
  exact ⟨_, _, ⟨trace, hrun, rfl⟩, hfailed, ⟨rest, hrest, hfinal⟩, by rw [members_update]; rfl,
    hmain, hstuck⟩

end

end Canal.Pool
