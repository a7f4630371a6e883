import Canal.Handover.Basic

/-!
# Every task is handed over

Two things are shown of every run from an initialised loop thread. The tasks
handled, the rest of the batch and `_task_queue` make up the tasks pushed, in
order. And as long as no `EXIT_LOOP` has been handled, a task that waits in
`_task_queue` is announced: a producer has still to send, or the counter is
positive, or the loop has read it and has yet to swap.

The counter is read outside the mutex and reset as a whole, so it may be zero
while tasks are queued, and positive while there are none. What makes the
announcement inductive is its second half: between the read and the swap the loop
itself is the announcement, and it takes whatever has been pushed by then.
-/

namespace Canal.Handover

open Trace

/-- The loop has read the counter and has not swapped the queue yet. -/
def Loop.hasRead : Loop → Bool
  | .woken | .locked => true
  | _ => false

/-- The loop holds the mutex. -/
def Loop.holds : Loop → Bool
  | .locked | .swapped => true
  | _ => false

/-- The loop has a batch. -/
def Loop.hasBatch : Loop → Bool
  | .swapped | .handling => true
  | _ => false

/-- The producer has pushed its task and not sent yet. -/
def Producer.owes {χ : Type} : Producer χ → Bool
  | .pushed | .ready => true
  | _ => false

namespace State

variable {ι χ θ : Type}

/-- Nothing is lost, duplicated or reordered. -/
def Conserved (s : State ι χ θ) : Prop :=
  s.handled ++ s.tmpTaskQueue ++ s.taskQueue = s.pushed

/-- No `EXIT_LOOP` has been handled. -/
def Serving (s : State ι χ θ) : Prop := ∀ msg ∈ s.handled, msg.type ≠ .exitLoop

/-- A queued task is announced once no producer is inside its critical section. -/
def NoLostWakeUp (s : State ι χ θ) : Prop :=
  s.taskQueue ≠ [] → (∀ p, s.producer p = .outside) →
    0 < s.counter.value ∨ s.loop.hasRead = true

/-- A queued task is announced, or the producer that will do so is inside. -/
def Announced (s : State ι χ θ) : Prop :=
  s.taskQueue ≠ [] →
    0 < s.counter.value ∨ s.loop.hasRead = true ∨ ∃ p, (s.producer p).owes = true

/-- What holds in every state. -/
structure Inv (s : State ι χ θ) : Prop where
  conserved : s.Conserved
  noBatch : s.loop.hasBatch = false → s.tmpTaskQueue = []
  shut : s.Serving → s.evfd ≠ 0
  announced : s.Serving → s.Announced

theorem Announced.noLostWakeUp {s : State ι χ θ} (h : s.Announced) : s.NoLostWakeUp := by
  intro hqueue houtside
  obtain hcounter | hread | ⟨p, hp⟩ := h hqueue
  · exact Or.inl hcounter
  · exact Or.inr hread
  · rw [houtside p] at hp
    cases hp

/-- The threads other than `p` keep what they owe. -/
theorem Announced.update [DecidableEq ι] {s t : State ι χ θ} {p : ι} {phase : Producer χ}
    (h : s.Announced) (hp : (s.producer p).owes = false) (hqueue : t.taskQueue = s.taskQueue)
    (hcounter : t.counter = s.counter) (hloop : t.loop = s.loop)
    (hproducer : t.producer = Function.update s.producer p phase) : t.Announced := by
  intro hne
  rw [hcounter, hloop, hproducer]
  obtain hpos | hread | ⟨q, hq⟩ := h (hqueue ▸ hne)
  · exact Or.inl hpos
  · exact Or.inr (Or.inl hread)
  · refine Or.inr (Or.inr ⟨q, ?_⟩)
    have hqp : q ≠ p := by
      rintro rfl
      rw [hp] at hq
      cases hq
    rwa [Function.update_of_ne hqp]

end State

section

variable {ι χ θ : Type} [DecidableEq ι] {run : TaskMsg χ → θ → θ} {s t : State ι χ θ}
  {a : Action ι χ}

open State

/-- The tasks handled only grow. -/
theorem Step.serving (h : Step run s a t) (ht : t.Serving) : s.Serving := by
  cases h with
  | send hready =>
      obtain ⟨counter, -, heq⟩ := s.send_eq
      rw [heq] at ht
      exact ht
  | evfcCb hwaiting =>
      obtain ⟨-, -, heq⟩ | ⟨-, heq⟩ := s.evfcCb_cases
      · rw [heq] at ht
        exact ht
      · rwa [heq] at ht
  | task hhandling hfront =>
      obtain ⟨evfd, thread, -, heq⟩ := s.processTask_eq run _
      rw [heq] at ht
      intro msg hmsg
      exact ht msg (List.mem_append_left _ hmsg)
  | _ => exact ht

theorem Step.conserved (h : Step run s a t)
    (hcons : s.handled ++ s.tmpTaskQueue ++ s.taskQueue = s.pushed)
    (hnone : s.loop.hasBatch = false → s.tmpTaskQueue = []) : t.Conserved := by
  cases h with
  | push hlocked =>
      show s.handled ++ s.tmpTaskQueue ++ (s.taskQueue ++ _) = s.pushed ++ _
      rw [← hcons, List.append_assoc _ s.taskQueue]
  | send hready =>
      obtain ⟨counter, -, heq⟩ := s.send_eq
      rw [heq]
      exact hcons
  | evfcCb hwaiting =>
      obtain ⟨-, -, heq⟩ | ⟨-, heq⟩ := s.evfcCb_cases
      · rw [heq]
        show s.handled ++ [] ++ s.taskQueue = s.pushed
        rw [← hcons, hnone (by rw [hwaiting]; rfl)]
      · rwa [heq]
  | swap hlocked =>
      show s.handled ++ s.taskQueue ++ s.tmpTaskQueue = s.pushed
      have hempty : s.tmpTaskQueue = [] := hnone (by rw [hlocked]; rfl)
      rw [← hcons, hempty, List.append_nil, List.append_nil]
  | @task msg rest hhandling hfront =>
      obtain ⟨evfd, thread, -, heq⟩ := s.processTask_eq run msg
      rw [heq]
      show s.handled ++ [msg] ++ s.tmpTaskQueue.tail ++ s.taskQueue = s.pushed
      rw [← hcons, hfront]
      simp
  | _ => exact hcons

theorem Step.noBatch (h : Step run s a t) (hnone : s.loop.hasBatch = false → s.tmpTaskQueue = [])
    (ht : t.loop.hasBatch = false) : t.tmpTaskQueue = [] := by
  cases h with
  | send hready =>
      obtain ⟨counter, -, heq⟩ := s.send_eq
      rw [heq] at ht ⊢
      exact hnone ht
  | evfcCb hwaiting =>
      obtain ⟨-, -, heq⟩ | ⟨-, heq⟩ := s.evfcCb_cases
      · rw [heq]
      · rw [heq] at ht ⊢
        exact hnone ht
  | acquire hwoken hfree => exact hnone (by rw [hwoken]; rfl)
  | swap hlocked => cases ht
  | release hswapped =>
      by_cases hempty : s.tmpTaskQueue = []
      · exact hempty
      · simp [hempty, Loop.hasBatch] at ht
  | @task msg rest hhandling hfront =>
      obtain ⟨evfd, thread, -, heq⟩ := s.processTask_eq run msg
      rw [heq, hhandling] at ht
      cases ht
  | finish hhandling hempty => exact hempty
  | _ => exact hnone ht

theorem Step.shut (h : Step run s a t) (hs : s.Inv) (ht : t.Serving) : t.evfd ≠ 0 := by
  have hopen : s.evfd ≠ 0 := hs.shut (h.serving ht)
  cases h with
  | send hready =>
      obtain ⟨counter, -, heq⟩ := s.send_eq
      rw [heq]
      exact hopen
  | evfcCb hwaiting =>
      obtain ⟨-, -, heq⟩ | ⟨-, heq⟩ := s.evfcCb_cases
      · rw [heq]
        exact hopen
      · rwa [heq]
  | @task msg rest hhandling hfront =>
      obtain ⟨evfd, thread, hevfd, heq⟩ := s.processTask_eq run msg
      rw [heq] at ht ⊢
      show evfd ≠ 0
      rw [hevfd (ht msg (List.mem_append_right _ (List.mem_singleton_self _)))]
      exact hopen
  | _ => exact hopen

theorem Step.announced (h : Step run s a t) (hs : s.Inv) (ht : t.Serving) : t.Announced := by
  have hopen : s.evfd ≠ 0 := hs.shut (h.serving ht)
  have hann : s.Announced := hs.announced (h.serving ht)
  cases h with
  | lock msg houtside hfree => exact hann.update (by rw [houtside]; rfl) rfl rfl rfl rfl
  | @push p msg hlocked =>
      exact fun _ => Or.inr (Or.inr ⟨p, by simp [Producer.owes]⟩)
  | @check p hpushed =>
      exact fun _ => Or.inr (Or.inr ⟨p, by simp [hopen, Producer.owes]⟩)
  | send hready =>
      obtain ⟨counter, hpos, heq⟩ := s.send_eq
      rw [heq]
      exact fun _ => Or.inl (hpos hopen)
  | unlock hleaving => exact hann.update (by rw [hleaving]; rfl) rfl rfl rfl rfl
  | evfcCb hwaiting =>
      obtain ⟨-, -, heq⟩ | ⟨-, heq⟩ := s.evfcCb_cases
      · rw [heq]
        exact fun _ => Or.inr (Or.inl rfl)
      · rwa [heq]
  | acquire hwoken hfree => exact fun _ => Or.inr (Or.inl rfl)
  | swap hlocked =>
      -- The swap takes everything that has been pushed: nothing is left to announce.
      intro hqueue
      exact absurd (hs.noBatch (by rw [hlocked]; rfl)) hqueue
  | release hswapped =>
      intro hqueue
      obtain hpos | hread | howes := hann hqueue
      · exact Or.inl hpos
      · rw [hswapped] at hread
        cases hread
      · exact Or.inr (Or.inr howes)
  | @task msg rest hhandling hfront =>
      obtain ⟨evfd, thread, -, heq⟩ := s.processTask_eq run msg
      rw [heq]
      exact hann
  | finish hhandling hempty =>
      intro hqueue
      obtain hpos | hread | howes := hann hqueue
      · exact Or.inl hpos
      · rw [hhandling] at hread
        cases hread
      · exact Or.inr (Or.inr howes)

theorem Step.inv (h : Step run s a t) (hs : s.Inv) : t.Inv :=
  ⟨h.conserved hs.conserved hs.noBatch, h.noBatch hs.noBatch, h.shut hs, h.announced hs⟩

omit [DecidableEq ι] in
theorem start_inv {evfd : Nat} {thread : θ} (initialised : 0 < evfd) :
    (start evfd thread : State ι χ θ).Inv :=
  ⟨rfl, fun _ => rfl, fun _ => Nat.pos_iff_ne_zero.mp initialised, fun _ h => absurd rfl h⟩

/-- Along every run the tasks are handed over in order, each once, and none waits
unannounced before an `EXIT_LOOP` has been handled. -/
theorem handedOver_along {evfd : Nat} {thread : θ} {trace : List (Action ι χ × State ι χ θ)}
    (initialised : 0 < evfd) (hrun : Steps (Step run) (start evfd thread) trace) :
    Along (fun s => s.Conserved ∧ (s.Serving → s.NoLostWakeUp)) (start evfd thread) trace := by
  have inv : Along State.Inv (start evfd thread) trace :=
    hrun.along (start_inv initialised) fun s a t hs hstep => hstep.inv hs
  exact inv.mono fun s hs => ⟨hs.conserved, fun hserving => (hs.announced hserving).noLostWakeUp⟩

/-- A task that is pushed while the loop handles the one before stays announced. -/
theorem handedOver_after_overlap :
    ∃ t : State Bool Unit Nat,
      Reaches (Step fun _ n => n + 1) (start 3 0) t ∧ t.handled = [⟨.delSession, .socket 5⟩] ∧
        t.taskQueue = [⟨.delSession, .socket 6⟩] ∧
        t.handled ++ t.tmpTaskQueue ++ t.taskQueue = t.pushed ∧ t.NoLostWakeUp := by
  have hreach : ∃ t : State Bool Unit Nat,
      Reaches (Step fun _ n => n + 1) (start 3 0) t ∧ t.handled = [⟨.delSession, .socket 5⟩] ∧
        t.taskQueue = [⟨.delSession, .socket 6⟩] :=
    ⟨_, .cons (a := Action.lock false ⟨.delSession, .socket 5⟩) (.lock _ rfl rfl) <|
      .cons (a := Action.push false) (.push rfl) <|
      .cons (a := Action.check false) (.check rfl) <|
      .cons (a := Action.send false) (.send rfl) <|
      .cons (a := Action.unlock false) (.unlock rfl) <|
      .cons (a := Action.evfcCb) (.evfcCb rfl) <|
      .cons (a := Action.acquire) (.acquire rfl rfl) <|
      .cons (a := Action.swap) (.swap rfl) <|
      .cons (a := Action.release) (.release rfl) <|
      .cons (a := Action.lock true ⟨.delSession, .socket 6⟩) (.lock _ rfl rfl) <|
      .cons (a := Action.push true) (.push rfl) <|
      .cons (a := Action.check true) (.check rfl) <|
      .cons (a := Action.task) (.task rfl rfl) <|
      .cons (a := Action.send true) (.send rfl) <|
      .cons (a := Action.unlock true) (.unlock rfl) .nil, rfl, rfl⟩
  obtain ⟨t, ⟨trace, hrun, rfl⟩, hhandled, hqueue⟩ := hreach
  obtain ⟨hconserved, hawake⟩ := (handedOver_along (by decide) hrun).final
  refine ⟨_, ⟨trace, hrun, rfl⟩, hhandled, hqueue, hconserved, hawake ?_⟩
  simp [State.Serving, hhandled]

end

end Canal.Handover
