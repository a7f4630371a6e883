import Canal.Handover.WakeUp

/-!
# The mutex

In every state, the mutex belongs to the thread that is inside its critical
section, so at most one thread is inside at a time. The critical section of a
producer is its call of `send2loop_thread`, that of the loop the swap in
`process_msg`.
-/

namespace Canal.Handover

open Trace

namespace State

variable {ι χ θ : Type} {s t : State ι χ θ} {k : Holder ι}

/-- The thread is inside its critical section. -/
def Inside (s : State ι χ θ) : Holder ι → Prop
  | .producer p => s.producer p ≠ .outside
  | .loop => s.loop.holds = true

/-- The mutex is held by the thread that is inside its critical section. -/
def Exclusive (s : State ι χ θ) : Prop := ∀ k, s.Inside k ↔ s.mtx = some k

theorem Exclusive.take (hs : s.Exclusive) (free : s.mtx = none) (held : t.mtx = some k)
    (inside : t.Inside k) (others : ∀ j, j ≠ k → (t.Inside j ↔ s.Inside j)) : t.Exclusive := by
  intro j
  by_cases hj : j = k
  · subst hj
    exact iff_of_true inside held
  · rw [others j hj, hs j, free, held]
    simp [Ne.symm hj]

theorem Exclusive.give (hs : s.Exclusive) (inside : s.Inside k) (free : t.mtx = none)
    (outside : ¬t.Inside k) (others : ∀ j, j ≠ k → (t.Inside j ↔ s.Inside j)) :
    t.Exclusive := by
  intro j
  by_cases hj : j = k
  · subst hj
    exact iff_of_false outside (by simp [free])
  · rw [others j hj, hs j, free, (hs k).mp inside]
    simp [Ne.symm hj]

theorem Exclusive.keep (hs : s.Exclusive) (hmtx : t.mtx = s.mtx)
    (same : ∀ j, t.Inside j ↔ s.Inside j) : t.Exclusive := by
  intro j
  rw [same j, hs j, hmtx]

/-- A step of a producer does not move the other threads. -/
theorem inside_update [DecidableEq ι] {p : ι} {phase : Producer χ} (hloop : t.loop = s.loop)
    (hproducer : t.producer = Function.update s.producer p phase) (hk : k ≠ .producer p) :
    t.Inside k ↔ s.Inside k := by
  cases k with
  | producer q =>
      have hq : q ≠ p := fun h => hk (h ▸ rfl)
      show t.producer q ≠ .outside ↔ s.producer q ≠ .outside
      rw [hproducer, Function.update_of_ne hq]
  | loop =>
      show t.loop.holds = true ↔ s.loop.holds = true
      rw [hloop]

/-- A producer that moves on inside its critical section stays inside. -/
theorem inside_advance [DecidableEq ι] {p : ι} {phase : Producer χ}
    (inside : s.producer p ≠ .outside) (stays : phase ≠ .outside) (hloop : t.loop = s.loop)
    (hproducer : t.producer = Function.update s.producer p phase) (k : Holder ι) :
    t.Inside k ↔ s.Inside k := by
  by_cases hk : k = .producer p
  · subst hk
    refine iff_of_true ?_ inside
    show t.producer p ≠ .outside
    rwa [hproducer, Function.update_self]
  · exact inside_update hloop hproducer hk

/-- A step of the loop does not move the producers. -/
theorem inside_loop (hproducer : t.producer = s.producer) (hk : k ≠ .loop) :
    t.Inside k ↔ s.Inside k := by
  cases k with
  | producer p =>
      show t.producer p ≠ .outside ↔ s.producer p ≠ .outside
      rw [hproducer]
  | loop => exact absurd rfl hk

/-- A step of the loop that neither takes nor gives the mutex. -/
theorem inside_stay (hproducer : t.producer = s.producer)
    (hloop : t.loop.holds = s.loop.holds) (k : Holder ι) : t.Inside k ↔ s.Inside k := by
  by_cases hk : k = .loop
  · subst hk
    show t.loop.holds = true ↔ s.loop.holds = true
    rw [hloop]
  · exact inside_loop hproducer hk

end State

section

variable {ι χ θ : Type} [DecidableEq ι] {run : TaskMsg χ → θ → θ} {s t : State ι χ θ}
  {a : Action ι χ}

open State

theorem Step.exclusive (h : Step run s a t) (hs : s.Exclusive) : t.Exclusive := by
  cases h with
  | @lock p msg houtside hfree =>
      refine hs.take (k := .producer p) hfree rfl ?_ fun j => inside_update rfl rfl
      simp [Inside]
  | push hlocked =>
      exact hs.keep rfl (inside_advance (by simp [hlocked]) (by simp) rfl rfl)
  | check hpushed =>
      exact hs.keep rfl (inside_advance (by simp [hpushed]) (by split <;> simp) rfl rfl)
  | send hready =>
      obtain ⟨counter, -, heq⟩ := s.send_eq
      rw [heq]
      exact hs.keep rfl (inside_advance (by simp [hready]) (by simp) rfl rfl)
  | @unlock p result hleaving =>
      refine hs.give (k := .producer p) ?_ rfl ?_ fun j => inside_update rfl rfl
      · simp [Inside, hleaving]
      · simp [Inside]
  | evfcCb hwaiting =>
      obtain ⟨-, -, heq⟩ | ⟨-, heq⟩ := s.evfcCb_cases
      · rw [heq]
        exact hs.keep rfl (inside_stay rfl (by rw [hwaiting]; rfl))
      · rwa [heq]
  | acquire hwoken hfree => exact hs.take (k := .loop) hfree rfl rfl fun j => inside_loop rfl
  | swap hlocked => exact hs.keep rfl (inside_stay rfl (by rw [hlocked]; rfl))
  | release hswapped =>
      refine hs.give (k := .loop) ?_ rfl ?_ fun j => inside_loop rfl
      · simp [Inside, hswapped, Loop.holds]
      · simp only [Inside]
        split <;> simp [Loop.holds]
  | @task msg rest hhandling hfront =>
      obtain ⟨evfd, thread, -, heq⟩ := s.processTask_eq run msg
      rw [heq]
      exact hs.keep rfl (inside_stay rfl rfl)
  | finish hhandling hempty => exact hs.keep rfl (inside_stay rfl (by rw [hhandling]; rfl))

omit [DecidableEq ι] in
theorem start_exclusive (evfd : Nat) (thread : θ) :
    (start evfd thread : State ι χ θ).Exclusive := by
  intro k
  cases k <;> simp [start, Inside, Loop.holds]

end

end Canal.Handover
