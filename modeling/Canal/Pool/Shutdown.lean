import Canal.Pool.Raising
import Mathlib.Data.List.TakeWhile

/-!
# The pool comes to rest, and stops

Where no thread can go on unless a call begins, the pool is settled: the queues are
drained, and the owner is between two calls, has stopped the pool, or polls a loop
thread that has failed. Every step lowers the potential, so the pool settles from
every reachable state, whatever the order of the steps, unless a task raises.

From this it follows that `stop` returns. By then every loop is over, and what had
been pushed to a loop thread before the first `EXIT_LOOP` has been handled: the pool
stops gracefully.
-/

namespace Canal.Pool

open Handover Trace

section

variable {n : Nat} {ι χ θ : Type} [DecidableEq ι] {run : TaskMsg χ → θ → θ}

/-! ## One loop thread -/

omit [DecidableEq ι] in
/-- If nobody is inside, the mutex is free. -/
theorem free_of_outside {s : Handover.State ι χ θ} (hs : s.Exclusive)
    (houtside : ∀ p, s.producer p = .outside) (hloop : s.loop.holds = false) : s.mtx = none := by
  cases hmtx : s.mtx with
  | none => rfl
  | some k =>
      have inside : s.Inside k := (hs k).mpr hmtx
      cases k with
      | producer p => exact absurd (houtside p) inside
      | loop => simp [State.Inside, hloop] at inside

namespace Member

variable {s t : Member ι χ θ}

/-- Nobody calls, and the loop has nothing to do. -/
structure Quiet (s : Member ι χ θ) : Prop where
  outside : ∀ p, s.producer p = .outside
  waiting : s.loop = .waiting
  phase : s.phase = .running ∨ s.phase.returned = true
  drained : s.phase = .running → s.evfd ≠ 0 ∧ s.handled = s.pushed

/-- A step that does something and begins no call. -/
structure Moves (run : TaskMsg χ → θ → θ) (s : Member ι χ θ) (a : Member.Action ι χ)
    (t : Member ι χ θ) : Prop where
  step : Step run s a t
  begins : ∀ p msg, a ≠ .hand (.lock p msg)
  moves : t ≠ s

theorem moves_of_phase {a : Member.Action ι χ} (h : Step run s a t)
    (hbegins : ∀ p msg, a ≠ .hand (.lock p msg)) (hphase : t.phase ≠ s.phase) : Moves run s a t :=
  ⟨h, hbegins, fun heq => hphase (heq ▸ rfl)⟩

theorem moves_of_hand {b : Handover.Action (Caller ι) χ} {u : Handover.State (Caller ι) χ θ}
    (h : Handover.Step run s.toState b u) (prepared : s.Prepared b)
    (hbegins : ∀ p msg, b ≠ .lock p msg) (hmoves : u ≠ s.toState) :
    Moves run s (.hand b) (s.note b u) := by
  refine ⟨.hand h prepared, fun p msg heq => hbegins p msg (Action.hand.inj heq), fun heq => ?_⟩
  exact hmoves (congrArg Member.toState heq)

/-- The caller that is inside its critical section goes on. -/
theorem caller_moves (run : TaskMsg χ → θ → θ)
    (hstarted : s.phase.started = true) {p : Caller ι} (inside : s.producer p ≠ .outside) :
    ∃ b t, Moves run s (.hand b) t ∧ b.thread = .producer p := by
  have hclient : s.phase.hasClient = true := by
    cases hphase : s.phase <;> rw [hphase] at hstarted <;> first | rfl | cases hstarted
  have hne : ∀ {u : Handover.State (Caller ι) χ θ} {phase : Producer χ},
      u.producer = Function.update s.producer p phase → phase ≠ s.producer p →
        u ≠ s.toState := by
    rintro u phase hproducer hphase rfl
    have hself := congrFun hproducer p
    rw [Function.update_self] at hself
    exact hphase hself.symm
  cases hproducer : s.producer p with
  | outside => exact absurd hproducer inside
  | locked msg =>
      refine ⟨.push p, _, moves_of_hand (.push hproducer) trivial (by simp) ?_, rfl⟩
      exact hne rfl (by simp [hproducer])
  | pushed =>
      refine ⟨.check p, _, moves_of_hand (.check hproducer) trivial (by simp) ?_, rfl⟩
      apply hne rfl
      rw [hproducer]
      split <;> simp
  | ready =>
      refine ⟨.send p, _, moves_of_hand (.send hproducer) hclient (by simp) ?_, rfl⟩
      exact hne rfl (by simp [hproducer])
  | leaving result =>
      refine ⟨.unlock p, _, moves_of_hand (.unlock hproducer) trivial (by simp) ?_, rfl⟩
      exact hne rfl (by simp [hproducer])

omit [DecidableEq ι] in
theorem Quiet.free (hs : s.Inv) (hquiet : s.Quiet) : s.mtx = none :=
  free_of_outside hs.exclusive hquiet.outside (by rw [hquiet.waiting]; rfl)

/-- While nobody calls, the loop goes on, or has handled everything. -/
theorem Live.loop_moves (run : TaskMsg χ → θ → θ) (hs : s.Live) (hrunning : s.phase = .running)
    (houtside : ∀ p, s.producer p = .outside) :
    (∃ a t, Moves run s a t ∧ byMain a = false) ∨ s.Quiet := by
  have hne : ∀ {u : Handover.State (Caller ι) χ θ}, u.loop ≠ s.loop → u ≠ s.toState := by
    rintro u hloop rfl
    exact hloop rfl
  cases hloop : s.loop with
  | waiting =>
      by_cases hopen : s.evfd = 0
      · have hexit := hs.shut.mp hopen
        refine Or.inl ⟨.exit, _, moves_of_phase (.exit hrunning hloop hexit) ?_ ?_, rfl⟩
        · simp
        · simp [hrunning]
      obtain ⟨-, hpos, heq⟩ | ⟨hshut, -⟩ := s.toState.evfcCb_cases
      · refine Or.inl ⟨.hand .evfcCb, _, moves_of_hand (.evfcCb hloop) hrunning (by simp) ?_, rfl⟩
        apply hne
        rw [heq, hloop]
        simp
      · -- the counter is zero, so no task is waiting
        have hzero : s.counter.value = 0 := hshut.resolve_left hopen
        have hserving : s.Serving := by
          by_contra hserving
          exact hopen (hs.closed hserving)
        have hqueue : s.taskQueue = [] := by
          by_contra hqueue
          have hannounced := (hs.inv.announced hserving).noLostWakeUp hqueue houtside
          simp [hzero, hloop, Loop.hasRead] at hannounced
        have hbatch : s.tmpTaskQueue = [] := hs.inv.noBatch (by rw [hloop]; rfl)
        have hconserved : s.handled ++ s.tmpTaskQueue ++ s.taskQueue = s.pushed :=
          hs.inv.conserved
        refine Or.inr ⟨houtside, hloop, Or.inl hrunning, fun _ => ⟨hopen, ?_⟩⟩
        rw [← hconserved, hbatch, hqueue, List.append_nil, List.append_nil]
  | woken =>
      have hfree : s.mtx = none := free_of_outside hs.exclusive houtside (by rw [hloop]; rfl)
      refine Or.inl ⟨_, _, moves_of_hand (.acquire hloop hfree) hrunning (by simp) (hne ?_), rfl⟩
      simp [hloop]
  | locked =>
      refine Or.inl ⟨_, _, moves_of_hand (.swap hloop) hrunning (by simp) (hne ?_), rfl⟩
      simp [hloop]
  | swapped =>
      refine Or.inl ⟨_, _, moves_of_hand (.release hloop) hrunning (by simp) (hne ?_), rfl⟩
      rw [hloop]
      dsimp only
      split <;> simp
  | handling =>
      cases hbatch : s.tmpTaskQueue with
      | nil =>
          refine Or.inl ⟨.hand .finish, _, moves_of_hand (.finish hloop hbatch) hrunning ?_ ?_, rfl⟩
          · simp
          · exact hne (by simp [hloop])
      | cons msg rest =>
          refine Or.inl ⟨_, _, moves_of_hand (.task hloop hbatch) hrunning (by simp) ?_, rfl⟩
          intro hsame
          obtain ⟨evfd, thread, -, heq⟩ := s.toState.processTask_eq run msg
          have hhandled := congrArg State.handled (heq.symm.trans hsame)
          simp at hhandled

omit [DecidableEq ι] in
/-- A loop that is over does nothing. -/
theorem Live.quiet_of_finished (hs : s.Live) (hphase : s.phase = .finished)
    (houtside : ∀ p, s.producer p = .outside) : s.Quiet := by
  have hrunning : s.phase ≠ .running := by simp [hphase]
  refine ⟨houtside, ?_, Or.inr (by rw [hphase]; rfl), fun h => absurd h hrunning⟩
  by_contra hmoved
  exact hrunning (hs.inLoop hmoved)

/-- A loop thread that nobody is going to call on goes on, or is quiet, wherever it
is. -/
theorem Inv.moves (run : TaskMsg χ → θ → θ) (hs : s.Inv) (hmade : s.phase ≠ .absent) :
    (∃ a t, Moves run s a t ∧ byMain a = false) ∨
      (s.producer .main ≠ .outside ∧
        ∃ b t, Moves run s (.hand b) t ∧ b.thread = .producer .main) ∨ s.Quiet := by
  have hother : ∀ {b : Handover.Action (Caller ι) χ} {p : ι}, b.thread = .producer (.other p) →
      byMain (.hand b : Member.Action ι χ) = false := by
    intro b p hb
    cases b <;> simp only [Handover.Action.thread, Holder.producer.injEq, reduceCtorEq] at hb <;>
      subst hb <;> rfl
  cases hphase : s.phase with
  | absent => exact absurd hphase hmade
  | created =>
      exact Or.inl ⟨.loop, _, moves_of_phase (.loop hphase) (by simp) (by simp [hphase]), rfl⟩
  | looped =>
      refine Or.inl ⟨.eventfd 0, _, moves_of_phase (.eventfd 0 hphase) (by simp) ?_, rfl⟩
      simp [hphase]
  | opened =>
      exact Or.inl ⟨.client, _, moves_of_phase (.client hphase) (by simp) (by simp [hphase]), rfl⟩
  | connected =>
      refine Or.inl ⟨.server true, _, moves_of_phase (.server true hphase) (by simp) ?_, rfl⟩
      simp [hphase]
  | served =>
      exact Or.inl ⟨.run, _, moves_of_phase (.run hphase) (by simp) (by simp [hphase]), rfl⟩
  | failed =>
      have huntouched := (hs.fresh (by rw [hphase]; rfl)).untouched
      refine Or.inr (Or.inr ⟨fun p => ?_, ?_, Or.inr (by rw [hphase]; rfl), fun h => ?_⟩)
      · rw [huntouched]
        rfl
      · rw [huntouched]
        rfl
      · simp [hphase] at h
  | running | finished =>
      have hstarted : s.phase.started = true := by rw [hphase]; rfl
      have hlive := hs.live hstarted
      by_cases houtside : ∀ p, s.producer p = .outside
      · first
          | exact Or.inr (Or.inr (hlive.quiet_of_finished hphase houtside))
          | exact (hlive.loop_moves run hphase houtside).imp_right Or.inr
      · obtain ⟨p, hp⟩ := not_forall.mp houtside
        obtain ⟨b, t, hmoves, hthread⟩ := caller_moves run hstarted hp
        cases p with
        | main => exact Or.inr (Or.inl ⟨hp, b, t, hmoves, hthread⟩)
        | other p => exact Or.inl ⟨_, t, hmoves, hother hthread⟩

end Member

/-! ## The pool -/

variable {s t : State n ι χ θ} {a : Action n ι χ}

/-- Nothing goes on. The owner waits for ever only where it polls a loop thread whose
function has returned. -/
structure Settled (s : State n ι χ θ) : Prop where
  owner : s.main = .idle ∨ s.main = .stopped ∨
    ∃ i : Fin n, s.main = .poll i ∧ (s.members i).phase.returned = true
  quiet : ∀ i, (s.members i).Quiet

/-- The owner is in `stop`, or `stop` has returned. -/
def Main.stopping : Main χ → Bool
  | .stop _ | .join _ | .stopped => true
  | _ => false

/-- What holds in every state, and speaks of `stop`. -/
structure Orderly (s : State n ι χ θ) : Prop where
  inv : s.Inv
  recorded : Recorded s
  asked : s.main.stopping = true → ⟨none, exitLoop χ⟩ ∈ s.log

omit [DecidableEq ι] in
theorem Main.stopping_leave {m m' : Main χ} (h : m.leave n = some m') :
    m'.stopping = m.stopping := by
  cases m with
  | send _ _ | idle | stopped => cases h
  | init i | poll i | sendToAll _ i | stop i | join i =>
      rw [leave] at h
      split at h
      · obtain rfl := Option.some.inj h
        rfl
      · cases h

omit [DecidableEq ι] in
theorem Main.stopping_after (m : Main χ) (a : Member.Action ι χ) :
    (m.after a).stopping = m.stopping := by
  unfold Main.after
  split
  · cases m <;> rfl
  · rfl

theorem Step.stopping (h : Step run s a t) (hs : s.main.stopping = true) :
    t.main.stopping = true := by
  cases h with
  | member other step => exact hs
  | call calls own sent step => rwa [show Main.stopping _ = _ from Main.stopping_after _ _]
  | leave behind => rwa [show Main.stopping _ = _ from Main.stopping_leave behind]
  | join at_ returned => rfl
  | init at_ | poll at_ | sendToAll _ at_ | getLoopThread _ at_ _ | stop at_ =>
      rw [at_] at hs
      cases hs

theorem Step.orderly (h : Step run s a t) (hs : Orderly s) : Orderly t := by
  refine ⟨h.inv hs.inv, h.recorded hs.inv hs.recorded, fun ht => ?_⟩
  have hasked := hs.asked
  cases h with
  | member other step => exact hasked ht
  | call calls own sent step =>
      exact hasked (by rwa [show Main.stopping _ = _ from Main.stopping_after _ _] at ht)
  | leave behind =>
      exact hasked (by rwa [show Main.stopping _ = _ from Main.stopping_leave behind] at ht)
  | stop idle => exact List.mem_append_right _ (List.mem_singleton_self _)
  | join at_ returned => exact hasked (by rw [at_]; rfl)
  | init | poll | sendToAll | getLoopThread => cases ht

theorem orderly_of_run {threads : Fin n → θ} {trace : List (Action n ι χ × State n ι χ θ)}
    (hrun : Steps (Step run) (start threads) trace) : Orderly (final (start threads) trace) := by
  have hall := hrun.along (I := Orderly) ⟨start_inv threads, start_recorded threads, nofun⟩
    fun _ _ _ hs hstep => hstep.orderly hs
  exact hall.final

omit [DecidableEq ι] in
theorem begins_member {i : Fin n} {b : Member.Action ι χ}
    (h : ∀ p msg, b ≠ .hand (.lock p msg)) :
    (Action.member i b : Action n ι χ).begins = false := by
  cases b with
  | hand c =>
      cases c with
      | lock p msg => exact absurd rfl (h p msg)
      | _ => rfl
  | _ => rfl

theorem Internal.of_member {i : Fin n} {b : Member.Action ι χ} {u : Member ι χ θ}
    (h : Member.Moves run (s.members i) b u) (other : byMain b = false) :
    Internal run s (.member i b) (s.update i u) := by
  refine ⟨.member other h.step, begins_member h.begins, fun heq => h.moves ?_⟩
  rw [← members_update s i u, heq]

/-- A caller that is inside its critical section goes on, whether it is the owner or
somebody else. -/
theorem Internal.of_call {i : Fin n} {b : Handover.Action (Caller ι) χ} {u : Member ι χ θ}
    {msg : TaskMsg χ} (calls : s.main.call = some (i.val, msg))
    (h : Member.Moves run (s.members i) (.hand b) u) (hthread : b.thread = .producer .main) :
    ∃ t, Internal run s (.member i (.hand b)) t := by
  have hown : byMain (.hand b : Member.Action ι χ) = true := by
    cases b <;>
      simp only [Handover.Action.thread, Holder.producer.injEq, reduceCtorEq] at hthread <;>
      subst hthread <;> rfl
  have hsent : ∀ p m, b = .lock p m → m = msg := by
    rintro p m rfl
    exact absurd rfl (h.begins p m)
  refine ⟨_, .call calls hown hsent h.step, begins_member h.begins, fun heq => h.moves ?_⟩
  have hmember := congrFun (congrArg State.members heq) i
  rwa [show State.members _ i = u from members_update s i u] at hmember

/-- The owner takes the mutex of a loop thread that is quiet. -/
theorem State.Inv.lock_moves (run : TaskMsg χ → θ → θ) (hs : s.Inv) {i : Fin n} {msg : TaskMsg χ}
    (calls : s.main.call = some (i.val, msg)) (hquiet : (s.members i).Quiet) :
    ∃ t, Internal run s (.member i (.hand (.lock .main msg))) t := by
  have hfree := hquiet.free (hs.member i)
  have hlock : Member.Step run (s.members i) (.hand (.lock .main msg)) _ :=
    .hand (.lock msg (hquiet.outside .main) hfree) trivial
  refine ⟨_, .call calls rfl (fun p m heq => ?_) hlock, rfl, fun heq => ?_⟩
  · cases heq
    rfl
  · have hmember := congrFun (congrArg State.members heq) i
    rw [show State.members _ i = _ from members_update s i _] at hmember
    have hmtx := congrArg (fun m => m.mtx) hmember
    simp [Member.note, hfree] at hmtx

theorem Internal.of_leave {m : Main χ} (h : s.main.leave n = some m) :
    Internal run s .leave { s with main := m } := by
  refine ⟨.leave h, rfl, fun heq => ?_⟩
  have hrank := Main.rank_leave h
  rw [congrArg State.main heq.symm] at hrank
  exact absurd hrank (Nat.lt_irrefl _)

/-! ## Progress -/

omit [DecidableEq ι] in
theorem mem_of_fromMain {origins : List (Caller ι)} {msgs : List (TaskMsg χ)} {msg : TaskMsg χ}
    (h : msg ∈ fromMain origins msgs) : msg ∈ msgs := by
  obtain ⟨⟨p, m⟩, hmem, rfl⟩ := List.mem_map.mp h
  exact (List.of_mem_zip (List.mem_filter.mp hmem).1).2

omit [DecidableEq ι] in
/-- Behind the first loop of `stop`, `EXIT_LOOP` has been pushed to everybody. -/
theorem Orderly.exitLoop_pushed (hs : Orderly s) (hstopping : s.main.stopping = true) {i : Fin n}
    (hrest : s.main.rest i = []) : exitLoop χ ∈ (s.members i).pushed := by
  have hasked : exitLoop χ ∈ s.asked i := by
    refine List.mem_map.mpr ⟨⟨none, exitLoop χ⟩, List.mem_filter.mpr ⟨hs.asked hstopping, rfl⟩, rfl⟩
  have hpending : s.pending i = [] := by
    rw [State.pending, hrest, ite_self]
  rw [← hs.recorded.log i, hpending, List.append_nil] at hasked
  exact mem_of_fromMain hasked

omit [DecidableEq ι] in
/-- A loop thread that has been sent `EXIT_LOOP` is not quiet before its loop is over. -/
theorem Member.Quiet.returned {m : Member ι χ θ} (hquiet : m.Quiet) (hs : m.Inv)
    (hexit : exitLoop χ ∈ m.pushed) : m.phase.returned = true := by
  apply hquiet.phase.resolve_left
  intro hrunning
  obtain ⟨hopen, hhandled⟩ := hquiet.drained hrunning
  refine hopen ((hs.live (by rw [hrunning]; rfl)).closed fun hserving => ?_)
  rw [← hhandled] at hexit
  exact hserving _ hexit rfl

/-- The owner constructs the next loop thread, or is through. -/
theorem Orderly.init_moves (run : TaskMsg χ → θ → θ) (hs : Orderly s) {i : Nat}
    (hmain : s.main = .init i) : ∃ a t, Internal run s a t := by
  have hwithin := hs.inv.within
  rw [hmain] at hwithin
  obtain hlt | heq := Nat.lt_or_eq_of_le hwithin
  · have habsent : (s.members ⟨i, hlt⟩).phase = .absent := by
      by_contra hpresent
      have hmade := (hs.inv.made ⟨i, hlt⟩).mpr hpresent
      rw [hmain] at hmade
      exact Nat.lt_irrefl i hmade
    refine ⟨_, _, .init (i := ⟨i, hlt⟩) hmain (.construct habsent), rfl, fun heq => ?_⟩
    have hnext := (congrArg State.main heq).trans hmain
    simp at hnext
  · exact ⟨_, _, .of_leave (m := .poll 0) (by rw [hmain]; exact if_pos heq)⟩

/-- While all loop threads are quiet, the owner goes on as far as it can. -/
theorem Orderly.owner_moves (run : TaskMsg χ → θ → θ) (hs : Orderly s)
    (hquiet : ∀ i, (s.members i).Quiet) : Settled s ∨ ∃ a t, Internal run s a t := by
  have hwithin := hs.inv.within
  have hcall : ∀ {i : Nat} {msg : TaskMsg χ} {m : Main χ}, i ≤ n →
      s.main.call = some (i, msg) → s.main.leave n = (if i = n then some m else none) →
      ∃ a t, Internal run s a t := by
    intro i msg m hle hcalls hleave
    obtain hlt | heq := Nat.lt_or_eq_of_le hle
    · obtain ⟨t, hstep⟩ := hs.inv.lock_moves run (i := ⟨i, hlt⟩) hcalls (hquiet _)
      exact ⟨_, t, hstep⟩
    · exact ⟨_, _, .of_leave (hleave.trans (if_pos heq))⟩
  cases hmain : s.main with
  | init i => exact Or.inr (hs.init_moves run hmain)
  | idle => exact Or.inl ⟨Or.inl hmain, hquiet⟩
  | stopped => exact Or.inl ⟨Or.inr (Or.inl hmain), hquiet⟩
  | sendToAll msg i =>
      rw [hmain] at hwithin
      exact Or.inr (hcall hwithin (by rw [hmain]; rfl) (by rw [hmain]; rfl))
  | stop i =>
      rw [hmain] at hwithin
      exact Or.inr (hcall hwithin (by rw [hmain]; rfl) (by rw [hmain]; rfl))
  | send msg i =>
      rw [hmain] at hwithin
      obtain ⟨t, hstep⟩ := hs.inv.lock_moves run (i := ⟨i, hwithin⟩)
        (by rw [hmain]; rfl) (hquiet _)
      exact Or.inr ⟨_, t, hstep⟩
  | poll i =>
      rw [hmain] at hwithin
      obtain hlt | heq := Nat.lt_or_eq_of_le hwithin
      · obtain hrunning | hreturned := (hquiet ⟨i, hlt⟩).phase
        · have hstatus : (s.members ⟨i, hlt⟩).phase.status = some .running := by rw [hrunning]; rfl
          refine Or.inr ⟨_, _, .poll (i := ⟨i, hlt⟩) hmain hstatus, rfl, fun heq => ?_⟩
          have hnext := (congrArg State.main heq).trans hmain
          simp at hnext
        · exact Or.inl ⟨Or.inr (Or.inr ⟨⟨i, hlt⟩, hmain, hreturned⟩), hquiet⟩
      · exact Or.inr ⟨_, _, .of_leave (m := .idle) (by rw [hmain]; exact if_pos heq)⟩
  | join i =>
      rw [hmain] at hwithin
      obtain hlt | heq := Nat.lt_or_eq_of_le hwithin
      · have hexit : exitLoop χ ∈ (s.members ⟨i, hlt⟩).pushed :=
          hs.exitLoop_pushed (by rw [hmain]; rfl) (by rw [hmain]; rfl)
        have hreturned := (hquiet ⟨i, hlt⟩).returned (hs.inv.member _) hexit
        refine Or.inr ⟨_, _, .join (i := ⟨i, hlt⟩) hmain hreturned, rfl, fun heq => ?_⟩
        have hnext := (congrArg State.main heq).trans hmain
        simp at hnext
      · exact Or.inr ⟨_, _, .of_leave (m := .stopped) (by rw [hmain]; exact if_pos heq)⟩

/-- A pool that is not settled can go on without a new call. -/
theorem Orderly.progress (run : TaskMsg χ → θ → θ) (hs : Orderly s) :
    Settled s ∨ ∃ a t, Internal run s a t := by
  by_cases hquiet : ∀ i, (s.members i).Quiet
  · exact hs.owner_moves run hquiet
  · obtain ⟨i, hi⟩ := not_forall.mp hquiet
    by_cases hmade : (s.members i).phase = .absent
    · have hmain : ¬ s.main.made i := fun hmade' => (hs.inv.made i).mp hmade' hmade
      cases hphase : s.main with
      | init j => exact Or.inr (hs.init_moves run hphase)
      | _ =>
          rw [hphase] at hmain
          exact absurd trivial hmain
    · obtain ⟨b, u, hmoves, hother⟩ | ⟨hinside, b, u, hmoves, hthread⟩ | h :=
        (hs.inv.member i).moves run hmade
      · exact Or.inr ⟨_, _, .of_member hmoves hother⟩
      · obtain ⟨msg, hcalls⟩ := hs.inv.called hinside
        obtain ⟨t, hstep⟩ := Internal.of_call hcalls hmoves hthread
        exact Or.inr ⟨_, t, hstep⟩
      · exact absurd h hi

/-! ## Where the pool comes to rest -/

theorem Orderly.settles (run : TaskMsg χ → θ → θ) (hs : Orderly s) :
    Inevitable (Internal run) Settled s :=
  .of_measure State.potential hs (fun _ _ _ hs hstep => hstep.step.orderly hs)
    (fun _ _ _ hs hstep => hstep.potential_lt hs.inv) fun _ hs => hs.progress run

/-- From every state that a run can reach, and whichever thread moves next, the pool
settles if no task raises. A task that raises may end the program before. -/
theorem settles_along {perform : TaskMsg χ → θ → Option θ} {threads : Fin n → θ}
    {trace : List (Action n ι χ × State n ι χ θ)}
    (hrun : Steps (Step (caught perform)) (start threads) trace) :
    Inevitable (Alone perform) (fun o => ∀ t ∈ o, Settled t)
        (some (final (start threads) trace)) ∧
      ((∀ p ∈ trace, p.1.Safe perform) →
        Inevitable (Alone perform) (fun o => ∃ t ∈ o, Settled t)
          (some (final (start threads) trace))) :=
  inevitable_alone hrun ((orderly_of_run hrun).settles (caught perform))

/-- A thread that counts its tasks, and in which listeners raise. -/
def count (msg : TaskMsg Unit) (k : Nat) : Option Nat :=
  if msg.type = .newListener then none else some (k + 1)

/-- The owner is about to send a task to both loop threads, one of which has a task of
another caller to handle. -/
theorem settles_after_sendToAll :
    ∃ s t : State 2 Bool Unit Nat,
      Reaches (Step (caught count)) (start fun _ => 0) s ∧
        s.main = .sendToAll ⟨.addConn, .connInfo ()⟩ 0 ∧
        (s.members 1).taskQueue = [⟨.delSession, .socket 5⟩] ∧
        Reaches (Alone count) (some s) (some t) ∧ Settled t := by
  have hreach : ∃ s : State 2 Bool Unit Nat,
      Reaches (Sending (fun _ msg => ∀ k, count msg k ≠ none) (caught count)) (start fun _ => 0) s ∧
        s.main = .sendToAll ⟨.addConn, .connInfo ()⟩ 0 ∧
        (s.members 1).taskQueue = [⟨.delSession, .socket 5⟩] :=
    ⟨_, (reaches_launched _ fun _ => 0).trans <|
      (reaches_post (p := true) (i := 1) _ (by simp [count]) (Member.resting_launched 0)).trans <|
      .cons ⟨.sendToAll ⟨.addConn, .connInfo ()⟩ rfl, by simp [Action.sends, count]⟩ .nil, rfl, rfl⟩
  obtain ⟨s, ⟨trace, hsending, rfl⟩, hmain, hqueue⟩ := hreach
  have hrun := hsending.mono fun _ _ _ h => h.1
  have hsafe := (hsending.mono fun _ _ _ h => h.2).labels
  obtain ⟨_, halone, t, rfl, ht⟩ := ((settles_along hrun).2 hsafe).reaches
  exact ⟨_, t, ⟨trace, hrun, rfl⟩, hmain, hqueue, halone, ht⟩

/-- The pool has stopped: every loop is over, and has handled what had been pushed
before the first `EXIT_LOOP`. -/
structure Stopped (s : State n ι χ θ) : Prop where
  main : s.main = .stopped
  ended : ∀ i, (s.members i).phase = .finished
  graceful : ∀ i, (s.members i).pushed.takeWhile (fun msg => msg.type ≠ .exitLoop) <+:
    (s.members i).handled

omit [DecidableEq ι] in
/-- A loop that is over has handled an `EXIT_LOOP`, and with it all that was in front
of the first one. -/
theorem Member.Live.graceful {m : Member ι χ θ} (hs : m.Live) (hphase : m.phase = .finished) :
    m.pushed.takeWhile (fun msg => msg.type ≠ .exitLoop) <+: m.handled := by
  have hserving : ¬ m.Serving := fun hserving =>
    hs.inv.shut hserving (hs.shut.mpr (hs.finished hphase))
  have hconserved : m.handled ++ m.tmpTaskQueue ++ m.taskQueue = m.pushed := hs.inv.conserved
  have hshort : m.handled.takeWhile (fun msg => msg.type ≠ .exitLoop) ≠ m.handled := by
    intro heq
    apply hserving
    intro msg hmsg
    simpa using List.takeWhile_eq_self_iff.mp heq msg hmsg
  rw [← hconserved, List.append_assoc, List.takeWhile_append, if_neg]
  · exact List.takeWhile_prefix _
  · exact fun hlength => hshort ((List.takeWhile_prefix _).eq_of_length hlength)

omit [DecidableEq ι] in
theorem Orderly.stopped (hs : Orderly s) (hsettled : Settled s)
    (hstopping : s.main.stopping = true) : Stopped s := by
  have hmain : s.main = .stopped := by
    obtain hidle | hstopped | ⟨i, hpoll, -⟩ := hsettled.owner
    · simp [hidle, Main.stopping] at hstopping
    · exact hstopped
    · simp [hpoll, Main.stopping] at hstopping
  have hstarted : ∀ i : Fin n, (s.members i).phase.started = true := fun i =>
    hs.inv.polled i (by rw [hmain]; trivial)
  have hover : ∀ i, (s.members i).phase = .finished := by
    intro i
    have hexit : exitLoop χ ∈ (s.members i).pushed :=
      hs.exitLoop_pushed hstopping (by rw [hmain]; rfl)
    have hreturned := (hsettled.quiet i).returned (hs.inv.member i) hexit
    have hi := hstarted i
    cases hphase : (s.members i).phase <;> rw [hphase] at hreturned hi <;>
      simp [Phase.returned, Phase.started] at hreturned hi ⊢
  exact ⟨hmain, hover, fun i => ((hs.inv.member i).live (hstarted i)).graceful (hover i)⟩

omit [DecidableEq ι] in
/-- If nobody has sent `EXIT_LOOP`, the loops that have been started run on, and the owner
is between two calls. -/
theorem Orderly.runs_on (hs : Orderly s) (hsettled : Settled s)
    (hcarries : Carries (fun _ msg => msg.type ≠ .exitLoop) s)
    (hstarted : ∀ i, (s.members i).phase.started = true) :
    s.main = .idle ∧ ∀ i, (s.members i).phase = .running := by
  have hrunning : ∀ i, (s.members i).phase = .running := by
    intro i
    have hinv := hs.inv.member i
    have hlive := hinv.live (hstarted i)
    have hserving : (s.members i).Serving := by
      intro msg hmsg
      obtain ⟨_, hmsg⟩ :=
        (hcarries.member i).mem hinv (hinv.pushed_of_mem (List.mem_append_left _ hmsg))
      exact hmsg
    apply (hsettled.quiet i).phase.resolve_right
    intro hreturned
    have hi := hstarted i
    cases hphase : (s.members i).phase <;> rw [hphase] at hreturned hi <;>
      simp [Phase.returned, Phase.started] at hreturned hi
    exact hlive.inv.shut hserving (hlive.shut.mpr (hlive.finished hphase))
  refine ⟨?_, hrunning⟩
  obtain hidle | hstopped | ⟨i, -, hreturned⟩ := hsettled.owner
  · exact hidle
  · exact absurd rfl (hcarries.log _ (hs.asked (by rw [hstopped]; rfl)))
  · rw [hrunning i] at hreturned
    cases hreturned

/-- Once `stop` has been called and no other call begins, it returns if no task raises, and
the pool has stopped gracefully. A task that raises may end the program before. -/
theorem stop_returns {perform : TaskMsg χ → θ → Option θ} {threads : Fin n → θ}
    {trace : List (Action n ι χ × State n ι χ θ)}
    (hrun : Steps (Step (caught perform)) (start threads) trace)
    (hstopping : (final (start threads) trace).main.stopping = true) :
    Inevitable (Alone perform) (fun o => ∀ t ∈ o, Stopped t)
        (some (final (start threads) trace)) ∧
      ((∀ p ∈ trace, p.1.Safe perform) →
        Inevitable (Alone perform) (fun o => ∃ t ∈ o, Stopped t)
          (some (final (start threads) trace))) := by
  have horderly := orderly_of_run hrun
  have hsettles := (horderly.settles (caught perform)).and_invariant
    (I := fun s => Orderly s ∧ s.main.stopping = true) ⟨horderly, hstopping⟩
    fun _ _ _ hs hstep => ⟨hstep.step.orderly hs.1, hstep.step.stopping hs.2⟩
  exact inevitable_alone hrun (hsettles.mono fun _ hs => hs.2.1.stopped hs.1 hs.2.2)

/-- Both loop threads have a task to handle when `stop` is called. -/
theorem stop_returns_with_tasks :
    ∃ s t : State 2 Bool Unit Nat,
      Reaches (Step (caught count)) (start fun _ => 0) s ∧ s.main = .stop 0 ∧
        (∀ i, (s.members i).taskQueue = [⟨.addConn, .connInfo ()⟩]) ∧
        Reaches (Alone count) (some s) (some t) ∧ Stopped t ∧
        ∀ i, ⟨.addConn, .connInfo ()⟩ ∈ (t.members i).handled := by
  have hreach : ∃ s : State 2 Bool Unit Nat,
      Reaches (Sending (fun _ msg => ∀ k, count msg k ≠ none) (caught count)) (start fun _ => 0) s ∧
        s.main = .stop 0 ∧ (∀ i, (s.members i).taskQueue = [⟨.addConn, .connInfo ()⟩]) ∧
        ∀ i, (s.members i).pushed = [⟨.addConn, .connInfo ()⟩] :=
    ⟨_, (reaches_launched _ fun _ => 0).trans <|
      (reaches_sentToAll _ _ (by simp [count]) rfl fun _ => Member.resting_launched 0).trans <|
      .cons ⟨.stop rfl, by simp [Action.sends, exitLoop, count]⟩ .nil,
      rfl, fun _ => rfl, fun _ => rfl⟩
  obtain ⟨s, ⟨trace, hsending, rfl⟩, hmain, hqueue, hpushed⟩ := hreach
  have hrun := hsending.mono fun _ _ _ h => h.1
  have hsafe := (hsending.mono fun _ _ _ h => h.2).labels
  obtain ⟨_, halone, t, rfl, ht⟩ := ((stop_returns hrun (by rw [hmain]; rfl)).2 hsafe).reaches
  refine ⟨_, t, ⟨trace, hrun, rfl⟩, hmain, hqueue, halone, ht, fun i => ?_⟩
  obtain ⟨rest, hrest⟩ := pushed_prefix_alone halone i
  apply (ht.graceful i).subset
  rw [← hrest, hpushed i]
  simp

end

end Canal.Pool
