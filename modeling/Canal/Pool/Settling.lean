import Canal.Foundation.Progress
import Canal.Pool.Broadcast
import Mathlib.Algebra.BigOperators.Group.Finset.Basic
import Mathlib.Data.Fintype.BigOperators

/-!
# The pool settles

Once no new call begins, the pool comes to rest, whichever thread moves next: the
calls that are under way return, the loops handle what has been pushed, and the
owner comes to the end of what it is doing. There is one place where it may not,
the second loop of `init`: a loop thread that has failed, or whose loop is over
already, is polled for ever.

Each step lowers a potential. A task in a queue costs one turn of a loop, a counter
that is positive one round through `process_msg`, and a call all of this; the owner
pays for the calls that it has still to make.
-/

namespace Canal.Pool

open Handover Trace

/-! ## The potential of a queue -/

section

variable {ι χ θ : Type}

/-- What is left of a round through `process_msg`, the tasks apart. -/
def loopRank : Handover.Loop → Nat
  | .waiting => 0
  | .handling => 1
  | .swapped => 2
  | .locked => 3
  | .woken => 4

/-- What is left of a call, with the task and the wake-up that it brings. -/
def callRank : Producer χ → Nat
  | .outside => 0
  | .leaving _ => 1
  | .ready => 7
  | .pushed => 8
  | .locked _ => 10

def holderRank (s : Handover.State ι χ θ) : Nat :=
  match s.mtx with
  | some (.producer p) => callRank (s.producer p)
  | _ => 0

def queuePotential (s : Handover.State ι χ θ) : Nat :=
  s.taskQueue.length + s.tmpTaskQueue.length + loopRank s.loop +
    (if s.counter.value = 0 then 0 else 5) + holderRank s

theorem mtx_of_inside {s : Handover.State ι χ θ} (hs : s.Exclusive) {p : ι}
    (inside : s.producer p ≠ .outside) : s.mtx = some (.producer p) :=
  (hs (.producer p)).mp inside

/-- The counter of a new eventfd is zero. -/
theorem queuePotential_eventfd (s : Handover.State ι χ θ) (fd : Nat) :
    queuePotential { s with evfd := fd, counter := .zero } ≤ queuePotential s := by
  simp only [queuePotential, holderRank, EventFd.zero, if_true]
  omega

variable [DecidableEq ι] {run : TaskMsg χ → θ → θ} {s t : Handover.State ι χ θ}
  {a : Handover.Action ι χ}

/-- To begin a call costs what the call brings. -/
theorem queuePotential_lock {p : ι} {msg : TaskMsg χ}
    (h : Handover.Step run s (.lock p msg) t) : queuePotential t = queuePotential s + 10 := by
  cases h with
  | lock _ outside free => simp [queuePotential, holderRank, free, callRank]

/-- Every other action that does anything lowers the potential. -/
theorem queuePotential_lt (h : Handover.Step run s a t) (hs : s.Exclusive)
    (hbegins : ∀ p msg, a ≠ .lock p msg) : queuePotential t < queuePotential s ∨ t = s := by
  cases h with
  | lock msg outside free => exact absurd rfl (hbegins _ msg)
  | @push p msg locked =>
      have hmtx : s.mtx = some (.producer p) := mtx_of_inside hs (by simp [locked])
      apply Or.inl
      simp only [queuePotential, holderRank, hmtx, Function.update_self, locked, callRank,
        List.length_append, List.length_singleton]
      omega
  | @check p pushed =>
      have hmtx : s.mtx = some (.producer p) := mtx_of_inside hs (by simp [pushed])
      apply Or.inl
      have hafter :
          callRank (if s.evfd = 0 then Producer.leaving (χ := χ) false else .ready) ≤ 7 := by
        split <;> simp [callRank]
      have hbefore : callRank (Producer.pushed (χ := χ)) = 8 := rfl
      simp only [queuePotential, holderRank, hmtx, Function.update_self, pushed]
      omega
  | @send p ready =>
      have hmtx : s.mtx = some (.producer p) := mtx_of_inside hs (by simp [ready])
      obtain ⟨counter, -, heq⟩ := s.send_eq
      apply Or.inl
      rw [heq]
      simp only [queuePotential, holderRank, hmtx, Function.update_self, ready, callRank]
      split <;> omega
  | @unlock p result leaving =>
      have hmtx : s.mtx = some (.producer p) := mtx_of_inside hs (by simp [leaving])
      apply Or.inl
      simp only [queuePotential, holderRank, hmtx, leaving, callRank]
      omega
  | evfcCb waiting =>
      obtain ⟨-, hpos, heq⟩ | ⟨-, heq⟩ := s.evfcCb_cases
      · apply Or.inl
        have hcounter : s.counter.value ≠ 0 := Nat.ne_of_gt hpos
        rw [heq]
        simp only [queuePotential, holderRank, waiting, loopRank, EventFd.zero, hcounter,
          List.length_nil, if_true, if_false]
        omega
      · exact Or.inr heq
  | acquire woken free =>
      apply Or.inl
      simp only [queuePotential, holderRank, woken, free, loopRank]
      omega
  | swap locked =>
      apply Or.inl
      simp only [queuePotential, holderRank, locked, loopRank]
      omega
  | release swapped =>
      have hmtx : s.mtx = some .loop := (hs .loop).mp (by simp [State.Inside, swapped, Loop.holds])
      apply Or.inl
      have hafter : loopRank (if s.tmpTaskQueue = [] then .waiting else .handling) ≤ 1 := by
        split <;> decide
      have hbefore : loopRank .swapped = 2 := rfl
      simp only [queuePotential, holderRank, hmtx, swapped]
      omega
  | @task msg rest handling front =>
      obtain ⟨evfd, thread, -, heq⟩ := s.processTask_eq run msg
      apply Or.inl
      rw [heq]
      simp only [queuePotential, holderRank, front, List.tail_cons, List.length_cons]
      omega
  | finish handling empty =>
      apply Or.inl
      simp only [queuePotential, holderRank, handling, loopRank]
      omega

end

/-! ## The potential of the pool -/

section

variable {n : Nat} {ι χ θ : Type}

def Phase.rank : Phase → Nat
  | .absent => 7
  | .created => 6
  | .looped => 5
  | .opened => 4
  | .connected => 3
  | .served => 2
  | .running => 1
  | .finished | .failed => 0

def Member.potential (s : Member ι χ θ) : Nat := s.phase.rank + queuePotential s.toState

/-- What the owner has still to do, the call that has not begun yet apart. -/
def Main.rank (n : Nat) : Main χ → Nat
  | .init i => n - i + n + 2
  | .poll i => n - i + 1
  | .idle => 0
  | .sendToAll _ i => 12 * (n - i) + 1
  | .send _ _ => 12
  | .stop i => 12 * (n - i) + n + 2
  | .join i => n - i + 1
  | .stopped => 0

/-- A call that has not begun yet will cost this. -/
def callCost : Producer χ → Nat
  | .outside => 11
  | _ => 0

/-- What the owner has still to pay for its call. -/
def State.callPotential (s : State n ι χ θ) : Nat :=
  match s.main.call with
  | none => 0
  | some (i, _) => if h : i < n then callCost ((s.members ⟨i, h⟩).producer .main) else 0

def State.potential (s : State n ι χ θ) : Nat :=
  (∑ i, (s.members i).potential) + s.main.rank n + s.callPotential

theorem callCost_le (phase : Producer χ) : callCost phase ≤ 11 := by
  cases phase <;> simp [callCost]

theorem callCost_of_inside {phase : Producer χ} (h : phase ≠ .outside) : callCost phase = 0 := by
  cases phase <;> first | rfl | exact absurd rfl h

theorem callPotential_le (s : State n ι χ θ) : s.callPotential ≤ 11 := by
  unfold State.callPotential
  split
  · exact Nat.zero_le 11
  · split
    · exact callCost_le _
    · exact Nat.zero_le 11

theorem callPotential_of_call {s : State n ι χ θ} {i : Fin n} {msg : TaskMsg χ}
    (h : s.main.call = some (i.val, msg)) :
    s.callPotential = callCost ((s.members i).producer .main) := by
  simp [State.callPotential, h]

theorem callPotential_of_none {s : State n ι χ θ} (h : s.main.call = none) :
    s.callPotential = 0 := by
  simp [State.callPotential, h]

/-- One summand changes. -/
theorem sum_update {α : Type} (f : α → Nat) (g : Fin n → α) (i : Fin n) (u : α) :
    (∑ j, f (Function.update g i u j)) + f (g i) = (∑ j, f (g j)) + f u := by
  have hrest : ∀ j ∈ Finset.univ.erase i, f (Function.update g i u j) = f (g j) := by
    intro j hj
    rw [Function.update_of_ne (Finset.ne_of_mem_erase hj)]
  rw [← Finset.add_sum_erase _ (fun j => f (Function.update g i u j)) (Finset.mem_univ i),
    ← Finset.add_sum_erase _ (fun j => f (g j)) (Finset.mem_univ i), Finset.sum_congr rfl hrest,
    Function.update_self]
  omega

/-- A step that begins a call, of the owner or of somebody else. -/
def Action.begins : Action n ι χ → Bool
  | .member _ (.hand (.lock (.other _) _)) => true
  | .sendToAll _ | .getLoopThread _ | .stop => true
  | _ => false

variable [DecidableEq ι] {run : TaskMsg χ → θ → θ}

/-- A step that begins no call and does something. -/
structure Internal (run : TaskMsg χ → θ → θ) (s : State n ι χ θ) (a : Action n ι χ)
    (t : State n ι χ θ) : Prop where
  step : Step run s a t
  begins : a.begins = false
  moves : t ≠ s

/-! ## Every step lowers the potential -/

omit [DecidableEq ι] in
theorem Member.Inv.exclusive {s : Member ι χ θ} (hs : s.Inv) : s.Exclusive := by
  cases hstarted : s.phase.started with
  | true => exact (hs.live hstarted).exclusive
  | false =>
      rw [(hs.fresh hstarted).untouched]
      exact start_exclusive _ _

theorem Member.Step.potential_lock {s t : Member ι χ θ} {p : Caller ι} {msg : TaskMsg χ}
    (h : Member.Step run s (.hand (.lock p msg)) t) : t.potential = s.potential + 10 := by
  cases h with
  | hand step prepared =>
      simp only [Member.potential, Member.note, queuePotential_lock step]
      omega

/-- A loop thread goes on, and does not begin a call, or nothing happens. -/
theorem Member.Step.potential_lt {s t : Member ι χ θ} {a : Member.Action ι χ}
    (h : Member.Step run s a t) (hs : s.Inv) (hbegins : ∀ p msg, a ≠ .hand (.lock p msg)) :
    t.potential < s.potential ∨ t = s := by
  have hlower : ∀ {phase phase' : Phase}, s.phase = phase → phase'.rank < phase.rank →
      phase'.rank + queuePotential s.toState < s.potential := by
    intro phase phase' hphase hlt
    rw [Member.potential, hphase]
    omega
  cases h with
  | construct hphase | loop hphase | client hphase | run hphase | exit hphase =>
      exact Or.inl (hlower hphase (by simp [Phase.rank]))
  | eventfd fd hphase =>
      have hrank : (if fd = 0 ∨ fd = Refusal.failed then Phase.failed else .opened).rank < 5 := by
        split <;> decide
      apply Or.inl
      rw [Member.potential, Member.potential, hphase]
      exact Nat.add_lt_add_of_lt_of_le hrank (queuePotential_eventfd s.toState fd)
  | server added hphase =>
      exact Or.inl (hlower hphase (by cases added <;> simp [Phase.rank]))
  | @hand b u step prepared =>
      have hcall : ∀ p msg, b ≠ .lock p msg := by
        rintro p msg rfl
        exact hbegins p msg rfl
      obtain hlt | rfl := queuePotential_lt step hs.exclusive hcall
      · apply Or.inl
        simp only [Member.potential, Member.note]
        omega
      · by_cases hpush : ∃ p, b = .push p
        · -- a push always does something
          obtain ⟨p, rfl⟩ := hpush
          obtain ⟨_, _, -, -, hpushed⟩ | ⟨hnot, -⟩ := pushed_of_step step
          · simp at hpushed
          · exact absurd rfl (hnot p)
        · exact Or.inr (s.note_eq (fun p hp => hpush ⟨p, hp⟩) rfl)

theorem Main.rank_leave {m m' : Main χ} (h : m.leave n = some m') : m'.rank n < m.rank n := by
  cases m with
  | send _ _ | idle | stopped => cases h
  | init i | poll i | sendToAll _ i | stop i | join i =>
      rw [leave] at h
      split at h
      · rename_i heq
        obtain rfl := Option.some.inj h
        simp only [rank]
        omega
      · cases h

theorem Main.rank_next {m : Main χ} {i : Nat} {msg : TaskMsg χ} (h : m.call = some (i, msg))
    (hi : i < n) : m.next.rank n + 12 ≤ m.rank n := by
  cases m <;> simp only [call, Option.some.injEq, Prod.mk.injEq, reduceCtorEq] at h
  all_goals
    obtain ⟨rfl, -⟩ := h
    simp only [next, rank]
    omega

variable {s t : State n ι χ θ} {a : Action n ι χ}

omit [DecidableEq ι] in
/-- A step of one loop thread is judged by what that loop thread and the owner pay. -/
theorem potential_update {i : Fin n} {u : Member ι χ θ} {main : Main χ}
    (h : u.potential + main.rank n + State.callPotential { s.update i u with main } <
      (s.members i).potential + s.main.rank n + s.callPotential) :
    State.potential { s.update i u with main } < s.potential := by
  have hsum := sum_update Member.potential s.members i u
  simp only [State.potential, State.update] at h ⊢
  omega

omit [DecidableEq ι] in
/-- The owner stays where it is. -/
theorem potential_member {i : Fin n} {u : Member ι χ θ}
    (h : u.potential + (s.update i u).callPotential <
      (s.members i).potential + s.callPotential) : (s.update i u).potential < s.potential := by
  have hlt : u.potential + s.main.rank n + (s.update i u).callPotential <
      (s.members i).potential + s.main.rank n + s.callPotential := by
    omega
  exact potential_update hlt

omit [DecidableEq ι] in
/-- A step of the owner that leaves the loop threads alone. -/
theorem potential_main {main : Main χ} (hcall : main.call = none)
    (hlt : main.rank n < s.main.rank n) :
    State.potential { s with main } < s.potential := by
  have hnone : State.callPotential { s with main } = 0 := callPotential_of_none hcall
  simp only [State.potential, hnone]
  omega

omit [DecidableEq ι] in
theorem callPotential_update {i : Fin n} {u : Member ι χ θ}
    (hu : u.producer .main = (s.members i).producer .main) :
    (s.update i u).callPotential = s.callPotential := by
  have hproducer : ∀ j, (Function.update s.members i u j).producer .main =
      (s.members j).producer .main := by
    intro j
    by_cases hij : j = i
    · subst hij
      rw [Function.update_self, hu]
    · rw [Function.update_of_ne hij]
  simp only [State.callPotential, State.update, hproducer]

/-- A step of a call. The owner pays for the call until it begins, and for the next one
when it ends. -/
theorem potential_lt_of_call {i : Fin n} {msg : TaskMsg χ} {b : Handover.Action (Caller ι) χ}
    {u : Member ι χ θ} (hs : s.Inv) (calls : s.main.call = some (i.val, msg))
    (own : byMain (.hand b : Member.Action ι χ) = true)
    (step : Member.Step run (s.members i) (.hand b) u)
    (hmoves : { s.update i u with main := s.main.after (.hand b : Member.Action ι χ) } ≠ s) :
    State.potential { s.update i u with main := s.main.after (.hand b : Member.Action ι χ) } <
      s.potential := by
  have hcall := callPotential_of_call calls
  have hgoes : (s.update i u).callPotential = callCost (u.producer .main) := by
    have hcalls : (s.update i u).main.call = some (i.val, msg) := calls
    rw [callPotential_of_call hcalls]
    simp [State.update]
  have hstays : b ≠ .unlock .main →
      { s.update i u with main := s.main.after (.hand b : Member.Action ι χ) } =
        s.update i u := by
    intro hb
    rw [Main.after_of_ne hb]
    rfl
  have hlower : (∀ p msg, b ≠ .lock p msg) → u.potential < (s.members i).potential ∨
      u = s.members i := by
    intro hb
    refine step.potential_lt (hs.member i) fun p msg heq => hb p msg ?_
    exact Member.Action.hand.inj heq
  cases step.turn (hs.member i) own with
  | lock msg'' action before after received =>
      subst action
      have hlock := step.potential_lock
      rw [before, show callCost (.outside : Producer χ) = 11 from rfl] at hcall
      rw [callCost_of_inside (by simp [after])] at hgoes
      rw [hstays (by simp)]
      exact potential_member (by omega)
  | push msg'' action before after received =>
      subst action
      rw [callCost_of_inside (by simp [before])] at hcall
      rw [callCost_of_inside (by simp [after])] at hgoes
      rw [hstays (by simp)]
      obtain hlt | rfl := hlower (by simp)
      · exact potential_member (by omega)
      · simp [after] at before
  | stay action before after received =>
      have hinside : ∀ {phase : Producer χ}, given phase = true → phase ≠ .outside := by
        rintro phase hphase rfl
        cases hphase
      rw [callCost_of_inside (hinside before)] at hcall
      rw [callCost_of_inside (hinside after)] at hgoes
      rw [hstays action] at hmoves ⊢
      have hbegun : ∀ p msg, b ≠ .lock p msg := by
        rintro p msg rfl
        cases step with
        | hand step prepared =>
            cases step with
            | lock _ outside free =>
                cases p with
                | main => simp [given, outside] at before
                | other p => cases own
      obtain hlt | rfl := hlower hbegun
      · exact potential_member (by omega)
      · exact absurd (by simp [State.update]) hmoves
  | unlock action before after received =>
      subst action
      have hrank := Main.rank_next calls i.isLt
      have hnext := callPotential_le { s.update i u with main := s.main.next }
      obtain hlt | rfl := hlower (by simp)
      · have hlt' : u.potential + s.main.next.rank n +
            State.callPotential { s.update i u with main := s.main.next } <
            (s.members i).potential + s.main.rank n + s.callPotential := by
          omega
        exact potential_update hlt'
      · simp [after, given] at before

theorem Internal.potential_lt (h : Internal run s a t) (hs : s.Inv) :
    t.potential < s.potential := by
  obtain ⟨hstep, hbegins, hmoves⟩ := h
  cases hstep with
  | @init i u at_ step =>
      have hi := i.isLt
      have hmember : u.potential ≤ (s.members i).potential := by
        obtain hlt | rfl := step.potential_lt (hs.member i) (by simp)
        · exact Nat.le_of_lt hlt
        · exact Nat.le_refl _
      apply potential_update
      rw [callPotential_of_none rfl, at_]
      simp only [Main.rank]
      omega
  | @member i b u other step =>
      have hlock : ∀ p msg, b ≠ .hand (.lock p msg) := by
        rintro p msg rfl
        cases p with
        | main => cases other
        | other p => cases hbegins
      obtain hlt | rfl := step.potential_lt (hs.member i) hlock
      · have hcall : (s.update i u).callPotential = s.callPotential :=
          callPotential_update (step.other (hs.member i) other).2
        exact potential_member (by omega)
      · exact absurd (by simp [State.update]) hmoves
  | call calls own sent step => exact potential_lt_of_call hs calls own step hmoves
  | @poll i at_ running =>
      have hi := i.isLt
      apply potential_main rfl
      rw [at_, Main.rank, Main.rank]
      omega
  | leave behind => exact potential_main (Main.call_none_of_leave behind) (Main.rank_leave behind)
  | @join i at_ returned =>
      have hi := i.isLt
      apply potential_main rfl
      rw [at_, Main.rank, Main.rank]
      omega
  | sendToAll msg idle => cases hbegins
  | getLoopThread msg idle pos => cases hbegins
  | stop idle => cases hbegins

end

end Canal.Pool
