import Canal.Foundation.Rotation
import Canal.Pool.Lifecycle

/-!
# Whom `get_loop_thread` picks

`_select_index` is incremented at each call and taken modulo the number of loop
threads, so the loop threads take turns. It is a 32-bit number. Until it wraps, no
loop thread is picked more than once more often than another; in the long run this
is so only if the number of loop threads divides `2 ^ 32`, and otherwise each round
of `_select_index` favours the first few.
-/

namespace Canal.Pool

open Handover Trace

section

variable {n : Nat} {ι χ θ : Type} {s : State n ι χ θ}

/-- The loop threads that `get_loop_thread` has picked. -/
def State.picks (s : State n ι χ θ) : List Nat := s.log.filterMap Request.target

/-- The counter has the value that the picks have left, and each loop thread has been
picked when it had its turn. The turn at zero, in front of the first call, is lost. -/
structure Rotating (s : State n ι χ θ) : Prop where
  index : s.selectIndex.toNat = s.picks.length % 2 ^ 32
  within : ∀ i ∈ s.picks, i < n
  turns : ∀ i, s.picks.count i + (if i = 0 then 1 else 0) =
    Rotation.served (2 ^ 32) n (s.picks.length + 1) i

/-- Nobody is picked who is not there, and the picks are spread evenly: up to one, and
one more for each time that `_select_index` has wrapped. -/
structure Even (s : State n ι χ θ) : Prop where
  within : ∀ i ∈ s.picks, i < n
  even : ∀ i j : Fin n, s.picks.count i.val ≤ s.picks.count j.val + 1 + s.picks.length / 2 ^ 32
  exact : n ∣ 2 ^ 32 → ∀ i j : Fin n, s.picks.count i.val ≤ s.picks.count j.val + 1
  drift : ∀ q, s.picks.length + 1 = q * 2 ^ 32 → ∀ i j : Fin n, 0 < i.val →
    i.val < 2 ^ 32 % n → 2 ^ 32 % n ≤ j.val → s.picks.count i.val = s.picks.count j.val + q

theorem getLoopThread_turn {n : Nat} {selectIndex : UInt32} {k : Nat}
    (h : selectIndex.toNat = k % 2 ^ 32) :
    (getLoopThread n selectIndex).1.toNat = (k + 1) % 2 ^ 32 ∧
      (getLoopThread n selectIndex).2 = Rotation.seat (2 ^ 32) n (k + 1) := by
  have hnext : (selectIndex + 1).toNat = (k + 1) % 2 ^ 32 := by
    rw [UInt32.toNat_add, h]
    simp
  exact ⟨hnext, congrArg (· % n) hnext⟩

theorem start_rotating (threads : Fin n → θ) : Rotating (start threads : State n ι χ θ) := by
  refine ⟨rfl, nofun, fun i => ?_⟩
  have hpicks : (start threads : State n ι χ θ).picks = [] := rfl
  rw [hpicks, List.length_nil, Rotation.served_succ]
  simp [Rotation.served, Rotation.seat, eq_comm]

/-- One more pick. -/
theorem Rotating.pick {t : State n ι χ θ} (hs : Rotating s) (pos : 0 < n)
    (hindex : t.selectIndex = (getLoopThread n s.selectIndex).1)
    (hpicks : t.picks = s.picks ++ [(getLoopThread n s.selectIndex).2]) : Rotating t := by
  obtain ⟨hnext, hseat⟩ := getLoopThread_turn (n := n) hs.index
  rw [hseat] at hpicks
  refine ⟨?_, fun i hi => ?_, fun i => ?_⟩
  · rw [hpicks, List.length_append, hindex]
    exact hnext
  · rw [hpicks] at hi
    obtain hi | hi := List.mem_append.mp hi
    · exact hs.within i hi
    · obtain rfl := List.mem_singleton.mp hi
      exact Rotation.seat_lt pos _
  · have hturns := hs.turns i
    rw [hpicks, List.length_append, List.length_singleton, List.count_append,
      Rotation.served_succ, ← hturns, List.count_singleton]
    simp only [beq_iff_eq]
    omega

variable [DecidableEq ι] {run : TaskMsg χ → θ → θ} {t : State n ι χ θ} {a : Action n ι χ}

theorem Step.rotating (h : Step run s a t) (hs : Rotating s) : Rotating t := by
  -- all other steps keep the counter, and ask for no single loop thread
  have hkeep : t.selectIndex = s.selectIndex → t.picks = s.picks → Rotating t := by
    intro hindex hpicks
    refine ⟨?_, ?_, ?_⟩
    · rw [hindex, hpicks, hs.index]
    · rw [hpicks]
      exact hs.within
    · rw [hpicks]
      exact hs.turns
  cases h with
  | sendToAll | stop => exact hkeep rfl (by simp [State.picks])
  | getLoopThread msg idle pos => exact hs.pick pos rfl (by simp [State.picks])
  | _ => exact hkeep rfl rfl

omit [DecidableEq ι] in
/-- The turn that is lost is the first one of those that come first. -/
theorem Rotating.count_le (hs : Rotating s) (i j : Fin n) {b : Nat}
    (h : Rotation.served (2 ^ 32) n (s.picks.length + 1) i.val ≤
      Rotation.served (2 ^ 32) n (s.picks.length + 1) j.val + b) :
    s.picks.count i.val ≤ s.picks.count j.val + max 1 b := by
  have hi := hs.turns i.val
  have hj := hs.turns j.val
  by_cases hzero : j.val = 0
  · have hfirst : Rotation.served (2 ^ 32) n (s.picks.length + 1) i.val ≤
        Rotation.served (2 ^ 32) n (s.picks.length + 1) j.val :=
      Rotation.served_mono (by decide) (hzero ▸ Nat.zero_le _) i.isLt
    rw [if_pos hzero] at hj
    omega
  · rw [if_neg hzero] at hj
    omega

omit [DecidableEq ι] in
theorem Rotating.even (hs : Rotating s) : Even s := by
  have hpos : 0 < 2 ^ 32 := by decide
  refine ⟨hs.within, fun i j => ?_, fun hdvd i j => ?_, fun q hlength i j hi hlow hhigh => ?_⟩
  · have hle := hs.count_le i j (b := s.picks.length / 2 ^ 32 + 1) ?_
    · omega
    · have hserved := Rotation.served_le (m := s.picks.length + 1) hpos i.isLt j.isLt
      split at hserved <;> omega
  · have hle := hs.count_le i j (b := 1) ?_
    · exact hle
    · have hserved := Rotation.served_le_of_dvd (m := s.picks.length + 1) hpos hdvd i.isLt j.isLt
      split at hserved <;> omega
  · have hi' := hs.turns i.val
    have hj := hs.turns j.val
    have hdrift := Rotation.served_drift hpos q hlow hhigh j.isLt
    rw [hlength, if_neg (Nat.ne_of_gt hi)] at hi'
    rw [hlength, if_neg (by omega)] at hj
    omega

/-- In every run, the loop threads are picked in turn. -/
theorem even_along {threads : Fin n → θ} {trace : List (Action n ι χ × State n ι χ θ)}
    (hrun : Steps (Step run) (start threads) trace) : Along Even (start threads) trace := by
  have hrotating : Along Rotating (start threads) trace :=
    hrun.along (start_rotating threads) fun _ _ _ hs hstep => hstep.rotating hs
  exact hrotating.mono fun _ hs => hs.even

/-- Three tasks for two loop threads. -/
theorem even_after_getLoopThread :
    ∃ t : State 2 Bool Unit Nat,
      Reaches (Step fun _ n => n + 1) (start fun _ => 0) t ∧ t.picks = [1, 0, 1] ∧
        t.selectIndex = 3 ∧ (t.members 0).pushed.length = 1 ∧ Even t := by
  have hreach : ∃ t : State 2 Bool Unit Nat,
      Reaches (Sending (fun _ _ => True) fun _ n => n + 1) (start fun _ => 0) t ∧
        t.picks = [1, 0, 1] ∧ t.selectIndex = 3 ∧ (t.members 0).pushed.length = 1 := by
    refine ⟨_, (reaches_launched _ fun _ => 0).trans <|
      .cons ⟨.getLoopThread ⟨.newListener, .connInfo ()⟩ rfl Nat.two_pos, fun _ _ => trivial⟩ <|
      (reaches_call (i := 1) _ rfl (Member.resting_launched 0)).trans <|
      .cons ⟨.getLoopThread ⟨.newListener, .connInfo ()⟩ rfl Nat.two_pos, fun _ _ => trivial⟩ <|
      (reaches_call (i := 0) _ rfl (Member.resting_launched 0)).trans <|
      .cons ⟨.getLoopThread ⟨.newListener, .connInfo ()⟩ rfl Nat.two_pos, fun _ _ => trivial⟩
        .nil, rfl, rfl, rfl⟩
  obtain ⟨t, ⟨trace, hsending, rfl⟩, hpicks, hindex, hpushed⟩ := hreach
  have hrun := hsending.mono fun _ _ _ h => h.1
  exact ⟨_, ⟨trace, hrun, rfl⟩, hpicks, hindex, hpushed, (even_along hrun).final⟩

end

end Canal.Pool
