import Mathlib.Algebra.BigOperators.Group.Finset.Piecewise
import Mathlib.Data.Int.CardIntervalMod

/-!
# Taking turns with a counter that wraps

A counter runs up from zero and wraps at `M`; whoever it leaves as a remainder by `n`
has the turn. Within one round of the counter the turns are spread evenly, to one.
Where `n` does not divide `M`, each round favours the first few by one turn, and this
adds up.
-/

namespace Rotation

/-- Who has the turn when the counter has been incremented `x` times. -/
def seat (M n x : Nat) : Nat := x % M % n

/-- How often `i` has had the turn among the first `m`. -/
def served (M n m i : Nat) : Nat := Nat.count (fun x => seat M n x = i) m

variable {M n m i j : Nat}

theorem served_succ : served M n (m + 1) i = served M n m i + if seat M n m = i then 1 else 0 :=
  Nat.count_succ _ m

theorem seat_lt (hn : 0 < n) (x : Nat) : seat M n x < n := Nat.mod_lt _ hn

theorem seat_add_mul (q x : Nat) : seat M n (q * M + x) = seat M n x := by
  rw [seat, seat, Nat.mul_add_mod_self_right]

/-- Each turn is somebody's. -/
theorem sum_served (hn : 0 < n) (m : Nat) : ∑ i ∈ Finset.range n, served M n m i = m := by
  induction m with
  | zero => simp [served]
  | succ m ih =>
      have hseat := seat_lt (M := M) hn m
      simp only [served_succ, Finset.sum_add_distrib, ih, Finset.sum_ite_eq, Finset.mem_range,
        hseat, if_true]

/-- In the first round. -/
theorem served_first (hm : m ≤ M) (hi : i < n) :
    served M n m i = m / n + if i < m % n then 1 else 0 := by
  have hcongr : served M n m i = Nat.count (· ≡ i [MOD n]) m := by
    rw [served, Nat.count, Nat.count]
    apply List.countP_congr
    intro x hx
    have hlt : x < M := Nat.lt_of_lt_of_le (List.mem_range.mp hx) hm
    simp [seat, Nat.ModEq, Nat.mod_eq_of_lt hlt, Nat.mod_eq_of_lt hi]
  rw [hcongr, Nat.count_modEq_card m (Nat.zero_lt_of_lt hi), Nat.mod_eq_of_lt hi]

/-- A new round begins like the first one. -/
theorem served_add (q r : Nat) :
    served M n (q * M + r) i = served M n (q * M) i + served M n r i := by
  induction r with
  | zero => simp [served]
  | succ r ih => rw [← Nat.add_assoc, served_succ, served_succ, ih, seat_add_mul, Nat.add_assoc]

theorem served_rounds (q : Nat) : served M n (q * M) i = q * served M n M i := by
  induction q with
  | zero => simp [served]
  | succ q ih => rw [Nat.add_mul, Nat.one_mul, served_add, ih, Nat.add_mul, Nat.one_mul]

theorem served_eq (hM : 0 < M) (hi : i < n) :
    served M n m i = m / M * (M / n + if i < M % n then 1 else 0) +
      (m % M / n + if i < m % M % n then 1 else 0) := by
  have hm : m = m / M * M + m % M := by rw [Nat.mul_comm, Nat.div_add_mod]
  conv_lhs => rw [hm]
  rw [served_add, served_rounds, served_first (Nat.le_refl M) hi,
    served_first (Nat.mod_lt _ hM).le hi]

/-- A remainder that is small is at least as often left as one that is large. -/
theorem served_mono (hM : 0 < M) (hij : i ≤ j) (hj : j < n) :
    served M n m j ≤ served M n m i := by
  have hle : ∀ k, (if j < k then 1 else 0) ≤ if i < k then 1 else 0 := by
    intro k
    split <;> split <;> omega
  rw [served_eq hM hj, served_eq hM (Nat.lt_of_le_of_lt hij hj)]
  exact Nat.add_le_add (Nat.mul_le_mul_left _ (Nat.add_le_add_left (hle _) _))
    (Nat.add_le_add_left (hle _) _)

/-- Within a round, to be behind `i` is not to have had its first turn. -/
theorem turn_le (r : Nat) :
    (if i < r % n then 1 else 0) ≤ (if j < r % n then 1 else 0) + if r = 0 then 0 else 1 := by
  by_cases hzero : r = 0
  · simp [hzero]
  · simp only [hzero, if_false]
    split <;> split <;> omega

/-- Each round of the counter, the current one included, favours `i` by at most one. -/
theorem served_le (hM : 0 < M) (hi : i < n) (hj : j < n) :
    served M n m i ≤ served M n m j + m / M + if m % M = 0 then 0 else 1 := by
  have hround : m / M * (M / n + if i < M % n then 1 else 0) ≤
      m / M * (M / n + if j < M % n then 1 else 0) + m / M := by
    have hone : (M / n + if i < M % n then 1 else 0) ≤
        (M / n + if j < M % n then 1 else 0) + 1 := by
      split <;> split <;> omega
    exact Nat.mul_le_mul_left _ hone
  have hcurrent := turn_le (n := n) (i := i) (j := j) (m % M)
  rw [served_eq hM hi, served_eq hM hj]
  omega

/-- If `n` divides `M`, nobody is favoured. -/
theorem served_le_of_dvd (hM : 0 < M) (hdvd : n ∣ M) (hi : i < n) (hj : j < n) :
    served M n m i ≤ served M n m j + if m % M = 0 then 0 else 1 := by
  have hcurrent := turn_le (n := n) (i := i) (j := j) (m % M)
  simp only [served_eq hM hi, served_eq hM hj, Nat.mod_eq_zero_of_dvd hdvd, Nat.not_lt_zero,
    if_false]
  omega

/-- Between two values of the counter: each round that ends there favours `i` by at
most one, and so does the rest. -/
theorem served_window (hM : 0 < M) (hi : i < n) (hj : j < n) {g : Nat} (hg : g < M) :
    served M n (g + m) i + served M n g j ≤
      served M n (g + m) j + served M n g i + 1 + (g + m) / M := by
  by_cases hij : i ≤ j
  · have hstart := served_mono (m := g) hM hij hj
    have hend := served_le (m := g + m) hM hi hj
    split at hend <;> omega
  · have hend := served_mono (m := g + m) hM (Nat.le_of_not_le hij) hi
    have hstart := served_le (m := g) hM hj hi
    rw [Nat.div_eq_of_lt hg] at hstart
    have hrounds := Nat.zero_le ((g + m) / M)
    split at hstart <;> omega

/-- If `n` divides `M`, it makes no difference where the counter stands. -/
theorem served_window_of_dvd (hM : 0 < M) (hdvd : n ∣ M) (hi : i < n) (hj : j < n) (g : Nat) :
    served M n (g + m) i + served M n g j ≤ served M n (g + m) j + served M n g i + 1 := by
  by_cases hij : i ≤ j
  · have hstart := served_mono (m := g) hM hij hj
    have hend := served_le_of_dvd (m := g + m) hM hdvd hi hj
    split at hend <;> omega
  · have hend := served_mono (m := g + m) hM (Nat.le_of_not_le hij) hi
    have hstart := served_le_of_dvd (m := g) hM hdvd hj hi
    split at hstart <;> omega

/-- Behind `q` full rounds, those who are favoured are `q` turns ahead. -/
theorem served_drift (hM : 0 < M) (q : Nat) (hi : i < M % n) (hj : M % n ≤ j) (hjn : j < n) :
    served M n (q * M) i = served M n (q * M) j + q := by
  have hin : i < n := Nat.lt_of_lt_of_le hi (Nat.le_trans hj hjn.le)
  have hdiv : q * M / M = q := Nat.mul_div_cancel q hM
  have hmod : q * M % M = 0 := Nat.mul_mod_left q M
  rw [served_eq hM hin, served_eq hM hjn, hdiv, hmod]
  simp [hi, Nat.not_lt.mpr hj, Nat.mul_add]

end Rotation
