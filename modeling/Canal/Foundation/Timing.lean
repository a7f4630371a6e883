import Canal.Foundation.Procedure

/-!
# How long a run takes

The steps of a run are counted. What an invocation may cost depends on how it ends: a
caller that knows what has been returned knows how much of its own budget is left.
Budgets are checked one move at a time, apart from the contract that says how the
invocations end, and on its authority.
-/

namespace Procedure

open StateTransition

universe u v w x

variable {φ : Type u} {κ : Type v} {ρ : Type w} {ε : Type x}

/-- A run of `n` steps. -/
inductive Takes {σ : Type u} (f : σ → Option σ) : Nat → σ → σ → Prop where
  | refl (a : σ) : Takes f 0 a a
  | head {n : Nat} {a b c : σ} (step : b ∈ f a) (rest : Takes f n b c) : Takes f (n + 1) a c

theorem Takes.trans {σ : Type u} {f : σ → Option σ} {m n : Nat} {a b c : σ} (h : Takes f m a b)
    (h' : Takes f n b c) : Takes f (m + n) a c := by
  induction h with
  | refl => simpa using h'
  | head step _ ih => simpa [Nat.add_right_comm] using Takes.head step (ih h')

namespace Program

variable (P : Program φ κ ρ ε)

/-- The step that makes the move, and all that follow until the invocation ends, are
within a budget, if every invocation that is entered is within its cost. -/
inductive Affords (post : φ → Except ε ρ → Prop) (cost : φ → Except ε ρ → Nat) :
    (Except ε ρ → Nat) → Move φ κ ρ ε → Prop where
  | ret {budget : Except ε ρ → Nat} {r : ρ} (ok : 1 ≤ budget (.ok r)) :
      Affords post cost budget (.ret r)
  | abort {budget : Except ε ρ → Nat} {e : ε} (error : 1 ≤ budget (.error e)) :
      Affords post cost budget (.abort e)
  | jump {budget : Except ε ρ → Nat} {f : φ}
      (exit : ∀ o, post f o → cost f o + 1 ≤ budget o) : Affords post cost budget (.jump f)
  | call {budget : Except ε ρ → Nat} {f : φ} {k : κ} (left : ρ → Except ε ρ → Nat)
      (error : ∀ e, post f (.error e) → cost f (.error e) + 1 ≤ budget (.error e))
      (ok : ∀ r, post f (.ok r) → ∀ o, cost f (.ok r) + left r o + 1 ≤ budget o)
      (resume : ∀ r, post f (.ok r) → Affords post cost (left r) (P.resume k r)) :
      Affords post cost budget (.call f k)

variable {P} {pre : φ → Prop} {post : φ → Except ε ρ → Prop} {cost : φ → Except ε ρ → Nat}
  {budget : Except ε ρ → Nat} {Q : Except ε ρ → Prop} {m : Move φ κ ρ ε} {f : φ}

theorem Affords.bind {α : Type*} {a : Except ε α} {next : α → Move φ κ ρ ε}
    (error : ∀ e, a = .error e → 1 ≤ budget (.error e))
    (ok : ∀ b, a = .ok b → P.Affords post cost budget (next b)) :
    P.Affords post cost budget (.bind a next) := by
  cases a with
  | error e => exact .abort (error e rfl)
  | ok b => exact ok b rfl

theorem Affords.takes (h : P.Affords post cost budget m) (hm : P.Meets pre post Q m)
    (ih : ∀ g, pre g → ∀ stack, ∃ o n, post g o ∧ n ≤ cost g o ∧
      Takes P.step n (.running g stack) (finish stack o)) (stack : List κ) :
    ∃ o n, Q o ∧ n + 1 ≤ budget o ∧ Takes P.step n (m.enter stack) (finish stack o) := by
  induction hm generalizing budget with
  | @ret r hr =>
      cases h with
      | ret ok => exact ⟨.ok r, 0, hr, ok, .refl _⟩
  | @abort e he =>
      cases h with
      | abort error => exact ⟨.error e, 0, he, error, .refl _⟩
  | jump entry exit =>
      cases h with
      | jump within =>
          obtain ⟨o, n, ho, hn, hrun⟩ := ih _ entry stack
          exact ⟨o, n, exit o ho, Nat.le_trans (Nat.succ_le_succ hn) (within o ho), hrun⟩
  | @call g k entry error _ resumed =>
      cases h with
      | call left herror hok hresume =>
          obtain ⟨o, n, ho, hn, hrun⟩ := ih g entry (k :: stack)
          cases o with
          | error e =>
              have hbudget := herror e ho
              exact ⟨.error e, n, error e ho, by omega, hrun⟩
          | ok r =>
              obtain ⟨o, n', ho', hn', hrest⟩ := resumed r ho (hresume r ho)
              have hbudget := hok r ho o
              exact ⟨o, n + (n' + 1), ho', by omega, hrun.trans (.head rfl hrest)⟩

/-- A total contract, all of whose moves can be afforded, ends in time. -/
theorem TotalContract.takes {lt : φ → φ → Prop} (h : P.TotalContract lt pre post)
    (wf : WellFounded lt) (afford : ∀ f, pre f → P.Affords post cost (cost f) (P.move f))
    (hf : pre f) (stack : List κ) :
    ∃ o n, post f o ∧ n ≤ cost f o ∧ Takes P.step n (.running f stack) (finish stack o) := by
  induction f using wf.induction generalizing stack with
  | h f ih =>
      obtain ⟨o, n, ho, hn, hrun⟩ :=
        (afford f hf).takes (h f hf) (fun g hg => ih g hg.2 hg.1) stack
      exact ⟨o, n + 1, ho, hn, .head rfl hrun⟩

end Program

end Procedure
