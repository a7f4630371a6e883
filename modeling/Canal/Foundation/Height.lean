import Canal.Foundation.Procedure

/-!
# How high the stack gets

Points and waiting invocations have levels: a call goes down at least one level, no
other move goes up, and a waiting invocation is not below the point that it goes on
at. The stack is then never higher than the level at which the run has started.
-/

namespace Procedure

open StateTransition

universe u v w x

variable {φ : Type u} {κ : Type v} {ρ : Type w} {ε : Type x}

/-- The move of an invocation on level `b`. -/
def Move.Descends (level : φ → Nat) (waiting : κ → Nat) (b : Nat) : Move φ κ ρ ε → Prop
  | .ret _ => True
  | .abort _ => True
  | .jump f => level f ≤ b
  | .call f k => level f < b ∧ waiting k ≤ b

theorem Move.Descends.bind {α : Type*} {level : φ → Nat} {waiting : κ → Nat} {b : Nat}
    {a : Except ε α} {next : α → Move φ κ ρ ε}
    (h : ∀ c, a = .ok c → (next c).Descends level waiting b) :
    (Move.bind a next).Descends level waiting b := by
  cases a with
  | error e => trivial
  | ok c => exact h c rfl

/-- Every move descends. -/
structure Program.Leveled (P : Program φ κ ρ ε) (level : φ → Nat) (waiting : κ → Nat) : Prop where
  move : ∀ f, (P.move f).Descends level waiting (level f)
  resume : ∀ k r, (P.resume k r).Descends level waiting (waiting k)

/-- The invocations that wait. -/
def Config.height : Config φ κ ρ ε → Nat
  | .running _ stack => stack.length
  | .returning _ stack => stack.length
  | .aborted _ => 0

/-- Everybody in the stack stands on its level or below it, counted from `b` at the
bottom. -/
def Standing (waiting : κ → Nat) (b : Nat) : List κ → Prop
  | [] => True
  | k :: stack => waiting k + stack.length ≤ b ∧ stack.length < b ∧ Standing waiting b stack

def Config.Within (level : φ → Nat) (waiting : κ → Nat) (b : Nat) : Config φ κ ρ ε → Prop
  | .running f stack => level f + stack.length ≤ b ∧ Standing waiting b stack
  | .returning _ stack => Standing waiting b stack
  | .aborted _ => True

variable {P : Program φ κ ρ ε} {level : φ → Nat} {waiting : κ → Nat} {b n : Nat}
  {m : Move φ κ ρ ε} {stack : List κ} {c d : Config φ κ ρ ε}

theorem Move.Descends.within (h : m.Descends level waiting n) (hn : n + stack.length ≤ b)
    (hstack : Standing waiting b stack) : (m.enter stack).Within level waiting b := by
  cases m with
  | ret r => exact hstack
  | abort e => trivial
  | jump f =>
      have hf : level f ≤ n := h
      exact ⟨by omega, hstack⟩
  | call f k =>
      obtain ⟨hf, hk⟩ := h
      refine ⟨?_, by omega, by omega, hstack⟩
      rw [List.length_cons]
      omega

theorem Program.Leveled.step (h : P.Leveled level waiting) (hc : c.Within level waiting b)
    (hstep : d ∈ P.step c) : d.Within level waiting b := by
  cases c with
  | running f stack =>
      obtain rfl := Option.mem_some.mp hstep
      exact (h.move f).within hc.1 hc.2
  | returning r stack =>
      cases stack with
      | nil => cases hstep
      | cons k stack =>
          obtain rfl := Option.mem_some.mp hstep
          obtain ⟨hk, -, hstack⟩ := hc
          exact (h.resume k r).within hk hstack
  | aborted e => cases hstep

theorem Config.Within.height_le (h : c.Within level waiting b) : c.height ≤ b := by
  cases c with
  | running f stack => exact Nat.le_of_add_left_le h.1
  | returning r stack =>
      cases stack with
      | nil => exact Nat.zero_le b
      | cons k stack => exact h.2.1
  | aborted e => exact Nat.zero_le b

/-- In every configuration of a run, the stack is at most as high as the level at
which the run has started. -/
theorem Program.Leveled.height_le (h : P.Leveled level waiting) {f : φ}
    (hc : Reaches P.step (.running f []) c) : c.height ≤ level f := by
  have hwithin : c.Within level waiting (level f) := by
    induction hc with
    | refl => exact ⟨Nat.le_refl _, trivial⟩
    | tail _ hstep ih => exact h.step ih hstep
  exact hwithin.height_le

end Procedure
