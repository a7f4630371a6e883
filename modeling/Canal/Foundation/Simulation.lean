import Canal.Foundation.Trace

/-!
# Runs seen through an abstraction

An abstraction maps the states of a system to those of another one, and those of
its actions that are visible to actions of the other one. Where each visible
action is matched by an action of the abstract system, and all others leave the
abstract state alone, a whole run is seen as a run of the abstract system.
-/

namespace Trace

universe u v w x

variable {σ : Type u} {α : Type v} {τ : Type w} {β : Type x}

/-- A map of states, and the abstract action that is seen when an action is taken
in a state, if any. -/
structure Abstraction (σ : Type u) (α : Type v) (τ : Type w) (β : Type x) where
  state : σ → τ
  action : σ → α → Option β

namespace Abstraction

variable (F : Abstraction σ α τ β)

/-- The run as it is seen: the actions that are not visible are left out. -/
def run : σ → List (α × σ) → List (β × τ)
  | _, [] => []
  | s, (a, t) :: rest =>
      match F.action s a with
      | some b => (b, F.state t) :: run t rest
      | none => run t rest

/-- Steps from states that satisfy `I` are matched. -/
def Simulates (Q : σ → α → σ → Prop) (R : τ → β → τ → Prop) (I : σ → Prop) : Prop :=
  ∀ s a t, I s → Q s a t →
    match F.action s a with
    | some b => R (F.state s) b (F.state t)
    | none => F.state t = F.state s

variable {F} {Q : σ → α → σ → Prop} {R : τ → β → τ → Prop} {I : σ → Prop} {s : σ}
  {trace : List (α × σ)}

/-- What is seen of a run is a run of the abstract system, and it ends in what is
seen of the last state. -/
theorem Simulates.run (h : F.Simulates Q R I) (inv : Along I s trace) (steps : Steps Q s trace) :
    Steps R (F.state s) (F.run s trace) ∧
      final (F.state s) (F.run s trace) = F.state (final s trace) := by
  induction trace generalizing s with
  | nil => exact ⟨trivial, rfl⟩
  | cons p rest ih =>
      obtain ⟨a, t⟩ := p
      obtain ⟨hs, hrest⟩ := along_cons.mp inv
      obtain ⟨hrun, hfinal⟩ := ih hrest steps.2
      have hstep := h s a t hs steps.1
      rw [Abstraction.run]
      cases hact : F.action s a with
      | none =>
          simp only [hact] at hstep
          rw [hstep] at hrun hfinal
          exact ⟨hrun, hfinal⟩
      | some b =>
          simp only [hact] at hstep
          exact ⟨⟨hstep, hrun⟩, hfinal⟩

end Abstraction

end Trace
