import Canal.Foundation.Trace
import Mathlib.Order.WellFounded

/-!
# What happens sooner or later

A property is inevitable if it holds sooner or later in every run that goes on as
long as it can. No fairness is asked for: whichever step is taken next, the
property comes closer.

The usual proof gives a measure that every step lowers, and a step that can be
taken wherever the property does not hold yet.

Some steps may end the whole system instead of leading to another state. What is
inevitable without them is still so up to this end.
-/

namespace Trace

universe u v

variable {σ : Type u} {α : Type v}

/-- `P` holds in `s`, or some step can be taken from `s` and `P` is inevitable
behind each of them. -/
inductive Inevitable (Q : σ → α → σ → Prop) (P : σ → Prop) : σ → Prop where
  | now {s : σ} (here : P s) : Inevitable Q P s
  | later {s : σ} (enabled : ∃ a t, Q s a t) (next : ∀ a t, Q s a t → Inevitable Q P t) :
      Inevitable Q P s

variable {Q : σ → α → σ → Prop} {P I : σ → Prop} {s : σ}

theorem Inevitable.of_measure (μ : σ → Nat) (init : I s)
    (keep : ∀ s a t, I s → Q s a t → I t) (lower : ∀ s a t, I s → Q s a t → μ t < μ s)
    (progress : ∀ s, I s → P s ∨ ∃ a t, Q s a t) : Inevitable Q P s := by
  induction hm : μ s using Nat.strongRecOn generalizing s with
  | ind m ih =>
      obtain here | enabled := progress s init
      · exact .now here
      · refine .later enabled fun a t hstep => ?_
        exact ih (μ t) (hm ▸ lower s a t init hstep) (keep s a t init hstep) rfl

/-- An invariant holds as well where the property comes true. -/
theorem Inevitable.and_invariant (h : Inevitable Q P s) (init : I s)
    (keep : ∀ s a t, I s → Q s a t → I t) : Inevitable Q (fun s => P s ∧ I s) s := by
  induction h with
  | now here => exact .now ⟨here, init⟩
  | later enabled _ ih => exact .later enabled fun a t hstep => ih a t hstep (keep _ a t init hstep)

theorem Inevitable.mono {P' : σ → Prop} (h : Inevitable Q P s) (weaken : ∀ s, P s → P' s) :
    Inevitable Q P' s := by
  induction h with
  | now here => exact .now (weaken _ here)
  | later enabled _ ih => exact .later enabled ih

/-- What is inevitable can be reached. -/
theorem Inevitable.reaches (h : Inevitable Q P s) : ∃ t, Reaches Q s t ∧ P t := by
  induction h with
  | now here => exact ⟨_, .nil, here⟩
  | later enabled _ ih =>
      obtain ⟨a, t, hstep⟩ := enabled
      obtain ⟨u, hreach, hu⟩ := ih a t hstep
      exact ⟨u, .cons hstep hreach, hu⟩

/-! ## Systems that can break down -/

/-- The steps of a system, of which some make it break down: nothing follows `none`. -/
inductive Breakable (Q : σ → α → σ → Prop) (breaks : σ → α → Prop) :
    Option σ → α → Option σ → Prop where
  | goes {s t : σ} {a : α} (step : Q s a t) (holds : ¬ breaks s a) :
      Breakable Q breaks (some s) a (some t)
  | ends {s t : σ} {a : α} (step : Q s a t) (broken : breaks s a) :
      Breakable Q breaks (some s) a none

variable {breaks : σ → α → Prop}

/-- The property comes true, or the system breaks down before. -/
theorem Inevitable.unless_broken (h : Inevitable Q P s) :
    Inevitable (Breakable Q breaks) (fun o => ∀ t ∈ o, P t) (some s) := by
  induction h with
  | now here =>
      apply Inevitable.now
      intro t ht
      rwa [← Option.some.inj ht]
  | @later s enabled _ ih =>
      obtain ⟨a, t, hstep⟩ := enabled
      refine .later ?_ fun b o hnext => ?_
      · by_cases hbreaks : breaks s a
        · exact ⟨a, none, .ends hstep hbreaks⟩
        · exact ⟨a, some t, .goes hstep hbreaks⟩
      · cases hnext with
        | goes step holds => exact ih b _ step
        | ends step broken => exact .now nofun

/-- No step from a state that satisfies the invariant breaks the system. -/
theorem Inevitable.unbroken (h : Inevitable Q P s) (init : I s)
    (keep : ∀ s a t, I s → Q s a t → I t) (holds : ∀ s a, I s → ¬ breaks s a) :
    Inevitable (Breakable Q breaks) (fun o => ∃ t ∈ o, P t) (some s) := by
  induction h with
  | now here => exact .now ⟨_, rfl, here⟩
  | later enabled _ ih =>
      obtain ⟨a, t, hstep⟩ := enabled
      refine .later ⟨a, some t, .goes hstep (holds _ a init)⟩ fun b o hnext => ?_
      cases hnext with
      | goes step _ => exact ih b _ step (keep _ b _ init step)
      | ends step broken => exact absurd broken (holds _ b init)

end Trace
