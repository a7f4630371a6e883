import Mathlib.Data.List.Basic

/-!
# Finite runs of a labelled transition relation

A run is the list of its labels, each paired with the state it leads to. The
same list carries three kinds of statement: `Steps` speaks of every transition,
`Along` of every state reached, the first one included, and `final` of the last
one. A transition relation, a guard on the state before a step, and a property
of single transitions are all instances of `Steps`.

The rules below replace induction over runs: an invariant that one guarded
step preserves holds along every run whose steps meet the guard.
-/

namespace Trace

universe u v

variable {σ : Type u} {α : Type v}

/-- Every transition of the run that starts at `s` satisfies `Q`. -/
def Steps (Q : σ → α → σ → Prop) : σ → List (α × σ) → Prop
  | _, [] => True
  | s, (a, t) :: run => Q s a t ∧ Steps Q t run

/-- Every state of the run that starts at `s` satisfies `P`. -/
def Along (P : σ → Prop) (s : σ) (run : List (α × σ)) : Prop :=
  P s ∧ ∀ p ∈ run, P p.2

/-- The state in which the run ends. -/
def final : σ → List (α × σ) → σ
  | s, [] => s
  | _, (_, t) :: run => final t run

variable {Q R : σ → α → σ → Prop} {P I : σ → Prop} {s t : σ} {a : α} {run rest : List (α × σ)}

@[simp] theorem steps_nil : Steps Q s [] := trivial

@[simp] theorem steps_cons : Steps Q s ((a, t) :: run) ↔ Q s a t ∧ Steps Q t run := Iff.rfl

@[simp] theorem along_nil : Along P s ([] : List (α × σ)) ↔ P s := by
  simp [Along]

@[simp] theorem along_cons : Along P s ((a, t) :: run) ↔ P s ∧ Along P t run := by
  simp [Along]

@[simp] theorem final_nil : final s ([] : List (α × σ)) = s := rfl

@[simp] theorem final_cons : final s ((a, t) :: run) = final t run := rfl

@[simp] theorem final_append : final s (run ++ rest) = final (final s run) rest := by
  induction run generalizing s with
  | nil => rfl
  | cons p tail ih => exact ih

theorem Along.initial (h : Along P s run) : P s := h.1

/-- The last state is one of the states reached. -/
theorem Along.final (h : Along P s run) : P (final s run) := by
  induction run generalizing s with
  | nil => simpa using h
  | cons p rest ih =>
      obtain ⟨b, u⟩ := p
      exact ih (along_cons.mp h).2

theorem Along.mono (h : Along P s run) (weaken : ∀ t, P t → I t) : Along I s run :=
  ⟨weaken s h.1, fun p hp => weaken p.2 (h.2 p hp)⟩

theorem Along.and (h : Along P s run) (h' : Along I s run) : Along (fun s => P s ∧ I s) s run :=
  ⟨⟨h.1, h'.1⟩, fun p hp => ⟨h.2 p hp, h'.2 p hp⟩⟩

theorem Steps.mono (h : Steps Q s run) (weaken : ∀ s a t, Q s a t → R s a t) :
    Steps R s run := by
  induction run generalizing s with
  | nil => trivial
  | cons p rest ih =>
      obtain ⟨b, u⟩ := p
      exact ⟨weaken _ _ _ h.1, ih h.2⟩

theorem Steps.and (h : Steps Q s run) (h' : Steps R s run) :
    Steps (fun s a t => Q s a t ∧ R s a t) s run := by
  induction run generalizing s with
  | nil => trivial
  | cons p rest ih =>
      obtain ⟨b, u⟩ := p
      exact ⟨⟨h.1, h'.1⟩, ih h.2 h'.2⟩

/-- Each transition is one of the run. -/
theorem Steps.mem (h : Steps Q s run) : Steps (fun s a t => Q s a t ∧ (a, t) ∈ run) s run := by
  induction run generalizing s with
  | nil => trivial
  | cons p rest ih =>
      obtain ⟨b, u⟩ := p
      refine ⟨⟨h.1, List.mem_cons_self⟩, (ih h.2).mono fun s a t hstep => ?_⟩
      exact ⟨hstep.1, List.mem_cons_of_mem _ hstep.2⟩

theorem Steps.labels {R : α → Prop} (h : Steps (fun _ a _ => R a) s run) : ∀ p ∈ run, R p.1 := by
  induction run generalizing s with
  | nil => exact nofun
  | cons p rest ih =>
      obtain ⟨b, u⟩ := p
      exact List.forall_mem_cons.mpr ⟨h.1, ih h.2⟩

theorem steps_append :
    Steps Q s (run ++ rest) ↔ Steps Q s run ∧ Steps Q (final s run) rest := by
  induction run generalizing s with
  | nil => simp
  | cons p tail ih =>
      obtain ⟨b, u⟩ := p
      simp only [List.cons_append, steps_cons, ih, final_cons, and_assoc]

/-! ## Building a run -/

/-- Some run leads from `s` to `t`. -/
def Reaches (Q : σ → α → σ → Prop) (s t : σ) : Prop := ∃ run, Steps Q s run ∧ final s run = t

theorem Reaches.nil : Reaches Q s s := ⟨[], steps_nil, rfl⟩

/-- A run is built by its first step and the run that follows. -/
theorem Reaches.cons {u : σ} (h : Q s a t) (hrest : Reaches Q t u) : Reaches Q s u := by
  obtain ⟨run, hrun, hfinal⟩ := hrest
  exact ⟨(a, t) :: run, ⟨h, hrun⟩, hfinal⟩

theorem Reaches.trans {u : σ} (h : Reaches Q s t) (h' : Reaches Q t u) : Reaches Q s u := by
  obtain ⟨run, hrun, rfl⟩ := h
  obtain ⟨rest, hrest, rfl⟩ := h'
  exact ⟨run ++ rest, steps_append.mpr ⟨hrun, hrest⟩, final_append⟩

theorem Reaches.mono (h : Reaches Q s t) (weaken : ∀ s a t, Q s a t → R s a t) : Reaches R s t := by
  obtain ⟨run, hrun, hfinal⟩ := h
  exact ⟨run, hrun.mono weaken, hfinal⟩

/-! ## Invariants -/

/-- The invariant rule: what holds initially and is preserved by every step
holds in every state reached. -/
theorem Steps.along (h : Steps Q s run) (init : I s)
    (step : ∀ s a t, I s → Q s a t → I t) : Along I s run := by
  induction run generalizing s with
  | nil => simpa using init
  | cons p rest ih =>
      obtain ⟨b, u⟩ := p
      exact along_cons.mpr ⟨init, ih h.2 (step _ _ _ init h.1)⟩

/-- The invariant rule at the end of a run. -/
theorem Reaches.invariant (h : Reaches Q s t) (init : I s)
    (step : ∀ s a t, I s → Q s a t → I t) : I t := by
  obtain ⟨run, hrun, rfl⟩ := h
  exact (hrun.along init step).final

/-- An invariant also constrains the steps taken between invariant states. -/
theorem Steps.of_along (h : Steps Q s run) (inv : Along I s run)
    (step : ∀ s a t, I s → Q s a t → I t → R s a t) : Steps R s run := by
  induction run generalizing s with
  | nil => trivial
  | cons p rest ih =>
      obtain ⟨b, u⟩ := p
      obtain ⟨now, next⟩ := along_cons.mp inv
      exact ⟨step _ _ _ now h.1 next.initial, ih h.2 next⟩

/-- The exact form of the invariant rule. When a step from an invariant state
keeps the invariant precisely if it meets the guard, the runs along which the
invariant holds are the runs whose steps all meet the guard. -/
theorem Steps.along_iff (h : Steps Q s run) (init : I s)
    (step : ∀ s a t, I s → Q s a t → (I t ↔ R s a t)) : Along I s run ↔ Steps R s run := by
  constructor
  · intro inv
    exact h.of_along inv (fun s a t hs hq ht => (step s a t hs hq).mp ht)
  · intro guarded
    exact (h.and guarded).along init (fun s a t hs hq => (step s a t hs hq.1).mpr hq.2)

/-- The exact form of the invariant rule, relative to what holds along the run in
any case. -/
theorem Steps.along_iff_under (h : Steps Q s run) (inv : Along I s run) (init : P s)
    (step : ∀ s a t, I s → P s → Q s a t → (P t ↔ R s a t)) : Along P s run ↔ Steps R s run := by
  induction run generalizing s with
  | nil => simpa using init
  | cons p rest ih =>
      obtain ⟨b, u⟩ := p
      obtain ⟨now, next⟩ := along_cons.mp inv
      have hstep := step s b u now init h.1
      rw [along_cons, steps_cons]
      constructor
      · rintro ⟨-, hrest⟩
        exact ⟨hstep.mp hrest.initial, (ih h.2 next hrest.initial).mp hrest⟩
      · rintro ⟨hguard, hrest⟩
        exact ⟨init, (ih h.2 next (hstep.mpr hguard)).mpr hrest⟩

/-- The exact form of the invariant rule for a property that is too weak to be
preserved. The guarded steps preserve a stronger invariant, and a step to a state
with the property has met the guard. -/
theorem Steps.along_iff_stronger {J : σ → Prop} (h : Steps Q s run) (inv : Along J s run)
    (init : I s) (keep : ∀ s a t, I s → Q s a t → R s a t → I t) (weaken : ∀ s, I s → P s)
    (forced : ∀ s a t, J s → Q s a t → P t → R s a t) : Along P s run ↔ Steps R s run := by
  constructor
  · intro hall
    apply h.of_along (inv.and hall)
    exact fun s a t hs hq ht => forced s a t hs.1 hq ht.2
  · intro guarded
    have hall := (h.and guarded).along init fun s a t hs hq => keep s a t hs hq.1 hq.2
    exact hall.mono weaken

end Trace
