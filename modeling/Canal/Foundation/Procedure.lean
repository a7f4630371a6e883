import Mathlib.Computability.StateTransition

/-!
# Recursive procedures on a stack

A program of mutually recursive procedures runs with an explicit stack, so that
nothing about its termination is settled by how it is written down. `φ` are the
points at which an invocation runs and `κ` those at which it waits for the
procedure it has called; values of `ρ` are returned, and `ε` are the reasons for
giving up the whole run.

A contract says what may be assumed at each point, and how the invocation that
is there ends. It is checked one move at a time: a caller relies on the contract
of its callee. What is assumed at a point then holds whenever a run gets there.
If the moves also go down in a well-founded order, every run comes to an end.
-/

namespace Procedure

open StateTransition

universe u v w x

variable {φ : Type u} {κ : Type v} {ρ : Type w} {ε : Type x}

/-- What an invocation does at a point. -/
inductive Move (φ : Type u) (κ : Type v) (ρ : Type w) (ε : Type x) where
  | ret (r : ρ)
  | jump (f : φ)
  | call (f : φ) (k : κ)
  | abort (e : ε)

/-- Compute `a`, then go on with it. -/
def Move.bind {α : Type*} (a : Except ε α) (next : α → Move φ κ ρ ε) : Move φ κ ρ ε :=
  match a with
  | .ok a => next a
  | .error e => .abort e

theorem Move.bind_eq_call {α : Type*} {a : Except ε α} {next : α → Move φ κ ρ ε} {f : φ} {k : κ} :
    Move.bind a next = .call f k ↔ ∃ b, a = .ok b ∧ next b = .call f k := by
  cases a <;> simp [Move.bind]

/-- The move at each point, and that of a waiting invocation to which a value is
returned. -/
structure Program (φ : Type u) (κ : Type v) (ρ : Type w) (ε : Type x) where
  move : φ → Move φ κ ρ ε
  resume : κ → ρ → Move φ κ ρ ε

/-- The invocation on top, and those that wait below it. -/
inductive Config (φ : Type u) (κ : Type v) (ρ : Type w) (ε : Type x) where
  | running (f : φ) (stack : List κ)
  | returning (r : ρ) (stack : List κ)
  | aborted (e : ε)

def Move.enter (stack : List κ) : Move φ κ ρ ε → Config φ κ ρ ε
  | .ret r => .returning r stack
  | .jump f => .running f stack
  | .call f k => .running f (k :: stack)
  | .abort e => .aborted e

/-- How the invocation above `stack` ends. -/
def finish (stack : List κ) : Except ε ρ → Config φ κ ρ ε
  | .ok r => .returning r stack
  | .error e => .aborted e

namespace Program

variable (P : Program φ κ ρ ε)

def step : Config φ κ ρ ε → Option (Config φ κ ρ ε)
  | .running f stack => some ((P.move f).enter stack)
  | .returning r (k :: stack) => some ((P.resume k r).enter stack)
  | .returning _ [] => none
  | .aborted _ => none

/-- The run that starts at `f` comes to an end, with this outcome. -/
def Ends (f : φ) (o : Except ε ρ) : Prop := finish [] o ∈ eval P.step (.running f [])

/-- The next step calls `f`, and the caller waits at `k`. -/
def Calls (c : Config φ κ ρ ε) (f : φ) (k : κ) : Prop :=
  match c with
  | .running g _ => P.move g = .call f k
  | .returning r (k' :: _) => P.resume k' r = .call f k
  | .returning _ [] => False
  | .aborted _ => False

/-- An invocation that makes this move ends as `Q` says, if every invocation that
is entered ends as `post` says; and `pre` holds wherever it goes. -/
inductive Meets (pre : φ → Prop) (post : φ → Except ε ρ → Prop) (Q : Except ε ρ → Prop) :
    Move φ κ ρ ε → Prop where
  | ret {r : ρ} (ok : Q (.ok r)) : Meets pre post Q (.ret r)
  | abort {e : ε} (error : Q (.error e)) : Meets pre post Q (.abort e)
  | jump {f : φ} (entry : pre f) (exit : ∀ o, post f o → Q o) : Meets pre post Q (.jump f)
  | call {f : φ} {k : κ} (entry : pre f) (error : ∀ e, post f (.error e) → Q (.error e))
      (resume : ∀ r, post f (.ok r) → Meets pre post Q (P.resume k r)) :
      Meets pre post Q (.call f k)

/-- Each point keeps what it promises under what it assumes. -/
def Contract (pre : φ → Prop) (post : φ → Except ε ρ → Prop) : Prop :=
  ∀ f, pre f → P.Meets pre post (post f) (P.move f)

/-- A contract whose jumps and calls go down in an order. -/
def TotalContract (lt : φ → φ → Prop) (pre : φ → Prop) (post : φ → Except ε ρ → Prop) : Prop :=
  ∀ f, pre f → P.Meets (fun g => pre g ∧ lt g f) post (post f) (P.move f)

/-- The invocations that wait in `stack` keep their promises, once the one above
them ends as `Q` says. -/
inductive Waits (pre : φ → Prop) (post : φ → Except ε ρ → Prop) :
    (Except ε ρ → Prop) → List κ → Prop where
  | nil {Q : Except ε ρ → Prop} : Waits pre post Q []
  | cons {Q R : Except ε ρ → Prop} {k : κ} {stack : List κ}
      (resume : ∀ r, Q (.ok r) → P.Meets pre post R (P.resume k r))
      (below : Waits pre post R stack) : Waits pre post Q (k :: stack)

/-- The point on top may be assumed to be as it should, and the stack waits for
the way in which its invocation ends. -/
def Sound (pre : φ → Prop) (post : φ → Except ε ρ → Prop) : Config φ κ ρ ε → Prop
  | .running f stack => pre f ∧ P.Waits pre post (post f) stack
  | .returning r stack => ∃ Q : Except ε ρ → Prop, Q (.ok r) ∧ P.Waits pre post Q stack
  | .aborted _ => True

variable {P} {pre pre' : φ → Prop} {post : φ → Except ε ρ → Prop} {Q R : Except ε ρ → Prop}
  {m : Move φ κ ρ ε} {f : φ} {stack : List κ} {c d : Config φ κ ρ ε}

theorem Meets.bind {α : Type*} {a : Except ε α} {next : α → Move φ κ ρ ε}
    (error : ∀ e, a = .error e → Q (.error e))
    (ok : ∀ b, a = .ok b → P.Meets pre post Q (next b)) : P.Meets pre post Q (.bind a next) := by
  cases a with
  | error e => exact .abort (error e rfl)
  | ok b => exact ok b rfl

theorem Meets.mono (h : P.Meets pre post Q m) (weaken : ∀ f, pre f → pre' f) :
    P.Meets pre' post Q m := by
  induction h with
  | ret ok => exact .ret ok
  | abort error => exact .abort error
  | jump entry exit => exact .jump (weaken _ entry) exit
  | call entry error _ ih => exact .call (weaken _ entry) error ih

theorem TotalContract.contract {lt : φ → φ → Prop} (h : P.TotalContract lt pre post) :
    P.Contract pre post :=
  fun f hf => (h f hf).mono fun _ hg => hg.1

/-! ## What holds in every configuration -/

theorem Waits.mono (h : P.Waits pre post Q stack) (strengthen : ∀ o, R o → Q o) :
    P.Waits pre post R stack := by
  cases h with
  | nil => exact .nil
  | cons resume below => exact .cons (fun r hr => resume r (strengthen _ hr)) below

theorem Meets.sound (h : P.Meets pre post Q m) (hstack : P.Waits pre post Q stack) :
    P.Sound pre post (m.enter stack) := by
  cases h with
  | ret ok => exact ⟨Q, ok, hstack⟩
  | abort error => trivial
  | jump entry exit => exact ⟨entry, hstack.mono exit⟩
  | call entry error resume => exact ⟨entry, .cons resume hstack⟩

theorem Contract.step (h : P.Contract pre post) (hc : P.Sound pre post c) (hstep : d ∈ P.step c) :
    P.Sound pre post d := by
  cases c with
  | running f stack =>
      obtain rfl := Option.mem_some.mp hstep
      exact (h f hc.1).sound hc.2
  | returning r stack =>
      obtain ⟨Q, hr, hstack⟩ := hc
      cases hstack with
      | nil => cases hstep
      | cons resume below =>
          obtain rfl := Option.mem_some.mp hstep
          exact (resume r hr).sound below
  | aborted e => cases hstep

/-- What a point assumes holds whenever a run gets there. -/
theorem Contract.sound (h : P.Contract pre post) (hf : pre f)
    (hc : Reaches P.step (.running f []) c) : P.Sound pre post c := by
  induction hc with
  | refl => exact ⟨hf, .nil⟩
  | tail _ hstep ih => exact h.step ih hstep

/-! ## Termination -/

theorem Meets.finishes (h : P.Meets pre post Q m)
    (ih : ∀ g, pre g → ∀ stack, ∃ o, post g o ∧ Reaches P.step (.running g stack) (finish stack o))
    (stack : List κ) : ∃ o, Q o ∧ Reaches P.step (m.enter stack) (finish stack o) := by
  induction h with
  | @ret r ok => exact ⟨.ok r, ok, .refl⟩
  | @abort e error => exact ⟨.error e, error, .refl⟩
  | jump entry exit =>
      obtain ⟨o, ho, hrun⟩ := ih _ entry stack
      exact ⟨o, exit o ho, hrun⟩
  | @call g k entry error _ resumed =>
      obtain ⟨o, ho, hrun⟩ := ih g entry (k :: stack)
      cases o with
      | error e => exact ⟨.error e, error e ho, hrun⟩
      | ok r =>
          obtain ⟨o, ho, hrest⟩ := resumed r ho
          exact ⟨o, ho, hrun.trans (.head rfl hrest)⟩

theorem TotalContract.finishes {lt : φ → φ → Prop} (h : P.TotalContract lt pre post)
    (wf : WellFounded lt) (hf : pre f) (stack : List κ) :
    ∃ o, post f o ∧ Reaches P.step (.running f stack) (finish stack o) := by
  induction f using wf.induction generalizing stack with
  | h f ih =>
      obtain ⟨o, ho, hrun⟩ := (h f hf).finishes (fun g hg => ih g hg.2 hg.1) stack
      exact ⟨o, ho, .head rfl hrun⟩

/-- Every run comes to an end, and ends as the contract says. -/
theorem TotalContract.ends {lt : φ → φ → Prop} (h : P.TotalContract lt pre post)
    (wf : WellFounded lt) (hf : pre f) : ∃ o, post f o ∧ P.Ends f o := by
  obtain ⟨o, ho, hrun⟩ := h.finishes wf hf []
  refine ⟨o, ho, mem_eval.mpr ⟨hrun, ?_⟩⟩
  cases o <;> rfl

end Program

end Procedure
