import Mathlib.Data.List.Basic

/-!
# Cutting a stream into frames

A `Recogniser` finds the first frame of a stream, if the symbols seen so far
already contain it. Recognition is required to be stable: further symbols never
change a frame that has been found, and a frame is found as soon as its last
symbol is there. Nothing is assumed about what a frame looks like.

`frames` repeats recognition until no frame is left, `rest` is what remains.
The law used by every incremental reader is `frames_append`: the frames of a
longer stream are those of its first part, followed by the frames of what that
part left over together with the new symbols.
-/

namespace Framing

universe u

/-- A stable recogniser of the first frame of a stream, by its length. -/
structure Recogniser (α : Type u) where
  first : List α → Option Nat
  pos : ∀ {xs n}, first xs = some n → 0 < n
  le_length : ∀ {xs n}, first xs = some n → n ≤ xs.length
  append : ∀ {xs n} (ys), first xs = some n → first (xs ++ ys) = some n
  of_append : ∀ {xs ys n}, first (xs ++ ys) = some n → n ≤ xs.length → first xs = some n

namespace Recogniser

variable {α : Type u} (R : Recogniser α) {xs ys : List α} {n : Nat}

theorem first_nil : R.first [] = none := by
  cases h : R.first [] with
  | none => rfl
  | some n =>
      have hpos := R.pos h
      have hle := R.le_length h
      simp only [List.length_nil] at hle
      omega

theorem length_drop_lt (h : R.first xs = some n) : (xs.drop n).length < xs.length := by
  have hpos := R.pos h
  have hle := R.le_length h
  simp only [List.length_drop]
  omega

/-- The frames of a stream, together with the part in which no frame begins
or the first frame is unfinished. -/
def cut (xs : List α) : List (List α) × List α :=
  match _h : R.first xs with
  | none => ([], xs)
  | some n =>
      let r := cut (xs.drop n)
      (xs.take n :: r.1, r.2)
  termination_by xs.length
  decreasing_by exact R.length_drop_lt _h

def frames (xs : List α) : List (List α) := (R.cut xs).1

def rest (xs : List α) : List α := (R.cut xs).2

theorem cut_of_none (h : R.first xs = none) : R.cut xs = ([], xs) := by
  rw [cut]
  split
  · rfl
  · rename_i hsome
    simp [h] at hsome

theorem cut_of_some (h : R.first xs = some n) :
    R.cut xs = (xs.take n :: R.frames (xs.drop n), R.rest (xs.drop n)) := by
  rw [cut]
  split
  · rename_i hnone
    simp [h] at hnone
  · rename_i m hsome
    obtain rfl : n = m := Option.some.inj (h.symm.trans hsome)
    rfl

theorem frames_of_none (h : R.first xs = none) : R.frames xs = [] := by
  rw [frames, R.cut_of_none h]

theorem rest_of_none (h : R.first xs = none) : R.rest xs = xs := by
  rw [rest, R.cut_of_none h]

theorem frames_of_some (h : R.first xs = some n) :
    R.frames xs = xs.take n :: R.frames (xs.drop n) := by
  rw [frames, R.cut_of_some h]

theorem rest_of_some (h : R.first xs = some n) : R.rest xs = R.rest (xs.drop n) := by
  rw [rest, R.cut_of_some h]

@[simp] theorem frames_nil : R.frames [] = [] := R.frames_of_none R.first_nil

@[simp] theorem rest_nil : R.rest [] = [] := R.rest_of_none R.first_nil

/-- Induction along the frames of a stream. -/
theorem induction {P : List α → Prop} (stuck : ∀ xs, R.first xs = none → P xs)
    (frame : ∀ xs n, R.first xs = some n → P (xs.drop n) → P xs) (xs : List α) : P xs := by
  induction hk : xs.length using Nat.strongRecOn generalizing xs with
  | ind k ih =>
      cases h : R.first xs with
      | none => exact stuck xs h
      | some n =>
          have hlt := R.length_drop_lt h
          exact frame xs n h (ih (xs.drop n).length (by omega) (xs.drop n) rfl)

/-- Cutting loses nothing and reorders nothing. -/
theorem flatten_frames_append_rest (xs : List α) : (R.frames xs).flatten ++ R.rest xs = xs := by
  induction xs using R.induction with
  | stuck xs h => simp [R.frames_of_none h, R.rest_of_none h]
  | frame xs n h ih =>
      rw [R.frames_of_some h, R.rest_of_some h, List.flatten_cons, List.append_assoc, ih,
        List.take_append_drop]

@[simp] theorem first_rest (xs : List α) : R.first (R.rest xs) = none := by
  induction xs using R.induction with
  | stuck xs h => rw [R.rest_of_none h, h]
  | frame xs n h ih => rw [R.rest_of_some h, ih]

/-- The incremental law. -/
theorem frames_append (xs ys : List α) :
    R.frames (xs ++ ys) = R.frames xs ++ R.frames (R.rest xs ++ ys) := by
  induction xs using R.induction with
  | stuck xs h => simp [R.frames_of_none h, R.rest_of_none h]
  | frame xs n h ih =>
      have hle := R.le_length h
      have htake : (xs ++ ys).take n = xs.take n := List.take_append_of_le_length hle
      have hdrop : (xs ++ ys).drop n = xs.drop n ++ ys := List.drop_append_of_le_length hle
      rw [R.frames_of_some (R.append ys h), R.frames_of_some h, R.rest_of_some h, htake, hdrop,
        List.cons_append, ih]

theorem rest_append (xs ys : List α) : R.rest (xs ++ ys) = R.rest (R.rest xs ++ ys) := by
  induction xs using R.induction with
  | stuck xs h => rw [R.rest_of_none h]
  | frame xs n h ih =>
      have hdrop : (xs ++ ys).drop n = xs.drop n ++ ys :=
        List.drop_append_of_le_length (R.le_length h)
      rw [R.rest_of_some (R.append ys h), R.rest_of_some h, hdrop, ih]

/-- Every frame but those already taken off is a frame of what they leave. -/
theorem frames_eq_append {fs gs : List (List α)} (h : R.frames xs = fs ++ gs) :
    ∃ ys, xs = fs.flatten ++ ys ∧ R.frames ys = gs := by
  induction fs generalizing xs with
  | nil => exact ⟨xs, rfl, h⟩
  | cons f fs ih =>
      cases hx : R.first xs with
      | none => simp [R.frames_of_none hx] at h
      | some n =>
          rw [R.frames_of_some hx, List.cons_append, List.cons.injEq] at h
          obtain ⟨ys, hys, hgs⟩ := ih h.2
          refine ⟨ys, ?_, hgs⟩
          rw [List.flatten_cons, List.append_assoc, ← hys, ← h.1, List.take_append_drop]

theorem frames_eq_nil_iff : R.frames xs = [] ↔ R.first xs = none := by
  cases h : R.first xs with
  | none => simp [R.frames_of_none h]
  | some n => simp [R.frames_of_some h]

/-- The recogniser restricted to frames shorter than `bound`: a longer frame
is never found. -/
def below (bound : Nat) : Recogniser α where
  first xs := (R.first xs).filter (· < bound)
  pos h := R.pos (Option.filter_eq_some_iff.mp h).1
  le_length h := R.le_length (Option.filter_eq_some_iff.mp h).1
  append ys h := by
    obtain ⟨hf, hb⟩ := Option.filter_eq_some_iff.mp h
    exact Option.filter_eq_some_iff.mpr ⟨R.append ys hf, hb⟩
  of_append h hle := by
    obtain ⟨hf, hb⟩ := Option.filter_eq_some_iff.mp h
    exact Option.filter_eq_some_iff.mpr ⟨R.of_append hf hle, hb⟩

theorem below_first_eq_some {bound : Nat} :
    (R.below bound).first xs = some n ↔ R.first xs = some n ∧ n < bound := by
  simp [below, Option.filter_eq_some_iff]

end Recogniser

end Framing
