import Mathlib.Data.List.Basic

/-!
# Byte buffers behind a pointer

A `char *` parameter reaches whatever lies behind it, not only the bytes that
a length parameter announces. A `Memory` says what a load at each offset from
the pointer yields, `none` being an offset that belongs to no object. Loading
such an offset is a fault, which an evaluation reports instead of a value;
running out of recursion fuel is reported the same way and kept distinct.

`view bytes past` is the memory of a caller that passes `bytes`: the bytes
themselves, then the memory that happens to follow them.
-/

namespace Buffer

abbrev Byte := UInt8

/-- What a load at each offset from a pointer yields. -/
abbrev Memory := Nat → Option Byte

/-- Why an evaluation ends without a value. -/
inductive Stop where
  | fault
  | fuel
  deriving DecidableEq, Repr

abbrev Eval := Except Stop

@[simp] theorem ok_bind {α β : Type} (a : α) (f : α → Eval β) :
    (Except.ok a : Eval α) >>= f = f a := rfl

@[simp] theorem error_bind {α β : Type} (e : Stop) (f : α → Eval β) :
    (Except.error e : Eval α) >>= f = .error e := rfl

theorem bind_eq_ok {α β : Type} {x : Eval α} {f : α → Eval β} {b : β} :
    x >>= f = .ok b ↔ ∃ a, x = .ok a ∧ f a = .ok b := by
  cases x <;> simp

@[simp] theorem pure_eq_ok {α : Type} (a : α) : (pure a : Eval α) = .ok a := rfl

/-- `buf[i]` -/
def load (buf : Memory) (i : Nat) : Eval Byte :=
  match buf i with
  | some c => .ok c
  | none => .error .fault

/-- `std::find(buf + first, buf + first + count, c) - buf` -/
def find (buf : Memory) (c : Byte) : (count first : Nat) → Eval Nat
  | 0, first => .ok first
  | count + 1, first => do
      if (← load buf first) = c then
        return first
      else
        find buf c count (first + 1)

/-- `std::string(buf + first, count)` -/
def string (buf : Memory) : (count first : Nat) → Eval (List Byte)
  | 0, _ => .ok []
  | count + 1, first => do
      let c ← load buf first
      let s ← string buf count (first + 1)
      return c :: s

/-- The memory behind a pointer to `bytes`; `past` is what follows them. -/
def view (bytes : List Byte) (past : Memory) : Memory := fun i =>
  if i < bytes.length then bytes[i]? else past (i - bytes.length)

/-- Nothing is mapped: no load succeeds. -/
def unmapped : Memory := fun _ => none

variable {bytes : List Byte} {past : Memory}

theorem load_view_of_lt {i : Nat} (h : i < bytes.length) :
    load (view bytes past) i = .ok bytes[i] := by
  simp [load, view, h]

/-- A load at or behind the end reaches the memory that follows the bytes. -/
theorem load_view_past (k : Nat) : load (view bytes past) (bytes.length + k) = load past k := by
  have h : ¬ bytes.length + k < bytes.length := by omega
  simp [load, view, h]

/-- A search inside the bytes stops at the first occurrence, or at the end. -/
theorem find_view {c : Byte} {count first : Nat} (h : first + count = bytes.length) :
    find (view bytes past) c count first = .ok (first + (bytes.drop first).idxOf c) := by
  induction count generalizing first with
  | zero =>
      have hnil : bytes.drop first = [] := List.drop_eq_nil_of_le (by omega)
      simp [find, hnil]
  | succ count ih =>
      have hlt : first < bytes.length := by omega
      rw [find, load_view_of_lt hlt, List.drop_eq_getElem_cons hlt, List.idxOf_cons]
      by_cases hc : bytes[first] = c
      · simp [hc]
      · have hstep := ih (show first + 1 + count = bytes.length by omega)
        simp only [ok_bind, hc, ↓reduceIte, hstep]
        have hb : (bytes[first] == c) = false := by simpa using hc
        simp only [hb, cond_false, Except.ok.injEq]
        omega

/-- Copying out of the bytes faults nowhere. -/
theorem string_view {count first : Nat} (h : first + count ≤ bytes.length) :
    string (view bytes past) count first = .ok ((bytes.drop first).take count) := by
  induction count generalizing first with
  | zero => simp [string]
  | succ count ih =>
      have hlt : first < bytes.length := by omega
      rw [string, load_view_of_lt hlt, ih (by omega), List.drop_eq_getElem_cons hlt]
      rfl

/-! ## What an evaluation reads -/

/-- The evaluation fails only where a byte in front of offset `n` cannot be loaded,
and never because it runs out of fuel. -/
def Reads {α : Type} (buf : Memory) (n : Nat) (x : Eval α) : Prop :=
  ∀ e, x = .error e → e = .fault ∧ ∃ i < n, buf i = none

variable {α β : Type} {buf : Memory} {n : Nat}

theorem reads_ok (a : α) : Reads buf n (.ok a : Eval α) := nofun

theorem Reads.error {x : Eval α} {e : Stop} (h : Reads buf n x) (he : x = .error e) :
    Reads buf n (.error e : Eval β) := by
  intro e' he'
  obtain rfl := Except.error.inj he'
  exact h e he

theorem Reads.bind {x : Eval α} {f : α → Eval β} (hx : Reads buf n x)
    (hf : ∀ a, x = .ok a → Reads buf n (f a)) : Reads buf n (x >>= f) := by
  cases x with
  | error e => exact hx.error rfl
  | ok a => exact hf a rfl

theorem reads_load {i : Nat} (h : i < n) : Reads buf n (load buf i) := by
  intro e he
  cases hi : buf i with
  | none =>
      simp only [load, hi, Except.error.injEq] at he
      exact ⟨he.symm, i, h, hi⟩
  | some c => simp [load, hi] at he

theorem reads_find {c : Byte} {count first : Nat} (h : first + count ≤ n) :
    Reads buf n (find buf c count first) := by
  induction count generalizing first with
  | zero => exact reads_ok first
  | succ count ih =>
      apply (reads_load (by omega)).bind
      intro d _
      split
      · exact reads_ok first
      · exact ih (by omega)

theorem reads_string {count first : Nat} (h : first + count ≤ n) :
    Reads buf n (string buf count first) := by
  induction count generalizing first with
  | zero => exact reads_ok []
  | succ count ih =>
      exact (reads_load (by omega)).bind fun c _ => (ih (by omega)).bind fun s _ => reads_ok _

theorem find_bounds {c : Byte} {count first p : Nat} (h : find buf c count first = .ok p) :
    first ≤ p ∧ p ≤ first + count := by
  induction count generalizing first with
  | zero =>
      obtain rfl := Except.ok.inj h
      exact ⟨Nat.le_refl _, Nat.le_refl _⟩
  | succ count ih =>
      obtain ⟨d, -, h⟩ := bind_eq_ok.mp h
      split at h
      · obtain rfl := Except.ok.inj h
        omega
      · have hrest := ih h
        omega

/-- A search goes past a byte that is not sought. -/
theorem find_ne {c d : Byte} {count first p : Nat} (h : find buf c (count + 1) first = .ok p)
    (hload : load buf first = .ok d) (hd : d ≠ c) : first < p := by
  rw [find, hload, ok_bind, if_neg hd] at h
  exact (find_bounds h).1

end Buffer
