import Canal.Foundation.Buffer
import Mathlib.Algebra.Group.Int.Defs
import Mathlib.Algebra.Group.Nat.Defs
import Mathlib.Data.List.TakeWhile

/-!
# Decimal numbers in byte strings

`stoi` follows the C++ standard: leading white space is skipped, a sign is
accepted, the longest prefix of digits is converted and what follows it is
ignored. It throws when there is no digit and when the value does not fit in an
`int`. `decimal` is the canonical numeral, without sign or leading zeros, and
`stoi` reads it back.
-/

namespace Decimal

open Buffer

def isspace (c : Byte) : Bool := c = 32 || (9 ≤ c && c ≤ 13)

def isdigit (c : Byte) : Bool := 48 ≤ c && c ≤ 57

/-- The number that a string of digits denotes. -/
def value (digits : List Byte) : Nat := digits.foldl (fun n c => 10 * n + (c.toNat - 48)) 0

/-- The digits that follow an optional sign, and whether the sign is a minus. -/
def splitSign : List Byte → Bool × List Byte
  | 45 :: s => (true, s)
  | 43 :: s => (false, s)
  | s => (false, s)

/-- `std::stoi`, with `none` where it throws: `std::invalid_argument` when no
digit is found, `std::out_of_range` when the value does not fit. -/
def stoi (s : List Byte) : Option Int :=
  let (negative, s) := splitSign (s.dropWhile isspace)
  let digits := s.takeWhile isdigit
  if digits = [] then
    none
  else
    let n : Int := if negative then -(value digits : Int) else value digits
    if -2 ^ 31 ≤ n ∧ n < 2 ^ 31 then some n else none

/-- The canonical decimal numeral of `n`. -/
def decimal (n : Nat) : List Byte := (Nat.toDigits 10 n).map fun c => UInt8.ofNat c.toNat

theorem value_append_singleton (s : List Byte) (c : Byte) :
    value (s ++ [c]) = 10 * value s + (c.toNat - 48) := by
  simp [value]

private theorem digit_toNat {d : Nat} (h : d < 10) :
    (UInt8.ofNat d.digitChar.toNat).toNat = 48 + d := by
  rw [Nat.toNat_digitChar_of_lt_ten h, UInt8.toNat_ofNat']
  omega

private theorem digit_isdigit {d : Nat} (h : d < 10) :
    isdigit (UInt8.ofNat d.digitChar.toNat) = true := by
  have hd := digit_toNat h
  simp only [isdigit, Bool.and_eq_true, decide_eq_true_eq, UInt8.le_iff_toNat_le, hd]
  exact ⟨Nat.le_add_right 48 d, by change 48 + d ≤ 57; omega⟩

theorem decimal_of_lt {n : Nat} (h : n < 10) :
    decimal n = [UInt8.ofNat n.digitChar.toNat] := by
  simp [decimal, Nat.toDigits_of_lt_base h]

theorem decimal_of_le {n : Nat} (h : 10 ≤ n) :
    decimal n = decimal (n / 10) ++ [UInt8.ofNat (n % 10).digitChar.toNat] := by
  simp [decimal, Nat.toDigits_of_base_le (by decide : 1 < 10) h]

theorem decimal_ne_nil (n : Nat) : decimal n ≠ [] := by
  simp [decimal, Nat.toDigits_ne_nil]

/-- A canonical numeral consists of digits and denotes its number. -/
theorem decimal_spec (n : Nat) : (∀ c ∈ decimal n, isdigit c = true) ∧ value (decimal n) = n := by
  induction n using Nat.strongRecOn with
  | ind n ih =>
      by_cases h : n < 10
      · rw [decimal_of_lt h]
        refine ⟨?_, ?_⟩
        · intro c hc
          rw [List.mem_singleton.mp hc]
          exact digit_isdigit h
        · have hd := digit_toNat h
          simp only [value, List.foldl_cons, List.foldl_nil, hd]
          omega
      · have hmod : n % 10 < 10 := Nat.mod_lt _ (by decide)
        obtain ⟨hdigits, hvalue⟩ := ih (n / 10) (by omega)
        rw [decimal_of_le (by omega)]
        refine ⟨?_, ?_⟩
        · intro c hc
          obtain hc | hc := List.mem_append.mp hc
          · exact hdigits c hc
          · rw [List.mem_singleton.mp hc]
            exact digit_isdigit hmod
        · have hd := digit_toNat hmod
          rw [value_append_singleton, hvalue, hd]
          omega

theorem isdigit_of_mem_decimal {n : Nat} {c : Byte} (h : c ∈ decimal n) : isdigit c = true :=
  (decimal_spec n).1 c h

@[simp] theorem value_decimal (n : Nat) : value (decimal n) = n := (decimal_spec n).2

/-- Different numbers have different numerals. -/
theorem decimal_injective {m n : Nat} (h : decimal m = decimal n) : m = n := by
  rw [← value_decimal m, h, value_decimal]

theorem not_isspace_of_isdigit {c : Byte} (h : isdigit c = true) : isspace c = false := by
  simp only [isdigit, Bool.and_eq_true, decide_eq_true_eq] at h
  simp only [isspace, Bool.or_eq_false_iff, decide_eq_false_iff_not, Bool.and_eq_false_iff,
    UInt8.le_iff_toNat_le] at *
  refine ⟨?_, Or.inr ?_⟩
  · rintro rfl
    exact absurd h.1 (by decide)
  · have h48 : (48 : UInt8).toNat = 48 := rfl
    have h13 : (13 : UInt8).toNat = 13 := rfl
    omega

/-- Neither sign is a digit. -/
theorem splitSign_of_isdigit {c : Byte} {s : List Byte} (h : isdigit c = true) :
    splitSign (c :: s) = (false, c :: s) := by
  have hminus : c ≠ 45 := by rintro rfl; exact absurd h (by decide)
  have hplus : c ≠ 43 := by rintro rfl; exact absurd h (by decide)
  unfold splitSign
  split <;> simp_all

/-- `stoi` reads back every canonical numeral that fits in an `int`. -/
theorem stoi_decimal {n : Nat} (h : n < 2 ^ 31) : stoi (decimal n) = some (n : Int) := by
  obtain ⟨c, s, hs⟩ := List.exists_cons_of_ne_nil (decimal_ne_nil n)
  have hdigits : ∀ d ∈ c :: s, isdigit d = true := by
    intro d hd
    rw [← hs] at hd
    exact isdigit_of_mem_decimal hd
  have hc : isdigit c = true := hdigits c (by simp)
  have hvalue : value (c :: s) = n := by rw [← hs, value_decimal]
  have hdrop : (c :: s).dropWhile isspace = c :: s := by
    simp [not_isspace_of_isdigit hc]
  have htake : (c :: s).takeWhile isdigit = c :: s := List.takeWhile_eq_self_iff.mpr hdigits
  have hrange : -2 ^ 31 ≤ (n : Int) ∧ (n : Int) < 2 ^ 31 := by omega
  rw [hs, stoi, hdrop, splitSign_of_isdigit hc]
  simp only [htake, hvalue, Bool.false_eq_true, ↓reduceIte, reduceCtorEq]
  rw [if_pos hrange]

end Decimal
