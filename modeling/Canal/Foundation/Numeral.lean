import Canal.Foundation.Decimal

/-!
# What `stoi` reads

A `Spelling` of a text splits it the way `stoi` does: white space, a sign, a
non-empty run of digits and a tail that does not begin with a digit. `stoi`
succeeds exactly on the texts that have a spelling whose number fits in an
`int`. Most spellings are not numerals: only the digits and a minus sign belong
to the integer that a protocol writes.

The last section says what more input does to a text. Digits that are there
already only grow, so a text that can still become a number is one already, or
has not reached its first digit.
-/

namespace Decimal

open Buffer

inductive Sign where
  | none
  | plus
  | minus
  deriving DecidableEq

namespace Sign

def text : Sign → List Byte
  | .none => []
  | .plus => [43]
  | .minus => [45]

def apply : Sign → Nat → Int
  | .minus, n => -n
  | _, n => n

end Sign

/-- A text, split into the parts that `stoi` skips, converts and ignores. -/
@[ext]
structure Spelling (s : List Byte) where
  space : List Byte
  sign : Sign
  digits : List Byte
  tail : List Byte
  eq : s = space ++ (sign.text ++ (digits ++ tail))
  isspace_of_mem : ∀ c ∈ space, isspace c = true
  isdigit_of_mem : ∀ c ∈ digits, isdigit c = true
  digits_ne_nil : digits ≠ []
  maximal : ∀ c, tail.head? = some c → isdigit c = false

/-- `n` fits in an `int`. -/
def Fits (n : Int) : Prop := -2 ^ 31 ≤ n ∧ n < 2 ^ 31

instance (n : Int) : Decidable (Fits n) := inferInstanceAs (Decidable (_ ∧ _))

/-- An optional minus sign and one or more digits that denote `n`. -/
def Numeral (s : List Byte) (n : Int) : Prop :=
  ∃ sign digits, sign ≠ Sign.plus ∧ s = sign.text ++ digits ∧ digits ≠ [] ∧
    (∀ c ∈ digits, isdigit c = true) ∧ n = sign.apply (value digits)

variable {s t : List Byte} {n : Int} {c : Byte}

/-! ## Splitting a text -/

theorem takeWhile_exact {p : Byte → Bool} {body rest : List Byte} (inside : ∀ c ∈ body, p c = true)
    (boundary : ∀ c, rest.head? = some c → p c = false) : (body ++ rest).takeWhile p = body := by
  rw [List.takeWhile_append_of_pos inside]
  cases rest with
  | nil => simp
  | cons c rest => simp [boundary c rfl]

theorem dropWhile_exact {p : Byte → Bool} {body rest : List Byte} (inside : ∀ c ∈ body, p c = true)
    (boundary : ∀ c, rest.head? = some c → p c = false) : (body ++ rest).dropWhile p = rest := by
  rw [List.dropWhile_append_of_pos inside]
  cases rest with
  | nil => rfl
  | cons c rest => simp [boundary c rfl]

/-- Neither a sign nor a digit is white space. -/
theorem Sign.not_isspace_head (sign : Sign) {d : Byte} {rest : List Byte} (hd : isdigit d = true)
    (h : (sign.text ++ d :: rest).head? = some c) : isspace c = false := by
  cases sign with
  | none =>
      obtain rfl : d = c := by simpa [Sign.text] using h
      exact not_isspace_of_isdigit hd
  | plus =>
      obtain rfl : 43 = c := by simpa [Sign.text] using h
      rfl
  | minus =>
      obtain rfl : 45 = c := by simpa [Sign.text] using h
      rfl

theorem splitSign_text (sign : Sign) {d : Byte} {rest : List Byte} (hd : isdigit d = true) :
    splitSign (sign.text ++ d :: rest) = (decide (sign = .minus), d :: rest) := by
  cases sign with
  | none => exact splitSign_of_isdigit hd
  | plus => rfl
  | minus => rfl

/-- Every text is a sign followed by what `splitSign` leaves. -/
theorem exists_splitSign (s : List Byte) :
    ∃ sign : Sign, s = sign.text ++ (splitSign s).2 := by
  unfold splitSign
  split
  · exact ⟨.minus, rfl⟩
  · exact ⟨.plus, rfl⟩
  · exact ⟨.none, rfl⟩

namespace Spelling

/-- The number that is read. -/
def number (p : Spelling s) : Int := p.sign.apply (value p.digits)

/-- Nothing but a numeral is written. -/
def Strict (p : Spelling s) : Prop := p.space = [] ∧ p.sign ≠ .plus ∧ p.tail = []

theorem exists_cons (p : Spelling s) :
    ∃ d ds, p.digits = d :: ds ∧ isdigit d = true := by
  obtain ⟨d, ds, hds⟩ := List.exists_cons_of_ne_nil p.digits_ne_nil
  exact ⟨d, ds, hds, p.isdigit_of_mem d (by simp [hds])⟩

theorem dropWhile_isspace (p : Spelling s) :
    s.dropWhile isspace = p.sign.text ++ (p.digits ++ p.tail) ∧ s.takeWhile isspace = p.space := by
  obtain ⟨d, ds, hds, hd⟩ := p.exists_cons
  have hboundary : ∀ c, (p.sign.text ++ (p.digits ++ p.tail)).head? = some c →
      isspace c = false := by
    rw [hds]
    exact fun c hc => p.sign.not_isspace_head hd hc
  have hdrop := dropWhile_exact p.isspace_of_mem hboundary
  have htake := takeWhile_exact p.isspace_of_mem hboundary
  rw [← p.eq] at hdrop htake
  exact ⟨hdrop, htake⟩

theorem splitSign_eq (p : Spelling s) :
    splitSign (s.dropWhile isspace) = (decide (p.sign = .minus), p.digits ++ p.tail) := by
  obtain ⟨d, ds, hds, hd⟩ := p.exists_cons
  rw [p.dropWhile_isspace.1, hds]
  exact splitSign_text p.sign hd

/-- A text is read in one way only. -/
theorem unique (p q : Spelling s) : p = q := by
  have hbody : p.digits ++ p.tail = q.digits ++ q.tail :=
    congrArg Prod.snd (p.splitSign_eq.symm.trans q.splitSign_eq)
  have htext := p.dropWhile_isspace.1.symm.trans q.dropWhile_isspace.1
  rw [hbody, List.append_cancel_right_eq] at htext
  have hsign : p.sign = q.sign := by
    cases hp : p.sign <;> cases hq : q.sign <;> simp_all [Sign.text]
  have hdigits : p.digits = q.digits := by
    rw [← takeWhile_exact p.isdigit_of_mem p.maximal, hbody,
      takeWhile_exact q.isdigit_of_mem q.maximal]
  have htail : p.tail = q.tail := by
    rw [hdigits] at hbody
    exact List.append_cancel_left hbody
  exact Spelling.ext (p.dropWhile_isspace.2.symm.trans q.dropWhile_isspace.2) hsign hdigits htail

theorem stoi_eq (p : Spelling s) : stoi s = if Fits p.number then some p.number else none := by
  have htake : (p.digits ++ p.tail).takeWhile isdigit = p.digits :=
    takeWhile_exact p.isdigit_of_mem p.maximal
  have hnumber : (if p.sign = .minus then -(value p.digits : Int) else value p.digits) =
      p.number := by
    unfold number
    cases p.sign <;> rfl
  rw [stoi, p.splitSign_eq]
  simp only [htake, p.digits_ne_nil, decide_eq_true_eq, hnumber, ↓reduceIte]
  exact if_congr Iff.rfl rfl rfl

end Spelling

/-- Where `stoi` does not throw, it has read a spelling. -/
theorem exists_spelling (h : stoi s = some n) : ∃ p : Spelling s, p.number = n ∧ Fits n := by
  obtain ⟨sign, hsign⟩ := exists_splitSign (s.dropWhile isspace)
  have hne : (splitSign (s.dropWhile isspace)).2.takeWhile isdigit ≠ [] := by
    intro hnil
    simp [stoi, hnil] at h
  let p : Spelling s :=
    { space := s.takeWhile isspace
      sign := sign
      digits := (splitSign (s.dropWhile isspace)).2.takeWhile isdigit
      tail := (splitSign (s.dropWhile isspace)).2.dropWhile isdigit
      eq := by rw [List.takeWhile_append_dropWhile, ← hsign, List.takeWhile_append_dropWhile]
      isspace_of_mem := fun c hc => List.mem_takeWhile_imp hc
      isdigit_of_mem := fun c hc => List.mem_takeWhile_imp hc
      digits_ne_nil := hne
      maximal := fun c hc => by
        have hhead := List.head?_dropWhile_not isdigit (splitSign (s.dropWhile isspace)).2
        simpa [hc] using hhead }
  rw [p.stoi_eq] at h
  split at h
  · rename_i hfits
    obtain rfl := Option.some.inj h
    exact ⟨p, rfl, hfits⟩
  · simp at h

theorem stoi_eq_some_iff : stoi s = some n ↔ ∃ p : Spelling s, p.number = n ∧ Fits n := by
  constructor
  · exact exists_spelling
  · rintro ⟨p, rfl, hfits⟩
    rw [p.stoi_eq, if_pos hfits]

/-- A strict spelling is a numeral. -/
theorem Spelling.Strict.numeral {p : Spelling s} (h : p.Strict) : Numeral s p.number := by
  obtain ⟨hspace, hplus, htail⟩ := h
  refine ⟨p.sign, p.digits, hplus, ?_, p.digits_ne_nil, p.isdigit_of_mem, rfl⟩
  have heq := p.eq
  simpa [hspace, htail] using heq

/-- A numeral is spelled strictly. -/
theorem Numeral.exists_spelling (h : Numeral s n) : ∃ p : Spelling s, p.Strict ∧ p.number = n := by
  obtain ⟨sign, digits, hplus, hs, hne, hdigits, rfl⟩ := h
  exact ⟨⟨[], sign, digits, [], by simp [hs], by simp, hdigits, hne, by simp⟩,
    ⟨rfl, hplus, rfl⟩, rfl⟩

theorem Numeral.stoi_eq (h : Numeral s n) (hfits : Fits n) : stoi s = some n := by
  obtain ⟨p, -, hp⟩ := h.exists_spelling
  exact stoi_eq_some_iff.mpr ⟨p, hp, hfits⟩

/-! ## More input -/

theorem value_le_append (s t : List Byte) : value s ≤ value (s ++ t) := by
  induction t generalizing s with
  | nil => simp
  | cons c t ih =>
      have hstep := ih (s ++ [c])
      rw [value_append_singleton, List.append_assoc, List.singleton_append] at hstep
      omega

/-- White space and an optional sign: the first digit is still to come. -/
def Promising (s : List Byte) : Prop :=
  ∃ (space : List Byte) (sign : Sign), s = space ++ sign.text ∧ ∀ c ∈ space, isspace c = true

theorem promising_of_append {space t : List Byte} {sign : Sign} (h : s ++ t = space ++ sign.text)
    (hspace : ∀ c ∈ space, isspace c = true) : Promising s := by
  obtain ⟨rest, rfl, -⟩ | ⟨rest, rfl, hsign⟩ := List.append_eq_append_iff.mp h
  · exact ⟨s, .none, by simp [Sign.text], fun c hc => hspace c (by simp [hc])⟩
  · cases rest with
    | nil => exact ⟨space, .none, by simp [Sign.text], hspace⟩
    | cons d rest =>
        refine ⟨space, sign, ?_, hspace⟩
        cases sign <;> simp_all [Sign.text]

/-- A shorter run of digits denotes a number that is as acceptable. -/
theorem Sign.apply_of_le (sign : Sign) {k m : Nat} (hkm : k ≤ m) (hfits : Fits (sign.apply m))
    (hm : -1 ≤ sign.apply m) : Fits (sign.apply k) ∧ -1 ≤ sign.apply k := by
  unfold Fits at *
  cases sign <;> simp only [Sign.apply] at * <;> omega

/-- A number of at least -1, read from more input, has begun already. -/
theorem stoi_of_append (h : stoi (s ++ t) = some n) (hn : -1 ≤ n) :
    Promising s ∨ ∃ m, stoi s = some m ∧ -1 ≤ m := by
  obtain ⟨p, rfl, hfits⟩ := exists_spelling h
  -- a spelling of `s` with the same sign and no more digits
  have hshort : ∀ q : Spelling s, q.sign = p.sign → value q.digits ≤ value p.digits →
      ∃ m, stoi s = some m ∧ -1 ≤ m := by
    intro q hsign hle
    obtain ⟨hq, hneg⟩ := p.sign.apply_of_le hle hfits hn
    rw [← hsign] at hq hneg
    exact ⟨q.number, stoi_eq_some_iff.mpr ⟨q, rfl, hq⟩, hneg⟩
  have heq : s ++ t = (p.space ++ p.sign.text) ++ (p.digits ++ p.tail) := by
    rw [List.append_assoc]
    exact p.eq
  obtain ⟨rest, hhead, -⟩ | ⟨body, hs, hbody⟩ := List.append_eq_append_iff.mp heq
  · exact Or.inl (promising_of_append hhead.symm p.isspace_of_mem)
  · rw [List.append_assoc] at hs
    obtain ⟨rest, rfl, htail⟩ | ⟨rest, hdigits, -⟩ := List.append_eq_append_iff.mp hbody
    · exact Or.inr (hshort
        { space := p.space, sign := p.sign, digits := p.digits, tail := rest, eq := hs
          isspace_of_mem := p.isspace_of_mem
          isdigit_of_mem := p.isdigit_of_mem
          digits_ne_nil := p.digits_ne_nil
          maximal := fun c hc => p.maximal c (by simp [htail, hc]) } rfl (Nat.le_refl _))
    · have hle : value body ≤ value p.digits := by
        rw [hdigits]
        exact value_le_append _ _
      by_cases hnil : body = []
      · exact Or.inl ⟨p.space, p.sign, by simpa [hnil] using hs, p.isspace_of_mem⟩
      · exact Or.inr (hshort
          { space := p.space, sign := p.sign, digits := body, tail := [], eq := by simpa using hs
            isspace_of_mem := p.isspace_of_mem
            isdigit_of_mem := fun c hc => p.isdigit_of_mem c (by simp [hdigits, hc])
            digits_ne_nil := hnil
            maximal := by simp } rfl hle)

/-- A promising text reads as zero once a zero follows. -/
theorem Promising.stoi_append_zero (h : Promising s) : stoi (s ++ [48]) = some 0 := by
  obtain ⟨space, sign, rfl, hspace⟩ := h
  refine stoi_eq_some_iff.mpr ⟨⟨space, sign, [48], [], by simp, hspace,
    List.forall_mem_singleton.mpr rfl, by simp, by simp⟩, ?_, by decide⟩
  cases sign <;> rfl

end Decimal
