import Canal.Foundation.Framing
import Canal.RespParser.Basic

/-!
# What the parser treats as one item

The parser never counts the elements of an array: once it has read an array
header, it parses the rest of the buffer as if it stood by itself. Its view of
a stream is therefore flat. An *item* is one line ended by CR LF, or, for a
bulk header that announces a payload, that line and the next one; the header
line of an array is an item of its own. A line ends at its first CR.

`firstItem` says how a stream begins. A line that is not ended inside the
stream is `cut` when the end of the stream comes before the byte behind its
first CR, and `lone` when that byte is there and is not LF. Finding an item is
stable under more input, so items form frames in the sense of `Framing`.
-/

namespace Canal.RespParser

open Buffer Decimal

/-- Where the first line of a stream ends: `ended n` is a text of `n` bytes, CR LF. -/
inductive LineEnd where
  | ended (n : Nat)
  | lone
  | cut
  deriving DecidableEq, Repr

def LineEnd.succ : LineEnd → LineEnd
  | .ended n => .ended (n + 1)
  | .lone => .lone
  | .cut => .cut

/-- What the byte behind a CR decides. -/
def afterCR : List Byte → LineEnd
  | [] => .cut
  | c :: _ => if c = LF then .ended 0 else .lone

def lineEnd : List Byte → LineEnd
  | [] => .cut
  | c :: s => if c = CR then afterCR s else (lineEnd s).succ

@[simp] theorem succ_eq_at {e : LineEnd} {n : Nat} :
    e.succ = .ended (n + 1) ↔ e = .ended n := by
  cases e <;> simp [LineEnd.succ]

@[simp] theorem succ_ne_at_zero {e : LineEnd} : e.succ ≠ .ended 0 := by
  cases e <;> simp [LineEnd.succ]

@[simp] theorem succ_eq_lone {e : LineEnd} : e.succ = .lone ↔ e = .lone := by
  cases e <;> simp [LineEnd.succ]

@[simp] theorem succ_eq_cut {e : LineEnd} : e.succ = .cut ↔ e = .cut := by
  cases e <;> simp [LineEnd.succ]

/-- The first line of a stream, spelled out. -/
theorem lineEnd_eq_at_iff {r : List Byte} {n : Nat} :
    lineEnd r = .ended n ↔
      ∃ text rest, r = text ++ CR :: LF :: rest ∧ CR ∉ text ∧ text.length = n := by
  induction r generalizing n with
  | nil => simp [lineEnd]
  | cons c s ih =>
      rw [lineEnd]
      by_cases hc : c = CR
      · subst hc
        constructor
        · intro h
          rw [if_pos rfl] at h
          cases s with
          | nil => simp [afterCR] at h
          | cons d s =>
              by_cases hd : d = LF
              · subst hd
                have hn : n = 0 := by simpa [afterCR, eq_comm] using h
                exact ⟨[], s, by simp [hn]⟩
              · simp [afterCR, hd] at h
        · rintro ⟨text, rest, hr, hcr, hn⟩
          cases text with
          | nil =>
              have hs : s = LF :: rest := by simpa using hr
              subst hn
              simp [hs, afterCR]
          | cons d text =>
              obtain ⟨hd, -⟩ := List.cons_eq_cons.mp (by simpa using hr)
              exact absurd (by simp [← hd]) hcr
      · rw [if_neg hc]
        constructor
        · intro h
          cases n with
          | zero => simp at h
          | succ n =>
              obtain ⟨text, rest, hs, hcr, hn⟩ := ih.mp (succ_eq_at.mp h)
              exact ⟨c :: text, rest, by simp [hs], by simp [hcr, Ne.symm hc], by simp [hn]⟩
        · rintro ⟨text, rest, hr, hcr, hn⟩
          cases text with
          | nil =>
              obtain ⟨hd, -⟩ := List.cons_eq_cons.mp (by simpa using hr)
              exact absurd hd hc
          | cons d text =>
              obtain ⟨-, hs⟩ := List.cons_eq_cons.mp (by simpa using hr)
              subst hn
              rw [List.length_cons, succ_eq_at]
              exact ih.mpr ⟨text, rest, hs, fun h => hcr (by simp [h]), rfl⟩

theorem lineEnd_text {text : List Byte} (rest : List Byte) (h : CR ∉ text) :
    lineEnd (text ++ CR :: LF :: rest) = .ended text.length :=
  lineEnd_eq_at_iff.mpr ⟨text, rest, rfl, h, rfl⟩

/-- A complete line consists of its text and the two bytes of CR LF. -/
theorem length_of_lineEnd {r : List Byte} {n : Nat} (h : lineEnd r = .ended n) :
    n + 2 ≤ r.length := by
  obtain ⟨text, rest, rfl, -, rfl⟩ := lineEnd_eq_at_iff.mp h
  simp

theorem lineEnd_append_of_at {r : List Byte} {n : Nat} (s : List Byte) (h : lineEnd r = .ended n) :
    lineEnd (r ++ s) = .ended n := by
  obtain ⟨text, rest, rfl, hcr, rfl⟩ := lineEnd_eq_at_iff.mp h
  simpa using lineEnd_text (rest ++ s) hcr

/-- A complete line is recognised from its own bytes. -/
theorem lineEnd_of_append {r s : List Byte} {n : Nat} (h : lineEnd (r ++ s) = .ended n)
    (hn : n + 2 ≤ r.length) : lineEnd r = .ended n := by
  obtain ⟨text, rest, hrs, hcr, rfl⟩ := lineEnd_eq_at_iff.mp h
  refine lineEnd_eq_at_iff.mpr ⟨text, r.drop (text.length + 2), ?_, hcr, rfl⟩
  have htake : r.take (text.length + 2) = text ++ [CR, LF] := by
    have hsplit : text ++ CR :: LF :: rest = (text ++ [CR, LF]) ++ rest := by simp
    rw [← List.take_append_of_le_length hn, hrs, hsplit, List.take_left' (by simp)]
  calc r = r.take (text.length + 2) ++ r.drop (text.length + 2) :=
        (List.take_append_drop _ _).symm
    _ = text ++ CR :: LF :: r.drop (text.length + 2) := by simp [htake]

theorem lineEnd_append_of_lone {r : List Byte} (s : List Byte) (h : lineEnd r = .lone) :
    lineEnd (r ++ s) = .lone := by
  induction r with
  | nil => simp [lineEnd] at h
  | cons c r ih =>
      rw [lineEnd] at h
      rw [List.cons_append, lineEnd]
      by_cases hc : c = CR
      · rw [if_pos hc] at h ⊢
        cases r with
        | nil => simp [afterCR] at h
        | cons d r => simpa [afterCR] using h
      · rw [if_neg hc, succ_eq_lone] at h ⊢
        exact ih h

/-- A cut line has no CR, or its first CR is the last byte of the stream. -/
theorem lineEnd_eq_cut_iff {r : List Byte} :
    lineEnd r = .cut ↔ CR ∉ r ∨ ∃ text, r = text ++ [CR] ∧ CR ∉ text := by
  induction r with
  | nil => simp [lineEnd]
  | cons c s ih =>
      rw [lineEnd]
      by_cases hc : c = CR
      · subst hc
        rw [if_pos rfl]
        constructor
        · intro h
          cases s with
          | nil => exact Or.inr ⟨[], rfl, by simp⟩
          | cons d s =>
              rw [afterCR] at h
              split at h <;> simp at h
        · rintro (hno | ⟨text, hs, hcr⟩)
          · simp at hno
          · cases text with
            | nil =>
                obtain rfl : s = [] := by simpa using hs
                rfl
            | cons d text =>
                obtain ⟨rfl, -⟩ := List.cons_eq_cons.mp (by simpa using hs)
                simp at hcr
      · rw [if_neg hc, succ_eq_cut, ih]
        constructor
        · rintro (hno | ⟨text, rfl, hcr⟩)
          · exact Or.inl (by simp [hno, Ne.symm hc])
          · exact Or.inr ⟨c :: text, rfl, by simp [hcr, Ne.symm hc]⟩
        · rintro (hno | ⟨text, hs, hcr⟩)
          · exact Or.inl fun h => hno (by simp [h])
          · cases text with
            | nil => exact absurd (by simpa using hs : c = CR ∧ s = []).1 hc
            | cons d text =>
                obtain ⟨-, rfl⟩ := List.cons_eq_cons.mp (by simpa using hs)
                exact Or.inr ⟨text, rfl, fun h => hcr (by simp [h])⟩

/-- How a stream begins. The length of a whole item counts both of its lines;
`opens` marks the header of an array that announces at least one element. -/
inductive Item where
  | nothing
  | whole (n : Nat) (opens : Bool)
  | lone
  | cut
  | bad
  deriving DecidableEq, Repr

/-- Continue behind the first line of `r`, given the length of its text. -/
def Item.ofLine (r : List Byte) (k : Nat → Item) : Item :=
  match lineEnd r with
  | .ended n => k n
  | .lone => .lone
  | .cut => .cut

/-- The number in a header line whose text, type byte included, has `n` bytes. -/
def lineNumber (r : List Byte) (n : Nat) : Option Int := stoi ((r.drop 1).take (n - 1))

/-- A bulk header with text length `n`, and the payload line it calls for. -/
def bulkItem (r : List Byte) (n : Nat) : Item :=
  match lineNumber r n with
  | none => .bad
  | some z =>
      if z = -1 then
        .whole (n + 2) false
      else if 0 ≤ z then
        .ofLine (r.drop (n + 2)) fun m => .whole (n + 2 + m + 2) false
      else
        .bad

/-- An array header with text length `n`. -/
def arrayItem (r : List Byte) (n : Nat) : Item :=
  match lineNumber r n with
  | none => .bad
  | some z => if z < -1 then .bad else .whole (n + 2) (decide (0 < z))

def firstItem : List Byte → Item
  | [] => .nothing
  | c :: s =>
      if c = stringReply ∨ c = errorReply ∨ c = integerReply then
        .ofLine (c :: s) fun n => .whole (n + 2) false
      else if c = bulkReply then
        .ofLine (c :: s) (bulkItem (c :: s))
      else if c = arrayReply then
        .ofLine (c :: s) (arrayItem (c :: s))
      else
        .bad

@[simp] theorem firstItem_nil : firstItem [] = .nothing := rfl

theorem ofLine_eq_whole {r : List Byte} {k : Nat → Item} {m : Nat} {o : Bool} :
    Item.ofLine r k = .whole m o ↔ ∃ n, lineEnd r = .ended n ∧ k n = .whole m o := by
  unfold Item.ofLine
  cases lineEnd r <;> simp

theorem ofLine_ne_nothing {r : List Byte} {k : Nat → Item} (hk : ∀ n, k n ≠ .nothing) :
    Item.ofLine r k ≠ .nothing := by
  unfold Item.ofLine
  cases lineEnd r <;> simp [hk]

theorem bulkItem_ne_nothing (r : List Byte) (n : Nat) : bulkItem r n ≠ .nothing := by
  unfold bulkItem
  split
  · simp
  · split
    · simp
    · split
      · exact ofLine_ne_nothing (by simp)
      · simp

theorem arrayItem_ne_nothing (r : List Byte) (n : Nat) : arrayItem r n ≠ .nothing := by
  unfold arrayItem
  split
  · simp
  · split <;> simp

/-- Only the empty stream begins with nothing. -/
theorem firstItem_eq_nothing {r : List Byte} : firstItem r = .nothing ↔ r = [] := by
  cases r with
  | nil => simp
  | cons c s =>
      simp only [reduceCtorEq, iff_false]
      rw [firstItem]
      split
      · exact ofLine_ne_nothing (by simp)
      · split
        · exact ofLine_ne_nothing (bulkItem_ne_nothing _)
        · split
          · exact ofLine_ne_nothing (arrayItem_ne_nothing _)
          · simp

/-- The number of a header depends only on the line it stands in. -/
theorem lineNumber_append {r : List Byte} {n : Nat} (s : List Byte) (h : n ≤ r.length) :
    lineNumber (r ++ s) n = lineNumber r n := by
  unfold lineNumber
  cases r with
  | nil =>
      have hn : n = 0 := by simpa using h
      simp [hn]
  | cons c r =>
      have hle : n - 1 ≤ r.length := by simp only [List.length_cons] at h; omega
      simp [List.take_append_of_le_length hle]

/-- A type byte is not a CR, so the first line of an item has a text. -/
theorem lineEnd_cons_ne_zero {c : Byte} {s : List Byte} {n : Nat} (hc : c ≠ CR)
    (h : lineEnd (c :: s) = .ended n) : 0 < n := by
  rw [lineEnd, if_neg hc] at h
  cases n with
  | zero => simp at h
  | succ n => omega

/-- A whole bulk string is the null one, or has a payload line behind its header. -/
theorem bulkItem_eq_whole {r : List Byte} {n m : Nat} {o : Bool} :
    bulkItem r n = .whole m o ↔ ∃ z, lineNumber r n = some z ∧ o = false ∧
      ((z = -1 ∧ m = n + 2) ∨
        (0 ≤ z ∧ ∃ k, lineEnd (r.drop (n + 2)) = .ended k ∧ m = n + 2 + k + 2)) := by
  rw [bulkItem]
  cases lineNumber r n with
  | none => simp
  | some z =>
      by_cases hneg : z = -1
      · simp [hneg, eq_comm, and_comm]
      · by_cases hpos : 0 ≤ z
        · simp only [hneg, hpos, ↓reduceIte, ofLine_eq_whole, Item.whole.injEq]
          constructor
          · rintro ⟨k, hk, hm, ho⟩
            exact ⟨z, rfl, ho.symm, Or.inr ⟨hpos, k, hk, hm.symm⟩⟩
          · rintro ⟨w, hw, ho, ⟨hnull, -⟩ | ⟨-, k, hk, hm⟩⟩
            · exact absurd (Option.some.inj hw ▸ hnull) hneg
            · exact ⟨k, hk, hm.symm, ho.symm⟩
        · simp [hneg, hpos]

/-- A whole array header has an acceptable number. -/
theorem arrayItem_eq_whole {r : List Byte} {n m : Nat} {o : Bool} :
    arrayItem r n = .whole m o ↔
      ∃ z, lineNumber r n = some z ∧ -1 ≤ z ∧ m = n + 2 ∧ o = decide (0 < z) := by
  rw [arrayItem]
  cases lineNumber r n with
  | none => simp
  | some z =>
      by_cases hlow : z < -1
      · have hnot : ¬ -1 ≤ z := Int.not_le.mpr hlow
        simp [hlow, hnot]
      · simp [hlow, Int.not_lt.mp hlow, eq_comm]

private theorem bulkItem_whole_length {r : List Byte} {n m : Nat} {o : Bool}
    (hn : n + 2 ≤ r.length) (h : bulkItem r n = .whole m o) : n + 2 ≤ m ∧ m ≤ r.length := by
  obtain ⟨z, -, -, ⟨-, rfl⟩ | ⟨-, k, hk, rfl⟩⟩ := bulkItem_eq_whole.mp h
  · exact ⟨Nat.le_refl _, hn⟩
  · have hlen := length_of_lineEnd hk
    rw [List.length_drop] at hlen
    omega

private theorem bulkItem_append {r : List Byte} {n m : Nat} {o : Bool} (s : List Byte)
    (hn : n + 2 ≤ r.length) (h : bulkItem r n = .whole m o) : bulkItem (r ++ s) n = .whole m o := by
  obtain ⟨z, hz, ho, hpayload⟩ := bulkItem_eq_whole.mp h
  refine bulkItem_eq_whole.mpr ⟨z, by rw [lineNumber_append s (by omega), hz], ho, ?_⟩
  obtain hnull | ⟨hpos, k, hk, hm⟩ := hpayload
  · exact Or.inl hnull
  · refine Or.inr ⟨hpos, k, ?_, hm⟩
    rw [List.drop_append_of_le_length hn]
    exact lineEnd_append_of_at s hk

private theorem bulkItem_of_append {r s : List Byte} {n m : Nat} {o : Bool}
    (hn : n + 2 ≤ r.length) (h : bulkItem (r ++ s) n = .whole m o) (hm : m ≤ r.length) :
    bulkItem r n = .whole m o := by
  obtain ⟨z, hz, ho, hpayload⟩ := bulkItem_eq_whole.mp h
  rw [lineNumber_append s (by omega)] at hz
  refine bulkItem_eq_whole.mpr ⟨z, hz, ho, ?_⟩
  obtain hnull | ⟨hpos, k, hk, rfl⟩ := hpayload
  · exact Or.inl hnull
  · rw [List.drop_append_of_le_length hn] at hk
    exact Or.inr ⟨hpos, k, lineEnd_of_append hk (by rw [List.length_drop]; omega), rfl⟩

theorem arrayItem_whole_length {r : List Byte} {n m : Nat} {o : Bool}
    (h : arrayItem r n = .whole m o) : m = n + 2 := by
  obtain ⟨z, -, -, hm, -⟩ := arrayItem_eq_whole.mp h
  exact hm

/-- The announced number of elements is positive when an array is opened. -/
theorem arrayItem_opens {r : List Byte} {n m : Nat} (h : arrayItem r n = .whole m true) :
    ∃ z, lineNumber r n = some z ∧ 0 < z := by
  obtain ⟨z, hz, -, -, ho⟩ := arrayItem_eq_whole.mp h
  exact ⟨z, hz, of_decide_eq_true ho.symm⟩

private theorem arrayItem_append {r : List Byte} {n : Nat} (s : List Byte) (hn : n ≤ r.length) :
    arrayItem (r ++ s) n = arrayItem r n := by
  unfold arrayItem
  rw [lineNumber_append s hn]

/-- A case split on the type byte of a whole item: the length of its first
line, and what is asked of that line. -/
theorem firstItem_eq_whole {r : List Byte} {m : Nat} {o : Bool} :
    firstItem r = .whole m o ↔ ∃ c s n, r = c :: s ∧ lineEnd r = .ended n ∧
      (((c = stringReply ∨ c = errorReply ∨ c = integerReply) ∧ m = n + 2 ∧ o = false) ∨
        (c = bulkReply ∧ bulkItem r n = .whole m o) ∨
        (c = arrayReply ∧ arrayItem r n = .whole m o)) := by
  cases r with
  | nil => simp
  | cons c s =>
      rw [firstItem]
      split
      · rename_i hc
        have hbulk : c ≠ bulkReply := by rcases hc with rfl | rfl | rfl <;> decide
        have harray : c ≠ arrayReply := by rcases hc with rfl | rfl | rfl <;> decide
        rw [ofLine_eq_whole]
        simp [hc, hbulk, harray, eq_comm]
      · rename_i hline
        split
        · rename_i hc
          subst hc
          have harray : bulkReply ≠ arrayReply := by decide
          rw [ofLine_eq_whole]
          simp [hline, harray]
        · rename_i hbulk
          split
          · rename_i hc
            subst hc
            rw [ofLine_eq_whole]
            simp [hline, hbulk]
          · simp [*]

theorem type_ne_CR {c : Byte}
    (h : (c = stringReply ∨ c = errorReply ∨ c = integerReply) ∨ c = bulkReply ∨ c = arrayReply) :
    c ≠ CR := by
  rcases h with (rfl | rfl | rfl) | rfl | rfl <;> decide

/-- An item has at least a type byte and CR LF, and lies inside the stream. -/
theorem length_of_firstItem {r : List Byte} {m : Nat} {o : Bool}
    (h : firstItem r = .whole m o) : 3 ≤ m ∧ m ≤ r.length := by
  obtain ⟨c, s, n, rfl, hline, hkind⟩ := firstItem_eq_whole.mp h
  have hlen := length_of_lineEnd hline
  have hpos : 0 < n := by
    refine lineEnd_cons_ne_zero (type_ne_CR ?_) hline
    obtain ⟨hc, -⟩ | ⟨hc, -⟩ | ⟨hc, -⟩ := hkind
    · exact Or.inl hc
    · exact Or.inr (Or.inl hc)
    · exact Or.inr (Or.inr hc)
  obtain ⟨-, rfl, -⟩ | ⟨-, hb⟩ | ⟨-, ha⟩ := hkind
  · omega
  · have hm := bulkItem_whole_length hlen hb
    omega
  · have hm := arrayItem_whole_length ha
    omega

theorem firstItem_append {r : List Byte} {m : Nat} {o : Bool} (s : List Byte)
    (h : firstItem r = .whole m o) : firstItem (r ++ s) = .whole m o := by
  obtain ⟨c, t, n, rfl, hline, hkind⟩ := firstItem_eq_whole.mp h
  have hlen := length_of_lineEnd hline
  refine firstItem_eq_whole.mpr ⟨c, t ++ s, n, rfl, lineEnd_append_of_at s hline, ?_⟩
  obtain hc | ⟨hc, hb⟩ | ⟨hc, ha⟩ := hkind
  · exact Or.inl hc
  · exact Or.inr (Or.inl ⟨hc, bulkItem_append s hlen hb⟩)
  · exact Or.inr (Or.inr ⟨hc, by rw [arrayItem_append s (by omega), ha]⟩)

private theorem ofLine_append_settled {r : List Byte} {k k' : Nat → Item} (s : List Byte)
    (h : Item.ofLine r k ≠ .cut)
    (hk : ∀ n, lineEnd r = .ended n → k n ≠ .cut → k' n = k n) :
    Item.ofLine (r ++ s) k' = Item.ofLine r k := by
  unfold Item.ofLine at h ⊢
  cases hend : lineEnd r with
  | ended n =>
      rw [lineEnd_append_of_at s hend]
      simp only [hend] at h
      exact hk n hend h
  | lone => rw [lineEnd_append_of_lone s hend]
  | cut => simp [hend] at h

private theorem bulkItem_append_settled {r : List Byte} {n : Nat} (s : List Byte)
    (hn : n + 2 ≤ r.length) (h : bulkItem r n ≠ .cut) : bulkItem (r ++ s) n = bulkItem r n := by
  unfold bulkItem at h ⊢
  rw [lineNumber_append s (by omega)]
  cases hz : lineNumber r n with
  | none => rfl
  | some z =>
      simp only [hz] at h ⊢
      split at h
      · simp [*]
      · split at h
        · rw [if_neg ‹_›, if_pos ‹_›, if_neg ‹_›, if_pos ‹_›, List.drop_append_of_le_length hn]
          exact ofLine_append_settled s h fun _ _ _ => rfl
        · simp [*]

/-- Only an item that is cut depends on what follows. -/
theorem firstItem_append_settled {r : List Byte} (s : List Byte) (hr : r ≠ [])
    (h : firstItem r ≠ .cut) : firstItem (r ++ s) = firstItem r := by
  obtain ⟨c, t, rfl⟩ := List.exists_cons_of_ne_nil hr
  rw [firstItem] at h
  rw [List.cons_append, firstItem, firstItem]
  split
  · rw [if_pos ‹_›] at h
    exact ofLine_append_settled s h fun _ _ _ => rfl
  · rw [if_neg ‹_›] at h
    split
    · rw [if_pos ‹_›] at h
      exact ofLine_append_settled s h fun n hend =>
        bulkItem_append_settled s (length_of_lineEnd hend)
    · rw [if_neg ‹_›] at h
      split
      · rw [if_pos ‹_›] at h
        exact ofLine_append_settled s h fun n hend _ =>
          arrayItem_append s (Nat.le_of_add_right_le (length_of_lineEnd hend))
      · rfl

theorem firstItem_of_append {r s : List Byte} {m : Nat} {o : Bool}
    (h : firstItem (r ++ s) = .whole m o) (hm : m ≤ r.length) : firstItem r = .whole m o := by
  have hlong := (length_of_firstItem h).1
  obtain ⟨c, t, n, hr, hline, hkind⟩ := firstItem_eq_whole.mp h
  obtain ⟨d, u, rfl⟩ : ∃ d u, r = d :: u :=
    List.exists_cons_of_ne_nil (by rintro rfl; simp only [List.length_nil] at hm; omega)
  obtain ⟨rfl, rfl⟩ := List.cons_eq_cons.mp hr
  have hn : n + 2 ≤ (d :: u).length := by
    obtain ⟨-, rfl, -⟩ | ⟨-, hb⟩ | ⟨-, ha⟩ := hkind
    · exact hm
    · exact Nat.le_trans (bulkItem_whole_length (length_of_lineEnd hline) hb).1 hm
    · exact arrayItem_whole_length ha ▸ hm
  refine firstItem_eq_whole.mpr ⟨d, u, n, rfl, lineEnd_of_append hline hn, ?_⟩
  obtain hc | ⟨hc, hb⟩ | ⟨hc, ha⟩ := hkind
  · exact Or.inl hc
  · exact Or.inr (Or.inl ⟨hc, bulkItem_of_append hn hb hm⟩)
  · exact Or.inr (Or.inr ⟨hc, by rw [← ha, arrayItem_append s (by omega)]⟩)

/-- A line, and every item, ends in CR LF. -/
theorem suffix_take_of_lineEnd {r : List Byte} {n : Nat} (h : lineEnd r = .ended n) :
    [CR, LF] <:+ r.take (n + 2) := by
  obtain ⟨text, rest, rfl, -, rfl⟩ := lineEnd_eq_at_iff.mp h
  have hsplit : text ++ CR :: LF :: rest = (text ++ [CR, LF]) ++ rest := by simp
  rw [hsplit, List.take_left' (by simp)]
  exact List.suffix_append _ _

private theorem suffix_take_of_bulkItem {r : List Byte} {n m : Nat} {o : Bool}
    (hline : lineEnd r = .ended n) (h : bulkItem r n = .whole m o) : [CR, LF] <:+ r.take m := by
  obtain ⟨z, -, -, ⟨-, rfl⟩ | ⟨-, k, hk, rfl⟩⟩ := bulkItem_eq_whole.mp h
  · exact suffix_take_of_lineEnd hline
  · have hlen : n + 2 + k + 2 = n + 2 + (k + 2) := Nat.add_assoc _ _ _
    rw [hlen, List.take_add]
    exact (suffix_take_of_lineEnd hk).trans (List.suffix_append _ _)

theorem suffix_take_of_firstItem {r : List Byte} {m : Nat} {o : Bool}
    (h : firstItem r = .whole m o) : [CR, LF] <:+ r.take m := by
  obtain ⟨c, s, n, rfl, hline, ⟨-, rfl, -⟩ | ⟨-, hb⟩ | ⟨-, ha⟩⟩ := firstItem_eq_whole.mp h
  · exact suffix_take_of_lineEnd hline
  · exact suffix_take_of_bulkItem hline hb
  · obtain rfl := arrayItem_whole_length ha
    exact suffix_take_of_lineEnd hline

def Item.length? : Item → Option Nat
  | .whole n _ => some n
  | _ => none

theorem length?_eq_some {i : Item} {n : Nat} : i.length? = some n ↔ ∃ o, i = .whole n o := by
  cases i <;> simp [Item.length?, eq_comm]

/-- Items are the frames of a stream. -/
def items : Framing.Recogniser Byte where
  first r := (firstItem r).length?
  pos h := by
    obtain ⟨o, ho⟩ := length?_eq_some.mp h
    have hlen := length_of_firstItem ho
    omega
  le_length h := by
    obtain ⟨o, ho⟩ := length?_eq_some.mp h
    exact (length_of_firstItem ho).2
  append s h := by
    obtain ⟨o, ho⟩ := length?_eq_some.mp h
    exact length?_eq_some.mpr ⟨o, firstItem_append s ho⟩
  of_append h hn := by
    obtain ⟨o, ho⟩ := length?_eq_some.mp h
    exact length?_eq_some.mpr ⟨o, firstItem_of_append ho hn⟩

theorem items_first {r : List Byte} : items.first r = (firstItem r).length? := rfl

theorem items_first_of_whole {r : List Byte} {n : Nat} {o : Bool} (h : firstItem r = .whole n o) :
    items.first r = some n := by
  rw [items_first, h]
  rfl

end Canal.RespParser
