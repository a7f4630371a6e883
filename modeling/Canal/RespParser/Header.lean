import Canal.Foundation.Numeral
import Canal.RespParser.Value
import Canal.RespParser.Refinement

/-!
# Length and count headers

The header of a bulk string or of an array should be an integer of at least -1.
Both handlers convert its text with `std::stoi` and look at the number only, so
they also take texts in which a number merely stands at the front, behind white
space or a plus sign.

The two handlers test the number in different ways, but reject the same texts:
those without a number that fits in an `int`, and those whose number is below -1.
-/

namespace Canal.RespParser

open Buffer Decimal

abbrev Handler := Memory → Nat → Nat → Eval (Nat × ParseResult)

/-- A line with the text `h`, behind `pre` and in front of `s`. -/
def framed (c : Byte) (h pre s : List Byte) : List Byte := pre ++ (line c h ++ s)

/-- What a handler answers for that line. -/
def answerAt (handler : Handler) (c : Byte) (h pre s : List Byte) (past : Memory) :
    Eval (Nat × ParseResult) :=
  handler (view (framed c h pre s) past) (framed c h pre s).length pre.length

/-- The handler answers `(0, Error)`, whatever surrounds the header. -/
def Rejects (handler : Handler) (c : Byte) (h : List Byte) : Prop :=
  ∀ pre s past, answerAt handler c h pre s past = .ok (0, .error)

/-- The handler goes on, with `n` as the number that it has converted. -/
def Treats (handler : Handler) (c : Byte) (h : List Byte) (n : Int) : Prop :=
  ¬ Rejects handler c h ∧ ∀ pre s past,
    headerNumber (view (framed c h pre s) past) pre.length (pre.length + (h.length + 1)) =
      .ok (some n)

/-- The integers that a header may contain. -/
def IntHeader (h : List Byte) (n : Int) : Prop := Numeral h n ∧ -1 ≤ n ∧ n ≤ 2 ^ 31 - 1

/-- The header is accepted exactly when it is an integer, by both handlers. -/
structure HeaderExact (h : List Byte) : Prop where
  bulk : ∀ n, Treats processBulk bulkReply h n ↔ IntHeader h n
  array : ∀ n, Treats processArray arrayReply h n ↔ IntHeader h n
  others : (∀ n, ¬ IntHeader h n) →
    Rejects processBulk bulkReply h ∧ Rejects processArray arrayReply h
  same : Rejects processBulk bulkReply h ↔ Rejects processArray arrayReply h

variable {c : Byte} {h pre s : List Byte} {past : Memory} {n : Int}

theorem drop_framed : (framed c h pre s).drop pre.length = line c h ++ s :=
  List.drop_left' rfl

theorem lineEnd_framed (hc : c ≠ CR) (hcr : CR ∉ h) :
    lineEnd ((framed c h pre s).drop pre.length) = .ended (h.length + 1) := by
  rw [drop_framed, lineEnd_line hc hcr]

theorem lineNumber_framed (c : Byte) (h pre s : List Byte) :
    lineNumber ((framed c h pre s).drop pre.length) (h.length + 1) = stoi h := by
  rw [drop_framed, lineNumber_line]

theorem length_framed (c : Byte) (h pre s : List Byte) :
    (framed c h pre s).length = pre.length + (h.length + 1) + 2 + s.length := by
  simp only [framed, length_line, List.length_append]
  omega

/-- Both handlers find the end of the line and convert its text. -/
theorem header_framed (pre s : List Byte) (past : Memory) (hc : c ≠ CR) (hcr : CR ∉ h) :
    findCRLFIndex (view (framed c h pre s) past) (framed c h pre s).length pre.length =
        .ok (pre.length + (h.length + 1)) ∧
      headerNumber (view (framed c h pre s) past) pre.length (pre.length + (h.length + 1)) =
        .ok (stoi h) := by
  obtain ⟨-, hfind, hnumber, -⟩ := bulkNumber past (Nat.succ_pos _) (lineEnd_framed hc hcr)
  rw [lineNumber_framed] at hnumber
  exact ⟨hfind, hnumber⟩

theorem drop_framed_body :
    (framed c h pre s).drop (pre.length + (h.length + 1) + 2) = s := by
  rw [framed, ← List.append_assoc]
  apply List.drop_left'
  rw [List.length_append, length_line, Nat.add_assoc]

/-! ## The answers of the handlers -/

/-- No number, or one below -1. -/
theorem answerAt_bulk_bad (past : Memory) (hcr : CR ∉ h) (hlow : ∀ n, stoi h = some n → n < -1) :
    answerAt processBulk bulkReply h pre s past = .ok (0, .error) := by
  obtain ⟨hfind, hnumber⟩ :=
    header_framed pre s past (show bulkReply ≠ CR by decide) hcr
  cases hz : stoi h with
  | none => simp [answerAt, processBulk, hfind, hnumber, hz]
  | some n =>
      have hn := hlow n hz
      have hneg : n ≠ -1 := by omega
      have hpos : ¬ n ≥ 0 := by omega
      simp [answerAt, processBulk, hfind, hnumber, hz, hneg, hpos]

theorem answerAt_bulk_null (past : Memory) (hcr : CR ∉ h) (hn : stoi h = some (-1)) :
    answerAt processBulk bulkReply h pre s past = .ok (h.length + 3, .completed) := by
  obtain ⟨hfind, hnumber⟩ :=
    header_framed pre s past (show bulkReply ≠ CR by decide) hcr
  simp [answerAt, processBulk, hfind, hnumber, hn]

/-- Behind the header of a payload, `process_bulk` searches for its end. -/
theorem answerAt_bulk (past : Memory) (hcr : CR ∉ h) (hn : stoi h = some n) (hpos : 0 ≤ n) :
    answerAt processBulk bulkReply h pre s past = (do
      let found2 ← findCRLFIndex (view (framed bulkReply h pre s) past)
        (framed bulkReply h pre s).length (pre.length + (h.length + 1) + 2)
      if found2 ≠ 0 then
        return (found2 - pre.length + 2, .completed)
      else
        return (0, .incompleted)) := by
  have hnumber := lineNumber_framed bulkReply h pre s
  rw [hn] at hnumber
  exact processBulk_payload (Nat.succ_pos _) (lineEnd_framed (by decide) hcr) hnumber
    (by omega) hpos

theorem answerAt_bulk_ended {m : Nat} (past : Memory) (hcr : CR ∉ h) (hn : stoi h = some n)
    (hpos : 0 ≤ n) (hend : lineEnd s = .ended m) :
    answerAt processBulk bulkReply h pre s past = .ok (h.length + 3 + m + 2, .completed) := by
  have hend' : lineEnd ((framed bulkReply h pre s).drop (pre.length + (h.length + 1) + 2)) =
      .ended m := by
    rw [drop_framed_body, hend]
  have hcount : pre.length + (h.length + 1) + 2 + m - pre.length = h.length + 3 + m := by omega
  rw [answerAt_bulk past hcr hn hpos, findCRLFIndex_at hend']
  simp [hcount]

theorem answerAt_array_bad (past : Memory) (hcr : CR ∉ h)
    (hlow : ∀ n, stoi h = some n → n < -1) :
    answerAt processArray arrayReply h pre s past = .ok (0, .error) := by
  obtain ⟨hfind, hnumber⟩ :=
    header_framed pre s past (show arrayReply ≠ CR by decide) hcr
  cases hz : stoi h with
  | none => simp [answerAt, processArray, depth, processArrayFuel, hfind, hnumber, hz]
  | some n =>
      have hn := hlow n hz
      have hnone : ¬ (n = 0 ∨ n = -1) := by omega
      simp [answerAt, processArray, depth, processArrayFuel, hfind, hnumber, hz, hnone, hn]

/-- Where the buffer ends with the header, every number of elements is found. -/
theorem answerAt_array_alone (past : Memory) (hcr : CR ∉ h) (hn : stoi h = some n)
    (hlow : -1 ≤ n) :
    answerAt processArray arrayReply h pre [] past = .ok (h.length + 3, .completed) := by
  obtain ⟨hfind, hnumber⟩ :=
    header_framed pre [] past (show arrayReply ≠ CR by decide) hcr
  have hcount : pre.length + (h.length + 1) + 2 - pre.length = h.length + 3 := by omega
  by_cases hnone : n = 0 ∨ n = -1
  · simp [answerAt, processArray, depth, processArrayFuel, hfind, hnumber, hn, hnone]
  · have hneg : ¬ n < -1 := by omega
    have hlen : (framed arrayReply h pre []).length = pre.length + (h.length + 1) + 2 := by
      simp [length_framed]
    have helements := elements_past (view (framed arrayReply h pre []) past)
      ((framed arrayReply h pre []).length - pre.length) n.toNat (Nat.le_of_eq hlen)
    simp [answerAt, processArray, depth, processArrayFuel, hfind, hnumber, hn, hnone, hneg,
      helements, hcount]

/-! ## Which headers are rejected -/

theorem rejects_bulk_iff (hcr : CR ∉ h) :
    Rejects processBulk bulkReply h ↔ ∀ n, stoi h = some n → n < -1 := by
  constructor
  · intro hrej n hn
    apply Classical.byContradiction
    intro hlow
    have hrejected := hrej [] [CR, LF] unmapped
    by_cases hneg : n = -1
    · subst hneg
      rw [answerAt_bulk_null unmapped hcr hn] at hrejected
      simp at hrejected
    · rw [answerAt_bulk_ended (m := 0) unmapped hcr hn (by omega) rfl] at hrejected
      simp at hrejected
  · intro hlow pre s past
    exact answerAt_bulk_bad past hcr hlow

theorem rejects_array_iff (hcr : CR ∉ h) :
    Rejects processArray arrayReply h ↔ ∀ n, stoi h = some n → n < -1 := by
  constructor
  · intro hrej n hn
    apply Classical.byContradiction
    intro hlow
    have hrejected := hrej [] [] unmapped
    rw [answerAt_array_alone unmapped hcr hn (by omega)] at hrejected
    simp at hrejected
  · intro hlow pre s past
    exact answerAt_array_bad past hcr hlow

/-- A handler that rejects only what has no number from -1 on goes on with the
number that `stoi` has converted. -/
theorem treats_iff {handler : Handler} (hc : c ≠ CR) (hcr : CR ∉ h)
    (hrejects : Rejects handler c h ↔ ∀ n, stoi h = some n → n < -1) :
    Treats handler c h n ↔ stoi h = some n ∧ -1 ≤ n := by
  have hnumber : (∀ pre s past, headerNumber (view (framed c h pre s) past) pre.length
      (pre.length + (h.length + 1)) = .ok (some n)) ↔ stoi h = some n := by
    constructor
    · intro hall
      have hone := hall [] [] unmapped
      rw [(header_framed _ _ unmapped hc hcr).2] at hone
      exact Except.ok.inj hone
    · intro hn pre s past
      rw [(header_framed _ _ past hc hcr).2, hn]
  rw [Treats, hnumber, hrejects]
  constructor
  · rintro ⟨hnot, hn⟩
    refine ⟨hn, Classical.byContradiction fun hlow => hnot fun m hm => ?_⟩
    obtain rfl := Option.some.inj (hn.symm.trans hm)
    omega
  · rintro ⟨hn, hlow⟩
    refine ⟨fun hall => ?_, hn⟩
    have hlt := hall n hn
    omega

/-! ## Which headers are integers -/

theorem stoi_of_intHeader (hint : IntHeader h n) : stoi h = some n ∧ -1 ≤ n := by
  obtain ⟨hnumeral, hlow, hhigh⟩ := hint
  exact ⟨hnumeral.stoi_eq (by unfold Fits; omega), hlow⟩

/-- Every header that is taken for a number contains nothing else. -/
def OnlyNumerals (h : List Byte) : Prop :=
  ∀ p : Spelling h, -1 ≤ p.number → p.number ≤ 2 ^ 31 - 1 → p.Strict

theorem onlyNumerals_iff :
    OnlyNumerals h ↔ ∀ n, stoi h = some n → -1 ≤ n → Numeral h n := by
  constructor
  · intro honly n hn hlow
    obtain ⟨p, rfl, hfits⟩ := exists_spelling hn
    exact (honly p hlow (by unfold Fits at hfits; omega)).numeral
  · intro hall p hlow hhigh
    have hn := stoi_eq_some_iff.mpr ⟨p, rfl, show Fits p.number by unfold Fits; omega⟩
    obtain ⟨q, hstrict, -⟩ := (hall p.number hn hlow).exists_spelling
    exact p.unique q ▸ hstrict

/-- `$1x`: the digit is converted and the letter behind it is ignored. -/
theorem trailing_junk_accepted :
    answerAt processBulk bulkReply [49, 120] [] [97, 13, 10] unmapped = .ok (8, .completed) ∧
      ¬ HeaderExact [49, 120] := by
  refine ⟨by rfl, fun hexact => ?_⟩
  have htreats : Treats processBulk bulkReply [49, 120] 1 :=
    (treats_iff (by decide) (by decide) (rejects_bulk_iff (by decide))).mpr (by decide)
  obtain ⟨⟨sign, digits, -, hs, -, hdigits, -⟩, -⟩ := (hexact.bulk 1).mp htreats
  have hletter : (120 : Byte) ∈ digits := by
    cases sign with
    | none =>
        obtain rfl : [49, 120] = digits := hs
        decide
    | plus => simp [Sign.text] at hs
    | minus => simp [Sign.text] at hs
  exact absurd (hdigits 120 hletter) (by decide)

/-- The headers are the integers exactly where every text that is taken for a
number is a numeral and nothing else. -/
theorem headerExact_iff (h : List Byte) (hcr : CR ∉ h) : HeaderExact h ↔ OnlyNumerals h := by
  have hbulk := rejects_bulk_iff hcr
  have harray := rejects_array_iff hcr
  rw [onlyNumerals_iff]
  constructor
  · intro hexact n hn hlow
    have htreats := (treats_iff (by decide) hcr hbulk).mpr ⟨hn, hlow⟩
    exact ((hexact.bulk n).mp htreats).1
  · intro hall
    have hint : ∀ n, stoi h = some n ∧ -1 ≤ n ↔ IntHeader h n := by
      intro n
      refine ⟨fun ⟨hn, hlow⟩ => ⟨hall n hn hlow, hlow, ?_⟩, stoi_of_intHeader⟩
      obtain ⟨-, -, hfits⟩ := exists_spelling hn
      unfold Fits at hfits
      omega
    refine ⟨fun n => (treats_iff (by decide) hcr hbulk).trans (hint n),
      fun n => (treats_iff (by decide) hcr harray).trans (hint n), fun hnone => ?_,
      hbulk.trans harray.symm⟩
    have hlow : ∀ n, stoi h = some n → n < -1 := by
      intro n hn
      refine Classical.byContradiction fun hge => hnone n ((hint n).mp ⟨hn, ?_⟩)
      omega
    exact ⟨hbulk.mpr hlow, harray.mpr hlow⟩

theorem headerExact_minus_one : HeaderExact [45, 49] := by
  refine (headerExact_iff [45, 49] (by decide)).mpr (onlyNumerals_iff.mpr fun n hn _ => ?_)
  have hminus : stoi [45, 49] = some (-1) := by decide
  obtain rfl := Option.some.inj (hminus.symm.trans hn)
  exact ⟨.minus, [49], by decide, rfl, by simp, List.forall_mem_singleton.mpr rfl, by decide⟩

end Canal.RespParser
