import Canal.RespParser.Header

/-!
# The payload of a bulk string

The declared length of a bulk string is converted and then not used: the payload
ends at the first CR behind the header, if the byte behind that CR is LF. Where
there is no CR, the byte that decides lies behind the end of the buffer.

The length and the search agree on every payload without CR that is followed by
CR LF. On input that is shorter or longer than declared they agree as long as
the first CR is not followed by LF.
-/

namespace Canal.RespParser

open Buffer Decimal

variable {past : Memory} {pre s : List Byte} {k : Nat}

/-- CR LF stands behind the first `k` bytes. -/
def Declared (k : Nat) (s : List Byte) : Prop := (s.drop k).take 2 = [CR, LF]

instance (k : Nat) (s : List Byte) : Decidable (Declared k s) := inferInstanceAs (Decidable (_ = _))

/-- `process_bulk` returns, it is `Completed` exactly if the input ends where the
declared length `k` says, and then it counts the header and `k + 2` bytes. -/
def Governed (past : Memory) (pre s : List Byte) (k : Nat) : Prop :=
  ∃ r, answerAt processBulk bulkReply (decimal k) pre s past = .ok r ∧
    (r.2 = .completed ↔ Declared k s) ∧
    (r.2 = .completed → r.1 = (line bulkReply (decimal k)).length + k + 2)

/-- A payload that ends as declared contains no CR. Otherwise the first CR is
not followed by LF, wherever the byte behind it is found. -/
def Agreed (past : Memory) (s : List Byte) (k : Nat) : Prop :=
  (Declared k s → CR ∉ s.take k) ∧
    (¬ Declared k s → ∃ c, view s past (s.idxOf CR + 1) = some c ∧ c ≠ LF)

theorem view_append (past : Memory) (a s : List Byte) (i : Nat) :
    view (a ++ s) past (a.length + i) = view s past i := by
  unfold view
  by_cases hi : i < s.length
  · have hlt : a.length + i < (a ++ s).length := by rw [List.length_append]; omega
    rw [if_pos hi, if_pos hlt, List.getElem?_append_right (Nat.le_add_right _ _),
      Nat.add_sub_cancel_left]
  · have hge : ¬ a.length + i < (a ++ s).length := by rw [List.length_append]; omega
    have hsub : a.length + i - (a ++ s).length = i - s.length := by
      rw [List.length_append]
      omega
    rw [if_neg hi, if_neg hge, hsub]

/-- The answer depends on the byte behind the first CR alone. -/
theorem answerAt_bulk_decimal (pre s : List Byte) (past : Memory) (hk : k < 2 ^ 31) :
    answerAt processBulk bulkReply (decimal k) pre s past = (do
      if (← load (view s past) (s.idxOf CR + 1)) = LF then
        return ((line bulkReply (decimal k)).length + s.idxOf CR + 2, .completed)
      else
        return (0, .incompleted)) := by
  have hq : (pre ++ line bulkReply (decimal k)).length =
      pre.length + ((decimal k).length + 1) + 2 := by
    rw [List.length_append, length_line, Nat.add_assoc]
  have hview := view_append past (pre ++ line bulkReply (decimal k)) s
    (s.idxOf CR + 1)
  rw [hq, List.append_assoc] at hview
  have hload : load (view (framed bulkReply (decimal k) pre s) past)
      (pre.length + ((decimal k).length + 1) + 2 + (s.idxOf CR + 1)) =
        load (view s past) (s.idxOf CR + 1) := by
    rw [load, load, framed, hview]
  have hle : pre.length + ((decimal k).length + 1) + 2 ≤
      (framed bulkReply (decimal k) pre s).length := by
    rw [length_framed]
    omega
  rw [answerAt_bulk past (CR_notMem_decimal k) (stoi_decimal hk) (Int.natCast_nonneg k),
    findCRLFIndex_load hle, drop_framed_body, hload]
  cases load (view s past) (s.idxOf CR + 1) with
  | error e => rfl
  | ok c =>
      have hcount : pre.length + ((decimal k).length + 1) + 2 + s.idxOf CR - pre.length + 2 =
          (line bulkReply (decimal k)).length + s.idxOf CR + 2 := by
        rw [length_line]
        omega
      by_cases hc : c = LF
      · simp [hc, hcount]
      · simp [hc]

theorem Declared.exists_append (h : Declared k s) :
    ∃ payload rest, s = payload ++ CR :: LF :: rest ∧ payload.length = k ∧ s.take k = payload := by
  have hdrop : s.drop k = CR :: LF :: (s.drop k).drop 2 := by
    have hsplit := List.take_append_drop 2 (s.drop k)
    rw [Declared] at h
    rw [h] at hsplit
    exact hsplit.symm
  have hlen : (s.take k).length = k := by
    have hshort := congrArg List.length hdrop
    rw [List.length_drop, List.length_cons] at hshort
    exact List.length_take_of_le (by omega)
  refine ⟨s.take k, (s.drop k).drop 2, ?_, hlen, rfl⟩
  rw [← hdrop, List.take_append_drop]

/-- The first CR of an input that ends as declared, and the byte behind the payload's CR. -/
theorem Declared.idxOf_iff (past : Memory) (h : Declared k s) :
    (s.idxOf CR = k ↔ CR ∉ s.take k) ∧ view s past (k + 1) = some LF := by
  obtain ⟨payload, rest, rfl, rfl, htake⟩ := h.exists_append
  rw [htake]
  refine ⟨⟨fun hidx hmem => ?_, fun hcr => ?_⟩, ?_⟩
  · rw [List.idxOf_append_of_mem hmem] at hidx
    exact absurd hidx (Nat.ne_of_lt (List.idxOf_lt_length_of_mem hmem))
  · rw [List.idxOf_append_of_notMem hcr]
    simp
  · rw [view_append]
    simp [view]

/-- Two bytes of payload that are CR LF themselves end the bulk string at once. -/
theorem payload_cut_short :
    answerAt processBulk bulkReply (decimal 2) [] [CR, LF, CR, LF] unmapped =
        .ok (6, .completed) ∧
      ¬ Governed unmapped [] [CR, LF, CR, LF] 2 := by
  have hanswer : answerAt processBulk bulkReply (decimal 2) [] [CR, LF, CR, LF] unmapped =
      .ok (6, .completed) := by rfl
  refine ⟨hanswer, ?_⟩
  rintro ⟨r, hr, -, hcount⟩
  rw [hanswer] at hr
  obtain rfl := Except.ok.inj hr
  exact absurd (hcount rfl) (by decide)

/-- The declared length governs a bulk string exactly where it agrees with the search. -/
theorem governed_iff (past : Memory) (pre s : List Byte) (k : Nat) (hk : k < 2 ^ 31) :
    Governed past pre s k ↔ Agreed past s k := by
  have hanswer := answerAt_bulk_decimal pre s past hk
  unfold Governed Agreed
  rw [hanswer, load]
  cases hbehind : view s past (s.idxOf CR + 1) with
  | none =>
      -- the load faults, and the input does not end as declared without a CR before that
      apply iff_of_false (by simp)
      rintro ⟨hnone, hsome⟩
      by_cases hd : Declared k s
      · obtain ⟨hidx, hend⟩ := hd.idxOf_iff past
        rw [hidx.mpr (hnone hd), hend] at hbehind
        simp at hbehind
      · obtain ⟨c, hc, -⟩ := hsome hd
        simp at hc
  | some c =>
      by_cases hc : c = LF
      · subst hc
        by_cases hd : Declared k s
        · obtain ⟨hidx, -⟩ := hd.idxOf_iff past
          have hcount : (line bulkReply (decimal k)).length + s.idxOf CR + 2 =
              (line bulkReply (decimal k)).length + k + 2 ↔ CR ∉ s.take k := by
            rw [← hidx]
            omega
          simp only [ok_bind, ↓reduceIte, pure_eq_ok, Except.ok.injEq, exists_eq_left', hd,
            forall_const, hcount, true_and, not_true_eq_false, false_implies, and_true]
        · simp [hd]
      · have hnot : Declared k s → CR ∈ s.take k := by
          intro hd
          obtain ⟨hidx, hend⟩ := hd.idxOf_iff past
          refine Classical.byContradiction fun hcr => hc ?_
          rw [hidx.mpr hcr, hend] at hbehind
          exact (Option.some.inj hbehind).symm
        by_cases hd : Declared k s
        · simp [hc, hd, hnot hd]
        · simp [hc, hd]

theorem governed_hello : Governed unmapped [] [104, 101, 108, 108, 111, CR, LF, 43] 5 :=
  (governed_iff unmapped [] _ 5 (by decide)).mpr ⟨by decide, fun h => absurd (by decide) h⟩

end Canal.RespParser
