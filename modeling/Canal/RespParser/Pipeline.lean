import Canal.RespParser.Bounds
import Canal.RespParser.Value

/-!
# Parsing a pipeline

A pipeline is a sequence of encoded values in one buffer. The parser frames it
correctly when the callback receives the encodings one by one and the verdict
is `Completed` on the whole length.

Two things prevent this. The end of a bulk string is searched for, not counted,
so a payload must not contain a CR. And the elements of an array are parsed by
the loop that parses the pipeline, so the first element of an array takes
everything behind the header: only the last value may be a non-empty array, and
the encoding of its elements must read as a sequence of items.
-/

namespace Canal.RespParser

open Buffer Decimal

variable {v : Value} {vs : List Value} {s : List Byte} {past : Memory}

/-- The stream consists of whole items. -/
def Flat (r : List Byte) : Prop := items.rest r = []

instance (r : List Byte) : Decidable (Flat r) := inferInstanceAs (Decidable (_ = _))

/-- The values whose encoding is one item. -/
def Value.Plain : Value → Prop
  | .bulk payload => CR ∉ payload
  | .array elements => elements = []
  | _ => True

/-- Plain values, the last of which may instead be an array of flat elements. -/
def Framable : List Value → Prop
  | [] => True
  | v :: vs =>
      (v.Plain ∧ Framable vs) ∨
        (vs = [] ∧ ∃ elements, v = .array elements ∧ Flat (encodeAll elements))

theorem length_bulk (payload : List Byte) :
    (Value.bulk payload).encode.length =
      (line bulkReply (decimal payload.length)).length + payload.length + 2 := by
  simp [Value.encode, Nat.add_assoc]

theorem firstItem_plain (hv : v.WellFormed) (hp : v.Plain) :
    firstItem (v.encode ++ s) = .whole v.encode.length false := by
  cases v with
  | simple text => exact firstItem_line (Or.inl rfl) hv.1
  | error text => exact firstItem_line (Or.inr (Or.inl rfl)) hv.1
  | integer text => exact firstItem_line (Or.inr (Or.inr rfl)) hv.1
  | bulk payload =>
      have hend := lineEnd_text s hp
      rw [length_bulk]
      simp only [Value.encode, List.append_assoc, List.cons_append, List.nil_append]
      rw [firstItem_bulk hv, Item.ofLine, hend]
  | nullBulk => exact firstItem_nullBulk
  | nullArray => exact firstItem_nullArray
  | array elements =>
      obtain rfl : elements = [] := hp
      have hitem := firstItem_array (k := 0) (s := s) (by decide)
      simpa [Value.encode] using hitem

/-- A payload with a CR ends too early, or not at all. -/
theorem firstItem_bulk_CR {payload : List Byte} (hv : payload.length < 2 ^ 31)
    (hcr : CR ∈ payload) :
    (∃ m, m + 2 ≤ payload.length ∧ lineEnd payload = .ended m ∧
        firstItem ((Value.bulk payload).encode ++ s) =
          .whole ((line bulkReply (decimal payload.length)).length + m + 2) false) ∨
      ((∀ m, lineEnd payload ≠ .ended m) ∧
        firstItem ((Value.bulk payload).encode ++ s) = .lone) := by
  simp only [Value.encode, List.append_assoc, List.cons_append, List.nil_append]
  rw [firstItem_bulk hv, Item.ofLine]
  obtain ⟨m, hm, hpayload, hend⟩ | ⟨hnone, hend⟩ := lineEnd_of_CR_mem (s := LF :: s) hcr
  · exact Or.inl ⟨m, hm, hpayload, by rw [hend]⟩
  · exact Or.inr ⟨hnone, by rw [hend]⟩

/-- The three ways in which the encoding of a value is read. -/
theorem Value.cases_plain (v : Value) :
    v.Plain ∨ (∃ payload, v = .bulk payload ∧ CR ∈ payload) ∨
      ∃ elements, v = .array elements ∧ elements ≠ [] := by
  cases v <;> simp [Value.Plain]
  case bulk payload => exact Classical.em _ |>.symm
  case array elements => exact Classical.em _

/-! ## The scan of a pipeline -/

theorem scan_plain (hv : v.WellFormed) (hp : v.Plain) :
    scan (v.encode ++ s) = ⟨v.encode :: (scan s).slices, (scan s).verdict⟩ := by
  rw [scan_whole (firstItem_plain hv hp), List.take_left', List.drop_left'] <;> rfl

/-- A non-empty array takes the rest of the stream along, or nothing. -/
theorem scan_array {elements : List Value} (hv : (Value.array elements).WellFormed)
    (hne : elements ≠ []) :
    scan ((Value.array elements).encode ++ s) =
      if Flat (encodeAll elements ++ s) then ⟨[(Value.array elements).encode ++ s], .completed⟩
      else ⟨[], .error⟩ := by
  have hpos : 0 < elements.length := List.length_pos_of_ne_nil hne
  have hitem := firstItem_array (s := encodeAll elements ++ s) hv.1
  simp only [hpos, decide_true] at hitem
  simp only [Value.encode, List.append_assoc]
  rw [scan_opens hitem, List.drop_left' rfl]
  rfl

theorem scan_bulk_CR {payload : List Byte} (hv : payload.length < 2 ^ 31) (hcr : CR ∈ payload)
    {slices : List (List Byte)} :
    scan ((Value.bulk payload).encode ++ s) ≠
      ⟨(Value.bulk payload).encode :: slices, .completed⟩ := by
  intro h
  obtain ⟨m, hm, -, hwhole⟩ | ⟨-, hlone⟩ := firstItem_bulk_CR (s := s) hv hcr
  · rw [scan_whole hwhole] at h
    simp only [Scan.mk.injEq, List.cons.injEq] at h
    have hlen := congrArg List.length h.1.1
    rw [List.length_take, length_bulk] at hlen
    omega
  · rw [scan_stuck (by simp [encode_ne_nil]) (by simp [hlone, Item.length?])] at h
    simp at h

theorem scan_encodeAll_iff (h : ∀ v ∈ vs, v.WellFormed) :
    scan (encodeAll vs) = ⟨vs.map Value.encode, .completed⟩ ↔ Framable vs := by
  induction vs with
  | nil => simp [Framable]
  | cons v vs ih =>
      have hv := h v (by simp)
      have ih := ih fun w hw => h w (by simp [hw])
      rw [encodeAll_cons, List.map_cons, Framable]
      obtain hp | ⟨payload, rfl, hcr⟩ | ⟨elements, rfl, hne⟩ := v.cases_plain
      · have harray : ∀ elements, v = .array elements → Flat (encodeAll elements) := by
          rintro elements rfl
          obtain rfl : elements = [] := hp
          exact items.rest_nil
        rw [scan_plain hv hp]
        simp only [Scan.mk.injEq, List.cons.injEq, true_and, hp]
        rw [← Scan.mk.injEq, ih]
        constructor
        · exact Or.inl
        · rintro (hvs | ⟨rfl, -⟩)
          · exact hvs
          · trivial
      · have hp : ¬ (Value.bulk payload).Plain := fun hp => hp hcr
        simp [scan_bulk_CR hv hcr, hp]
      · have hp : ¬ (Value.array elements).Plain := hne
        rw [scan_array hv hne]
        by_cases hvs : vs = []
        · subst hvs
          by_cases hflat : Flat (encodeAll elements) <;> simp [hflat, hp]
        · split <;> simp [hvs, hp]

/-! ## What the callback receives -/

/-- The bytes that each invocation of the callback is given. -/
def delivered (buf : Memory) (calls : List (Nat × Nat)) : Eval (List (List Byte)) :=
  calls.mapM fun call => string buf call.2 call.1

/-- Consecutive slices of a buffer are read back from their offsets. -/
theorem delivered_callsFrom (past : Memory) {b : List Byte} {p : Nat}
    {slices : List (List Byte)} (hp : p ≤ b.length) (h : slices.flatten <+: b.drop p) :
    delivered (view b past) (callsFrom p slices) = .ok slices := by
  induction slices generalizing p with
  | nil => rfl
  | cons slice slices ih =>
      obtain ⟨t, ht⟩ := h
      rw [List.flatten_cons, List.append_assoc] at ht
      have hlen := congrArg List.length ht
      simp only [List.length_append, List.length_drop] at hlen
      have htake : (b.drop p).take slice.length = slice := by rw [← ht, List.take_left' rfl]
      have hdrop : b.drop (p + slice.length) = slices.flatten ++ t := by
        rw [← List.drop_drop, ← ht, List.drop_left' rfl]
      have hnext := ih (p := p + slice.length) (by omega) ⟨t, hdrop.symm⟩
      have hslice : string (view b past) slice.length p = .ok slice := by
        rw [string_view (by omega), htake]
      simp only [delivered] at hnext ⊢
      simp [callsFrom, hslice, hnext]

/-- The callback receives the encodings of the values, one by one and in order,
and the whole buffer is consumed. -/
def Framed (past : Memory) (vs : List Value) : Prop :=
  ∃ r, processResp (view (encodeAll vs) past) (encodeAll vs).length 0 = .ok r ∧
    delivered (view (encodeAll vs) past) r.calls = .ok (vs.map Value.encode) ∧
    r.count = (encodeAll vs).length ∧ r.verdict = .completed

/-- A pipeline whose flat reading is cut off is not framed, although memory
behind the buffer may complete it. -/
theorem not_framed_of_cutOff (hcut : CutOff (encodeAll vs) 0) : ¬ Framed past vs := by
  rintro ⟨r, hr, -, hcount, hv⟩
  have hover := processRespFuel_cut_overshoot (Nat.le_refl 0) (Nat.zero_le _) (lasts_depth _ _)
    hcut hr hv
  omega

theorem framed_iff_scan (hcut : ¬ CutOff (encodeAll vs) 0) :
    Framed past vs ↔ scan (encodeAll vs) = ⟨vs.map Value.encode, .completed⟩ := by
  have hparse := processResp_view past (Nat.zero_le _) (Or.inr hcut)
  have hcalls := delivered_callsFrom past (Nat.zero_le _) (prefix_scan_flatten (encodeAll vs))
  rw [List.drop_zero] at hparse
  constructor
  · rintro ⟨r, hr, hslices, -, hv⟩
    rw [hparse] at hr
    obtain rfl := Except.ok.inj hr
    rw [Scan.parsed, hcalls] at hslices
    exact Scan.ext (Except.ok.inj hslices) hv
  · intro h
    refine ⟨_, hparse, ?_, ?_, ?_⟩
    · rw [Scan.parsed, hcalls, h]
    · rw [h]
      simp [Scan.parsed, encodeAll_eq_flatten]
    · simp [Scan.parsed, h]

/-- Two pipelined commands of one element each reach the callback as one. -/
theorem pipelined_arrays_merge :
    ∃ command : Value, command.WellFormed ∧
      processResp (view (encodeAll [command, command]) fun _ => some 0)
        (encodeAll [command, command]).length 0 = .ok ⟨[(0, 22)], 22, .completed⟩ ∧
      ¬ Framed (fun _ => some 0) [command, command] := by
  have hparse : processResp (view (encodeAll [.array [.bulk [97]], .array [.bulk [97]]])
      fun _ => some 0) (encodeAll [.array [.bulk [97]], .array [.bulk [97]]]).length 0 =
        .ok ⟨[(0, 22)], 22, .completed⟩ := by decide +kernel
  refine ⟨.array [.bulk [97]], by simp [Value.WellFormed], hparse, ?_⟩
  rintro ⟨r, hr, hslices, -⟩
  rw [hparse] at hr
  obtain rfl := Except.ok.inj hr
  exact absurd hslices (by decide +kernel)

/-- Exactly the framable pipelines are framed, whatever lies behind the buffer. -/
theorem framed_iff (past : Memory) (vs : List Value) (h : ∀ v ∈ vs, v.WellFormed) :
    Framed past vs ↔ Framable vs := by
  by_cases hcut : CutOff (encodeAll vs) 0
  · apply iff_of_false (not_framed_of_cutOff hcut)
    intro hvs
    have hrest := scan_verdict_completed.mp (congrArg Scan.verdict ((scan_encodeAll_iff h).mpr hvs))
    simp [CutOff, hrest] at hcut
  · rw [framed_iff_scan hcut, scan_encodeAll_iff h]

theorem framed_command : Framed unmapped [.simple [79, 75], .array [.bulk [97], .nullBulk]] :=
  (framed_iff unmapped _ (by simp [Value.WellFormed, CR, LF])).mpr
    (Or.inl ⟨trivial, Or.inr ⟨rfl, _, rfl, by decide +kernel⟩⟩)

end Canal.RespParser
