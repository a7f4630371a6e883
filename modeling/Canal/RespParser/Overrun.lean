import Canal.RespParser.Refinement

/-!
# Reading across the end of a buffer

The only load that no loop or length check bounds is the one of
`find_CRLF_index` behind the CR it found, or behind the end when it found none.
It leaves the view exactly when the line being read is cut, and then one byte
behind the view decides how this line is taken.

If the byte cannot be read, the parse faults. If it is not LF, the parse is that
of the view. If it is LF, the parser believes the line to be complete, and the
parse is that of the view followed by what is `missing`: the LF alone where the
view ends with the CR of the line, and CR LF where the line has no CR.
-/

namespace Canal.RespParser

open Buffer Decimal

variable {b r : List Byte} {past : Memory} {p n m : Nat} {o : Bool}

/-! ## Items that are cut -/

theorem bulkItem_eq_cut {r : List Byte} (h : bulkItem r n = .cut) :
    ∃ z, lineNumber r n = some z ∧ z ≠ -1 ∧ 0 ≤ z ∧ lineEnd (r.drop (n + 2)) = .cut := by
  unfold bulkItem at h
  cases hz : lineNumber r n with
  | none => simp [hz] at h
  | some z =>
      simp only [hz] at h
      split at h
      · simp at h
      · split at h
        · refine ⟨z, rfl, ‹_›, ‹_›, ?_⟩
          unfold Item.ofLine at h
          split at h
          · simp at h
          · simp at h
          · assumption
        · simp at h

theorem arrayItem_ne_cut {r : List Byte} : arrayItem r n ≠ .cut := by
  unfold arrayItem
  split
  · simp
  · split <;> simp

theorem ofLine_eq_cut {k : Nat → Item} (h : Item.ofLine r k = .cut) :
    lineEnd r = .cut ∨ ∃ n, lineEnd r = .ended n ∧ k n = .cut := by
  unfold Item.ofLine at h
  cases hend : lineEnd r with
  | ended n => exact Or.inr ⟨n, rfl, by simpa [hend] using h⟩
  | lone => simp [hend] at h
  | cut => exact Or.inl rfl

/-- A cut item ends in its first line, or in the payload line of a bulk string. -/
theorem firstItem_eq_cut {c : Byte} {t : List Byte} (h : firstItem (c :: t) = .cut) :
    (lineEnd (c :: t) = .cut ∧
        ((c = stringReply ∨ c = errorReply ∨ c = integerReply) ∨ c = bulkReply ∨
          c = arrayReply)) ∨
      (c = bulkReply ∧ ∃ n, lineEnd (c :: t) = .ended n ∧ bulkItem (c :: t) n = .cut) := by
  rw [firstItem] at h
  split at h
  · obtain hend | ⟨n, -, hn⟩ := ofLine_eq_cut h
    · exact Or.inl ⟨hend, Or.inl ‹_›⟩
    · simp at hn
  · split at h
    · obtain hend | hbulk := ofLine_eq_cut h
      · exact Or.inl ⟨hend, Or.inr (Or.inl ‹_›)⟩
      · exact Or.inr ⟨‹_›, hbulk⟩
    · split at h
      · obtain hend | ⟨n, -, hn⟩ := ofLine_eq_cut h
        · exact Or.inl ⟨hend, Or.inr (Or.inr ‹_›)⟩
        · exact absurd hn arrayItem_ne_cut
      · simp at h

/-! ## What is missing -/

/-- What a stream that ends in a cut line lacks of its CR LF. -/
def missing (r : List Byte) : List Byte := if inspected r = 0 then [LF] else [CR, LF]

theorem missing_ne_nil : missing r ≠ [] := by
  unfold missing
  split <;> simp

theorem length_missing : (missing r).length = inspected r + 1 := by
  unfold missing inspected
  split <;> simp_all

/-- A cut line, completed by what is missing. -/
theorem lineEnd_missing (h : lineEnd r = .cut) :
    lineEnd (r ++ missing r) = .ended (r.idxOf CR) ∧
      r.idxOf CR + 2 = (r ++ missing r).length := by
  have hlength := lineEnd_idxOf_cut h
  refine ⟨?_, by rw [List.length_append, length_missing]; omega⟩
  obtain hno | ⟨text, rfl, hcr⟩ := lineEnd_eq_cut_iff.mp h
  · have hlast : r.getLast? ≠ some CR := fun hl => hno (List.mem_of_getLast? hl)
    have hmissing : missing r = [CR, LF] := by simp [missing, inspected, hlast]
    rw [hmissing, List.idxOf_of_notMem hno]
    exact lineEnd_text [] hno
  · have hmissing : missing (text ++ [CR]) = [LF] := by simp [missing, inspected]
    rw [hmissing, List.idxOf_append_of_notMem hcr, List.append_assoc]
    simpa using lineEnd_text [] hcr

/-- An item that becomes whole by what is missing ends there. -/
theorem length_firstItem_missing (hcut : firstItem r = .cut)
    (h : firstItem (r ++ missing r) = .whole n o) : n = (r ++ missing r).length := by
  have hle := (length_of_firstItem h).2
  refine Nat.le_antisymm hle (Nat.le_of_not_lt fun hlt => ?_)
  have hlong : r.length < n := by
    apply Nat.lt_of_not_le
    intro hshort
    simp [firstItem_of_append h hshort] at hcut
  -- only the CR of a CR LF could be the end of the item
  have hmissing : missing r = [CR, LF] := by
    unfold missing at hlt ⊢
    split
    · rw [if_pos ‹_›, List.length_append] at hlt
      simp at hlt
      omega
    · rfl
  rw [hmissing, List.length_append] at hlt
  have htake : (r ++ missing r).take n = r ++ [CR] := by
    have hn : n = r.length + 1 := by simp at hlt; omega
    rw [hmissing, hn, List.take_length_add_append]
    rfl
  obtain ⟨t, ht⟩ := htake ▸ suffix_take_of_firstItem h
  have hlast := congrArg List.getLast? ht
  simp [CR, LF] at hlast

/-- Completed by what is missing, a stream is one message or none. -/
theorem scan_missing (hcut : firstItem r = .cut) :
    scan (r ++ missing r) =
      if (firstItem (r ++ missing r)).answer.2 = .completed then ⟨[r ++ missing r], .completed⟩
      else ⟨[], (firstItem (r ++ missing r)).answer.2⟩ := by
  have hne : r ++ missing r ≠ [] := by simp [missing_ne_nil]
  cases hitem : firstItem (r ++ missing r) with
  | whole n o =>
      obtain rfl := length_firstItem_missing hcut hitem
      cases o with
      | false => rw [scan_whole hitem, List.take_length, List.drop_length, scan_nil]; rfl
      | true => rw [scan_opens hitem, List.drop_length, items.rest_nil]; rfl
  | nothing => exact absurd (firstItem_eq_nothing.mp hitem) hne
  | lone => rw [scan_stuck hne (by simp [hitem, Item.length?]), hitem]; rfl
  | cut => rw [scan_stuck hne (by simp [hitem, Item.length?]), hitem]; rfl
  | bad => rw [scan_stuck hne (by simp [hitem, Item.length?]), hitem]; rfl

/-! ## One turn of the loop -/

theorem findCRLFIndex_fault (hp : p ≤ b.length) (h : lineEnd (b.drop p) = .cut)
    (hnone : past (inspected (b.drop p)) = none) :
    findCRLFIndex (view b past) b.length p = .error .fault := by
  rw [findCRLFIndex_cut past hp h]
  simp [load, hnone]

theorem findCRLFIndex_missing (hp : p ≤ b.length) (h : lineEnd (b.drop p) = .cut)
    (hlf : past (inspected (b.drop p)) = some LF) :
    findCRLFIndex (view b past) b.length p = .ok (p + (b.drop p).idxOf CR) := by
  rw [findCRLFIndex_cut past hp h]
  simp [load, hlf]

/-- The payload line of a bulk string is cut where the whole item is. -/
theorem payload_cut (hline : lineEnd (b.drop p) = .ended n)
    (hpay : lineEnd ((b.drop p).drop (n + 2)) = .cut) :
    p + n + 2 ≤ b.length ∧ lineEnd (b.drop (p + n + 2)) = .cut ∧
      inspected (b.drop (p + n + 2)) = inspected (b.drop p) := by
  have hlen := length_of_lineEnd hline
  have hinspected := inspected_drop hline
  rw [List.drop_drop, ← Nat.add_assoc] at hinspected hpay
  rw [List.length_drop] at hlen
  exact ⟨by omega, hpay, hinspected⟩

/-- A line that is cut where nothing can be read faults, under each type byte. -/
theorem handle_cut_fault (fuel : Nat) (hp : p < b.length) (hcut : firstItem (b.drop p) = .cut)
    (hnone : past (inspected (b.drop p)) = none) :
    handle (processArrayFuel (view b past) b.length (fuel + 1)) (view b past) b.length p =
      .error .fault := by
  obtain ⟨handler, k, hkind, hhandle, hitem, hpos⟩ | ⟨-, hbad⟩ := handle_cases hp fuel past
  · suffices hfault : handler = .error .fault by rw [hhandle, hfault]; rfl
    have hitem := hitem []
    have hpos := hpos []
    rw [List.append_nil] at hitem hpos
    rw [hitem] at hcut
    obtain hline | ⟨n, hline, hk⟩ := ofLine_eq_cut hcut
    · have hfind := findCRLFIndex_fault (Nat.le_of_lt hp) hline hnone
      cases hkind with
      | line => simp [processLine, hfind]
      | bulk => simp [processBulk, hfind]
      | array => simp [processArrayFuel, hfind]
    · cases hkind with
      | line => simp at hk
      | bulk =>
          obtain ⟨z, hz, hneg, hzero, hpay⟩ := bulkItem_eq_cut hk
          obtain ⟨hle, hcut', hinspected⟩ := payload_cut hline hpay
          rw [← hinspected] at hnone
          rw [processBulk_payload (hpos n hline) hline hz hneg hzero,
            findCRLFIndex_fault hle hcut' hnone]
          rfl
      | array => exact absurd hk arrayItem_ne_cut
  · simp [hbad] at hcut

/-- The number of a header that is cut behind its text. -/
theorem headerNumber_missing (hn : 0 < (b.drop p).idxOf CR) (hp : p < b.length)
    (past : Memory) :
    headerNumber (view b past) p (p + (b.drop p).idxOf CR) =
      .ok (lineNumber (b.drop p ++ missing (b.drop p)) ((b.drop p).idxOf CR)) := by
  have hidx : (b.drop p).idxOf CR ≤ (b.drop p).length := List.idxOf_le_length
  rw [lineNumber_append _ hidx]
  rw [List.length_drop] at hidx
  exact headerNumber_view hn (by omega)

section Missing

variable (hlf : past (inspected (b.drop p)) = some LF)
include hlf

/-- A header of a bulk string that is cut: no payload is found behind it. -/
theorem processBulk_missing (hn : 0 < (b.drop p).idxOf CR) (hp : p < b.length)
    (hline : lineEnd (b.drop p) = .cut) :
    processBulk (view b past) b.length p =
      .ok (bulkItem (b.drop p ++ missing (b.drop p)) ((b.drop p).idxOf CR)).answer := by
  have hfind := findCRLFIndex_missing (Nat.le_of_lt hp) hline hlf
  have hnumber := headerNumber_missing hn hp past
  have hlength := (lineEnd_missing hline).2
  have hdrop := List.drop_eq_nil_of_le (Nat.le_of_eq hlength.symm)
  rw [List.length_append, length_missing, List.length_drop] at hlength
  have hfound : p + (b.drop p).idxOf CR ≠ 0 := by omega
  have hpast : findCRLFIndex (view b past) b.length (p + (b.drop p).idxOf CR + 2) = .ok 0 :=
    findCRLFIndex_past (by omega)
  rw [processBulk, hfind, ok_bind, if_pos hfound, hnumber, ok_bind, bulkItem]
  cases lineNumber (b.drop p ++ missing (b.drop p)) ((b.drop p).idxOf CR) with
  | none => rfl
  | some z =>
      by_cases hneg : z = -1
      · simp [hneg, Item.answer]
      · by_cases hpos : 0 ≤ z
        · simp [hneg, hpos, hpast, hdrop, Item.ofLine, lineEnd, Item.answer]
        · simp [hneg, hpos, Item.answer]

/-- A header of an array that is cut: its elements are found behind the end,
where each of them is `Completed` without a byte. -/
theorem processArrayFuel_missing (fuel : Nat) (hn : 0 < (b.drop p).idxOf CR) (hp : p < b.length)
    (hline : lineEnd (b.drop p) = .cut) :
    processArrayFuel (view b past) b.length (fuel + 2) p =
      .ok (arrayItem (b.drop p ++ missing (b.drop p)) ((b.drop p).idxOf CR)).answer := by
  have hfind := findCRLFIndex_missing (Nat.le_of_lt hp) hline hlf
  have hnumber := headerNumber_missing hn hp past
  have hlength := (lineEnd_missing hline).2
  rw [List.length_append, length_missing, List.length_drop] at hlength
  have hfound : p + (b.drop p).idxOf CR ≠ 0 := by omega
  rw [processArrayFuel, hfind, ok_bind, if_pos hfound, hnumber, ok_bind, arrayItem]
  cases lineNumber (b.drop p ++ missing (b.drop p)) ((b.drop p).idxOf CR) with
  | none => rfl
  | some z =>
      have helements := elements_past (view b past) fuel z.toNat
        (show b.length ≤ p + (b.drop p).idxOf CR + 2 by omega)
      have hcount : p + (b.drop p).idxOf CR + 2 - p = (b.drop p).idxOf CR + 2 := by omega
      by_cases hneg : z < -1
      · have hnone : ¬ (z = 0 ∨ z = -1) := by omega
        simp [hneg, hnone, Item.answer]
      · by_cases hnone : z = 0 ∨ z = -1
        · simp [hneg, hnone, Item.answer]
        · simp [hneg, hnone, helements, hcount, Item.answer]

/-- A payload line that is cut. -/
theorem processBulk_payload_missing (hn : 0 < n) (hline : lineEnd (b.drop p) = .ended n)
    (hcut : bulkItem (b.drop p) n = .cut) :
    processBulk (view b past) b.length p =
      .ok (bulkItem (b.drop p ++ missing (b.drop p)) n).answer := by
  obtain ⟨z, hz, hneg, hzero, hpay⟩ := bulkItem_eq_cut hcut
  obtain ⟨hle, hcut', hinspected⟩ := payload_cut hline hpay
  have hlen := length_of_lineEnd hline
  have hmissing : missing (b.drop p) = missing (b.drop (p + n + 2)) := by
    rw [missing, missing, hinspected]
  have hdrop : (b.drop p ++ missing (b.drop p)).drop (n + 2) =
      b.drop (p + n + 2) ++ missing (b.drop (p + n + 2)) := by
    rw [List.drop_append_of_le_length hlen, List.drop_drop, hmissing, Nat.add_assoc]
  have hcount : p + n + 2 + (b.drop (p + n + 2)).idxOf CR - p + 2 =
      n + 2 + (b.drop (p + n + 2)).idxOf CR + 2 := by omega
  rw [← hinspected] at hlf
  rw [processBulk_payload hn hline hz hneg hzero, findCRLFIndex_missing hle hcut' hlf, bulkItem,
    lineNumber_append _ (by omega), hz]
  simp only [hneg, hzero, ↓reduceIte, hdrop, Item.ofLine, (lineEnd_missing hcut').1]
  simp [hcount, Item.answer]

/-- With an LF behind the view, a cut item is answered as if it were complete. -/
theorem handle_missing (fuel : Nat) (hp : p < b.length) (hcut : firstItem (b.drop p) = .cut) :
    handle (processArrayFuel (view b past) b.length (fuel + 2)) (view b past) b.length p =
      .ok (some (firstItem (b.drop p ++ missing (b.drop p))).answer) := by
  obtain ⟨handler, k, hkind, hhandle, hitem, hpos⟩ | ⟨-, hbad⟩ := handle_cases hp (fuel + 1) past
  · suffices hanswer : handler =
        .ok (firstItem (b.drop p ++ missing (b.drop p))).answer by rw [hhandle, hanswer]; rfl
    have hcut' := hitem []
    rw [List.append_nil, hcut] at hcut'
    rw [hitem, Item.ofLine]
    obtain hline | ⟨n, hline, hk⟩ := ofLine_eq_cut hcut'.symm
    · have hend := (lineEnd_missing hline).1
      have hn := hpos _ _ hend
      rw [hend]
      cases hkind with
      | line =>
          have hfind := findCRLFIndex_missing (Nat.le_of_lt hp) hline hlf
          have hfound : ¬ (p = 0 ∧ (b.drop p).idxOf CR = 0) := by omega
          simp [processLine, hfind, hfound, Item.answer]
      | bulk => exact processBulk_missing hlf hn hp hline
      | array => exact processArrayFuel_missing hlf fuel hn hp hline
    · rw [lineEnd_append_of_at _ hline]
      cases hkind with
      | line => simp at hk
      | bulk =>
          have hn := hpos [] n
          rw [List.append_nil] at hn
          exact processBulk_payload_missing hlf (hn hline) hline hk
      | array => exact absurd hk arrayItem_ne_cut
  · simp [hbad] at hcut

end Missing

/-! ## The whole parse -/

/-- A fault while the first element is parsed is a fault of the array. -/
theorem processArrayFuel_fault {fuel m : Nat} {e : Stop} (hn : 0 < n)
    (hline : lineEnd (b.drop p) = .ended n) (hopen : arrayItem (b.drop p) n = .whole m true)
    (hrest : processRespFuel (view b past) b.length fuel (p + m) (p + m) = .error e) :
    processArrayFuel (view b past) b.length (fuel + 1) p = .error e := by
  obtain ⟨hfound, hfind, hnumber, -⟩ := bulkNumber past hn hline
  obtain ⟨z, hz, hpos⟩ := arrayItem_opens hopen
  have hm : m = n + 2 := arrayItem_whole_length hopen
  subst hm
  rw [← Nat.add_assoc] at hrest
  obtain ⟨k, hk⟩ : ∃ k, z.toNat = k + 1 := ⟨z.toNat - 1, by omega⟩
  have hnot : ¬ (z = 0 ∨ z = -1) := by omega
  have hneg : ¬ z < -1 := by omega
  simp [processArrayFuel, hfind, hfound, hnumber, hz, hnot, hneg, hk, elements, hrest]

/-- Where the byte behind the view cannot be read, the parse faults. -/
theorem processRespFuel_fault {fuel : Nat} (index : Nat) (hp : p ≤ b.length)
    (hfuel : Lasts b.length p fuel) (hcut : firstItem (items.rest (b.drop p)) = .cut)
    (hnone : past (inspected (b.drop p)) = none) :
    processRespFuel (view b past) b.length fuel index p = .error .fault := by
  revert hcut hnone
  refine lasts_induction ?_ ?_ ?_ index hp hfuel
  · intro f index hcut
    simp at hcut
  · intro p f index hlt hstuck hcut hnone
    rw [rest_of_stuck hstuck] at hcut
    simp [processRespFuel, hlt, handle_cut_fault _ hlt hcut hnone]
  · intro p f index n o hlt hitem ih hcut hnone
    rw [items_rest_whole hitem, List.drop_drop] at hcut
    have hne : b.drop (p + n) ≠ [] := by
      intro hnil
      simp [hnil] at hcut
    rw [← List.take_append_drop n (b.drop p), List.drop_drop, inspected_append hne] at hnone
    cases o with
    | false =>
        rw [processRespFuel_next hlt (handle_whole hlt hitem), ih _ _ (by omega) hcut hnone]
        rfl
    | true =>
        obtain ⟨m, hm, hline, harray, hhandle⟩ := handle_opens (f + 1) hlt hitem past
        rw [processArrayFuel_fault hm hline harray (ih _ _ (by omega) hcut hnone)] at hhandle
        simp [processRespFuel, hlt, hhandle]

/-- With an LF behind the view, the parse is that of the view followed by what
is missing. -/
theorem processRespFuel_missing {fuel : Nat} (index : Nat) (hp : p ≤ b.length)
    (hfuel : Lasts b.length p fuel) (hcut : firstItem (items.rest (b.drop p)) = .cut)
    (hlf : past (inspected (b.drop p)) = some LF) :
    processRespFuel (view b past) b.length fuel index p =
      .ok ((scan (b.drop p ++ missing (b.drop p))).parsed index p) := by
  apply processRespFuel_extended hp hfuel (fun hnil => by simp [hnil] at hcut)
  intro q fuel index hq hrest hstuck
  have hne : b.drop q ≠ [] := by simpa using hq
  have hinspected := inspected_rest (hrest ▸ hne)
  rw [hrest] at hcut hinspected
  have hmissing : missing (b.drop p) = missing (b.drop q) := by
    rw [missing, missing, hinspected]
  rw [← hinspected] at hlf
  rw [hmissing, scan_missing hcut]
  have hhandle := handle_missing hlf fuel hq hcut
  cases hitem : firstItem (b.drop q ++ missing (b.drop q)) with
  | whole n o =>
      have hlength := length_firstItem_missing hcut hitem
      rw [List.length_append, length_missing, List.length_drop] at hlength
      rw [hitem] at hhandle
      rw [processRespFuel_next hq hhandle, processRespFuel_end (by omega)]
      simp [Item.answer, Scan.parsed, callsFrom, length_missing, hlength]
  | _ =>
      rw [processRespFuel_stop hq hhandle (by simp [hitem, Item.answer])]
      simp [hitem, Item.answer, Scan.parsed, callsFrom]

end Canal.RespParser
