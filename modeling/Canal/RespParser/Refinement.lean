import Canal.RespParser.Item

/-!
# The parser over a view of its input

`scan` is the outcome of `process_resp` in terms of items alone, without
offsets, memory or fuel. The items in front of an array header are handed over
one by one. An array header swallows the rest of the buffer: either all of it
consists of whole items, and the callback receives everything from the header
on, or nothing is handed over and the verdict is `Error`.

`processResp_view` states that the code computes `scan` on every buffer whose
flat reading does not end in a cut line, and on every buffer at all if the
memory behind it does not start with LF.
-/

namespace Canal.RespParser

open Buffer Decimal

variable {b : List Byte} {past : Memory} {p n : Nat}

/-! ## The search helper -/

/-- The two bytes behind the view can be read and neither is LF. -/
def Quiet (past : Memory) : Prop := ∀ k < 2, ∃ c, past k = some c ∧ c ≠ LF

/-- The offset behind a stream at which its last line, if it is cut, is inspected. -/
def inspected (r : List Byte) : Nat := if r.getLast? = some CR then 0 else 1

/-- The byte inspected behind a stream can be read and is not LF. -/
def Hushed (past : Memory) (r : List Byte) : Prop := ∃ c, past (inspected r) = some c ∧ c ≠ LF

theorem Quiet.hushed (h : Quiet past) (r : List Byte) : Hushed past r := by
  apply h
  unfold inspected
  split <;> decide

theorem inspected_append {r s : List Byte} (h : s ≠ []) : inspected (r ++ s) = inspected s := by
  rw [inspected, inspected, List.getLast?_append_of_ne_nil r h]

/-- A line behind the first one is inspected where the whole stream is. -/
theorem inspected_drop {r : List Byte} (h : lineEnd r = .ended n) :
    inspected (r.drop (n + 2)) = inspected r := by
  obtain ⟨text, rest, rfl, -, rfl⟩ := lineEnd_eq_at_iff.mp h
  have hsplit : text ++ CR :: LF :: rest = (text ++ [CR, LF]) ++ rest := by simp
  rw [hsplit, List.drop_left' (by simp)]
  by_cases hrest : rest = []
  · subst hrest
    have hlast : (text ++ [CR, LF] ++ []).getLast? = some LF := by simp
    rw [inspected, inspected, hlast]
    rfl
  · exact (inspected_append hrest).symm

theorem lineEnd_idxOf_at {r : List Byte} (h : lineEnd r = .ended n) :
    r.idxOf CR = n ∧ r[n + 1]? = some LF := by
  obtain ⟨text, rest, rfl, hcr, rfl⟩ := lineEnd_eq_at_iff.mp h
  refine ⟨?_, by simp⟩
  rw [List.idxOf_append_of_notMem hcr]
  simp

theorem lineEnd_idxOf_lone {r : List Byte} (h : lineEnd r = .lone) :
    ∃ c, r[r.idxOf CR + 1]? = some c ∧ c ≠ LF := by
  induction r with
  | nil => simp [lineEnd] at h
  | cons c s ih =>
      rw [lineEnd] at h
      by_cases hc : c = CR
      · subst hc
        cases s with
        | nil => simp [afterCR] at h
        | cons d s => exact ⟨d, by simp, by simpa [afterCR] using h⟩
      · rw [if_neg hc, succ_eq_lone] at h
        obtain ⟨d, hd, hne⟩ := ih h
        exact ⟨d, by simpa [List.idxOf_cons_ne _ hc] using hd, hne⟩

theorem lineEnd_idxOf_cut {r : List Byte} (h : lineEnd r = .cut) :
    r.idxOf CR + 1 = r.length + inspected r := by
  obtain hno | ⟨text, rfl, hcr⟩ := lineEnd_eq_cut_iff.mp h
  · have hlast : r.getLast? ≠ some CR := fun hl => hno (List.mem_of_getLast? hl)
    rw [List.idxOf_of_notMem hno, inspected, if_neg hlast]
  · rw [List.idxOf_append_of_notMem hcr, inspected, if_pos (by simp)]
    simp

theorem load_view_drop {i : Nat} {c : Byte} (h : (b.drop p)[i]? = some c) :
    load (view b past) (p + i) = .ok c := by
  rw [List.getElem?_drop] at h
  obtain ⟨hlt, rfl⟩ := List.getElem?_eq_some_iff.mp h
  exact load_view_of_lt hlt

theorem findCRLFIndex_load (h : p ≤ b.length) :
    findCRLFIndex (view b past) b.length p = (do
      if (← load (view b past) (p + ((b.drop p).idxOf CR + 1))) = LF then
        return p + (b.drop p).idxOf CR
      else
        return 0) := by
  have hnot : ¬ p > b.length := by omega
  rw [findCRLFIndex, if_neg hnot, find_view (by omega)]
  rfl

theorem findCRLFIndex_at (h : lineEnd (b.drop p) = .ended n) :
    findCRLFIndex (view b past) b.length p = .ok (p + n) := by
  have hlen := length_of_lineEnd h
  rw [List.length_drop] at hlen
  obtain ⟨hidx, hget⟩ := lineEnd_idxOf_at h
  rw [findCRLFIndex_load (by omega), hidx, load_view_drop hget]
  simp

theorem findCRLFIndex_lone (hp : p ≤ b.length) (h : lineEnd (b.drop p) = .lone) :
    findCRLFIndex (view b past) b.length p = .ok 0 := by
  obtain ⟨c, hget, hne⟩ := lineEnd_idxOf_lone h
  rw [findCRLFIndex_load hp, load_view_drop hget]
  simp [hne]

/-- On a cut line a byte behind the view decides. -/
theorem findCRLFIndex_cut (past : Memory) (hp : p ≤ b.length) (h : lineEnd (b.drop p) = .cut) :
    findCRLFIndex (view b past) b.length p = (do
      if (← load past (inspected (b.drop p))) = LF then
        return p + (b.drop p).idxOf CR
      else
        return 0) := by
  have hidx := lineEnd_idxOf_cut h
  rw [List.length_drop] at hidx
  have hoff : p + ((b.drop p).idxOf CR + 1) = b.length + inspected (b.drop p) := by omega
  rw [findCRLFIndex_load hp, hoff, load_view_past]

theorem findCRLFIndex_hushed (hp : p ≤ b.length) (h : lineEnd (b.drop p) = .cut)
    (hushed : Hushed past (b.drop p)) : findCRLFIndex (view b past) b.length p = .ok 0 := by
  obtain ⟨c, hc, hne⟩ := hushed
  rw [findCRLFIndex_cut past hp h]
  simp [load, hc, hne]

theorem findCRLFIndex_past {buf : Memory} {len index : Nat} (h : len < index) :
    findCRLFIndex buf len index = .ok 0 := by
  rw [findCRLFIndex, if_pos h]
  rfl

/-! ## The handlers -/

theorem processLine_at (hn : 0 < n) (h : lineEnd (b.drop p) = .ended n) :
    processLine (view b past) b.length p = .ok (n + 2, .completed) := by
  have hfound : n ≠ 0 := by omega
  simp [processLine, findCRLFIndex_at h, hfound]

/-- A search that finds nothing makes every handler ask for more. -/
theorem processLine_of_zero {buf : Memory} {len : Nat} (h : findCRLFIndex buf len p = .ok 0) :
    processLine buf len p = .ok (0, .incompleted) := by
  simp [processLine, h]

theorem processBulk_of_zero {buf : Memory} {len : Nat} (h : findCRLFIndex buf len p = .ok 0) :
    processBulk buf len p = .ok (0, .incompleted) := by
  simp [processBulk, h]

theorem processArrayFuel_of_zero {buf : Memory} {len fuel : Nat}
    (h : findCRLFIndex buf len p = .ok 0) :
    processArrayFuel buf len (fuel + 1) p = .ok (0, .incompleted) := by
  simp [processArrayFuel, h]

theorem headerNumber_view (hn : 0 < n) (hle : p + n ≤ b.length) :
    headerNumber (view b past) p (p + n) = .ok (lineNumber (b.drop p) n) := by
  have hcount : p + n - p - 1 = n - 1 := by omega
  rw [headerNumber, hcount, string_view (by omega), lineNumber, List.drop_drop]
  rfl

theorem bulkNumber (past : Memory) (hn : 0 < n) (hline : lineEnd (b.drop p) = .ended n) :
    n ≠ 0 ∧ findCRLFIndex (view b past) b.length p = .ok (p + n) ∧
      headerNumber (view b past) p (p + n) = .ok (lineNumber (b.drop p) n) ∧
      p + n + 2 ≤ b.length := by
  have hlen := length_of_lineEnd hline
  rw [List.length_drop] at hlen
  exact ⟨by omega, findCRLFIndex_at hline, headerNumber_view hn (by omega), by omega⟩

/-- What the handlers answer for an item, unless it opens an array. -/
def Item.answer : Item → Nat × ParseResult
  | .whole n _ => (n, .completed)
  | .lone => (0, .incompleted)
  | .cut => (0, .incompleted)
  | .bad => (0, .error)
  | .nothing => (0, .error)

/-- The payload line of a bulk string, once its header announced one. -/
theorem processBulk_payload (hn : 0 < n) {z : Int} (hline : lineEnd (b.drop p) = .ended n)
    (hz : lineNumber (b.drop p) n = some z) (hneg : z ≠ -1) (hpos : 0 ≤ z) :
    processBulk (view b past) b.length p = (do
      let found2 ← findCRLFIndex (view b past) b.length (p + n + 2)
      if found2 ≠ 0 then
        return (found2 - p + 2, .completed)
      else
        return (0, .incompleted)) := by
  obtain ⟨hfound, hfind, hnumber, -⟩ := bulkNumber past hn hline
  simp [processBulk, hfind, hfound, hnumber, hz, hneg, hpos]

theorem processBulk_view (hn : 0 < n) (hline : lineEnd (b.drop p) = .ended n)
    (hsettled : Hushed past (b.drop p) ∨ bulkItem (b.drop p) n ≠ .cut) :
    processBulk (view b past) b.length p = .ok (bulkItem (b.drop p) n).answer := by
  obtain ⟨hfound, hfind, hnumber, hle⟩ := bulkNumber past hn hline
  unfold bulkItem at hsettled ⊢
  cases hz : lineNumber (b.drop p) n with
  | none => simp [processBulk, hfind, hfound, hnumber, hz, Item.answer]
  | some z =>
      simp only [hz] at hsettled ⊢
      by_cases hneg : z = -1
      · simp [processBulk, hfind, hfound, hnumber, hz, hneg, Item.answer]
      · rw [if_neg hneg] at hsettled ⊢
        by_cases hpos : 0 ≤ z
        · rw [if_pos hpos] at hsettled ⊢
          have hdrop : (b.drop p).drop (n + 2) = b.drop (p + n + 2) := by
            rw [List.drop_drop, Nat.add_assoc]
          rw [processBulk_payload hn hline hz hneg hpos]
          simp only [Item.ofLine, hdrop] at hsettled ⊢
          cases hpay : lineEnd (b.drop (p + n + 2)) with
          | ended m =>
              have hcount : p + n + 2 + m - p + 2 = n + 2 + m + 2 := by omega
              simp [findCRLFIndex_at hpay, Item.answer, hcount]
          | lone => simp [findCRLFIndex_lone hle hpay, Item.answer]
          | cut =>
              have hushed := hsettled.resolve_right (by simp [hpay])
              rw [Hushed, ← inspected_drop hline, hdrop] at hushed
              simp [findCRLFIndex_hushed hle hpay hushed, Item.answer]
        · have hnot : ¬ z ≥ 0 := hpos
          simp [processBulk, hfind, hfound, hnumber, hz, hneg, hnot, Item.answer]

/-- An array header that announces no element, or no acceptable number. -/
theorem processArrayFuel_view {fuel : Nat} (hn : 0 < n) (hline : lineEnd (b.drop p) = .ended n)
    (hopen : ∀ m, arrayItem (b.drop p) n ≠ .whole m true) :
    processArrayFuel (view b past) b.length (fuel + 1) p =
      .ok (arrayItem (b.drop p) n).answer := by
  obtain ⟨hfound, hfind, hnumber, -⟩ := bulkNumber past hn hline
  unfold arrayItem at hopen ⊢
  cases hz : lineNumber (b.drop p) n with
  | none => simp [processArrayFuel, hfind, hfound, hnumber, hz, Item.answer]
  | some z =>
      simp only [hz] at hopen ⊢
      by_cases hneg : z < -1
      · have hnot : ¬ (z = 0 ∨ z = -1) := by omega
        simp [processArrayFuel, hfind, hfound, hnumber, hz, hneg, hnot, Item.answer]
      · rw [if_neg hneg] at hopen ⊢
        have hpos : ¬ 0 < z := fun h => hopen (n + 2) (by simp [h])
        have hnone : z = 0 ∨ z = -1 := by omega
        simp [processArrayFuel, hfind, hfound, hnumber, hz, hnone, Item.answer]

/-! ## Elements of an array -/

/-- Behind the end of the buffer every call of `process_resp` is `Completed`
without consuming anything. -/
theorem processRespFuel_past {buf : Memory} {len fuel i : Nat} (h : len ≤ i) :
    processRespFuel buf len (fuel + 1) i i = .ok ⟨[], 0, .completed⟩ := by
  have hnot : ¬ len > i := by omega
  simp [processRespFuel, hnot]

theorem elements_past (buf : Memory) {len : Nat} (fuel : Nat) {i : Nat} (m : Nat) (h : len ≤ i) :
    elements (fun j => processRespFuel buf len (fuel + 1) j j) m i = .ok (some i) := by
  induction m with
  | zero => rfl
  | succ m ih => simpa [elements, processRespFuel_past h] using ih

/-- The first element takes the whole rest of the buffer, so the later
iterations of the loop consume nothing. -/
theorem elements_first {buf : Memory} {len fuel i m : Nat} {r : Parsed} (hm : 0 < m)
    (h : processRespFuel buf len (fuel + 1) i i = .ok r)
    (hall : r.verdict = .completed → len ≤ i + r.count) :
    elements (fun j => processRespFuel buf len (fuel + 1) j j) m i =
      .ok (if r.verdict = .completed then some (i + r.count) else none) := by
  obtain ⟨m, rfl⟩ : ∃ k, m = k + 1 := ⟨m - 1, by omega⟩
  by_cases hv : r.verdict = .completed
  · simp [elements, h, hv, elements_past buf fuel m (hall hv)]
  · simp [elements, h, hv]

/-- A non-empty array is `Completed` exactly when the rest of the buffer is. -/
theorem processArrayFuel_opens {fuel m : Nat} {r : Parsed} (hn : 0 < n)
    (hline : lineEnd (b.drop p) = .ended n) (hopen : arrayItem (b.drop p) n = .whole m true)
    (hrest : processRespFuel (view b past) b.length (fuel + 1) (p + m) (p + m) = .ok r)
    (hall : r.verdict = .completed → b.length ≤ p + m + r.count) :
    processArrayFuel (view b past) b.length (fuel + 2) p =
      .ok (if r.verdict = .completed then (m + r.count, .completed) else (0, .error)) := by
  obtain ⟨hfound, hfind, hnumber, -⟩ := bulkNumber past hn hline
  obtain ⟨z, hz, hpos⟩ := arrayItem_opens hopen
  have hm : m = n + 2 := arrayItem_whole_length hopen
  subst hm
  have hnot : ¬ (z = 0 ∨ z = -1) := by omega
  have hneg : ¬ z < -1 := by omega
  have hcount : 0 < z.toNat := by omega
  rw [← Nat.add_assoc] at hrest hall
  have helements := elements_first hcount hrest hall
  by_cases hv : r.verdict = .completed
  · rw [if_pos hv] at helements ⊢
    have hsum : p + n + 2 + r.count - p = n + 2 + r.count := by omega
    simp [processArrayFuel, hfind, hfound, hnumber, hz, hnot, hneg, helements, hsum]
  · rw [if_neg hv] at helements ⊢
    simp [processArrayFuel, hfind, hfound, hnumber, hz, hnot, hneg, helements]

/-! ## One turn of the loop -/

section Turn

variable {buf : Memory} {len : Nat} {c : Byte} {array : Nat → Eval (Nat × ParseResult)}

private theorem handle_line (hload : load buf p = .ok c)
    (hc : c = stringReply ∨ c = errorReply ∨ c = integerReply) :
    handle array buf len p = some <$> processLine buf len p := by
  rcases hc with rfl | rfl | rfl <;>
    simp [handle, hload, processString, processError, processInteger, stringReply, errorReply,
      integerReply, map_eq_pure_bind]

private theorem handle_bulk (hload : load buf p = .ok bulkReply) :
    handle array buf len p = some <$> processBulk buf len p := by
  simp [handle, hload, stringReply, errorReply, integerReply, bulkReply, map_eq_pure_bind]

private theorem handle_array (hload : load buf p = .ok arrayReply) :
    handle array buf len p = some <$> array p := by
  simp [handle, hload, stringReply, errorReply, integerReply, bulkReply, arrayReply,
    map_eq_pure_bind]

private theorem handle_other (hload : load buf p = .ok c)
    (hline : ¬ (c = stringReply ∨ c = errorReply ∨ c = integerReply)) (hbulk : c ≠ bulkReply)
    (harray : c ≠ arrayReply) : handle array buf len p = .ok none := by
  simp only [not_or] at hline
  simp [handle, hload, hline, hbulk, harray]

end Turn

/-- The handlers that the `switch` selects, each with what `firstItem` makes of a
complete line. -/
inductive Selects (b : List Byte) (past : Memory) (fuel p : Nat) :
    Eval (Nat × ParseResult) → (List Byte → Nat → Item) → Prop where
  | line : Selects b past fuel p (processLine (view b past) b.length p)
      fun _ n => .whole (n + 2) false
  | bulk : Selects b past fuel p (processBulk (view b past) b.length p) bulkItem
  | array : Selects b past fuel p (processArrayFuel (view b past) b.length fuel p) arrayItem

/-- The `switch` and `firstItem` agree on the kind of the message. -/
theorem handle_cases (hp : p < b.length) (fuel : Nat) (past : Memory) :
    (∃ handler k, Selects b past (fuel + 1) p handler k ∧
        handle (processArrayFuel (view b past) b.length (fuel + 1)) (view b past) b.length p =
          some <$> handler ∧
        (∀ e, firstItem (b.drop p ++ e) = .ofLine (b.drop p ++ e) (k (b.drop p ++ e))) ∧
        ∀ e n, lineEnd (b.drop p ++ e) = .ended n → 0 < n) ∨
      (handle (processArrayFuel (view b past) b.length (fuel + 1)) (view b past) b.length p =
        .ok none ∧ firstItem (b.drop p) = .bad) := by
  obtain ⟨c, s, hr⟩ : ∃ c s, b.drop p = c :: s :=
    List.exists_cons_of_ne_nil (by simpa using hp)
  have hload : load (view b past) p = .ok c := by
    have hget : (b.drop p)[0]? = some c := by simp [hr]
    exact load_view_drop hget
  rw [hr]
  by_cases hline : c = stringReply ∨ c = errorReply ∨ c = integerReply
  · refine Or.inl ⟨_, _, .line, handle_line hload hline, fun e => ?_, fun e n hn => ?_⟩
    · rw [List.cons_append, firstItem, if_pos hline]
    · exact lineEnd_cons_ne_zero (type_ne_CR (Or.inl hline)) hn
  · by_cases hbulk : c = bulkReply
    · subst hbulk
      refine Or.inl ⟨_, _, .bulk, handle_bulk hload, fun e => ?_, fun e n hn => ?_⟩
      · rw [List.cons_append, firstItem, if_neg hline, if_pos rfl]
      · exact lineEnd_cons_ne_zero (type_ne_CR (Or.inr (Or.inl rfl))) hn
    · by_cases harray : c = arrayReply
      · subst harray
        refine Or.inl ⟨_, _, .array, handle_array hload, fun e => ?_, fun e n hn => ?_⟩
        · rw [List.cons_append, firstItem, if_neg hline, if_neg hbulk, if_pos rfl]
        · exact lineEnd_cons_ne_zero (type_ne_CR (Or.inr (Or.inr rfl))) hn
      · refine Or.inr ⟨handle_other hload hline hbulk harray, ?_⟩
        rw [firstItem, if_neg hline, if_neg hbulk, if_neg harray]

private theorem bulkItem_ne_opens {r : List Byte} {m : Nat} : bulkItem r n ≠ .whole m true := by
  intro h
  obtain ⟨z, -, ho, -⟩ := bulkItem_eq_whole.mp h
  cases ho

/-- The answer of the selected handler, where the memory behind the view cannot
matter and no array is opened. The default branch counts as the answer for a
bad item: the loop treats the two alike. -/
theorem handle_settled (fuel : Nat) (past : Memory) (hp : p < b.length)
    (hopen : ∀ m, firstItem (b.drop p) ≠ .whole m true)
    (hsettled : Hushed past (b.drop p) ∨ firstItem (b.drop p) ≠ .cut) :
    ∃ res, handle (processArrayFuel (view b past) b.length (fuel + 1)) (view b past) b.length p =
      .ok res ∧ res.getD (0, .error) = (firstItem (b.drop p)).answer := by
  obtain ⟨handler, k, hkind, hhandle, hitem, hpos⟩ | ⟨hhandle, hbad⟩ := handle_cases hp fuel past
  · have hitem := hitem []
    have hpos := hpos []
    rw [List.append_nil] at hitem hpos
    have hzero : findCRLFIndex (view b past) b.length p = .ok 0 →
        handler = .ok (0, .incompleted) := by
      intro hfind
      cases hkind with
      | line => exact processLine_of_zero hfind
      | bulk => exact processBulk_of_zero hfind
      | array => exact processArrayFuel_of_zero hfind
    suffices hanswer : handler = .ok (firstItem (b.drop p)).answer by
      refine ⟨some (firstItem (b.drop p)).answer, ?_, rfl⟩
      rw [hhandle, hanswer]
      rfl
    rw [hitem] at hopen hsettled ⊢
    unfold Item.ofLine at hopen hsettled ⊢
    cases hline : lineEnd (b.drop p) with
    | ended n =>
        simp only [hline] at hopen hsettled ⊢
        have hn := hpos n hline
        cases hkind with
        | line => exact processLine_at hn hline
        | bulk => exact processBulk_view hn hline hsettled
        | array => exact processArrayFuel_view hn hline hopen
    | lone => exact hzero (findCRLFIndex_lone (by omega) hline)
    | cut =>
        have hushed : Hushed past (b.drop p) := by simpa [hline] using hsettled
        exact hzero (findCRLFIndex_hushed (by omega) hline hushed)
  · exact ⟨none, hhandle, by rw [hbad]; rfl⟩

theorem handle_whole {fuel : Nat} (hp : p < b.length)
    (hitem : firstItem (b.drop p) = .whole n false) :
    handle (processArrayFuel (view b past) b.length (fuel + 1)) (view b past) b.length p =
      .ok (some (n, .completed)) := by
  obtain ⟨res, hhandle, hres⟩ := handle_settled fuel past hp
    (by simp [hitem]) (Or.inr (by simp [hitem]))
  rw [hhandle]
  rw [hitem] at hres
  cases res with
  | none => simp [Item.answer] at hres
  | some a => exact congrArg (fun a => Except.ok (some a)) hres

/-- Only an array header opens an array. -/
theorem handle_opens (fuel : Nat) {m : Nat} (hp : p < b.length)
    (hopen : firstItem (b.drop p) = .whole m true) (past : Memory) :
    ∃ n, 0 < n ∧ lineEnd (b.drop p) = .ended n ∧ arrayItem (b.drop p) n = .whole m true ∧
      handle (processArrayFuel (view b past) b.length (fuel + 1)) (view b past) b.length p =
        some <$> processArrayFuel (view b past) b.length (fuel + 1) p := by
  obtain ⟨handler, k, hkind, hhandle, hitem, hpos⟩ | ⟨-, hbad⟩ := handle_cases hp fuel past
  · have hitem := hitem []
    have hpos := hpos []
    rw [List.append_nil] at hitem hpos
    rw [hitem] at hopen
    obtain ⟨n, hline, hk⟩ := ofLine_eq_whole.mp hopen
    cases hkind with
    | line => simp at hk
    | bulk => exact absurd hk bulkItem_ne_opens
    | array => exact ⟨n, hpos n hline, hline, hk, hhandle⟩
  · simp [hbad] at hopen

/-- A verdict other than `Completed` ends the loop where it stands. -/
theorem processRespFuel_stop {buf : Memory} {len fuel index : Nat}
    {res : Option (Nat × ParseResult)} (hp : p < len)
    (h : handle (processArrayFuel buf len fuel) buf len p = .ok res)
    (hv : (res.getD (0, .error)).2 ≠ .completed) :
    processRespFuel buf len (fuel + 1) index p =
      .ok ⟨[], p - index, (res.getD (0, .error)).2⟩ := by
  cases res with
  | none => simp [processRespFuel, hp, h]
  | some result =>
      have hv' : result.2 ≠ .completed := hv
      simp [processRespFuel, hp, h, hv']

theorem processRespFuel_next {buf : Memory} {len fuel index : Nat} (hp : p < len)
    (h : handle (processArrayFuel buf len fuel) buf len p = .ok (some (n, .completed))) :
    processRespFuel buf len (fuel + 1) index p = (do
      let next ← processRespFuel buf len fuel index (p + n)
      return { next with calls := (p, n) :: next.calls }) := by
  simp [processRespFuel, hp, h]

/-! ## The whole parse -/

/-- What a parse hands to the callback, and its verdict. -/
@[ext]
structure Scan where
  slices : List (List Byte)
  verdict : ParseResult
  deriving DecidableEq, Repr

/-- The outcome of `process_resp` on a stream, item by item. -/
def scan (r : List Byte) : Scan :=
  match _h : firstItem r with
  | .nothing => ⟨[], .completed⟩
  | .whole n false =>
      let t := scan (r.drop n)
      ⟨r.take n :: t.slices, t.verdict⟩
  | .whole n true => if items.rest (r.drop n) = [] then ⟨[r], .completed⟩ else ⟨[], .error⟩
  | .lone => ⟨[], .incompleted⟩
  | .cut => ⟨[], .incompleted⟩
  | .bad => ⟨[], .error⟩
  termination_by r.length
  decreasing_by
    have hlen := length_of_firstItem _h
    rw [List.length_drop]
    omega

@[simp] theorem scan_nil : scan [] = ⟨[], .completed⟩ := by
  rw [scan]
  rfl

theorem scan_whole {r : List Byte} (h : firstItem r = .whole n false) :
    scan r = ⟨r.take n :: (scan (r.drop n)).slices, (scan (r.drop n)).verdict⟩ := by
  rw [scan]
  split <;> simp_all

theorem scan_opens {r : List Byte} (h : firstItem r = .whole n true) :
    scan r = if items.rest (r.drop n) = [] then ⟨[r], .completed⟩ else ⟨[], .error⟩ := by
  rw [scan]
  split <;> simp_all

/-- Where no item is found, nothing is handed over. -/
theorem scan_stuck {r : List Byte} (hr : r ≠ []) (h : (firstItem r).length? = none) :
    scan r = ⟨[], (firstItem r).answer.2⟩ := by
  have hne : firstItem r ≠ .nothing := fun hn => hr (firstItem_eq_nothing.mp hn)
  rw [scan]
  split <;> simp_all [Item.length?, Item.answer]

theorem items_rest_whole {r : List Byte} {o : Bool} (h : firstItem r = .whole n o) :
    items.rest r = items.rest (r.drop n) :=
  items.rest_of_some (items_first_of_whole h)

/-- Induction along a flat reading: the stream ends, an item is taken off, or
no item is found. -/
theorem firstItem_induction {P : List Byte → Prop} (nil : P [])
    (whole : ∀ r n o, firstItem r = .whole n o → P (r.drop n) → P r)
    (stuck : ∀ r, r ≠ [] → (firstItem r).length? = none → P r) (r : List Byte) : P r := by
  induction r using items.induction with
  | stuck r h =>
      by_cases hr : r = []
      · exact hr ▸ nil
      · exact stuck r hr h
  | frame r n h ih =>
      obtain ⟨o, ho⟩ := length?_eq_some.mp h
      exact whole r n o ho ih

theorem rest_of_stuck {r : List Byte} (h : (firstItem r).length? = none) : items.rest r = r :=
  items.rest_of_none h

/-- The verdict is `Completed` exactly when the whole stream consists of items;
then the slices make up the stream. -/
theorem scan_completed (r : List Byte) :
    ((scan r).verdict = .completed ↔ items.rest r = []) ∧
      ((scan r).verdict = .completed → (scan r).slices.flatten = r) := by
  induction r using firstItem_induction with
  | nil => simp
  | whole r n o h ih =>
      rw [items_rest_whole h]
      cases o with
      | false =>
          rw [scan_whole h]
          refine ⟨ih.1, fun hv => ?_⟩
          rw [List.flatten_cons, ih.2 hv, List.take_append_drop]
      | true =>
          rw [scan_opens h]
          split <;> simp [*]
  | stuck r hr h =>
      have hv : (firstItem r).answer.2 ≠ .completed := by
        cases hi : firstItem r <;> simp_all [Item.answer, Item.length?]
      rw [scan_stuck hr h, rest_of_stuck h]
      simp [hv, hr]

theorem scan_verdict_completed {r : List Byte} :
    (scan r).verdict = .completed ↔ items.rest r = [] := (scan_completed r).1

theorem scan_flatten_of_completed {r : List Byte} (h : (scan r).verdict = .completed) :
    (scan r).slices.flatten = r := (scan_completed r).2 h

/-- Nothing short of a `Completed` parse consumes the whole stream. -/
theorem scan_completed_of_flatten {r : List Byte} (h : (scan r).slices.flatten = r) :
    (scan r).verdict = .completed := by
  induction r using firstItem_induction with
  | nil => simp
  | whole r n o hitem ih =>
      cases o with
      | false =>
          rw [scan_whole hitem, List.flatten_cons] at h
          rw [scan_whole hitem]
          exact ih (List.append_cancel_left (h.trans (List.take_append_drop n r).symm))
      | true =>
          rw [scan_opens hitem] at h ⊢
          split
          · rfl
          · have hlen := length_of_firstItem hitem
            rw [if_neg ‹_›] at h
            have hnil := congrArg List.length h
            simp only [List.flatten_nil, List.length_nil] at hnil
            omega
  | stuck r hr hitem =>
      rw [scan_stuck hr hitem] at h
      exact absurd h.symm hr

/-- The offsets and lengths under which consecutive slices are handed over. -/
def callsFrom : Nat → List (List Byte) → List (Nat × Nat)
  | _, [] => []
  | p, s :: rest => (p, s.length) :: callsFrom (p + s.length) rest

/-- A scan from offset `p` on, in the terms of a call that began at `index`. -/
def Scan.parsed (t : Scan) (index p : Nat) : Parsed :=
  ⟨callsFrom p t.slices, p + t.slices.flatten.length - index, t.verdict⟩

/-- Fuel that lasts from offset `p` to the end of the recursion. -/
def Lasts (len p fuel : Nat) : Prop := 1 ≤ fuel ∧ (p < len → len - p + 2 ≤ fuel)

theorem lasts_depth (len p : Nat) : Lasts len p (depth len p) := by
  unfold Lasts depth
  omega

theorem processRespFuel_end {buf : Memory} {len fuel index : Nat} (h : len ≤ p) :
    processRespFuel buf len (fuel + 1) index p = .ok ⟨[], p - index, .completed⟩ := by
  have hnot : ¬ len > p := by omega
  simp [processRespFuel, hnot]

private theorem view_stuck {fuel index : Nat} (hp : p < b.length)
    (hstuck : (firstItem (b.drop p)).length? = none)
    (hsettled : Hushed past (b.drop p) ∨ firstItem (b.drop p) ≠ .cut) :
    processRespFuel (view b past) b.length (fuel + 2) index p =
      .ok ((scan (b.drop p)).parsed index p) := by
  have hopen : ∀ m, firstItem (b.drop p) ≠ .whole m true := by
    intro m hm
    rw [hm] at hstuck
    simp [Item.length?] at hstuck
  obtain ⟨res, hhandle, hres⟩ := handle_settled _ past hp hopen hsettled
  have hv : (firstItem (b.drop p)).answer.2 ≠ .completed := by
    cases hi : firstItem (b.drop p) <;> simp_all [Item.answer, Item.length?]
  rw [processRespFuel_stop hp hhandle (by rw [hres]; exact hv), hres,
    scan_stuck (by simpa using hp) hstuck]
  simp [Scan.parsed, callsFrom]

private theorem view_whole {fuel index : Nat} {e : List Byte} (hp : p < b.length)
    (hitem : firstItem (b.drop p) = .whole n false)
    (hnext : processRespFuel (view b past) b.length (fuel + 1) index (p + n) =
      .ok ((scan (b.drop (p + n) ++ e)).parsed index (p + n))) :
    processRespFuel (view b past) b.length (fuel + 2) index p =
      .ok ((scan (b.drop p ++ e)).parsed index p) := by
  have hlen := (length_of_firstItem hitem).2
  rw [processRespFuel_next hp (handle_whole hp hitem), hnext,
    scan_whole (firstItem_append e hitem), List.take_append_of_le_length hlen,
    List.drop_append_of_le_length hlen, List.drop_drop]
  have htake : ((b.drop p).take n).length = n := List.length_take_of_le hlen
  simp only [ok_bind, Scan.parsed, callsFrom, htake, List.flatten_cons, List.length_append,
    Nat.add_assoc, pure_eq_ok]

/-- The call made for the first element decides the outcome of the array. -/
private theorem view_opens {fuel index : Nat} {e : List Byte} (hp : p < b.length)
    (hitem : firstItem (b.drop p) = .whole n true)
    (hinner : processRespFuel (view b past) b.length (fuel + 1) (p + n) (p + n) =
      .ok ((scan (b.drop (p + n) ++ e)).parsed (p + n) (p + n))) :
    processRespFuel (view b past) b.length (fuel + 3) index p =
      .ok ((scan (b.drop p ++ e)).parsed index p) := by
  have hlen := (length_of_firstItem hitem).2
  have hdrop : (b.drop p ++ e).drop n = b.drop (p + n) ++ e := by
    rw [List.drop_append_of_le_length hlen, List.drop_drop]
  rw [List.length_drop] at hlen
  obtain ⟨m, hm, hline, harray, hhandle⟩ := handle_opens (fuel + 1) hp hitem past
  have hflat : (scan (b.drop (p + n) ++ e)).verdict = .completed →
      (scan (b.drop (p + n) ++ e)).slices.flatten.length = b.length - (p + n) + e.length := by
    intro hv
    rw [scan_flatten_of_completed hv, List.length_append, List.length_drop]
  have hcount : ((scan (b.drop (p + n) ++ e)).parsed (p + n) (p + n)).count =
      (scan (b.drop (p + n) ++ e)).slices.flatten.length := by
    simp [Scan.parsed]
  rw [processArrayFuel_opens hm hline harray hinner
    (by intro hv; rw [hcount, hflat hv]; omega)] at hhandle
  rw [scan_opens (firstItem_append e hitem), hdrop]
  have hverdict := scan_verdict_completed (r := b.drop (p + n) ++ e)
  by_cases hv : (scan (b.drop (p + n) ++ e)).verdict = .completed
  · have hcalls : n + (b.length - (p + n) + e.length) = b.length - p + e.length := by omega
    rw [if_pos (hverdict.mp hv)]
    simp only [Scan.parsed, hv, ↓reduceIte, Nat.add_sub_cancel_left, hflat hv] at hhandle
    rw [processRespFuel_next hp hhandle, processRespFuel_end (by omega)]
    simp [Scan.parsed, callsFrom, hcalls]
  · rw [if_neg (fun h => hv (hverdict.mpr h))]
    simp only [Scan.parsed, hv, ↓reduceIte] at hhandle
    rw [processRespFuel_stop hp hhandle (by simp)]
    simp [Scan.parsed, callsFrom]

/-- Induction along the whole items of a view. Fuel that lasts leaves some to spare
behind every item. -/
@[elab_as_elim]
theorem lasts_induction {P : (p fuel index : Nat) → Prop}
    (done : ∀ fuel index, P b.length (fuel + 1) index)
    (stuck : ∀ p fuel index, p < b.length → (firstItem (b.drop p)).length? = none →
      P p (fuel + 3) index)
    (whole : ∀ p fuel index n o, p < b.length → firstItem (b.drop p) = .whole n o →
      (∀ f i, fuel < f → P (p + n) f i) → P p (fuel + 3) index)
    {fuel : Nat} (index : Nat) (hp : p ≤ b.length) (hfuel : Lasts b.length p fuel) :
    P p fuel index := by
  induction hk : b.length - p using Nat.strongRecOn generalizing p fuel index with
  | ind k ih =>
      obtain ⟨hone, hmany⟩ := hfuel
      obtain hlt | rfl := Nat.lt_or_eq_of_le hp
      · obtain ⟨f, rfl⟩ : ∃ f, fuel = f + 3 := ⟨fuel - 3, by omega⟩
        by_cases hstuck : (firstItem (b.drop p)).length? = none
        · exact stuck p f index hlt hstuck
        · obtain ⟨n, hn⟩ := Option.ne_none_iff_exists'.mp hstuck
          obtain ⟨o, hitem⟩ := length?_eq_some.mp hn
          obtain ⟨hthree, hlen⟩ := length_of_firstItem hitem
          rw [List.length_drop] at hlen
          apply whole p f index n o hlt hitem
          intro f' i hf
          exact ih (b.length - (p + n)) (by omega) i (by omega) ⟨by omega, by omega⟩ rfl
      · obtain ⟨f, rfl⟩ : ∃ f, fuel = f + 1 := ⟨fuel - 1, by omega⟩
        exact done f index

/-- If the code reads `e` behind the position at which the flat reading stops,
it computes the scan of the buffer followed by `e`. -/
theorem processRespFuel_extended {fuel index : Nat} {e : List Byte} (hp : p ≤ b.length)
    (hfuel : Lasts b.length p fuel) (hdone : items.rest (b.drop p) = [] → e = [])
    (hstop : ∀ q fuel index, q < b.length → items.rest (b.drop p) = b.drop q →
      (firstItem (b.drop q)).length? = none →
        processRespFuel (view b past) b.length (fuel + 3) index q =
          .ok ((scan (b.drop q ++ e)).parsed index q)) :
    processRespFuel (view b past) b.length fuel index p =
      .ok ((scan (b.drop p ++ e)).parsed index p) := by
  revert hdone hstop
  refine lasts_induction ?_ ?_ ?_ index hp hfuel
  · intro f index hdone hstop
    rw [List.drop_length, items.rest_nil] at hdone
    rw [processRespFuel_end (Nat.le_refl _), List.drop_length, hdone rfl, List.append_nil,
      scan_nil]
    simp [Scan.parsed, callsFrom]
  · intro p f index hlt hstuck hdone hstop
    exact hstop p f index hlt (rest_of_stuck hstuck) hstuck
  · intro p f index n o hlt hitem ih hdone hstop
    rw [items_rest_whole hitem, List.drop_drop] at hdone hstop
    cases o with
    | false => exact view_whole hlt hitem (ih _ _ (by omega) hdone hstop)
    | true => exact view_opens hlt hitem (ih _ _ (by omega) hdone hstop)

/-- What the flat reading leaves is inspected where the whole stream is. -/
theorem inspected_rest {r : List Byte} (h : items.rest r ≠ []) :
    inspected (items.rest r) = inspected r := by
  rw [← inspected_append h, items.flatten_frames_append_rest]

/-- The code computes `scan`, unless its flat reading ends in a cut line with
an LF behind the view. -/
theorem processRespFuel_view {fuel : Nat} (index : Nat) (hp : p ≤ b.length)
    (hfuel : Lasts b.length p fuel)
    (hsettled : Hushed past (b.drop p) ∨ firstItem (items.rest (b.drop p)) ≠ .cut) :
    processRespFuel (view b past) b.length fuel index p =
      .ok ((scan (b.drop p)).parsed index p) := by
  rw [← List.append_nil (b.drop p)]
  apply processRespFuel_extended hp hfuel (fun _ => rfl)
  intro q fuel index hq hrest hstuck
  have hne : b.drop q ≠ [] := by simpa using hq
  rw [Hushed, ← inspected_rest (hrest ▸ hne), hrest] at hsettled
  rw [List.append_nil]
  exact view_stuck hq hstuck hsettled

/-- `process_resp` on a view, with the fuel it is given. -/
theorem processResp_view (past : Memory) (hp : p ≤ b.length)
    (hsettled : Quiet past ∨ firstItem (items.rest (b.drop p)) ≠ .cut) :
    processResp (view b past) b.length p = .ok ((scan (b.drop p)).parsed p p) :=
  processRespFuel_view _ hp (lasts_depth _ _) (hsettled.imp_left fun h => h.hushed _)

end Canal.RespParser
