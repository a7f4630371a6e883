import Canal.RespParser.Item

/-!
# RESP values and their encoding

The protocol the proxy forwards: simple strings, errors and integers on a line
of their own, bulk strings with a declared length, and arrays with a declared
number of elements, nested to any depth. The null bulk string and the null
array declare the length -1.

The encoding is self-delimiting: a stream has at most one value at its front.
This is what a peer of the proxy relies on when it cuts the bytes it receives
into messages. The second half of the file says how the encoding of each kind of
value begins in the parser's flat reading.
-/

namespace Canal.RespParser

open Buffer Decimal

inductive Value where
  | simple (text : List Byte)
  | error (text : List Byte)
  | integer (text : List Byte)
  | bulk (payload : List Byte)
  | nullBulk
  | nullArray
  | array (elements : List Value)

/-- A line: type byte, text, CR LF. -/
def line (c : Byte) (text : List Byte) : List Byte := c :: (text ++ [CR, LF])

mutual

def Value.encode : Value → List Byte
  | .simple text => line stringReply text
  | .error text => line errorReply text
  | .integer text => line integerReply text
  | .bulk payload => line bulkReply (decimal payload.length) ++ (payload ++ [CR, LF])
  | .nullBulk => line bulkReply [45, 49]
  | .nullArray => line arrayReply [45, 49]
  | .array elements => line arrayReply (decimal elements.length) ++ encodeAll elements

def encodeAll : List Value → List Byte
  | [] => []
  | v :: vs => v.encode ++ encodeAll vs

end

mutual

/-- Line texts contain neither CR nor LF, lengths and counts fit in an `int`. -/
def Value.WellFormed : Value → Prop
  | .simple text => CR ∉ text ∧ LF ∉ text
  | .error text => CR ∉ text ∧ LF ∉ text
  | .integer text => CR ∉ text ∧ LF ∉ text
  | .bulk payload => payload.length < 2 ^ 31
  | .nullBulk => True
  | .nullArray => True
  | .array elements => elements.length < 2 ^ 31 ∧ AllWellFormed elements

def AllWellFormed : List Value → Prop
  | [] => True
  | v :: vs => v.WellFormed ∧ AllWellFormed vs

end

@[simp] theorem encodeAll_nil : encodeAll [] = [] := by simp [encodeAll]

@[simp] theorem encodeAll_cons (v : Value) (vs : List Value) :
    encodeAll (v :: vs) = v.encode ++ encodeAll vs := by simp [encodeAll]

@[simp] theorem encodeAll_append (vs ws : List Value) :
    encodeAll (vs ++ ws) = encodeAll vs ++ encodeAll ws := by
  induction vs with
  | nil => simp
  | cons v vs ih => simp [ih]

theorem encodeAll_eq_flatten (vs : List Value) : encodeAll vs = (vs.map Value.encode).flatten := by
  induction vs with
  | nil => simp
  | cons v vs ih => simp [ih]

@[simp] theorem allWellFormed_iff {vs : List Value} :
    AllWellFormed vs ↔ ∀ v ∈ vs, v.WellFormed := by
  induction vs with
  | nil => simp [AllWellFormed]
  | cons v vs ih => simp [AllWellFormed, ih]

theorem CR_notMem_decimal (n : Nat) : CR ∉ decimal n := fun h =>
  absurd (isdigit_of_mem_decimal h) (by decide)

theorem minus_notMem_decimal (n : Nat) : (45 : Byte) ∉ decimal n := fun h =>
  absurd (isdigit_of_mem_decimal h) (by decide)

theorem encode_ne_nil (v : Value) : v.encode ≠ [] := by
  cases v <;> simp [Value.encode, line]

/-! ## The encoding is self-delimiting -/

/-- A text without CR is determined by what it and the CR LF behind it begin. -/
theorem text_append_inj {s t s' t' : List Byte} (hs : CR ∉ s) (hs' : CR ∉ s')
    (h : s ++ CR :: LF :: t = s' ++ CR :: LF :: t') : s = s' ∧ t = t' := by
  have hlen : s.length = s'.length := by
    have hend := lineEnd_text t hs
    rw [h, lineEnd_text t' hs'] at hend
    exact (LineEnd.ended.inj hend).symm
  obtain ⟨hss, htt⟩ := List.append_inj h hlen
  exact ⟨hss, by simpa using htt⟩

/-- The type byte and the text of the first line of an encoding. -/
def Value.header : Value → Byte × List Byte
  | .simple text => (stringReply, text)
  | .error text => (errorReply, text)
  | .integer text => (integerReply, text)
  | .bulk payload => (bulkReply, decimal payload.length)
  | .nullBulk => (bulkReply, [45, 49])
  | .nullArray => (arrayReply, [45, 49])
  | .array elements => (arrayReply, decimal elements.length)

/-- What follows the first line of an encoding. -/
def Value.body : Value → List Byte
  | .bulk payload => payload ++ [CR, LF]
  | .array elements => encodeAll elements
  | _ => []

theorem encode_eq_header_body (v : Value) :
    v.encode = line v.header.1 v.header.2 ++ v.body := by
  cases v <;> simp [Value.encode, Value.header, Value.body]

theorem CR_notMem_header {v : Value} (h : v.WellFormed) : CR ∉ v.header.2 := by
  have hnull : CR ∉ ([45, 49] : List Byte) := by decide
  cases v <;> simp_all [Value.WellFormed, Value.header, CR_notMem_decimal]

theorem decimal_ne_null (n : Nat) : decimal n ≠ [45, 49] := fun h =>
  minus_notMem_decimal n (by simp [h])

/-- Equal first lines announce values of one kind, with one text or one number. -/
theorem eq_of_header_eq {v w : Value} (h : v.header = w.header) :
    v = w ∨ (∃ p q, v = .bulk p ∧ w = .bulk q ∧ p.length = q.length) ∨
      ∃ vs ws, v = .array vs ∧ w = .array ws ∧ vs.length = ws.length := by
  have hnull := decimal_ne_null
  have hnull' := fun n => Ne.symm (decimal_ne_null n)
  cases v <;> cases w <;>
    simp_all [Value.header, stringReply, errorReply, integerReply, bulkReply, arrayReply]
  case bulk.bulk => exact Or.inr (decimal_injective h)
  case array.array => exact Or.inr (decimal_injective h)

/-- Only arrays contain further values. -/
theorem Value.induction {P : Value → Prop} (leaf : ∀ v, (∀ vs, v ≠ .array vs) → P v)
    (array : ∀ vs, (∀ v ∈ vs, P v) → P (.array vs)) (v : Value) : P v := by
  induction hk : sizeOf v using Nat.strongRecOn generalizing v with
  | ind k ih =>
      by_cases h : ∃ vs, v = .array vs
      · obtain ⟨vs, rfl⟩ := h
        refine array vs fun v hv => ih (sizeOf v) ?_ v rfl
        have hlt := List.sizeOf_lt_of_mem hv
        simp only [Value.array.sizeOf_spec] at hk
        omega
      · exact leaf v (by simpa using h)

private theorem encodeAll_append_inj {vs : List Value}
    (ih : ∀ v ∈ vs, ∀ w s t, v.WellFormed → w.WellFormed → v.encode ++ s = w.encode ++ t →
      v = w ∧ s = t) {ws : List Value} {s t : List Byte} (hvs : ∀ v ∈ vs, v.WellFormed)
    (hws : ∀ w ∈ ws, w.WellFormed) (hlen : vs.length = ws.length)
    (h : encodeAll vs ++ s = encodeAll ws ++ t) : vs = ws ∧ s = t := by
  induction vs generalizing ws with
  | nil =>
      obtain rfl := List.length_eq_zero_iff.mp hlen.symm
      exact ⟨rfl, by simpa using h⟩
  | cons v vs ihs =>
      obtain ⟨w, ws, rfl⟩ := List.exists_cons_of_length_pos (l := ws) (by rw [← hlen]; simp)
      simp only [encodeAll_cons, List.append_assoc] at h
      obtain ⟨rfl, htail⟩ := ih v (by simp) w _ _ (hvs v (by simp)) (hws w (by simp)) h
      obtain ⟨rfl, hst⟩ := ihs (fun u hu => ih u (by simp [hu])) (fun u hu => hvs u (by simp [hu]))
        (fun u hu => hws u (by simp [hu])) (by simpa using hlen) htail
      exact ⟨rfl, hst⟩

/-- Streams that begin alike begin with the same first line. -/
theorem encode_append_split {v w : Value} {s t : List Byte} (hv : v.WellFormed)
    (hw : w.WellFormed) (h : v.encode ++ s = w.encode ++ t) :
    v.header = w.header ∧ v.body ++ s = w.body ++ t := by
  rw [encode_eq_header_body v, encode_eq_header_body w] at h
  simp only [line, List.cons_append, List.append_assoc, List.nil_append, List.cons.injEq] at h
  obtain ⟨htext, hbody⟩ := text_append_inj (CR_notMem_header hv) (CR_notMem_header hw) h.2
  exact ⟨Prod.ext h.1 htext, hbody⟩

/-- A stream has at most one value at its front. -/
theorem encode_append_inj {v w : Value} {s t : List Byte} (hv : v.WellFormed)
    (hw : w.WellFormed) (h : v.encode ++ s = w.encode ++ t) : v = w ∧ s = t := by
  induction v using Value.induction generalizing w s t with
  | leaf v hleaf =>
      obtain ⟨hheader, hbody⟩ := encode_append_split hv hw h
      obtain rfl | ⟨p, q, rfl, rfl, hlen⟩ | ⟨vs, ws, rfl, -⟩ := eq_of_header_eq hheader
      · exact ⟨rfl, by simpa using hbody⟩
      · simp only [Value.body, List.append_assoc] at hbody
        obtain ⟨rfl, hrest⟩ := List.append_inj hbody hlen
        exact ⟨rfl, by simpa using hrest⟩
      · exact absurd rfl (hleaf vs)
  | array vs ih =>
      obtain ⟨hheader, hbody⟩ := encode_append_split hv hw h
      obtain rfl | ⟨p, q, hp, -⟩ | ⟨vs', ws, hvs, rfl, hlen⟩ := eq_of_header_eq hheader
      · exact ⟨rfl, by simpa using hbody⟩
      · simp at hp
      · obtain rfl := Value.array.inj hvs
        simp only [Value.WellFormed, allWellFormed_iff] at hv hw
        obtain ⟨rfl, hst⟩ := encodeAll_append_inj (fun v hv w s t h₁ h₂ h₃ => ih v hv h₁ h₂ h₃)
          hv.2 hw.2 hlen hbody
        exact ⟨rfl, hst⟩

/-- A stream is the encoding of at most one sequence of values. -/
theorem encodeAll_injective {vs ws : List Value} (hvs : ∀ v ∈ vs, v.WellFormed)
    (hws : ∀ w ∈ ws, w.WellFormed) (h : encodeAll vs = encodeAll ws) : vs = ws := by
  induction vs generalizing ws with
  | nil =>
      cases ws with
      | nil => rfl
      | cons w ws => simp [encode_ne_nil] at h
  | cons v vs ih =>
      cases ws with
      | nil => simp [encode_ne_nil] at h
      | cons w ws =>
          rw [encodeAll_cons, encodeAll_cons] at h
          obtain ⟨rfl, htail⟩ := encode_append_inj (hvs v (by simp)) (hws w (by simp)) h
          rw [ih (fun u hu => hvs u (by simp [hu])) (fun u hu => hws u (by simp [hu])) htail]

/-! ## How an encoding begins in the flat reading -/

section FlatReading

variable {c : Byte} {text payload s : List Byte} {k : Nat}

theorem length_line (c : Byte) (text : List Byte) : (line c text).length = text.length + 3 := by
  simp [line]

theorem lineEnd_line (hc : c ≠ CR) (h : CR ∉ text) :
    lineEnd (line c text ++ s) = .ended (text.length + 1) := by
  have hcr : CR ∉ c :: text := by simp [h, Ne.symm hc]
  simpa [line] using lineEnd_text s hcr

theorem lineNumber_line : lineNumber (line c text ++ s) (text.length + 1) = stoi text := by
  simp [lineNumber, line, List.take_left']

/-- A simple string, an error or an integer is an item. -/
theorem firstItem_line (hc : c = stringReply ∨ c = errorReply ∨ c = integerReply)
    (h : CR ∉ text) :
    firstItem (line c text ++ s) = .whole (line c text).length false := by
  refine firstItem_eq_whole.mpr ⟨c, text ++ [CR, LF] ++ s, text.length + 1, rfl,
    lineEnd_line (type_ne_CR (Or.inl hc)) h, Or.inl ⟨hc, ?_, rfl⟩⟩
  rw [length_line]

theorem firstItem_bulk_line (h : CR ∉ text) :
    firstItem (line bulkReply text ++ s) =
      bulkItem (line bulkReply text ++ s) (text.length + 1) := by
  have hline : ¬ (bulkReply = stringReply ∨ bulkReply = errorReply ∨ bulkReply = integerReply) := by
    decide
  have hend := lineEnd_line (c := bulkReply) (s := s) (by decide) h
  simp only [line, List.cons_append] at hend ⊢
  rw [firstItem, if_neg hline, if_pos rfl, Item.ofLine, hend]

theorem firstItem_array_line (h : CR ∉ text) :
    firstItem (line arrayReply text ++ s) =
      arrayItem (line arrayReply text ++ s) (text.length + 1) := by
  have hline : ¬ (arrayReply = stringReply ∨ arrayReply = errorReply ∨
      arrayReply = integerReply) := by decide
  have hend := lineEnd_line (c := arrayReply) (s := s) (by decide) h
  simp only [line, List.cons_append] at hend ⊢
  rw [firstItem, if_neg hline, if_neg (by decide), if_pos rfl, Item.ofLine, hend]

/-- The header of a bulk string makes the parser look for the end of one line,
whatever length it declares. -/
theorem firstItem_bulk (hk : k < 2 ^ 31) :
    firstItem (line bulkReply (decimal k) ++ s) =
      .ofLine s fun m => .whole ((line bulkReply (decimal k)).length + m + 2) false := by
  have hneg : (k : Int) ≠ -1 := by omega
  have hpos : (0 : Int) ≤ k := by omega
  have hdrop : (line bulkReply (decimal k) ++ s).drop ((decimal k).length + 1 + 2) = s :=
    List.drop_left' (length_line _ _)
  rw [firstItem_bulk_line (CR_notMem_decimal k), bulkItem, lineNumber_line, stoi_decimal hk]
  simp only [hneg, hpos, ↓reduceIte, hdrop, length_line]

theorem firstItem_nullBulk :
    firstItem (Value.nullBulk.encode ++ s) = .whole Value.nullBulk.encode.length false := by
  rw [Value.encode, firstItem_bulk_line (by decide), bulkItem, lineNumber_line]
  rfl

theorem firstItem_nullArray :
    firstItem (Value.nullArray.encode ++ s) = .whole Value.nullArray.encode.length false := by
  rw [Value.encode, firstItem_array_line (by decide), arrayItem, lineNumber_line]
  rfl

/-- Of an array, the flat reading takes the header only. -/
theorem firstItem_array (hk : k < 2 ^ 31) :
    firstItem (line arrayReply (decimal k) ++ s) =
      .whole (line arrayReply (decimal k)).length (decide (0 < k)) := by
  have hneg : ¬ (k : Int) < -1 := by omega
  rw [firstItem_array_line (CR_notMem_decimal k), arrayItem, lineNumber_line, stoi_decimal hk]
  simp [hneg, length_line]

/-- A payload with a CR in it is not ended by the CR LF behind it: its first CR
either ends it early, or leaves it without an end. -/
theorem lineEnd_of_CR_mem (h : CR ∈ payload) :
    (∃ m, m + 2 ≤ payload.length ∧ lineEnd payload = .ended m ∧
        lineEnd (payload ++ CR :: s) = .ended m) ∨
      ((∀ m, lineEnd payload ≠ .ended m) ∧ lineEnd (payload ++ CR :: s) = .lone) := by
  cases hend : lineEnd payload with
  | ended m =>
      exact Or.inl ⟨m, length_of_lineEnd hend, rfl, lineEnd_append_of_at _ hend⟩
  | lone => exact Or.inr ⟨fun m => by simp, lineEnd_append_of_lone _ hend⟩
  | cut =>
      -- the first CR is the last byte, and the byte behind it is a CR again
      refine Or.inr ⟨fun m => by simp, ?_⟩
      induction payload with
      | nil => simp at h
      | cons d payload ih =>
          rw [List.cons_append, lineEnd]
          rw [lineEnd] at hend
          by_cases hd : d = CR
          · rw [if_pos hd] at hend ⊢
            cases payload with
            | nil => rfl
            | cons e payload =>
                rw [afterCR] at hend
                split at hend <;> simp at hend
          · rw [if_neg hd] at hend ⊢
            have hmem : CR ∈ payload := by simpa [Ne.symm hd] using h
            simpa using ih hmem (succ_eq_cut.mp hend)

end FlatReading

end Canal.RespParser
