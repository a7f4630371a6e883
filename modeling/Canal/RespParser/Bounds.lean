import Canal.RespParser.Overrun

/-!
# Which bytes the parser inspects

Whether a parse inspects a byte behind the view depends on one thing, the line
at which the flat reading of the view stops. If that line is cut and the memory
behind the view cannot be read, the parse faults. If the memory can be read, a
parse that is `Completed` nevertheless has consumed more bytes than there are.
-/

namespace Canal.RespParser

open Buffer Decimal

variable {b : List Byte} {past : Memory} {p n : Nat}

/-- A parse over a cut line that is `Completed` has consumed more than there is. -/
theorem processRespFuel_cut_overshoot {fuel index : Nat} {r : Parsed} (hi : index ≤ p)
    (hp : p ≤ b.length) (hfuel : Lasts b.length p fuel)
    (hcut : firstItem (items.rest (b.drop p)) = .cut)
    (hr : processRespFuel (view b past) b.length fuel index p = .ok r)
    (hv : r.verdict = .completed) : b.length < index + r.count := by
  have hlt : p < b.length := by
    apply Nat.lt_of_not_le
    intro hge
    simp [List.drop_eq_nil_of_le hge] at hcut
  cases hbehind : past (inspected (b.drop p)) with
  | none => simp [processRespFuel_fault index hp hfuel hcut hbehind] at hr
  | some c =>
      by_cases hc : c = LF
      · subst hc
        rw [processRespFuel_missing index hp hfuel hcut hbehind] at hr
        obtain rfl := Except.ok.inj hr
        have hflatten := congrArg List.length (scan_flatten_of_completed hv)
        rw [List.length_append, length_missing, List.length_drop] at hflatten
        simp only [Scan.parsed, hflatten]
        omega
      · rw [processRespFuel_view index hp hfuel (Or.inl ⟨c, hbehind, hc⟩)] at hr
        obtain rfl := Except.ok.inj hr
        have hrest := scan_verdict_completed.mp hv
        simp [hrest] at hcut

/-! ## Confinement to the view -/

/-- A memory that begins with the given bytes. -/
def Holds (buf : Memory) (b : List Byte) : Prop := ∀ i (h : i < b.length), buf i = some b[i]

theorem Holds.eq_view {buf : Memory} (h : Holds buf b) :
    buf = view b (fun k => buf (b.length + k)) := by
  funext i
  by_cases hi : i < b.length
  · simp [view, hi, h i hi]
  · have hsum : b.length + (i - b.length) = i := by omega
    simp [view, hi, hsum]

theorem holds_view : Holds (view b past) b := by
  intro i hi
  simp [view, hi]

/-- The flat reading from `index` on stops in a line whose end is not in the view. -/
def CutOff (b : List Byte) (index : Nat) : Prop := firstItem (items.rest (b.drop index)) = .cut

instance (b : List Byte) (index : Nat) : Decidable (CutOff b index) :=
  inferInstanceAs (Decidable (_ = _))

/-- The parse from `index` looks only at the bytes of the view. One outcome
serves every memory that begins with them, also one in which nothing behind the
view can be read, and it consumes no more than there is. -/
def Confined (b : List Byte) (index : Nat) : Prop :=
  ∃ r : Parsed, (∀ buf, Holds buf b → processResp buf b.length index = .ok r) ∧
    r.count ≤ b.length - index

theorem prefix_scan_flatten (r : List Byte) : (scan r).slices.flatten <+: r := by
  induction r using firstItem_induction with
  | nil => simp
  | whole r n o h ih =>
      cases o with
      | false =>
          rw [scan_whole h, List.flatten_cons]
          obtain ⟨t, ht⟩ := ih
          exact ⟨t, by rw [List.append_assoc, ht, List.take_append_drop]⟩
      | true =>
          rw [scan_opens h]
          split <;> simp
  | stuck r hr h => simp [scan_stuck hr h]

/-- `+OK` and a CR, cut before its LF: an LF left over behind the buffer
completes the message, any other byte does not. -/
theorem stale_lf_completes :
    processResp (view [43, 79, 75, 13] fun _ => some LF) 4 0 = .ok ⟨[(0, 5)], 5, .completed⟩ ∧
      processResp (view [43, 79, 75, 13] fun _ => some 0) 4 0 = .ok ⟨[], 0, .incompleted⟩ ∧
      ¬ Confined [43, 79, 75, 13] 0 := by
  refine ⟨by decide, by decide, ?_⟩
  rintro ⟨r, hall, -⟩
  have hstale := hall (view [43, 79, 75, 13] fun _ => some LF) holds_view
  have hfresh := hall (view [43, 79, 75, 13] fun _ => some 0) holds_view
  rw [← hfresh] at hstale
  exact absurd hstale (by decide)

/-- The parser stays inside its buffer exactly when the line at which the flat
reading stops is not cut off by the end of the buffer. -/
theorem confined_iff (b : List Byte) (index : Nat) (h : index ≤ b.length) :
    Confined b index ↔ ¬ CutOff b index := by
  constructor
  · rintro ⟨r, hall, -⟩ hcut
    have hnone : unmapped (inspected (b.drop index)) = none := rfl
    have hfault := processRespFuel_fault index h (lasts_depth _ _) hcut hnone
    have hok := hall (view b unmapped) holds_view
    rw [processResp, hfault] at hok
    simp at hok
  · intro hcut
    refine ⟨(scan (b.drop index)).parsed index index, ?_, ?_⟩
    · intro buf hbuf
      rw [hbuf.eq_view]
      exact processResp_view _ h (Or.inr hcut)
    · have hle := (prefix_scan_flatten (b.drop index)).length_le
      rw [List.length_drop] at hle
      simpa [Scan.parsed] using hle

theorem confined_ok : Confined [43, 79, 75, 13, 10] 0 :=
  (confined_iff [43, 79, 75, 13, 10] 0 (by decide)).mpr (by decide +kernel)

end Canal.RespParser
