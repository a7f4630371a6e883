import Canal.RespParser.Pipeline

/-!
# The shape of a slice

Whatever the input, what the parser hands over begins with a type byte and ends
with CR LF. An item ends where one of its lines ends; an array that has
swallowed the rest of the buffer ends where the last of its items does.
-/

namespace Canal.RespParser

open Buffer

variable {r slice : List Byte} {n m : Nat} {o : Bool}

def typeBytes : List Byte := [stringReply, errorReply, integerReply, bulkReply, arrayReply]

/-- A type byte, any bytes, CR LF. -/
def MessageShaped (slice : List Byte) : Prop := ∃ c ∈ typeBytes, ∃ text, slice = line c text

theorem MessageShaped.ne_nil (h : MessageShaped slice) : slice ≠ [] := by
  obtain ⟨c, -, text, rfl⟩ := h
  simp [line]

/-- A type byte in front of bytes that end in CR LF. -/
theorem messageShaped_cons {c : Byte} {s : List Byte} (hc : c ∈ typeBytes)
    (h : [CR, LF] <:+ c :: s) : MessageShaped (c :: s) := by
  have hne : c ≠ CR := by
    rintro rfl
    exact absurd hc (by decide)
  obtain heq | ⟨text, rfl⟩ := List.suffix_cons_iff.mp h
  · exact absurd (List.cons.inj heq).1.symm hne
  · exact ⟨c, hc, text, rfl⟩

theorem typeByte_of_firstItem (h : firstItem r = .whole m o) :
    ∃ c s, r = c :: s ∧ c ∈ typeBytes := by
  obtain ⟨c, s, n, rfl, -, hkind⟩ := firstItem_eq_whole.mp h
  refine ⟨c, s, rfl, ?_⟩
  rcases hkind with ⟨rfl | rfl | rfl, -⟩ | ⟨rfl, -⟩ | ⟨rfl, -⟩ <;> decide

/-- An item is shaped like a message. -/
theorem messageShaped_of_firstItem (h : firstItem r = .whole m o) : MessageShaped (r.take m) := by
  have hlen := length_of_firstItem h
  have hsuffix := suffix_take_of_firstItem h
  obtain ⟨c, s, rfl, hc⟩ := typeByte_of_firstItem h
  obtain ⟨m, rfl⟩ : ∃ k, m = k + 1 := ⟨m - 1, by omega⟩
  exact messageShaped_cons hc hsuffix

theorem suffix_of_flat (hflat : Flat r) (hr : r ≠ []) : [CR, LF] <:+ r := by
  induction r using firstItem_induction with
  | nil => exact absurd rfl hr
  | whole r n o h ih =>
      by_cases hnil : r.drop n = []
      · have htake : r.take n = r := List.take_of_length_le (List.drop_eq_nil_iff.mp hnil)
        rw [← htake]
        exact suffix_take_of_firstItem h
      · have hrest : Flat (r.drop n) := by rw [Flat, ← items_rest_whole h]; exact hflat
        exact (ih hrest hnil).trans (List.drop_suffix _ _)
  | stuck r hr' h =>
      rw [Flat, rest_of_stuck h] at hflat
      exact absurd hflat hr

/-- Every slice that is handed over is shaped like a message. -/
theorem messageShaped_of_mem_scan (h : slice ∈ (scan r).slices) : MessageShaped slice := by
  induction r using firstItem_induction with
  | nil => simp at h
  | whole r n o hitem ih =>
      cases o with
      | false =>
          rw [scan_whole hitem, List.mem_cons] at h
          obtain rfl | h := h
          · exact messageShaped_of_firstItem hitem
          · exact ih h
      | true =>
          rw [scan_opens hitem] at h
          split at h
          · rename_i hrest
            obtain rfl : slice = r := by simpa using h
            have hflat : Flat slice := (items_rest_whole hitem).trans hrest
            obtain ⟨c, s, rfl, hc⟩ := typeByte_of_firstItem hitem
            exact messageShaped_cons hc (suffix_of_flat hflat (by simp))
          · simp at h
  | stuck r hr hitem => simp [scan_stuck hr hitem] at h

end Canal.RespParser
