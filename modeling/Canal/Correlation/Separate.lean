import Canal.Reading.Chunking

/-!
# Views that separate messages

A stream consists of encoded values, and a read event sees a part of it that
begins where a value begins. `Separate` says of the values that are still to come
and of the bytes in view when the parser takes whole values off the stream, one
by one, and nothing else.

A simple string, an error, an integer, a null value, an empty array and a bulk
string without CR are always taken as they are, once they are in view. A bulk
string whose first CR is followed by LF is cut there, so the view must end before
that point. A non-empty array takes along all that follows its header in the
view, if that reads as whole items; so either it does not read so, or it is
exactly the array.
-/

namespace Canal.Correlation

open Buffer Decimal RespParser Reading

variable {v : Value} {vs : List Value} {b s : List Byte}

/-- Nothing but `v` itself is taken off the front of the view. -/
def Intact : Value → List Byte → Prop
  | .bulk payload, b =>
      ∀ m, lineEnd payload = .ended m →
        b.length < (line bulkReply (decimal payload.length)).length + m + 2
  | .array elements, b =>
      elements ≠ [] → (line arrayReply (decimal elements.length)).length ≤ b.length →
        Flat (b.drop (line arrayReply (decimal elements.length)).length) →
          b = (Value.array elements).encode
  | _, _ => True

/-- The view takes whole values off the stream of the given ones. -/
def Separate : List Value → List Byte → Prop
  | [], _ => True
  | v :: vs, b =>
      Intact v b ∧
        (v.Plain → v.encode.length ≤ b.length → Separate vs (b.drop v.encode.length))

theorem intact_of_plain (hp : v.Plain) (b : List Byte) : Intact v b := by
  cases v with
  | bulk payload =>
      intro m hend
      obtain ⟨text, rest, rfl, -⟩ := lineEnd_eq_at_iff.mp hend
      exact absurd (show CR ∈ text ++ CR :: LF :: rest by simp) hp
  | array elements => exact fun hne => absurd hp hne
  | _ => trivial

/-! ## One value in view -/

theorem scan_slices_plain (hv : v.WellFormed) (hp : v.Plain) (hb : b <+: v.encode ++ s) :
    (scan b).slices =
      if v.encode.length ≤ b.length then v.encode :: (scan (b.drop v.encode.length)).slices
      else [] := by
  split
  · rename_i hle
    obtain ⟨t, rfl⟩ := List.prefix_of_prefix_length_le (List.prefix_append _ _) hb hle
    rw [scan_plain hv hp, List.drop_left' rfl]
  · rename_i hlt
    exact scan_slices_of_stuck (view_short hb (firstItem_plain hv hp) (by omega))

/-- A bulk string with a CR is taken as it is by no view. -/
theorem scan_slices_bulk_CR {payload : List Byte} (hv : payload.length < 2 ^ 31)
    (hcr : CR ∈ payload) (hb : b <+: (Value.bulk payload).encode ++ s) {ws : List (List Byte)} :
    (scan b).slices <+: (Value.bulk payload).encode :: ws ↔ Intact (.bulk payload) b := by
  obtain ⟨m, hm, hend, hwhole⟩ | ⟨hnone, hlone⟩ := firstItem_bulk_CR (s := s) hv hcr
  · have hlen := length_bulk payload
    by_cases hlt : b.length < (line bulkReply (decimal payload.length)).length + m + 2
    · rw [scan_slices_of_stuck (view_short hb hwhole hlt)]
      apply iff_of_true List.nil_prefix
      intro m' hend'
      rw [hend] at hend'
      obtain rfl := LineEnd.ended.inj hend'
      exact hlt
    · refine iff_of_false ?_ fun hintact => hlt (hintact m hend)
      rw [scan_whole ((firstItem_view hb).mpr ⟨hwhole, by omega⟩)]
      intro hpre
      have htake := congrArg List.length (List.cons_prefix_cons.mp hpre).1
      rw [List.length_take] at htake
      omega
  · have hstuck : (firstItem b).length? = none := by
      cases hitem : (firstItem b).length? with
      | none => rfl
      | some n =>
          obtain ⟨o, ho⟩ := length?_eq_some.mp hitem
          rw [((firstItem_view hb).mp ho).1] at hlone
          simp at hlone
    rw [scan_slices_of_stuck hstuck]
    exact iff_of_true List.nil_prefix fun m hend => absurd hend (hnone m)

/-- A non-empty array is handed over with the rest of the view, or not at all. -/
theorem scan_slices_array {elements : List Value} (hv : (Value.array elements).WellFormed)
    (hne : elements ≠ []) (hb : b <+: (Value.array elements).encode ++ s)
    {ws : List (List Byte)} :
    (scan b).slices <+: (Value.array elements).encode :: ws ↔ Intact (.array elements) b := by
  have hpos : 0 < elements.length := List.length_pos_of_ne_nil hne
  have hitem := firstItem_array (s := encodeAll elements ++ s) hv.1
  simp only [hpos, decide_true] at hitem
  simp only [Value.encode, List.append_assoc] at hb
  by_cases hle : (line arrayReply (decimal elements.length)).length ≤ b.length
  · rw [scan_opens ((firstItem_view hb).mpr ⟨hitem, hle⟩)]
    by_cases hflat : Flat (b.drop (line arrayReply (decimal elements.length)).length)
    · rw [if_pos (show items.rest _ = [] from hflat)]
      simp [Intact, hne, hle, hflat]
    · rw [if_neg (show ¬ items.rest _ = [] from hflat)]
      exact iff_of_true List.nil_prefix fun _ _ h => absurd h hflat
  · rw [scan_slices_of_stuck (view_short hb hitem (by omega))]
    exact iff_of_true List.nil_prefix fun _ h => absurd h hle

/-! ## The whole view -/

/-- What a view hands over is the next values, one by one, exactly if the view
separates them. -/
theorem prefix_scan_iff (hvs : ∀ v ∈ vs, v.WellFormed) (hb : b <+: encodeAll vs) :
    (scan b).slices <+: vs.map Value.encode ↔ Separate vs b := by
  induction vs generalizing b with
  | nil =>
      obtain rfl := List.prefix_nil.mp hb
      simp [Separate]
  | cons v vs ih =>
      have hv := hvs v (by simp)
      rw [encodeAll_cons] at hb
      rw [List.map_cons, Separate]
      obtain hp | ⟨payload, rfl, hcr⟩ | ⟨elements, rfl, hne⟩ := v.cases_plain
      · simp only [intact_of_plain hp b, hp, true_and, forall_const]
        rw [scan_slices_plain hv hp hb]
        by_cases hle : v.encode.length ≤ b.length
        · have hdrop : b.drop v.encode.length <+: encodeAll vs := by
            simpa using hb.drop v.encode.length
          rw [if_pos hle, List.cons_prefix_cons, ih (fun w hw => hvs w (by simp [hw])) hdrop]
          simp [hle]
        · rw [if_neg hle]
          exact iff_of_true List.nil_prefix fun h => absurd h hle
      · have hp : ¬ (Value.bulk payload).Plain := fun hp => hp hcr
        rw [scan_slices_bulk_CR hv hcr hb]
        simp [hp]
      · have hp : ¬ (Value.array elements).Plain := hne
        rw [scan_slices_array hv hne hb]
        simp [hp]

/-- A separating view takes some of the next values off the stream. -/
theorem Separate.split (hvs : ∀ v ∈ vs, v.WellFormed) (hb : b <+: encodeAll vs)
    (h : Separate vs b) :
    ∃ done todo, vs = done ++ todo ∧ (scan b).slices = done.map Value.encode := by
  obtain ⟨t, ht⟩ := (prefix_scan_iff hvs hb).mpr h
  obtain ⟨done, todo, rfl, hdone, -⟩ := List.map_eq_append_iff.mp ht.symm
  exact ⟨done, todo, rfl, hdone.symm⟩

end Canal.Correlation
