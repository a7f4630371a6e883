import Canal.RespParser.Header
import Canal.RespParser.Shape

/-!
# What a verdict says about more input

A verdict of `Incompleted` should mean that some continuation lets the parser go
on, and `Error` that none does. Both fail. A CR that is not followed by LF is
reported as `Incompleted` for ever, and so is an unfinished header whose text is
not a number any more. The elements of an array report `Error` although only
their last line is missing.

`plain` takes the messages off a stream that are one item each. What it leaves
is where the parser stops: nothing, an item that is not whole, or the header of
an array that has taken the rest of the buffer, or nothing of it.
-/

namespace Canal.RespParser

open Buffer Decimal

variable {r s : List Byte} {c : Byte} {n m : Nat} {o : Bool}

/-! ## Where the parser stops -/

def Item.plain? : Item → Option Nat
  | .whole n false => some n
  | _ => none

theorem plain?_eq_some {i : Item} : i.plain? = some n ↔ i = .whole n false := by
  cases i with
  | whole m o => cases o <;> simp [Item.plain?]
  | _ => simp [Item.plain?]

theorem plain?_pos (h : (firstItem r).plain? = some n) : 0 < n := by
  have hthree := (length_of_firstItem (plain?_eq_some.mp h)).1
  omega

/-- The messages of one item, as the frames of a stream. -/
def plain : Framing.Recogniser Byte where
  first r := (firstItem r).plain?
  pos := plain?_pos
  le_length h := (length_of_firstItem (plain?_eq_some.mp h)).2
  append s h := plain?_eq_some.mpr (firstItem_append s (plain?_eq_some.mp h))
  of_append h hn := plain?_eq_some.mpr (firstItem_of_append (plain?_eq_some.mp h) hn)

theorem plain_first_eq_some : plain.first r = some n ↔ firstItem r = .whole n false :=
  plain?_eq_some

/-- The messages in front do not depend on what follows them. -/
theorem scan_append (r s : List Byte) :
    scan (r ++ s) =
      ⟨plain.frames r ++ (scan (plain.rest r ++ s)).slices,
        (scan (plain.rest r ++ s)).verdict⟩ := by
  induction r using plain.induction with
  | stuck r h => rw [plain.frames_of_none h, plain.rest_of_none h]; rfl
  | frame r n h ih =>
      have hitem := plain_first_eq_some.mp h
      have hle := (length_of_firstItem hitem).2
      rw [scan_whole (firstItem_append s hitem), List.take_append_of_le_length hle,
        List.drop_append_of_le_length hle, ih, plain.frames_of_some h, plain.rest_of_some h]
      rfl

theorem items_rest_plain (r : List Byte) : items.rest (plain.rest r) = items.rest r := by
  induction r using plain.induction with
  | stuck r h => rw [plain.rest_of_none h]
  | frame r n h ih =>
      rw [plain.rest_of_some h, ih, items_rest_whole (plain_first_eq_some.mp h)]

theorem firstItem_plain_rest : firstItem (plain.rest r) ≠ .whole n false := fun h => by
  have hfirst := plain.first_rest r
  rw [plain_first_eq_some.mpr h] at hfirst
  simp at hfirst

/-! ## Items that can be completed -/

/-- The text `t` of an unfinished header is a number of at least -1, perhaps
with its CR behind it, or has not reached its first digit. -/
def HeaderOpen (t : List Byte) : Prop :=
  (∃ z, stoi (t.takeWhile (· ≠ CR)) = some z ∧ -1 ≤ z) ∨ (CR ∉ t ∧ Promising t)

/-- The stream ends inside an item, and if it ends inside a header, this header
can still announce an accepted number. -/
def Completable (r : List Byte) : Prop :=
  firstItem r = .cut ∧
    ∀ c t, r = c :: t → c = bulkReply ∨ c = arrayReply → lineEnd r = .cut → HeaderOpen t

theorem lineEnd_complete (h : lineEnd r = .cut) :
    ∃ s n, lineEnd (r ++ s) = .ended n ∧ n + 2 = (r ++ s).length := by
  obtain hno | ⟨text, rfl, hcr⟩ := lineEnd_eq_cut_iff.mp h
  · exact ⟨[CR, LF], r.length, lineEnd_text [] hno, by simp⟩
  · refine ⟨[LF], text.length, ?_, by simp⟩
    simpa using lineEnd_text [] hcr

/-- A header with an accepted number, and the shortest item that it begins. -/
theorem header_complete {text : List Byte} {z : Int} (hc : c = bulkReply ∨ c = arrayReply)
    (hcr : CR ∉ text) (hz : stoi text = some z) (hlow : -1 ≤ z) :
    ∃ s o, firstItem (line c text ++ s) = .whole (line c text ++ s).length o := by
  obtain rfl | rfl := hc
  · by_cases hneg : z = -1
    · refine ⟨[], false, ?_⟩
      rw [firstItem_bulk_line hcr, bulkItem, lineNumber_line, hz]
      simp [hneg, length_line]
    · have hpos : 0 ≤ z := by omega
      have hdrop : (line bulkReply text ++ [CR, LF]).drop (text.length + 1 + 2) = [CR, LF] :=
        List.drop_left' (length_line _ _)
      refine ⟨[CR, LF], false, ?_⟩
      rw [firstItem_bulk_line hcr, bulkItem, lineNumber_line, hz]
      simp only [hneg, hpos, ↓reduceIte, hdrop, List.length_append, length_line]
      rfl
  · have hneg : ¬ z < -1 := by omega
    refine ⟨[], decide (0 < z), ?_⟩
    rw [firstItem_array_line hcr, arrayItem, lineNumber_line, hz]
    simp [hneg, length_line]

theorem takeWhile_text {text : List Byte} (h : CR ∉ text) (rest : List Byte) :
    (text ++ CR :: rest).takeWhile (· ≠ CR) = text :=
  takeWhile_exact (fun _ hd => decide_eq_true fun heq => h (heq ▸ hd)) (by simp)

theorem takeWhile_of_notMem {t : List Byte} (h : CR ∉ t) : t.takeWhile (· ≠ CR) = t :=
  List.takeWhile_eq_self_iff.mpr fun _ hd => decide_eq_true fun heq => h (heq ▸ hd)

/-- An unfinished header line, completed so that its text is a number. -/
theorem HeaderOpen.complete {t : List Byte} (h : HeaderOpen t) (hc : c ≠ CR)
    (hcut : lineEnd (c :: t) = .cut) :
    ∃ s text z, c :: t ++ s = line c text ∧ CR ∉ text ∧ stoi text = some z ∧ -1 ≤ z := by
  rw [lineEnd, if_neg hc, succ_eq_cut] at hcut
  obtain hno | ⟨text, rfl, hcr⟩ := lineEnd_eq_cut_iff.mp hcut
  · obtain ⟨z, hz, hlow⟩ | ⟨-, hpromising⟩ := h
    · rw [takeWhile_of_notMem hno] at hz
      exact ⟨[CR, LF], t, z, rfl, hno, hz, hlow⟩
    · refine ⟨[48, CR, LF], t ++ [48], 0, by simp [line], ?_, hpromising.stoi_append_zero,
        by decide⟩
      simpa [hno] using (by decide : CR ≠ 48)
  · obtain ⟨z, hz, hlow⟩ | ⟨hno, -⟩ := h
    · rw [takeWhile_text hcr] at hz
      exact ⟨[LF], text, z, by simp [line], hcr, hz, hlow⟩
    · simp at hno

/-- Some continuation makes a completable stream one item. -/
theorem Completable.complete (h : Completable r) :
    ∃ s o, firstItem (r ++ s) = .whole (r ++ s).length o := by
  obtain ⟨hcut, hopen⟩ := h
  cases r with
  | nil => simp at hcut
  | cons c t =>
      obtain ⟨hend, hline | hheader⟩ | ⟨rfl, n, hend, hbulk⟩ := firstItem_eq_cut hcut
      · obtain ⟨s, n, hs, hn⟩ := lineEnd_complete hend
        exact ⟨s, false, firstItem_eq_whole.mpr
          ⟨c, t ++ s, n, rfl, hs, Or.inl ⟨hline, hn.symm, rfl⟩⟩⟩
      · obtain ⟨s, text, z, hs, hcr, hz, hlow⟩ :=
          (hopen c t rfl hheader hend).complete (type_ne_CR (Or.inr hheader)) hend
        obtain ⟨s', o, hwhole⟩ := header_complete hheader hcr hz hlow
        rw [← hs, List.append_assoc] at hwhole
        exact ⟨s ++ s', o, hwhole⟩
      · obtain ⟨z, hz, -, hpos, hpay⟩ := bulkItem_eq_cut hbulk
        obtain ⟨s, m, hs, hm⟩ := lineEnd_complete hpay
        have hlen := length_of_lineEnd hend
        have hle : n + 2 ≤ (bulkReply :: t).length := hlen
        refine ⟨s, false, firstItem_eq_whole.mpr
          ⟨bulkReply, t ++ s, n, rfl, lineEnd_append_of_at s hend, Or.inr (Or.inl ⟨rfl, ?_⟩)⟩⟩
        have hcount : n + 2 + m + 2 = (bulkReply :: t ++ s).length := by
          rw [List.length_append, List.length_drop] at hm
          rw [List.length_append]
          omega
        rw [← hcount]
        refine bulkItem_eq_whole.mpr ⟨z, ?_, rfl, Or.inr ⟨hpos, m, ?_, rfl⟩⟩
        · rw [lineNumber_append s (by omega), hz]
        · rw [List.drop_append_of_le_length hle, hs]

/-- The text of a header that more input completes. -/
theorem headerOpen_of_append {t text rest : List Byte} {z : Int} (hc : c ≠ CR)
    (hcut : lineEnd (c :: t) = .cut) (h : t ++ s = text ++ CR :: LF :: rest) (hcr : CR ∉ text)
    (hz : stoi text = some z) (hlow : -1 ≤ z) : HeaderOpen t := by
  rw [lineEnd, if_neg hc, succ_eq_cut] at hcut
  obtain hno | ⟨front, rfl, hfront⟩ := lineEnd_eq_cut_iff.mp hcut
  · -- the line ends in what is added, so its text extends `t`
    obtain ⟨added, rfl⟩ : ∃ added, text = t ++ added := by
      obtain ⟨added, htext, -⟩ | ⟨added, ht, hrest⟩ := List.append_eq_append_iff.mp h
      · exact ⟨added, htext⟩
      · cases added with
        | nil => exact ⟨[], by simp [ht]⟩
        | cons d added =>
            obtain ⟨rfl, -⟩ := List.cons_eq_cons.mp hrest
            exact absurd (by simp [ht]) hno
    obtain hpromising | hnumber := stoi_of_append hz hlow
    · exact Or.inr ⟨hno, hpromising⟩
    · rw [← takeWhile_of_notMem hno] at hnumber
      exact Or.inl hnumber
  · rw [List.append_assoc, List.singleton_append] at h
    have htext := congrArg (List.takeWhile (· ≠ CR)) h
    rw [takeWhile_text hfront, takeWhile_text hcr] at htext
    subst htext
    exact Or.inl ⟨z, by rw [takeWhile_text hfront, hz], hlow⟩

/-- The number of a header that is accepted. -/
theorem header_number (h : bulkItem r n = .whole m o ∨ arrayItem r n = .whole m o) :
    ∃ z, lineNumber r n = some z ∧ -1 ≤ z := by
  obtain hbulk | harray := h
  · obtain ⟨z, hz, -, ⟨hnull, -⟩ | ⟨hpos, -⟩⟩ := bulkItem_eq_whole.mp hbulk
    · exact ⟨z, hz, by omega⟩
    · exact ⟨z, hz, by omega⟩
  · obtain ⟨z, hz, hlow, -⟩ := arrayItem_eq_whole.mp harray
    exact ⟨z, hz, hlow⟩

/-- What becomes whole was completable. -/
theorem completable_of_append (hr : r ≠ []) (hstuck : (firstItem r).length? = none)
    (h : firstItem (r ++ s) = .whole m o) : Completable r := by
  have hcut : firstItem r = .cut := by
    apply Classical.byContradiction
    intro hne
    rw [← firstItem_append_settled s hr hne, h] at hstuck
    simp [Item.length?] at hstuck
  refine ⟨hcut, ?_⟩
  rintro c t rfl hc hend
  obtain ⟨d, u, n, hdu, hline, hkind⟩ := firstItem_eq_whole.mp h
  obtain ⟨rfl, rfl⟩ := List.cons_eq_cons.mp hdu
  have hheader :
      bulkItem (c :: t ++ s) n = .whole m o ∨ arrayItem (c :: t ++ s) n = .whole m o := by
    obtain ⟨hd, -⟩ | ⟨-, hb⟩ | ⟨-, ha⟩ := hkind
    · rcases hc with rfl | rfl <;> exact absurd hd (by decide)
    · exact Or.inl hb
    · exact Or.inr ha
  have hne := type_ne_CR (Or.inr hc)
  obtain ⟨z, hz, hlow⟩ := header_number hheader
  obtain ⟨text, rest, htext, hcr, rfl⟩ := lineEnd_eq_at_iff.mp hline
  cases text with
  | nil => exact absurd (List.cons_eq_cons.mp htext).1 hne
  | cons d text =>
      obtain rfl : c = d := (List.cons_eq_cons.mp htext).1
      have ht : t ++ s = text ++ CR :: LF :: rest := (List.cons_eq_cons.mp htext).2
      refine headerOpen_of_append hne hend ht (fun h => hcr (by simp [h])) ?_ hlow
      have htake : (t ++ s).take text.length = text := by rw [ht]; exact List.take_left' rfl
      simpa [lineNumber, htake] using hz

/-! ## Continuations that are consumed -/

/-- Some continuation of the stream is parsed beyond what the stream begins with. -/
def Resumes (r : List Byte) : Prop := ∃ s, (scan (r ++ s)).slices ≠ []

theorem not_resumes (hr : r ≠ []) (hstuck : (firstItem r).length? = none)
    (hcut : firstItem r ≠ .cut) : ¬ Resumes r := by
  rintro ⟨s, hs⟩
  have happend := firstItem_append_settled s hr hcut
  apply hs
  rw [scan_stuck (by simp [hr]) (by rw [happend]; exact hstuck)]

theorem exists_whole_of_slices (h : (scan r).slices ≠ []) : ∃ n o, firstItem r = .whole n o := by
  by_cases hr : r = []
  · simp [hr] at h
  · cases hfirst : (firstItem r).length? with
    | none =>
        rw [scan_stuck hr hfirst] at h
        simp at h
    | some n =>
        obtain ⟨o, ho⟩ := length?_eq_some.mp hfirst
        exact ⟨n, o, ho⟩

/-- An item that is cut resumes if it is completable. -/
theorem resumes_cut_iff (h : firstItem r = .cut) : Resumes r ↔ Completable r := by
  have hr : r ≠ [] := by
    rintro rfl
    simp at h
  constructor
  · rintro ⟨s, hs⟩
    obtain ⟨n, o, hwhole⟩ := exists_whole_of_slices hs
    exact completable_of_append hr (by simp [h, Item.length?]) hwhole
  · intro hcomplete
    obtain ⟨s, o, hwhole⟩ := hcomplete.complete
    refine ⟨s, ?_⟩
    cases o with
    | false => simp [scan_whole hwhole]
    | true => simp [scan_opens hwhole]

theorem rest_append_eq_nil_iff (hr : r ≠ []) (hstuck : (firstItem r).length? = none) :
    (∃ s, items.rest (r ++ s) = []) ↔ Completable r := by
  constructor
  · rintro ⟨s, hs⟩
    cases hfirst : (firstItem (r ++ s)).length? with
    | none =>
        rw [rest_of_stuck hfirst] at hs
        exact absurd (List.append_eq_nil_iff.mp hs).1 hr
    | some n =>
        obtain ⟨o, hwhole⟩ := length?_eq_some.mp hfirst
        exact completable_of_append hr hstuck hwhole
  · intro hcomplete
    obtain ⟨s, o, hwhole⟩ := hcomplete.complete
    refine ⟨s, ?_⟩
    rw [items_rest_whole hwhole, List.drop_length, items.rest_nil]

/-- An array resumes if the last line behind its header is all that is missing. -/
theorem resumes_opens_iff (h : firstItem r = .whole n true) (hrest : items.rest r ≠ []) :
    Resumes r ↔ Completable (items.rest r) := by
  have hslices : ∀ s, (scan (r ++ s)).slices ≠ [] ↔ items.rest (items.rest r ++ s) = [] := by
    intro s
    have happend := firstItem_append s h
    rw [← items.rest_append, items_rest_whole happend, scan_opens happend]
    split <;> simp [*]
  unfold Resumes
  simp only [hslices]
  exact rest_append_eq_nil_iff hrest (items.first_rest r)

/-! ## The verdict -/

/-- Some continuation lets the parser consume more than `k` bytes. -/
def Helps (b : List Byte) (k : Nat) : Prop :=
  ∃ c past r, Quiet past ∧ processResp (view (b ++ c) past) (b ++ c).length 0 = .ok r ∧ k < r.count

/-- Where the parser stops before the end of `b`, the verdict tells whether more
input can help, and an error is final. -/
def Tells (b : List Byte) : Prop :=
  ∀ past r, Quiet past → processResp (view b past) b.length 0 = .ok r → r.count < b.length →
    (r.verdict = .incompleted ↔ Helps b r.count) ∧
    (r.verdict = .error ↔ ¬ Helps b r.count) ∧
    (r.verdict = .error → ∀ c past, Quiet past →
      processResp (view (b ++ c) past) (b ++ c).length 0 = .ok r)

/-- Behind the messages of one item in front there is no line with a lone CR, no
unfinished header that is beyond repair, and no array of which only the last
line is missing. -/
structure Apt (b : List Byte) : Prop where
  not_lone : firstItem (plain.rest b) ≠ .lone
  repairable : firstItem (plain.rest b) = .cut → Completable (plain.rest b)
  hopeless : ∀ n, firstItem (plain.rest b) = .whole n true → ¬ Completable (items.rest b)

theorem parse_quiet {past : Memory} (b : List Byte) (h : Quiet past) :
    processResp (view b past) b.length 0 = .ok ((scan b).parsed 0 0) := by
  simpa using processResp_view past (Nat.zero_le b.length) (Or.inl h)

/-- In terms of what the parser leaves, more input helps if that resumes. -/
theorem helps_iff {b : List Byte} (hstop : (scan (plain.rest b)).slices = []) :
    Helps b (scan b).slices.flatten.length ↔ Resumes (plain.rest b) := by
  have hlength : ∀ c, (scan b).slices.flatten.length < (scan (b ++ c)).slices.flatten.length ↔
      (scan (plain.rest b ++ c)).slices ≠ [] := by
    intro c
    have hb := scan_append b []
    rw [List.append_nil, List.append_nil, hstop] at hb
    rw [hb, scan_append b c]
    simp only [List.append_nil, List.flatten_append, List.length_append]
    have hnil : (scan (plain.rest b ++ c)).slices.flatten.length = 0 ↔
        (scan (plain.rest b ++ c)).slices = [] := by
      rw [List.length_eq_zero_iff, List.flatten_eq_nil_iff]
      constructor
      · intro hall
        apply List.eq_nil_iff_forall_not_mem.mpr
        intro slice hslice
        exact (messageShaped_of_mem_scan hslice).ne_nil (hall slice hslice)
      · intro hnil slice hslice
        simp [hnil] at hslice
    rw [ne_eq, ← hnil]
    omega
  have hquiet : Quiet fun _ => some 0 := fun k _ => ⟨0, rfl, by decide⟩
  constructor
  · rintro ⟨c, past, r, hq, hr, hlt⟩
    rw [parse_quiet _ hq] at hr
    obtain rfl := Except.ok.inj hr
    exact ⟨c, (hlength c).mp (by simpa [Scan.parsed] using hlt)⟩
  · rintro ⟨c, hc⟩
    exact ⟨c, _, _, hquiet, parse_quiet _ hquiet, by simpa [Scan.parsed] using (hlength c).mpr hc⟩

/-- Where the parser stops short, it has consumed the messages in front only. -/
theorem scan_rest_cases (r : List Byte) :
    (scan (plain.rest r)).verdict = .completed ∨
      plain.rest r ≠ [] ∧ (scan (plain.rest r)).slices = [] := by
  by_cases hnil : plain.rest r = []
  · exact Or.inl (by rw [hnil, scan_nil])
  · cases hfirst : (firstItem (plain.rest r)).length? with
    | none => exact Or.inr ⟨hnil, by rw [scan_stuck hnil hfirst]⟩
    | some n =>
        obtain ⟨o, hwhole⟩ := length?_eq_some.mp hfirst
        cases o with
        | false => exact absurd hwhole firstItem_plain_rest
        | true =>
            rw [scan_opens hwhole]
            split
            · exact Or.inl rfl
            · exact Or.inr ⟨hnil, rfl⟩

/-- An error that nothing resumes stays as it is. -/
theorem scan_error_append (hr : r ≠ []) (hv : (scan r).verdict = .error) (hno : ¬ Resumes r)
    (hstop : (scan r).slices = []) (s : List Byte) : scan (r ++ s) = scan r := by
  have hslices : (scan (r ++ s)).slices = [] := Classical.byContradiction fun h => hno ⟨s, h⟩
  apply Scan.ext (hslices.trans hstop.symm)
  rw [hv]
  cases hitem : firstItem r with
  | nothing => exact absurd (firstItem_eq_nothing.mp hitem) hr
  | whole n o =>
      cases o with
      | false => simp [scan_whole hitem] at hstop
      | true =>
          have happend := scan_opens (firstItem_append s hitem)
          rw [happend] at hslices ⊢
          split
          · rw [if_pos ‹_›] at hslices
            simp at hslices
          · rfl
  | lone =>
      rw [scan_stuck hr (by simp [hitem, Item.length?]), hitem] at hv
      simp [Item.answer] at hv
  | cut =>
      rw [scan_stuck hr (by simp [hitem, Item.length?]), hitem] at hv
      simp [Item.answer] at hv
  | bad =>
      have happend := firstItem_append_settled s hr (by simp [hitem])
      rw [hitem] at happend
      rw [scan_stuck (by simp [hr]) (by simp [happend, Item.length?]), happend]
      rfl

/-- A parse that stops short tells the truth if its verdict does. -/
theorem tells_stopped {b : List Byte} (hne : plain.rest b ≠ [])
    (hstop : (scan (plain.rest b)).slices = []) (hv : (scan (plain.rest b)).verdict ≠ .completed) :
    Tells b ↔ ((scan (plain.rest b)).verdict = .incompleted ↔ Resumes (plain.rest b)) ∧
      ((scan (plain.rest b)).verdict = .error ↔ ¬ Resumes (plain.rest b)) := by
  have hscan := scan_append b []
  rw [List.append_nil, List.append_nil] at hscan
  have hverdict : (scan b).verdict = (scan (plain.rest b)).verdict := by rw [hscan]
  have hcount : ((scan b).parsed 0 0).count = (scan b).slices.flatten.length := by
    simp [Scan.parsed]
  have hshort : (scan b).slices.flatten.length < b.length := by
    have hpre := prefix_scan_flatten b
    refine Nat.lt_of_le_of_ne hpre.length_le fun heq => hv ?_
    rw [← hverdict]
    exact scan_completed_of_flatten (hpre.eq_of_length heq)
  constructor
  · intro htells
    have hquiet : Quiet fun _ => some 0 := fun k _ => ⟨0, rfl, by decide⟩
    obtain ⟨hinc, herr, -⟩ :=
      htells _ _ hquiet (parse_quiet b hquiet) (by rw [hcount]; exact hshort)
    rw [hcount, helps_iff hstop] at hinc herr
    rw [← hverdict]
    exact ⟨hinc, herr⟩
  · rintro ⟨hinc, herr⟩ past r hquiet hr -
    rw [parse_quiet b hquiet] at hr
    obtain rfl := Except.ok.inj hr
    rw [hcount, helps_iff hstop]
    rw [← hverdict] at hinc herr
    refine ⟨hinc, herr, fun hv c past hquiet => ?_⟩
    have hfinal := scan_error_append hne (hverdict ▸ hv) (herr.mp hv) hstop c
    rw [parse_quiet _ hquiet, scan_append b c, hfinal, ← hscan]

/-- `+a`, a CR and a letter: the parser asks for more, and no continuation is
ever parsed. -/
theorem lone_cr_waits :
    processResp (view [43, 97, 13, 97] fun _ => some 0) 4 0 = .ok ⟨[], 0, .incompleted⟩ ∧
      ¬ Helps [43, 97, 13, 97] 0 ∧ ¬ Tells [43, 97, 13, 97] := by
  have hparse : processResp (view [43, 97, 13, 97] fun _ => some 0) 4 0 =
      .ok ⟨[], 0, .incompleted⟩ := by rfl
  have hitem : firstItem [43, 97, 13, 97] = .lone := by rfl
  have hrest : plain.rest [43, 97, 13, 97] = [43, 97, 13, 97] :=
    plain.rest_of_none (congrArg Item.plain? hitem)
  have hscan : scan [43, 97, 13, 97] = ⟨[], .incompleted⟩ :=
    scan_stuck (by simp) (congrArg Item.length? hitem)
  have hno : ¬ Helps [43, 97, 13, 97] 0 := by
    have hiff := helps_iff (b := [43, 97, 13, 97]) (by rw [hrest, hscan])
    rw [hscan, hrest] at hiff
    exact fun h => not_resumes (by simp) (congrArg Item.length? hitem) (by simp [hitem]) (hiff.mp h)
  refine ⟨hparse, hno, fun htells => hno ?_⟩
  have hquiet : Quiet fun _ => some 0 := fun k _ => ⟨0, rfl, by decide⟩
  exact (htells _ _ hquiet hparse (by decide)).1.mp rfl

/-- A parser that has consumed everything has nothing to tell. -/
theorem tells_completed {b : List Byte} (hrest : items.rest b = []) : Tells b := by
  have hflatten := scan_flatten_of_completed (scan_verdict_completed.mpr hrest)
  intro past r hquiet hr hlt
  rw [parse_quiet b hquiet] at hr
  obtain rfl := Except.ok.inj hr
  simp [Scan.parsed, hflatten] at hlt

theorem apt_completed {b : List Byte} (hrest : items.rest b = []) : Apt b := by
  have hnil : (firstItem (plain.rest b)).length? = none → plain.rest b = [] := by
    intro hstuck
    rw [← rest_of_stuck hstuck, items_rest_plain, hrest]
  refine ⟨fun h => ?_, fun h => ?_, fun n _ h => ?_⟩
  · simp [hnil (by simp [h, Item.length?])] at h
  · simp [hnil (by simp [h, Item.length?])] at h
  · simp [hrest, Completable] at h

/-- The verdict tells whether waiting can help exactly where the parser has not
stopped at a lone CR, in a header beyond repair, or in front of an array of
which only the last line is missing. -/
theorem tells_iff (b : List Byte) : Tells b ↔ Apt b := by
  obtain hdone | ⟨hne, hstop⟩ := scan_rest_cases b
  · have hrest : items.rest b = [] := by
      rw [← items_rest_plain b]
      exact scan_verdict_completed.mp hdone
    exact iff_of_true (tells_completed hrest) (apt_completed hrest)
  · have hstuck : ∀ {i : Item}, firstItem (plain.rest b) = i → i.length? = none →
        (scan (plain.rest b)).verdict = i.answer.2 := by
      intro i hi hnone
      rw [scan_stuck hne (by rw [hi]; exact hnone), hi]
    have hiff := tells_stopped hne hstop
    cases hitem : firstItem (plain.rest b) with
    | nothing => exact absurd (firstItem_eq_nothing.mp hitem) hne
    | whole n o =>
        cases o with
        | false => exact absurd hitem firstItem_plain_rest
        | true =>
            have hopens := scan_opens hitem
            rw [← items_rest_whole hitem] at hopens
            have hrest : items.rest (plain.rest b) ≠ [] := by
              intro hnil
              rw [if_pos hnil] at hopens
              simp [hopens] at hstop
            have hresumes := resumes_opens_iff hitem hrest
            rw [if_neg hrest] at hopens
            rw [hiff (by simp [hopens]), hopens, hresumes, items_rest_plain]
            constructor
            · rintro ⟨-, herr⟩
              exact ⟨by simp [hitem], by simp [hitem], fun _ _ => herr.mp rfl⟩
            · intro hapt
              have hno := hapt.hopeless n hitem
              simp [hno]
    | lone =>
        have hv := hstuck hitem rfl
        have hno := not_resumes hne (by simp [hitem, Item.length?]) (by simp [hitem])
        rw [hiff (by simp [hv, Item.answer]), hv]
        refine iff_of_false (fun h => hno (h.1.mp rfl)) fun hapt => hapt.not_lone hitem
    | cut =>
        have hv := hstuck hitem rfl
        rw [hiff (by simp [hv, Item.answer]), hv, resumes_cut_iff hitem]
        constructor
        · rintro ⟨hinc, -⟩
          exact ⟨by simp [hitem], fun _ => hinc.mp rfl, by simp [hitem]⟩
        · intro hapt
          have hyes := hapt.repairable hitem
          simp [hyes, Item.answer]
    | bad =>
        have hv := hstuck hitem rfl
        have hno := not_resumes hne (by simp [hitem, Item.length?]) (by simp [hitem])
        rw [hiff (by simp [hv, Item.answer]), hv]
        exact iff_of_true (by simp [hno, Item.answer])
          ⟨by simp [hitem], by simp [hitem], by simp [hitem]⟩

end Canal.RespParser
