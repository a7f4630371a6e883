import Canal.RespParser.Header
import Canal.RespParser.Overrun
import Canal.RespParser.Verdict
import Mathlib.Algebra.GroupWithZero.Nat

/-!
# The elements of an array

An array that declares `N` elements should be `Completed` with exactly `N`
messages behind its header. The loop over the elements calls `process_resp`,
which does not stop after one message: the first element takes the rest of the
buffer, and the others are found behind its end, where they are empty.

So an array is complete in this sense only if its `N` elements are all that the
buffer holds behind the header. An array that is followed by another message
takes it along, and one that has too few elements does not wait for the others.
-/

namespace Canal.RespParser

open Buffer Decimal

/-- The handler that the `switch` selects at `q`, inside the buffer, accepts
exactly `l` bytes, and at least one. -/
def Accepted (buf : Memory) (len q l : Nat) : Prop :=
  q < len ∧ 0 < l ∧ handle (processArray buf len) buf len q = .ok (some (l, .completed))

/-- Consecutive elements from `q` on, given by their lengths. -/
def Elements (buf : Memory) (len : Nat) : Nat → List Nat → Prop
  | _, [] => True
  | q, l :: ls => Accepted buf len q l ∧ Elements buf len (q + l) ls

/-- If the array is `Completed` with `k` bytes, these are bytes of the buffer, and
they are its header and `count` consecutive elements. -/
def CompleteArray (past : Memory) (h pre s : List Byte) (count : Nat) : Prop :=
  ∀ k, answerAt processArray arrayReply h pre s past = .ok (k, .completed) →
    pre.length + k ≤ (framed arrayReply h pre s).length ∧
      ∃ ls, ls.length = count ∧ k = (line arrayReply h).length + ls.sum ∧
        Elements (view (framed arrayReply h pre s) past) (framed arrayReply h pre s).length
          (pre.length + (line arrayReply h).length) ls

/-- The number of messages in a stream that consists of whole items: those of one
item in front, and the array that takes the rest. -/
def messages (s : List Byte) : Nat :=
  (plain.frames s).length + if plain.rest s = [] then 0 else 1

/-- An LF behind the buffer completes the last line, and with it the last message. -/
def Overruns (past : Memory) (s : List Byte) : Prop :=
  firstItem (items.rest s) = .cut ∧ past (inspected s) = some LF ∧ Flat (s ++ missing s)

variable {b h pre s : List Byte} {past : Memory} {q l n : Nat} {ls : List Nat} {z : Int}

/-! ## One element -/

theorem handle_congr {array array' : Nat → Eval (Nat × ParseResult)} {buf : Memory} {len q : Nat}
    (h : array q = array' q) : handle array buf len q = handle array' buf len q := by
  simp [handle, h]

theorem handle_processArray (buf : Memory) (len q : Nat) :
    handle (processArray buf len) buf len q =
      handle (processArrayFuel buf len (len - q + 2)) buf len q :=
  handle_congr rfl

theorem messages_whole (hitem : firstItem s = .whole n false) :
    messages s = messages (s.drop n) + 1 := by
  have hfirst := plain_first_eq_some.mpr hitem
  rw [messages, messages, plain.frames_of_some hfirst, plain.rest_of_some hfirst,
    List.length_cons]
  omega

theorem messages_opens (hitem : firstItem s = .whole n true) : messages s = 1 := by
  have hfirst : plain.first s = none := congrArg Item.plain? hitem
  have hne : s ≠ [] := by
    rintro rfl
    simp at hitem
  rw [messages, plain.frames_of_none hfirst, plain.rest_of_none hfirst, if_neg hne]
  rfl

@[simp] theorem messages_nil : messages [] = 0 := by
  simp [messages]

/-- The answer for the element at the front of a flat stream: its first item, or
all of it. -/
theorem handle_flat (past : Memory) (hq : q < b.length) {o : Bool}
    (hitem : firstItem (b.drop q) = .whole n o) (hflat : Flat (b.drop q)) :
    handle (processArray (view b past) b.length) (view b past) b.length q =
      .ok (some (if o then b.length - q else n, .completed)) := by
  rw [handle_processArray]
  cases o with
  | false => exact handle_whole hq hitem
  | true =>
      obtain ⟨hthree, hlen⟩ := length_of_firstItem hitem
      rw [List.length_drop] at hlen
      obtain ⟨m, hm, hline, harray, hhandle⟩ := handle_opens (b.length - q + 1) hq hitem past
      have hrest : Flat (b.drop (q + n)) := by
        rw [Flat, ← List.drop_drop, ← items_rest_whole hitem]
        exact hflat
      have hv := scan_verdict_completed.mpr hrest
      have hlasts : Lasts b.length (q + n) (b.length - q + 1) := ⟨by omega, by omega⟩
      have hstop : firstItem (items.rest (b.drop (q + n))) ≠ .cut := by
        rw [hrest]
        simp
      have hinner : processRespFuel (view b past) _ _ _ _ = _ :=
        processRespFuel_view (q + n) (by omega) hlasts (Or.inr hstop)
      have hcount : ((scan (b.drop (q + n))).parsed (q + n) (q + n)).count =
          b.length - (q + n) := by
        simp [Scan.parsed, scan_flatten_of_completed hv]
      have hopens := processArrayFuel_opens hm hline harray hinner
        (fun _ => by rw [hcount]; omega)
      have hsum : n + (b.length - (q + n)) = b.length - q := by omega
      rw [hcount, if_pos (show (Scan.parsed _ _ _).verdict = .completed from hv), hsum] at hopens
      rw [hhandle, hopens]
      rfl

theorem accepted_iff (past : Memory) (hq : q < b.length) {o : Bool}
    (hitem : firstItem (b.drop q) = .whole n o) (hflat : Flat (b.drop q)) :
    Accepted (view b past) b.length q l ↔ l = if o then b.length - q else n := by
  have hthree := (length_of_firstItem hitem).1
  rw [Accepted, handle_flat past hq hitem hflat]
  simp only [hq, true_and, Except.ok.injEq, Option.some.injEq, Prod.mk.injEq, and_true]
  constructor
  · exact fun h => h.2.symm
  · rintro rfl
    refine ⟨?_, rfl⟩
    split <;> omega

/-! ## All elements -/

theorem Flat.exists_whole (hflat : Flat s) (hs : s ≠ []) :
    ∃ n o, firstItem s = .whole n o ∧ Flat (s.drop n) := by
  cases hfirst : (firstItem s).length? with
  | none => exact absurd ((rest_of_stuck hfirst).symm.trans hflat) hs
  | some n =>
      obtain ⟨o, hitem⟩ := length?_eq_some.mp hfirst
      exact ⟨n, o, hitem, (items_rest_whole hitem).symm.trans hflat⟩

/-- A flat stream consists of as many elements as it has messages. -/
theorem exists_elements (past : Memory) (hq : q ≤ b.length) (hflat : Flat (b.drop q)) :
    ∃ ls, ls.length = messages (b.drop q) ∧ q + ls.sum = b.length ∧
      Elements (view b past) b.length q ls := by
  induction hk : b.length - q using Nat.strongRecOn generalizing q with
  | ind k ih =>
      obtain hlt | rfl := Nat.lt_or_eq_of_le hq
      · obtain ⟨n, o, hitem, hrest⟩ := hflat.exists_whole (by simpa using hlt)
        obtain ⟨hthree, hlen⟩ := length_of_firstItem hitem
        rw [List.length_drop] at hlen
        cases o with
        | false =>
            rw [List.drop_drop] at hrest
            obtain ⟨ls, hls, hsum, helements⟩ :=
              ih (b.length - (q + n)) (by omega) (by omega) hrest rfl
            refine ⟨n :: ls, ?_, by simp only [List.sum_cons]; omega,
              (accepted_iff past hlt hitem hflat).mpr rfl, helements⟩
            rw [messages_whole hitem, List.drop_drop, List.length_cons, hls]
        | true =>
            refine ⟨[b.length - q], (messages_opens hitem).symm, ?_,
              (accepted_iff past hlt hitem hflat).mpr rfl, trivial⟩
            simp only [List.sum_cons, List.sum_nil]
            omega
      · exact ⟨[], by simp, by simp, trivial⟩

/-- There is no other way to reach the end of the buffer. -/
theorem Elements.length_eq (h : Elements (view b past) b.length q ls)
    (hflat : Flat (b.drop q)) (hend : q + ls.sum = b.length) :
    ls.length = messages (b.drop q) := by
  induction ls generalizing q with
  | nil =>
      have hnil : b.drop q = [] := List.drop_eq_nil_of_le (by simpa using Nat.le_of_eq hend.symm)
      rw [hnil, messages_nil]
      rfl
  | cons l ls ih =>
      obtain ⟨haccepted, hrest⟩ := h
      obtain ⟨n, o, hitem, hflat'⟩ := hflat.exists_whole (by simpa using haccepted.1)
      have hl := (accepted_iff past haccepted.1 hitem hflat).mp haccepted
      rw [List.sum_cons, ← Nat.add_assoc] at hend
      cases o with
      | false =>
          obtain rfl : l = n := hl
          rw [List.drop_drop] at hflat'
          rw [messages_whole hitem, List.drop_drop, List.length_cons, ih hrest hflat' hend]
      | true =>
          -- the array has taken everything, so no element follows it
          obtain rfl : l = b.length - q := hl
          cases ls with
          | nil => exact (messages_opens hitem).symm
          | cons l ls =>
              have hlt := hrest.1.1
              omega

/-! ## The answer for the array -/

theorem drop_elements (c : Byte) (h pre s : List Byte) :
    (framed c h pre s).drop (pre.length + (h.length + 1 + 2)) = s := by
  rw [← Nat.add_assoc]
  exact drop_framed_body

theorem opens_framed (hz : stoi h = some z) (hpos : 0 < z) :
    arrayItem ((framed arrayReply h pre s).drop pre.length) (h.length + 1) =
      .whole (h.length + 1 + 2) true := by
  have hneg : ¬ z < -1 := by omega
  rw [arrayItem, lineNumber_framed, hz]
  simp [hneg, hpos]

/-- The fuel that is left for the elements lasts. -/
theorem lasts_elements (c : Byte) (h pre s : List Byte) :
    pre.length + (h.length + 1 + 2) ≤ (framed c h pre s).length ∧
      Lasts (framed c h pre s).length (pre.length + (h.length + 1 + 2))
        ((framed c h pre s).length - pre.length + 1) := by
  have hlen := length_framed c h pre s
  unfold Lasts
  omega

section Answer

variable (pre : List Byte) (hcr : CR ∉ h) (hz : stoi h = some z) (hpos : 0 < z)
include hcr hz hpos

/-- The call made for the first element decides. -/
theorem answerAt_array_scan {e : List Byte}
    (hinner : processRespFuel (view (framed arrayReply h pre s) past)
      (framed arrayReply h pre s).length ((framed arrayReply h pre s).length - pre.length + 1)
      (pre.length + (h.length + 1 + 2)) (pre.length + (h.length + 1 + 2)) =
        .ok ((scan (s ++ e)).parsed (pre.length + (h.length + 1 + 2))
          (pre.length + (h.length + 1 + 2)))) :
    answerAt processArray arrayReply h pre s past =
      .ok (if Flat (s ++ e) then ((line arrayReply h).length + (s ++ e).length, .completed)
        else (0, .error)) := by
  have hlen := length_framed arrayReply h pre s
  have hverdict := scan_verdict_completed (r := s ++ e)
  have hcount : (scan (s ++ e)).verdict = .completed →
      ((scan (s ++ e)).parsed (pre.length + (h.length + 1 + 2))
        (pre.length + (h.length + 1 + 2))).count = (s ++ e).length := by
    intro hv
    simp [Scan.parsed, scan_flatten_of_completed hv]
  have hanswer := processArrayFuel_opens (Nat.succ_pos _) (lineEnd_framed (by decide) hcr)
    (opens_framed hz hpos) hinner (fun hv => by rw [hcount hv, List.length_append]; omega)
  rw [answerAt, processArray, depth, hanswer]
  by_cases hflat : Flat (s ++ e)
  · rw [if_pos hflat, if_pos (show (Scan.parsed _ _ _).verdict = .completed from
      hverdict.mpr hflat), hcount (hverdict.mpr hflat), length_line]
  · rw [if_neg hflat, if_neg (show ¬ (Scan.parsed _ _ _).verdict = .completed from
      fun hv => hflat (hverdict.mp hv))]

theorem answerAt_array_settled (hsettled : Hushed past s ∨ firstItem (items.rest s) ≠ .cut) :
    answerAt processArray arrayReply h pre s past =
      .ok (if Flat s then ((line arrayReply h).length + s.length, .completed)
        else (0, .error)) := by
  have hview : _ → answerAt processArray arrayReply h pre s past = _ :=
    answerAt_array_scan (e := []) pre hcr hz hpos
  rw [List.append_nil] at hview
  apply hview
  obtain ⟨hle, hlasts⟩ := lasts_elements arrayReply h pre s
  have hinner := processRespFuel_view (pre.length + (h.length + 1 + 2)) hle hlasts
    ((drop_elements arrayReply h pre s).symm ▸ hsettled)
  rwa [drop_elements] at hinner

theorem answerAt_array_missing (hcut : firstItem (items.rest s) = .cut)
    (hlf : past (inspected s) = some LF) :
    answerAt processArray arrayReply h pre s past =
      .ok (if Flat (s ++ missing s) then
          ((line arrayReply h).length + (s ++ missing s).length, .completed)
        else (0, .error)) := by
  apply answerAt_array_scan pre hcr hz hpos
  obtain ⟨hle, hlasts⟩ := lasts_elements arrayReply h pre s
  have hinner := processRespFuel_missing (pre.length + (h.length + 1 + 2)) hle hlasts
    ((drop_elements arrayReply h pre s).symm ▸ hcut)
    ((drop_elements arrayReply h pre s).symm ▸ hlf)
  rwa [drop_elements] at hinner

theorem answerAt_array_fault (hcut : firstItem (items.rest s) = .cut)
    (hnone : past (inspected s) = none) :
    answerAt processArray arrayReply h pre s past = .error .fault := by
  rw [answerAt, processArray, depth]
  apply processArrayFuel_fault (Nat.succ_pos _) (lineEnd_framed (by decide) hcr)
    (opens_framed hz hpos)
  obtain ⟨hle, hlasts⟩ := lasts_elements arrayReply h pre s
  exact processRespFuel_fault _ hle hlasts
    ((drop_elements arrayReply h pre s).symm ▸ hcut)
    ((drop_elements arrayReply h pre s).symm ▸ hnone)

end Answer

/-- Where nothing behind the buffer interferes, the number of messages decides. -/
theorem completeArray_settled {count : Nat}
    (hanswer : answerAt processArray arrayReply h pre s past =
      .ok (if Flat s then ((line arrayReply h).length + s.length, .completed)
        else (0, .error))) :
    CompleteArray past h pre s count ↔ (Flat s → messages s = count) := by
  have hlen := length_framed arrayReply h pre s
  have hline := length_line arrayReply h
  have hsub : pre.length + (line arrayReply h).length = pre.length + (h.length + 1 + 2) := by
    omega
  constructor
  · intro hcomplete hflat
    rw [if_pos hflat] at hanswer
    obtain ⟨-, ls, rfl, hk, helements⟩ := hcomplete _ hanswer
    rw [hsub] at helements
    have hcount := helements.length_eq (by rw [drop_elements]; exact hflat) (by omega)
    rw [hcount, drop_elements]
  · intro hmessages k hk
    rw [hanswer] at hk
    by_cases hflat : Flat s
    · rw [if_pos hflat] at hk
      obtain rfl : (line arrayReply h).length + s.length = k := congrArg Prod.fst (Except.ok.inj hk)
      obtain ⟨ls, hls, hsum, helements⟩ := exists_elements past
        (lasts_elements arrayReply h pre s).1
        ((drop_elements arrayReply h pre s).symm ▸ hflat)
      rw [drop_elements, hmessages hflat] at hls
      rw [← hsub] at hsum helements
      exact ⟨by omega, ls, hls, by omega, helements⟩
    · rw [if_neg hflat] at hk
      simp at hk

/-- Two simple strings behind the header of one element: the array takes both. -/
theorem array_takes_next_message :
    answerAt processArray arrayReply [49] [] [43, 97, 13, 10, 43, 98, 13, 10] unmapped =
        .ok (12, .completed) ∧
      ¬ CompleteArray unmapped [49] [] [43, 97, 13, 10, 43, 98, 13, 10] 1 := by
  have hanswer : answerAt processArray arrayReply [49] [] [43, 97, 13, 10, 43, 98, 13, 10]
      unmapped = .ok (12, .completed) := by rfl
  refine ⟨hanswer, fun hcomplete => ?_⟩
  obtain ⟨-, ls, hone, hsum, helements⟩ := hcomplete 12 hanswer
  obtain ⟨l, rfl⟩ := List.length_eq_one_iff.mp hone
  have hhandle : handle (processArray (view (framed arrayReply [49] []
      [43, 97, 13, 10, 43, 98, 13, 10]) unmapped) 12) (view (framed arrayReply [49] []
      [43, 97, 13, 10, 43, 98, 13, 10]) unmapped) 12 4 = .ok (some (4, .completed)) := by rfl
  simp only [List.sum_cons, List.sum_nil] at hsum
  obtain rfl : l = 8 := by
    have hline : (line arrayReply [49]).length = 4 := rfl
    omega
  have haccepted := helements.1.2.2
  exact absurd (hhandle.symm.trans haccepted) (by decide)

/-- An array is complete with its declared elements exactly where the buffer
holds as many messages behind the header and nothing else. -/
theorem completeArray_iff (past : Memory) (h pre s : List Byte) (count : Nat) (hcr : CR ∉ h)
    (hcount : stoi h = some (count : Int)) (hpos : 1 ≤ count) :
    CompleteArray past h pre s count ↔
      (Flat s → messages s = count) ∧ ¬ Overruns past s := by
  have hz : (0 : Int) < count := by omega
  by_cases hsettled : Hushed past s ∨ firstItem (items.rest s) ≠ .cut
  · have hno : ¬ Overruns past s := by
      rintro ⟨hcut, hlf, -⟩
      obtain ⟨c, hc, hne⟩ := hsettled.resolve_right (fun hne => hne hcut)
      rw [hlf] at hc
      exact hne (Option.some.inj hc).symm
    rw [completeArray_settled (answerAt_array_settled pre hcr hcount hz hsettled)]
    simp only [hno, not_false_eq_true, and_true]
  · rw [not_or, not_not] at hsettled
    obtain ⟨hloud, hcut⟩ := hsettled
    have hnot : ¬ Flat s := by
      intro hflat
      rw [Flat] at hflat
      simp [hflat] at hcut
    simp only [hnot, false_implies, true_and]
    cases hbehind : past (inspected s) with
    | none =>
        have hfault := answerAt_array_fault pre hcr hcount hz hcut hbehind
        refine iff_of_true ?_ ?_
        · intro k hk
          simp [hfault] at hk
        · rintro ⟨-, hlf, -⟩
          simp [hbehind] at hlf
    | some c =>
        obtain rfl : c = LF := Classical.byContradiction fun hne => hloud ⟨c, hbehind, hne⟩
        have hanswer := answerAt_array_missing pre hcr hcount hz hcut hbehind
        by_cases hflat : Flat (s ++ missing s)
        · refine iff_of_false ?_ fun hno => hno ⟨hcut, hbehind, hflat⟩
          intro hcomplete
          rw [if_pos hflat] at hanswer
          have hbound := (hcomplete _ hanswer).1
          rw [List.length_append, length_missing, length_framed, length_line] at hbound
          omega
        · refine iff_of_true ?_ fun hover => hflat hover.2.2
          intro k hk
          rw [if_neg hflat] at hanswer
          simp [hanswer] at hk

/-- Three elements behind another message: a simple string, a bulk string that contains
the start of a line, and an array that takes the integer behind it. -/
theorem completeArray_three :
    CompleteArray unmapped [51] [43, 122, 13, 10]
      [43, 97, 13, 10, 36, 49, 13, 10, 43, 13, 10, 42, 49, 13, 10, 58, 55, 13, 10] 3 := by
  apply (completeArray_iff unmapped [51] [43, 122, 13, 10] _ 3 (by decide) (by decide)
    (by decide)).mpr
  have hsimple : firstItem [43, 97, 13, 10, 36, 49, 13, 10, 43, 13, 10, 42, 49, 13, 10, 58, 55, 13,
      10] = .whole 4 false := by decide
  have hbulk : firstItem [36, 49, 13, 10, 43, 13, 10, 42, 49, 13, 10, 58, 55, 13, 10] =
      .whole 7 false := by decide
  have harray : firstItem [42, 49, 13, 10, 58, 55, 13, 10] = .whole 4 true := by decide
  refine ⟨fun _ => ?_, ?_⟩
  · rw [messages_whole hsimple]
    exact congrArg (· + 1) ((messages_whole hbulk).trans (congrArg (· + 1) (messages_opens harray)))
  · rintro ⟨-, hlf, -⟩
    simp [unmapped] at hlf

end Canal.RespParser
