import Canal.Reading.OnRead
import Mathlib.Data.List.Infix

/-!
# How the cuts of a stream matter

TCP decides how a stream is cut into read events. `messages` is the recogniser
of items that fit in a view; its frames are what is handed over when the bytes
arrive one by one. The other extreme is one event for the whole stream, whose
view consists of its first `length % 2 ^ 32` bytes.

The two agree when the view covers all frames and the header of a non-empty
array, which takes the rest of its view along, ends where the view does. Under
this condition every cut gives the same slices, and the same remainder: an event
that sees only a part of what is left hands over some of the next frames, and
the last event hands over the others.
-/

namespace Canal.Reading

open Buffer RespParser Trace Framing

/-- Items that fit in a view. -/
def messages : Recogniser Byte := items.below (2 ^ 32)

/-- The item is the header of an array that announces at least one element. -/
def Opens (f : List Byte) : Prop := firstItem f = .whole f.length true

instance (f : List Byte) : Decidable (Opens f) := inferInstanceAs (Decidable (_ = _))

/-- Items that lie within `n` bytes, and of which only one that ends there may
open an array. -/
def Steady : Nat → List (List Byte) → Prop
  | _, [] => True
  | n, f :: fs => f.length ≤ n ∧ (Opens f → f.length = n) ∧ Steady (n - f.length) fs

variable {r v w : List Byte} {fs : List (List Byte)} {n m : Nat} {o : Bool}

theorem messages_first_eq_some :
    messages.first r = some n ↔ (∃ o, firstItem r = .whole n o) ∧ n < 2 ^ 32 := by
  rw [messages, Recogniser.below_first_eq_some, items_first, length?_eq_some]

/-! ## What a view of a stream shows -/

/-- A view shows an item exactly if the stream begins with that item and the
view is long enough. -/
theorem firstItem_view (hv : v <+: r) :
    firstItem v = .whole n o ↔ firstItem r = .whole n o ∧ n ≤ v.length := by
  obtain ⟨w, rfl⟩ := hv
  constructor
  · intro h
    exact ⟨firstItem_append w h, (length_of_firstItem h).2⟩
  · rintro ⟨h, hle⟩
    exact firstItem_of_append h hle

theorem scan_slices_of_stuck (h : (firstItem v).length? = none) : (scan v).slices = [] := by
  by_cases hnil : v = []
  · simp [hnil]
  · simp [scan_stuck hnil h]

/-- Where the stream has no message, neither has a view of it. -/
theorem view_stuck (hv : v <+: r) (hshort : v.length < 2 ^ 32) (h : messages.first r = none) :
    (firstItem v).length? = none := by
  cases hitem : (firstItem v).length? with
  | none => rfl
  | some n =>
      obtain ⟨o, ho⟩ := length?_eq_some.mp hitem
      obtain ⟨hr, hle⟩ := (firstItem_view hv).mp ho
      rw [messages_first_eq_some.mpr ⟨⟨o, hr⟩, by omega⟩] at h
      simp at h

/-- A message that is longer than the view is not seen. -/
theorem view_short (hv : v <+: r) (h : firstItem r = .whole n o) (hlt : v.length < n) :
    (firstItem v).length? = none := by
  cases hitem : (firstItem v).length? with
  | none => rfl
  | some m =>
      obtain ⟨o', ho⟩ := length?_eq_some.mp hitem
      obtain ⟨hr, hle⟩ := (firstItem_view hv).mp ho
      rw [h] at hr
      obtain ⟨rfl, -⟩ := Item.whole.inj hr
      omega

theorem opens_take (h : firstItem r = .whole n o) : Opens (r.take n) ↔ o = true := by
  have hlen : (r.take n).length = n := List.length_take_of_le (length_of_firstItem h).2
  have hitem : firstItem (r.take n) = .whole n o :=
    (firstItem_view (List.take_prefix n r)).mpr ⟨h, Nat.le_of_eq hlen.symm⟩
  rw [Opens, hitem, hlen]
  simp

/-- No frame fits into no bytes. -/
theorem frames_eq_nil_of_steady (h : Steady 0 (messages.frames r)) : messages.frames r = [] := by
  cases hr : messages.first r with
  | none => exact messages.frames_of_none hr
  | some n =>
      have hpos := messages.pos hr
      have hlen : (r.take n).length = n := List.length_take_of_le (messages.le_length hr)
      rw [messages.frames_of_some hr, Steady, hlen] at h
      omega

/-- A view is parsed into all frames of the stream exactly if it covers them and
only its last bytes may open an array. -/
theorem scan_view_iff (hv : v <+: r) (hshort : v.length < 2 ^ 32) :
    (scan v).slices = messages.frames r ↔ Steady v.length (messages.frames r) := by
  induction r using messages.induction generalizing v with
  | stuck r h =>
      rw [scan_slices_of_stuck (view_stuck hv hshort h), messages.frames_of_none h]
      simp [Steady]
  | frame r n h ih =>
      obtain ⟨⟨o, hitem⟩, -⟩ := messages_first_eq_some.mp h
      have hlen : (r.take n).length = n := List.length_take_of_le (messages.le_length h)
      rw [messages.frames_of_some h, Steady, hlen, opens_take hitem]
      by_cases hle : n ≤ v.length
      · have htake : v.take n = r.take n := by
          rw [List.prefix_iff_eq_take.mp hv, List.take_take, Nat.min_eq_left hle]
        have hseen := (firstItem_view hv).mpr ⟨hitem, hle⟩
        cases o with
        | false =>
            have ih := ih (hv.drop n) (by rw [List.length_drop]; omega)
            rw [scan_whole hseen, htake]
            simpa [hle, List.length_drop] using ih
        | true =>
            rw [scan_opens hseen]
            simp only [hle, true_and, forall_const]
            constructor
            · intro heq
              split at heq
              · obtain ⟨hvr, hfs⟩ := List.cons.inj heq
                rw [← hfs, hvr, hlen]
                exact ⟨rfl, trivial⟩
              · simp at heq
            · rintro ⟨rfl, hrest⟩
              rw [Nat.sub_self] at hrest
              rw [frames_eq_nil_of_steady hrest, ← htake]
              simp
      · rw [scan_slices_of_stuck (view_short hv hitem (by omega))]
        simp [hle]

/-- Of a steady stream every view hands over some of the next frames. -/
theorem prefix_scan_view (hv : v <+: r) (hshort : v.length < 2 ^ 32)
    (hsteady : Steady m (messages.frames r)) : (scan v).slices <+: messages.frames r := by
  induction r using messages.induction generalizing v m with
  | stuck r h => simp [scan_slices_of_stuck (view_stuck hv hshort h)]
  | frame r n h ih =>
      obtain ⟨⟨o, hitem⟩, -⟩ := messages_first_eq_some.mp h
      have hlen : (r.take n).length = n := List.length_take_of_le (messages.le_length h)
      rw [messages.frames_of_some h] at hsteady ⊢
      rw [Steady, hlen, opens_take hitem] at hsteady
      obtain ⟨hm, hopen, hsteady⟩ := hsteady
      by_cases hle : n ≤ v.length
      · have htake : v.take n = r.take n := by
          rw [List.prefix_iff_eq_take.mp hv, List.take_take, Nat.min_eq_left hle]
        have hseen := (firstItem_view hv).mpr ⟨hitem, hle⟩
        have hdrop : (v.drop n).length < 2 ^ 32 := by rw [List.length_drop]; omega
        cases o with
        | false =>
            rw [scan_whole hseen, htake]
            exact List.cons_prefix_cons.mpr ⟨rfl, ih (hv.drop n) hdrop hsteady⟩
        | true =>
            -- behind the header the stream has no message, so the view must end there
            rw [← hopen rfl, Nat.sub_self] at hsteady
            have hnone := frames_eq_nil_of_steady hsteady
            have hstuck := view_stuck (hv.drop n) hdrop (messages.frames_eq_nil_iff.mp hnone)
            rw [scan_opens hseen, rest_of_stuck hstuck, hnone]
            split
            · rename_i hnil
              have hv' : v = r.take n := by
                rw [← htake, List.take_of_length_le (List.drop_eq_nil_iff.mp hnil)]
              simp [hv']
            · simp
      · simp [scan_slices_of_stuck (view_short hv hitem (by omega))]

theorem steady_append {gs : List (List Byte)} (h : Steady n (fs ++ gs)) :
    fs.flatten.length ≤ n ∧ Steady (n - fs.flatten.length) gs := by
  induction fs generalizing n with
  | nil => simpa using h
  | cons f fs ih =>
      obtain ⟨hle, -, hrest⟩ := h
      obtain ⟨hlen, hsteady⟩ := ih hrest
      rw [List.flatten_cons, List.length_append]
      refine ⟨by omega, ?_⟩
      rwa [Nat.sub_sub] at hsteady

/-! ## Runs over a given stream -/

/-- A run that cuts the stream `S` into its chunks. -/
structure Cuts (S : List Byte) (run : List (ReadEvent × Stream)) : Prop where
  steps : Steps ReadStep {} run
  chunks : (run.map fun p => p.1.chunk).flatten = S

/-- The slices and the remaining input do not depend on the cuts. -/
def ChunkInvariant (S : List Byte) : Prop :=
  ∀ run run', Cuts S run → Cuts S run' →
    (final {} run).handed = (final {} run').handed ∧ (final {} run).input = (final {} run').input

/-- The stream is steady with respect to the view of the whole of it. -/
def SteadyStream (S : List Byte) : Prop := Steady (S.length % 2 ^ 32) (messages.frames S)

variable {S : List Byte} {run : List (ReadEvent × Stream)} {s t : Stream} {e : ReadEvent}

theorem ReadStep.received (h : ReadStep s e t) : t.received = s.received ++ e.chunk := by
  obtain ⟨hquiet, heq⟩ := h
  rw [readEvent_eq hquiet] at heq
  rw [← Except.ok.inj heq]

theorem ReadStep.handed (h : ReadStep s e t) :
    t.handed = s.handed ++ (scan (s.seen e)).slices := by
  obtain ⟨hquiet, heq⟩ := h
  rw [readEvent_eq hquiet] at heq
  rw [← Except.ok.inj heq]

theorem received_final (h : Steps ReadStep s run) :
    (final s run).received = s.received ++ (run.map fun p => p.1.chunk).flatten := by
  induction run generalizing s with
  | nil => simp
  | cons p run ih =>
      obtain ⟨e, t⟩ := p
      rw [final_cons, ih h.2, ReadStep.received h.1]
      simp

theorem Cuts.received (h : Cuts S run) : (final {} run).received = S := by
  rw [received_final h.steps, h.chunks]
  rfl

theorem Cuts.kept (h : Cuts S run) : Kept (final {} run) :=
  (h.steps.along kept_init fun _ _ _ hs hstep => hstep.kept hs).final

/-- What has been handed over determines what is left. -/
theorem Cuts.handed_append_input (h : Cuts S run) :
    (final {} run).handed.flatten ++ (final {} run).input = S := by
  rw [h.kept.handed_eq_drained, h.kept.drained_append_input, h.received]

/-! ### Byte by byte -/

/-- One more byte completes at most one message, and then the view is that message. -/
theorem scan_front_snoc {c : Byte} (h : messages.first r = none) :
    (scan (front (r ++ [c]))).slices = messages.frames (r ++ [c]) := by
  cases hx : messages.first (r ++ [c]) with
  | none =>
      rw [scan_slices_of_stuck (view_stuck (prefix_front _) (length_front_lt _) hx),
        messages.frames_of_none hx]
  | some n =>
      have hle := messages.le_length hx
      have hshort := (messages_first_eq_some.mp hx).2
      have hn : n = (r ++ [c]).length := by
        by_contra hne
        rw [List.length_append, List.length_singleton] at hle hne
        rw [messages.of_append hx (by omega)] at h
        simp at h
      subst hn
      rw [front_of_length_lt hshort, scan_view_iff (List.prefix_refl _) hshort,
        messages.frames_of_some hx]
      simp [Steady]

theorem exists_bytewise (S : List Byte) :
    ∃ run, Cuts S run ∧ (final {} run).handed = messages.frames S ∧
      (final {} run).input = messages.rest S := by
  induction S using List.reverseRecOn with
  | nil => exact ⟨[], ⟨steps_nil, rfl⟩, by simp, by simp⟩
  | append_singleton S c ih =>
      obtain ⟨run, hcuts, hhanded, hinput⟩ := ih
      let e : ReadEvent := ⟨[c], fun _ => some 0⟩
      obtain ⟨t, ht⟩ := readStep_total (final {} run) (e := e) fun _ _ => ⟨0, rfl, by decide⟩
      have hcuts' : Cuts (S ++ [c]) (run ++ [(e, t)]) := by
        refine ⟨steps_append.mpr ⟨hcuts.steps, ht, steps_nil⟩, ?_⟩
        rw [List.map_append, List.flatten_append, hcuts.chunks]
        rfl
      have hhanded' : t.handed = messages.frames (S ++ [c]) := by
        rw [ht.handed, hhanded, Stream.seen, hinput, scan_front_snoc (messages.first_rest S),
          ← messages.frames_append]
      refine ⟨_, hcuts', by simpa using hhanded', ?_⟩
      have hsplit := hcuts'.handed_append_input
      rw [final_append, final_cons, final_nil, hhanded'] at hsplit
      rw [final_append, final_cons, final_nil]
      exact List.append_cancel_left (hsplit.trans (messages.flatten_frames_append_rest _).symm)

/-! ### All at once -/

theorem exists_single (S : List Byte) :
    ∃ run, Cuts S run ∧ (final {} run).handed = (scan (front S)).slices := by
  let e : ReadEvent := ⟨S, fun _ => some 0⟩
  obtain ⟨t, ht⟩ := readStep_total {} (e := e) fun _ _ => ⟨0, rfl, by decide⟩
  exact ⟨[(e, t)], ⟨⟨ht, steps_nil⟩, by simp [e]⟩, ht.handed⟩

/-! ### Any cuts of a steady stream -/

/-- Frames are handed over in order, and all of them once all bytes have arrived. -/
def Progress (S : List Byte) (s : Stream) : Prop :=
  s.received <+: S → ∃ todo, messages.frames S = s.handed ++ todo ∧ (s.received = S → todo = [])

theorem progress_init (S : List Byte) : Progress S {} := by
  intro _
  refine ⟨messages.frames S, rfl, ?_⟩
  rintro rfl
  exact messages.frames_nil

theorem ReadStep.progress (hsteady : SteadyStream S) (hkept : Kept s) (hs : Progress S s)
    (h : ReadStep s e t) : Progress S t := by
  intro hpre
  rw [h.received] at hpre
  obtain ⟨todo, hframes, -⟩ := hs ((List.prefix_append _ _).trans hpre)
  obtain ⟨ys, hS, hys⟩ := messages.frames_eq_append hframes
  -- the input is a part of what is left behind the frames handed over
  have hreceived : s.received ++ e.chunk = s.handed.flatten ++ (s.input ++ e.chunk) := by
    rw [hkept.handed_eq_drained, ← List.append_assoc, hkept.drained_append_input]
  rw [SteadyStream, hframes] at hsteady
  obtain ⟨hle, htodo⟩ := steady_append hsteady
  have hinput : s.input ++ e.chunk <+: ys := by
    rwa [hreceived, hS, List.prefix_append_right_inj] at hpre
  have hseen : s.seen e <+: ys := (prefix_front _).trans hinput
  have hlt : (s.seen e).length < 2 ^ 32 := length_front_lt _
  rw [← hys] at htodo
  obtain ⟨todo', htodo'⟩ := prefix_scan_view hseen hlt htodo
  refine ⟨todo', ?_, ?_⟩
  · rw [hframes, h.handed, List.append_assoc, htodo', hys]
  · intro hall
    rw [h.received, hreceived, hS, List.append_cancel_left_eq] at hall
    have hlen : (s.seen e).length = S.length % 2 ^ 32 - s.handed.flatten.length := by
      rw [Stream.seen, length_front, hall]
      have hsum := congrArg List.length hS
      rw [List.length_append] at hsum
      omega
    have heq := (scan_view_iff hseen hlt).mpr (by rwa [hlen])
    rw [heq] at htodo'
    simpa using htodo'

theorem Cuts.handed_eq (h : Cuts S run) (hsteady : SteadyStream S) :
    (final {} run).handed = messages.frames S := by
  have hinv : Along (fun s => Kept s ∧ Progress S s) {} run :=
    h.steps.along ⟨kept_init, progress_init S⟩ fun _ _ _ hs hstep =>
      ⟨hstep.kept hs.1, hstep.progress hsteady hs.1 hs.2⟩
  obtain ⟨todo, hframes, hdone⟩ := hinv.final.2 (by rw [h.received])
  rw [hframes, hdone h.received, List.append_nil]

/-- An array of one element, cut behind its header: the header becomes a slice
of its own. -/
theorem split_array_differs :
    (Value.array [.bulk [97]]).WellFormed ∧ ¬ ChunkInvariant (encodeAll [.array [.bulk [97]]]) := by
  refine ⟨by simp [Value.WellFormed], fun h => ?_⟩
  let header : List Byte := [42, 49, 13, 10]
  let element : List Byte := [36, 49, 13, 10, 97, 13, 10]
  let past : Memory := fun _ => some 0
  have hquiet : Quiet past := fun _ _ => ⟨0, rfl, by decide⟩
  have hwhole : Cuts (encodeAll [.array [.bulk [97]]])
      [(⟨header ++ element, past⟩, ⟨header ++ element, [header ++ element], header ++ element, [],
        some .completed⟩)] :=
    ⟨⟨⟨hquiet, rfl⟩, steps_nil⟩, by decide +kernel⟩
  have hsplit : Cuts (encodeAll [.array [.bulk [97]]])
      [(⟨header, past⟩, ⟨header, [header], header, [], some .completed⟩),
        (⟨element, past⟩, ⟨header ++ element, [header, element], header ++ element, [],
          some .completed⟩)] :=
    ⟨⟨⟨hquiet, rfl⟩, ⟨hquiet, rfl⟩, steps_nil⟩, by decide +kernel⟩
  exact absurd (h _ _ hwhole hsplit).1 (by decide)

/-- The outcome of a stream is independent of its cuts exactly if it is steady. -/
theorem chunkInvariant_iff (S : List Byte) : ChunkInvariant S ↔ SteadyStream S := by
  constructor
  · intro h
    obtain ⟨run, hcuts, hhanded, -⟩ := exists_bytewise S
    obtain ⟨run', hcuts', hhanded'⟩ := exists_single S
    have heq := (h run run' hcuts hcuts').1
    rw [hhanded, hhanded'] at heq
    rw [SteadyStream, ← length_front]
    exact (scan_view_iff (prefix_front S) (length_front_lt S)).mp heq.symm
  · intro hsteady run run' h h'
    have heq : (final {} run).handed = (final {} run').handed := by
      rw [h.handed_eq hsteady, h'.handed_eq hsteady]
    refine ⟨heq, ?_⟩
    have hsplit := h.handed_append_input
    rw [heq] at hsplit
    exact List.append_cancel_left (hsplit.trans h'.handed_append_input.symm)

end Canal.Reading
