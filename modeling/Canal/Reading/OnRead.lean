import Canal.Foundation.Trace
import Canal.RespParser.Shape

/-!
# Read events

`TcpSession::onRead` and `redis_tcp_client::onRead` read in the same way: they
view the whole input buffer, parse it once, and drain what the parse has
consumed. They differ in the callback that receives the slices.

The length of the buffer is a `size_t`; `getInputBufferLength` returns it as a
`uint32_t`. From 2^32 bytes on, the view is therefore shorter than the buffer,
and empty when the length is a multiple of 2^32.

A run consists of read events, each delivering a chunk of the stream. The bytes
drained so far are always the slices handed over so far, in order. The verdict
of an event is `Completed` exactly when its buffer is left empty, except for a
buffer of at least 2^32 bytes whose view consists of whole items.
-/

namespace Canal.Reading

open Buffer RespParser Trace

/-- `evbuffer_get_length`, converted to `uint32_t`. -/
def getInputBufferLength (input : List Byte) : Nat := input.length % 2 ^ 32

/-- `evbuffer_pullup` of `size` bytes. -/
def viewInputBuffer (input : List Byte) (size : Nat) : List Byte := input.take size

/-- `evbuffer_drain` of `len` bytes, converted to `uint32_t`: the bytes drained,
and the buffer that is left. -/
def drainInputBuffer (input : List Byte) (len : Nat) : List Byte × List Byte :=
  (input.take (len % 2 ^ 32), input.drop (len % 2 ^ 32))

/-- What one `onRead` hands to its callback, the verdict if it has parsed at
all, the bytes it has drained and the input buffer it leaves. -/
structure ReadResult where
  slices : List (List Byte)
  verdict : Option ParseResult
  drained : List Byte
  input : List Byte
  deriving DecidableEq, Repr

/-- `onRead`, with the memory that lies behind the view. -/
def onRead (input : List Byte) (past : Memory) : Eval ReadResult := do
  let length := getInputBufferLength input
  if length = 0 then
    return ⟨[], none, [], input⟩
  else
    let buf := view (viewInputBuffer input length) past
    let ret ← processResp buf length 0
    let slices ← delivered buf ret.calls
    if ret.count > 0 then
      let (drained, left) := drainInputBuffer input ret.count
      return ⟨slices, some ret.verdict, drained, left⟩
    else
      return ⟨slices, some ret.verdict, [], input⟩

/-- The bytes that `onRead` parses. -/
def front (input : List Byte) : List Byte := viewInputBuffer input (getInputBufferLength input)

theorem length_front (input : List Byte) : (front input).length = input.length % 2 ^ 32 :=
  List.length_take_of_le (Nat.mod_le _ _)

theorem prefix_front (input : List Byte) : front input <+: input := List.take_prefix _ _

theorem length_front_lt (input : List Byte) : (front input).length < 2 ^ 32 := by
  rw [length_front]
  exact Nat.mod_lt _ (by decide)

theorem front_of_length_lt {input : List Byte} (h : input.length < 2 ^ 32) :
    front input = input := by
  rw [front, viewInputBuffer, getInputBufferLength, Nat.mod_eq_of_lt h, List.take_length]

theorem prefix_scan_front (input : List Byte) : (scan (front input)).slices.flatten <+: input :=
  (prefix_scan_flatten _).trans (prefix_front input)

/-- One `onRead` in terms of the scan of what it parses. -/
theorem onRead_eq {past : Memory} (h : Quiet past) (input : List Byte) :
    onRead input past = .ok
      { slices := (scan (front input)).slices
        verdict := if front input = [] then none else some (scan (front input)).verdict
        drained := (scan (front input)).slices.flatten
        input := input.drop (scan (front input)).slices.flatten.length } := by
  have hlength : getInputBufferLength input = (front input).length := (length_front input).symm
  have hview : viewInputBuffer input (front input).length = front input := by
    rw [← hlength, front]
  have hparse := processResp_view past (Nat.zero_le (front input).length) (Or.inl h)
  have hcalls := delivered_callsFrom past (Nat.zero_le (front input).length)
    (prefix_scan_flatten (front input))
  have hpre := prefix_scan_front input
  have hshort : (scan (front input)).slices.flatten.length % 2 ^ 32 =
      (scan (front input)).slices.flatten.length :=
    Nat.mod_eq_of_lt
      (Nat.lt_of_le_of_lt (prefix_scan_flatten _).length_le (length_front_lt input))
  have hdrained := List.prefix_iff_eq_take.mp hpre
  rw [onRead, hlength, hview]
  by_cases hempty : front input = []
  · simp [hempty]
  · have hne : (front input).length ≠ 0 := by simpa using hempty
    rw [List.drop_zero] at hparse
    simp only [hne, ↓reduceIte, hparse, ok_bind, Scan.parsed, Nat.zero_add, Nat.sub_zero, hcalls,
      hempty, drainInputBuffer, hshort, ← hdrained, pure_eq_ok]
    split
    · rfl
    · rename_i hzero
      have hnil : (scan (front input)).slices.flatten = [] := by
        rw [← List.length_eq_zero_iff]
        omega
      simp [hnil]

/-! ## Runs of read events -/

/-- The stream of one connection: the bytes received so far, the slices handed
over and the bytes drained, and the buffer and verdict of the last event. -/
structure Stream where
  received : List Byte := []
  handed : List (List Byte) := []
  drained : List Byte := []
  input : List Byte := []
  verdict : Option ParseResult := none

/-- A read event: the chunk that has arrived, and the memory behind the view. -/
structure ReadEvent where
  chunk : List Byte
  past : Memory

def readEvent (s : Stream) (e : ReadEvent) : Eval Stream := do
  let r ← onRead (s.input ++ e.chunk) e.past
  return { received := s.received ++ e.chunk
           handed := s.handed ++ r.slices
           drained := s.drained ++ r.drained
           input := r.input
           verdict := r.verdict }

/-- The steps of a stream. Behind a view there is no LF. -/
def ReadStep (s : Stream) (e : ReadEvent) (t : Stream) : Prop :=
  Quiet e.past ∧ readEvent s e = .ok t

/-- What the parser sees in the next event. -/
def Stream.seen (s : Stream) (e : ReadEvent) : List Byte := front (s.input ++ e.chunk)

theorem readEvent_eq {s : Stream} {e : ReadEvent} (h : Quiet e.past) :
    readEvent s e = .ok
      { received := s.received ++ e.chunk
        handed := s.handed ++ (scan (s.seen e)).slices
        drained := s.drained ++ (scan (s.seen e)).slices.flatten
        input := (s.input ++ e.chunk).drop (scan (s.seen e)).slices.flatten.length
        verdict := if s.seen e = [] then none else some (scan (s.seen e)).verdict } := by
  rw [readEvent, onRead_eq h]
  rfl

/-- No read event faults or runs out of fuel. -/
theorem readStep_total (s : Stream) {e : ReadEvent} (h : Quiet e.past) : ∃ t, ReadStep s e t :=
  ⟨_, h, readEvent_eq h⟩

/-- No byte is lost, repeated or reordered, and each slice has its shape. -/
structure Kept (s : Stream) : Prop where
  handed_eq_drained : s.handed.flatten = s.drained
  drained_append_input : s.drained ++ s.input = s.received
  shaped : ∀ slice ∈ s.handed, MessageShaped slice

theorem kept_init : Kept {} where
  handed_eq_drained := rfl
  drained_append_input := rfl
  shaped := by simp

theorem ReadStep.kept {s t : Stream} {e : ReadEvent} (hs : Kept s) (h : ReadStep s e t) :
    Kept t := by
  obtain ⟨hquiet, heq⟩ := h
  rw [readEvent_eq hquiet] at heq
  obtain rfl := Except.ok.inj heq
  refine ⟨by simp [hs.handed_eq_drained], ?_, ?_⟩
  · have hseen := List.prefix_iff_eq_append.mp (prefix_scan_front (s.input ++ e.chunk))
    rw [List.append_assoc, Stream.seen, hseen, ← List.append_assoc, hs.drained_append_input]
  · intro slice hslice
    obtain hmem | hmem := List.mem_append.mp hslice
    · exact hs.shaped slice hmem
    · exact messageShaped_of_mem_scan hmem

/-- What the verdict of an event says about the buffer it leaves. -/
structure Conserved (s : Stream) : Prop extends Kept s where
  verdict_iff : ∀ v, s.verdict = some v → (v = .completed ↔ s.input = [])

theorem conserved_init : Conserved {} where
  toKept := kept_init
  verdict_iff := by simp

/-- The view of the event ends before the buffer does, and reads as whole items. -/
def Truncated (s : Stream) (e : ReadEvent) : Prop :=
  2 ^ 32 ≤ (s.input ++ e.chunk).length ∧ s.seen e ≠ [] ∧ Flat (s.seen e)

/-- A parse is `Completed` exactly when it leaves nothing, unless its view is
flat and shorter than the buffer. -/
theorem completed_iff_drained (input : List Byte) :
    ((scan (front input)).verdict = .completed ↔
        input.drop (scan (front input)).slices.flatten.length = []) ↔
      ¬ (2 ^ 32 ≤ input.length ∧ Flat (front input)) := by
  have hlength := length_front input
  rw [List.drop_eq_nil_iff]
  by_cases hflat : Flat (front input)
  · have hv := scan_verdict_completed.mpr hflat
    have hmod := Nat.mod_lt input.length (show 2 ^ 32 > 0 by decide)
    rw [scan_flatten_of_completed hv, hlength]
    simp only [hv, hflat, and_true, true_iff, Nat.not_le]
    constructor
    · intro hle
      omega
    · intro hlt
      rw [Nat.mod_eq_of_lt hlt]
  · have hv : (scan (front input)).verdict ≠ .completed := fun h =>
      hflat (scan_verdict_completed.mp h)
    have hpre := prefix_scan_flatten (front input)
    have hle := (prefix_front input).length_le
    simp only [hv, hflat, and_false, not_false_eq_true, iff_true, false_iff, Nat.not_le]
    refine Nat.lt_of_le_of_ne (hpre.length_le.trans hle) fun heq => hv ?_
    refine scan_completed_of_flatten (hpre.eq_of_length (Nat.le_antisymm hpre.length_le ?_))
    rw [heq]
    exact hle

theorem ReadStep.verdict_iff {s t : Stream} {e : ReadEvent} (h : ReadStep s e t) :
    (∀ v, t.verdict = some v → (v = .completed ↔ t.input = [])) ↔ ¬ Truncated s e := by
  obtain ⟨hquiet, heq⟩ := h
  rw [readEvent_eq hquiet] at heq
  obtain rfl := Except.ok.inj heq
  by_cases hempty : s.seen e = []
  · simp [Truncated, hempty]
  · have hiff := completed_iff_drained (s.input ++ e.chunk)
    simp only [Truncated, hempty, ne_eq, not_false_eq_true, true_and]
    exact Iff.trans (by simp [Stream.seen]) hiff

theorem ReadStep.conserved_iff {s t : Stream} {e : ReadEvent} (hs : Kept s)
    (h : ReadStep s e t) : Conserved t ↔ ¬ Truncated s e := by
  rw [← h.verdict_iff]
  exact ⟨fun ht => ht.verdict_iff, fun hv => ⟨h.kept hs, hv⟩⟩

private theorem overlong_completed {n : Nat} (hn : n ≠ 0) (hmod : (4 + n) % 2 ^ 32 = 4) :
    ∃ t, ReadStep {} ⟨[43, 97, 13, 10] ++ List.replicate n 0, fun _ => some 0⟩ t ∧
      t.verdict = some .completed ∧ t.input = List.replicate n 0 ∧ ¬ Conserved t := by
  have hquiet : Quiet fun _ => some 0 := fun k _ => ⟨0, rfl, by decide⟩
  have hlength : ([43, 97, 13, 10] ++ List.replicate n (0 : Byte)).length % 2 ^ 32 = 4 := by
    rw [List.length_append, List.length_replicate]
    exact hmod
  have hseen : Stream.seen {} ⟨[43, 97, 13, 10] ++ List.replicate n 0, fun _ => some 0⟩ =
      [43, 97, 13, 10] := by
    simp only [Stream.seen, front, viewInputBuffer, getInputBufferLength, List.nil_append]
    rw [hlength]
    rfl
  have hscan : scan [43, 97, 13, 10] = ⟨[[43, 97, 13, 10]], .completed⟩ := by decide +kernel
  have hstep : readEvent {} ⟨[43, 97, 13, 10] ++ List.replicate n 0, fun _ => some 0⟩ = .ok
      { received := [43, 97, 13, 10] ++ List.replicate n 0
        handed := [[43, 97, 13, 10]]
        drained := [43, 97, 13, 10]
        input := List.replicate n 0
        verdict := some .completed } := by
    rw [readEvent_eq hquiet, hseen, hscan]
    rfl
  refine ⟨_, ⟨hquiet, hstep⟩, rfl, rfl, fun h => ?_⟩
  have hleft := (h.verdict_iff .completed rfl).mp rfl
  exact hn (by simpa using hleft)

/-- A message and 2^32 further bytes in one buffer: the verdict is `Completed`
although 2^32 bytes are left. -/
theorem oversized_buffer_completed :
    ∃ t, ReadStep {} ⟨[43, 97, 13, 10] ++ List.replicate (2 ^ 32) 0, fun _ => some 0⟩ t ∧
      t.verdict = some .completed ∧ t.input = List.replicate (2 ^ 32) 0 ∧ ¬ Conserved t :=
  overlong_completed (by decide) (by decide)

/-- In every run no read event fails, and the stream is conserved at every
point exactly if no event parses a truncated view that is flat. -/
theorem conserved_along_iff (run : List (ReadEvent × Stream)) (h : Steps ReadStep {} run) :
    (∀ e, Quiet e.past → ∃ t, ReadStep (final {} run) e t) ∧
      (Along Conserved {} run ↔ Steps (fun s e _ => ¬ Truncated s e) {} run) :=
  ⟨fun _ he => readStep_total _ he,
    h.along_iff conserved_init fun _ _ _ hs hstep => hstep.conserved_iff hs.toKept⟩

/-- `+a` and CR LF, followed by the beginning of a bulk string. -/
theorem conserved_message :
    Along Conserved {}
      [(({ chunk := [43, 97, 13, 10, 36], past := fun _ => some 0 } : ReadEvent),
        { received := [43, 97, 13, 10, 36]
          handed := [[43, 97, 13, 10]]
          drained := [43, 97, 13, 10]
          input := [36]
          verdict := some .incompleted })] := by
  refine (conserved_along_iff _ ?_).2.mpr ?_
  · exact steps_cons.mpr ⟨⟨fun _ _ => ⟨0, rfl, by decide⟩, rfl⟩, steps_nil⟩
  · exact steps_cons.mpr ⟨fun h => absurd h.1 (by decide), steps_nil⟩

end Canal.Reading
