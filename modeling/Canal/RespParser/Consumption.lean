import Canal.RespParser.Header

/-!
# What a handler consumes

A handler that is `Completed` has found CR LF behind its type byte, so it consumes
at least 3 bytes, whatever else is in the buffer or behind it. What it consumes may
reach over the end of the buffer, by two bytes at most, and so far it may read.
-/

namespace Canal.RespParser

open Buffer Decimal

variable {buf : Memory} {len p i k found : Nat} {c : Byte} {z : Int}

/-! ## The search helper -/

theorem reads_findCRLFIndex (buf : Memory) (len i : Nat) :
    Reads buf (len + 2) (findCRLFIndex buf len i) := by
  rw [findCRLFIndex]
  split
  · exact reads_ok 0
  · apply (reads_find (by omega)).bind
    intro p hp
    have hle := (find_bounds hp).2
    apply (reads_load (by omega)).bind
    intro c _
    split <;> exact reads_ok _

theorem findCRLFIndex_find (h : findCRLFIndex buf len i = .ok found) (hfound : found ≠ 0) :
    i ≤ len ∧ find buf CR (len - i) i = .ok found := by
  rw [findCRLFIndex] at h
  split at h
  · exact absurd (Except.ok.inj h).symm hfound
  · obtain ⟨p, hfind, h⟩ := bind_eq_ok.mp h
    obtain ⟨c, -, h⟩ := bind_eq_ok.mp h
    split at h
    · obtain rfl := Except.ok.inj h
      exact ⟨by omega, hfind⟩
    · exact absurd (Except.ok.inj h).symm hfound

theorem findCRLFIndex_bounds (h : findCRLFIndex buf len i = .ok found) (hfound : found ≠ 0) :
    i ≤ found ∧ found ≤ len := by
  obtain ⟨hi, hfind⟩ := findCRLFIndex_find h hfound
  have hbounds := find_bounds hfind
  omega

/-- A search that starts at another byte than CR ends behind it. -/
theorem findCRLFIndex_lt (h : findCRLFIndex buf len i = .ok found) (hfound : found ≠ 0)
    (hi : i < len) (hload : load buf i = .ok c) (hc : c ≠ CR) : i < found := by
  obtain ⟨-, hfind⟩ := findCRLFIndex_find h hfound
  obtain ⟨m, hm⟩ := Nat.exists_eq_add_of_lt hi
  have hcount : len - i = m + 1 := by omega
  rw [hcount] at hfind
  exact find_ne hfind hload hc

theorem reads_headerNumber (hi : i ≤ found) (hfound : found ≤ len) :
    Reads buf (len + 2) (headerNumber buf i found) :=
  (reads_string (by omega)).bind fun _ _ => reads_ok _

/-- A header with a number has a text, and does not begin with the CR of its line. -/
theorem headerNumber_lt (h : headerNumber buf i found = .ok (some z)) (hi : i ≤ found) :
    i < found := by
  apply Nat.lt_of_le_of_ne hi
  rintro rfl
  -- the length -1 makes `std::string` throw, and here the empty text has no number
  have hcount : i - i - 1 = 0 := by omega
  have hnone : headerNumber buf i i = .ok none := by
    rw [headerNumber, hcount]
    rfl
  rw [hnone] at h
  cases h

/-! ## The handlers -/

/-- The handler reads only the buffer and two bytes behind it, and it is
`Completed` only with at least 3 bytes, two of them behind the buffer at most. -/
structure Moderate (buf : Memory) (len p : Nat) (x : Eval (Nat × ParseResult)) : Prop where
  reads : Reads buf (len + 2) x
  consumes : ∀ k, x = .ok (k, .completed) → 3 ≤ k ∧ p + k ≤ len + 2

theorem reads_processLine (buf : Memory) (len p : Nat) :
    Reads buf (len + 2) (processLine buf len p) := by
  apply (reads_findCRLFIndex buf len p).bind
  intro found _
  split <;> exact reads_ok _

theorem processLine_completed (h : processLine buf len p = .ok (k, .completed)) :
    ∃ found, findCRLFIndex buf len p = .ok found ∧ found ≠ 0 ∧ k = found - p + 2 := by
  obtain ⟨found, hfind, h⟩ := bind_eq_ok.mp h
  split at h
  · exact ⟨found, hfind, ‹_›, by simpa [eq_comm] using h⟩
  · simp at h

theorem processLine_moderate (hp : p < len) (hload : load buf p = .ok c) (hc : c ≠ CR) :
    Moderate buf len p (processLine buf len p) where
  reads := reads_processLine buf len p
  consumes k h := by
    obtain ⟨found, hfind, hfound, rfl⟩ := processLine_completed h
    have hbounds := findCRLFIndex_bounds hfind hfound
    have hlt := findCRLFIndex_lt hfind hfound hp hload hc
    omega

theorem reads_processBulk (buf : Memory) (len p : Nat) :
    Reads buf (len + 2) (processBulk buf len p) := by
  apply (reads_findCRLFIndex buf len p).bind
  intro found hfind
  split
  · rename_i hfound
    obtain ⟨hle, hlen⟩ := findCRLFIndex_bounds hfind hfound
    apply (reads_headerNumber hle hlen).bind
    intro number _
    cases number with
    | none => exact reads_ok _
    | some z =>
        dsimp only
        split
        · exact reads_ok _
        · split
          · apply (reads_findCRLFIndex buf len _).bind
            intro found2 _
            split <;> exact reads_ok _
          · exact reads_ok _
  · exact reads_ok _

/-- A bulk string that is `Completed` ends with its header or with its second line. -/
theorem processBulk_completed (h : processBulk buf len p = .ok (k, .completed)) :
    ∃ found z, findCRLFIndex buf len p = .ok found ∧ found ≠ 0 ∧
      headerNumber buf p found = .ok (some z) ∧
      (k = found - p + 2 ∨ ∃ found2, findCRLFIndex buf len (found + 2) = .ok found2 ∧
        found2 ≠ 0 ∧ k = found2 - p + 2) := by
  obtain ⟨found, hfind, h⟩ := bind_eq_ok.mp h
  split at h
  · obtain ⟨number, hnumber, h⟩ := bind_eq_ok.mp h
    cases number with
    | none => simp at h
    | some z =>
        refine ⟨found, z, hfind, ‹_›, hnumber, ?_⟩
        dsimp only at h
        split at h
        · exact Or.inl (by simpa [eq_comm] using h)
        · split at h
          · obtain ⟨found2, hfind2, h⟩ := bind_eq_ok.mp h
            split at h
            · exact Or.inr ⟨found2, hfind2, ‹_›, by simpa [eq_comm] using h⟩
            · simp at h
          · simp at h
  · simp at h

theorem processBulk_moderate (buf : Memory) (len p : Nat) :
    Moderate buf len p (processBulk buf len p) where
  reads := reads_processBulk buf len p
  consumes k h := by
    obtain ⟨found, z, hfind, hfound, hnumber, hk⟩ := processBulk_completed h
    obtain ⟨hle, hlen⟩ := findCRLFIndex_bounds hfind hfound
    have hlt := headerNumber_lt hnumber hle
    obtain hk | ⟨found2, hfind2, hfound2, hk⟩ := hk
    · omega
    · obtain ⟨hle2, hlen2⟩ := findCRLFIndex_bounds hfind2 hfound2
      omega

/-- The handlers that `process_resp` selects by a type byte and that do not call it. -/
def leafHandler (c : Byte) : Option Handler :=
  if c = stringReply then
    some processString
  else if c = errorReply then
    some processError
  else if c = integerReply then
    some processInteger
  else if c = bulkReply then
    some processBulk
  else
    none

theorem leafHandler_moderate {handler : Handler} (h : leafHandler c = some handler) (hp : p < len)
    (hload : load buf p = .ok c) : Moderate buf len p (handler buf len p) := by
  have hline : ∀ {d : Byte}, c = d → d ≠ CR → Moderate buf len p (processLine buf len p) :=
    fun hd hne => processLine_moderate hp hload (hd ▸ hne)
  rw [leafHandler] at h
  split at h
  · obtain rfl := Option.some.inj h
    exact hline ‹_› (by decide)
  · split at h
    · obtain rfl := Option.some.inj h
      exact hline ‹_› (by decide)
    · split at h
      · obtain rfl := Option.some.inj h
        exact hline ‹_› (by decide)
      · split at h
        · obtain rfl := Option.some.inj h
          exact processBulk_moderate buf len p
        · simp at h

/-- The `switch` of `process_resp`, with the recursive handler apart. -/
theorem handle_eq (array : Nat → Eval (Nat × ParseResult)) :
    handle array buf len p = (do
      let c ← load buf p
      match leafHandler c with
      | some handler => return some (← handler buf len p)
      | none =>
          if c = arrayReply then
            return some (← array p)
          else
            return none) := by
  rw [handle]
  cases load buf p with
  | error e => rfl
  | ok c =>
      simp only [ok_bind, leafHandler]
      split
      · rfl
      · split
        · rfl
        · split
          · rfl
          · split <;> rfl

end Canal.RespParser
