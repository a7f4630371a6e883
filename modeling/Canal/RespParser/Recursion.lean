import Canal.Foundation.Procedure
import Canal.RespParser.Consumption
import Mathlib.Data.Prod.Lex

/-!
# The recursion of the parser

`process_resp` loops over a buffer and calls `process_array`, which calls
`process_resp` in a second loop; the bound of that loop comes from the input, and
an iteration of it may consume nothing. Here the two functions run on a stack,
where their calls do not come with a bound, and every run comes to an end: with
the outcome of `processResp` and `processArray`, whose fuel is therefore never
the reason for it.

A handler that is `Completed` consumes something, so each turn of the outer loop
leaves fewer bytes. Behind the header of an array that is not empty there are fewer
bytes as well, and each turn of the inner loop leaves one turn less. Positions may
pass the end of the buffer, by two bytes at most: the arithmetic on `size_t` does
not wrap around.
-/

namespace Canal.RespParser

open Buffer Decimal Procedure StateTransition

variable {buf : Memory} {len p i q n k found fuel bound : Nat} {c : Byte}

/-! ## The two functions on a stack -/

/-- Where an invocation of `process_resp` or `process_array` is: at the test of
the `while` loop, at the beginning, or at the test of the `for` loop with `n`
turns left. -/
inductive Point where
  | resp (index processedBuf : Nat)
  | array (index : Nat)
  | elements (index n subIndex : Nat)
  deriving DecidableEq, Repr

/-- Where an invocation waits for the other function: `process_resp` in its
`switch`, `process_array` in a turn of its loop, with `n` turns left behind it. -/
inductive Wait where
  | resp (index processedBuf : Nat)
  | elements (index n subIndex : Nat)
  deriving DecidableEq, Repr

abbrev ParserMove := Move Point Wait (Nat × ParseResult) Stop

/-- `process_resp` behind its `switch`. -/
def afterSwitch (index processedBuf : Nat) (result : Nat × ParseResult) : ParserMove :=
  if result.2 ≠ .completed then
    .ret (processedBuf - index, result.2)
  else
    .jump (.resp index (processedBuf + result.1))

/-- `process_array` behind the conversion of its header. -/
def afterHeader (index found : Nat) : Option Int → ParserMove
  | none => .ret (0, .error)
  | some arraySize =>
      if arraySize = 0 ∨ arraySize = -1 then
        .ret (found - index + 2, .completed)
      else if arraySize < -1 then
        .ret (0, .error)
      else
        .jump (.elements index arraySize.toNat (found + 2))

/-- The `for` loop of `process_array` behind the call. -/
def afterElement (index n subIndex : Nat) (result : Nat × ParseResult) : ParserMove :=
  if result.2 ≠ .completed then
    .ret (0, .error)
  else
    .jump (.elements index n (subIndex + result.1))

def parserMove (buf : Memory) (len : Nat) : Point → ParserMove
  | .resp index processedBuf =>
      if len > processedBuf then
        .bind (load buf processedBuf) fun c =>
          match leafHandler c with
          | some handler => .bind (handler buf len processedBuf) (afterSwitch index processedBuf)
          | none =>
              if c = arrayReply then
                .call (.array processedBuf) (.resp index processedBuf)
              else
                .ret (processedBuf - index, .error)
      else
        .ret (processedBuf - index, .completed)
  | .array index =>
      .bind (findCRLFIndex buf len index) fun found =>
        if found ≠ 0 then
          .bind (headerNumber buf index found) (afterHeader index found)
        else
          .ret (0, .incompleted)
  | .elements index 0 subIndex => .ret (subIndex - index, .completed)
  | .elements index (n + 1) subIndex =>
      .call (.resp subIndex subIndex) (.elements index n subIndex)

/-- `process_resp` and `process_array` without a bound on their calls. The callback
is left out: it only reads the buffer, and returns nothing. -/
def parser (buf : Memory) (len : Nat) : Program Point Wait (Nat × ParseResult) Stop where
  move := parserMove buf len
  resume
    | .resp index processedBuf => afterSwitch index processedBuf
    | .elements index n subIndex => afterElement index n subIndex

/-! ## What each point assumes and promises -/

/-- What the functions with fuel compute from a point on. -/
def value (buf : Memory) (len fuel : Nat) : Point → Eval (Nat × ParseResult)
  | .resp index processedBuf => do
      let r ← processRespFuel buf len fuel index processedBuf
      return (r.count, r.verdict)
  | .array index => processArrayFuel buf len fuel index
  | .elements index n subIndex => do
      match ← elements (fun i => processRespFuel buf len fuel i i) n subIndex with
      | none => return (0, .error)
      | some subIndex => return (subIndex - index, .completed)

namespace Point

/-- Fuel that lasts from a point on. -/
def Enough (len fuel : Nat) : Point → Prop
  | .resp _ processedBuf => Lasts len processedBuf fuel
  | .array index => 1 ≤ fuel ∧ (index < len → len - index + 1 ≤ fuel)
  | .elements index _ _ => len - index ≤ fuel

/-- The position for which the invocation has been called. -/
def start : Point → Nat
  | .resp index _ => index
  | .array index => index
  | .elements index _ _ => index

/-- The position that has been reached. -/
def position : Point → Nat
  | .resp _ processedBuf => processedBuf
  | .array index => index
  | .elements _ _ subIndex => subIndex

/-- What the invocation consumes at least if it is `Completed`. -/
def least : Point → Nat
  | .resp _ _ => 0
  | .array _ => 3
  | .elements _ _ _ => 3

/-- A point on the way of a run whose positions are at most `bound`. The loop over
the elements stands behind a header that lies in the buffer. -/
def Placed (len bound : Nat) : Point → Prop
  | .resp index processedBuf => index ≤ processedBuf ∧ processedBuf ≤ bound
  | .array index => index ≤ bound
  | .elements index _ subIndex => index < len ∧ index + 3 ≤ subIndex ∧ subIndex ≤ bound

/-- The bytes that are left, the part of the functions in which the point is, and
the turns that are left. -/
def rank (len : Nat) : Point → ℕ ×ₗ ℕ ×ₗ ℕ
  | .resp _ processedBuf => toLex (len - processedBuf, toLex (2, 0))
  | .array index => toLex (len - index, toLex (1, 0))
  | .elements index n _ => toLex (len - index, toLex (0, n))

def Below (len : Nat) (f g : Point) : Prop := f.rank len < g.rank len

end Point

/-- How an invocation ends that is at the point `f`. -/
structure Ended (buf : Memory) (len bound : Nat) (f : Point) (o : Eval (Nat × ParseResult)) :
    Prop where
  agrees : ∀ fuel, f.Enough len fuel → value buf len fuel f = o
  reads : Reads buf (len + 2) o
  bounded : ∀ r, o = .ok r → f.start + r.1 ≤ bound
  consumes : ∀ k, o = .ok (k, .completed) → f.least ≤ k

/-- The move keeps what the point `f` promises, and goes down from there. -/
abbrev Keeps (buf : Memory) (len bound : Nat) (f : Point) (m : ParserMove) : Prop :=
  (parser buf len).Meets (fun g => g.Placed len bound ∧ g.Below len f) (Ended buf len bound)
    (Ended buf len bound f) m

section

variable {f g : Point} {o : Eval (Nat × ParseResult)} {r : Nat × ParseResult} {e : Stop}

theorem Ended.ret (agrees : ∀ fuel, f.Enough len fuel → value buf len fuel f = .ok r)
    (bounded : f.start + r.1 ≤ bound) (consumes : r.2 = .completed → f.least ≤ r.1) :
    Ended buf len bound f (.ok r) where
  agrees := agrees
  reads := reads_ok r
  bounded _ h := Except.ok.inj h ▸ bounded
  consumes k h := by
    obtain rfl := Except.ok.inj h
    exact consumes rfl

theorem Ended.abort (agrees : ∀ fuel, f.Enough len fuel → value buf len fuel f = .error e)
    (reads : Reads buf (len + 2) (.error e : Eval (Nat × ParseResult))) :
    Ended buf len bound f (.error e) :=
  ⟨agrees, reads, nofun, nofun⟩

/-- An invocation that goes on at `g` ends as it does from there. -/
theorem Ended.of_jump (h : Ended buf len bound g o)
    (agrees : ∀ fuel, f.Enough len fuel →
      ∃ less, g.Enough len less ∧ value buf len fuel f = value buf len less g)
    (start : f.start = g.start) (least : f.least ≤ g.least) : Ended buf len bound f o where
  agrees fuel hfuel := by
    obtain ⟨less, hless, hvalue⟩ := agrees fuel hfuel
    rw [hvalue, h.agrees less hless]
  reads := h.reads
  bounded r hr := start ▸ h.bounded r hr
  consumes k hk := Nat.le_trans least (h.consumes k hk)

/-! ## The moves of `process_resp` -/

theorem value_resp_eq_error : value buf len fuel (.resp i p) = .error e ↔
    processRespFuel buf len fuel i p = .error e := by
  rw [value]
  cases processRespFuel buf len fuel i p <;> simp

theorem value_resp_eq_ok : value buf len fuel (.resp i p) = .ok r ↔
    ∃ calls, processRespFuel buf len fuel i p = .ok ⟨calls, r.1, r.2⟩ := by
  rw [value]
  cases processRespFuel buf len fuel i p with
  | error e => simp
  | ok s =>
      obtain ⟨calls, count, verdict⟩ := s
      simp [Prod.ext_iff]

theorem value_resp_abort (hp : p < len)
    (h : handle (processArrayFuel buf len fuel) buf len p = .error e) :
    value buf len (fuel + 1) (.resp i p) = .error e := by
  rw [value_resp_eq_error]
  simp [processRespFuel, hp, h]

theorem value_resp_stop {res : Option (Nat × ParseResult)} (hp : p < len)
    (h : handle (processArrayFuel buf len fuel) buf len p = .ok res)
    (hv : (res.getD (0, .error)).2 ≠ .completed) :
    value buf len (fuel + 1) (.resp i p) = .ok (p - i, (res.getD (0, .error)).2) := by
  rw [value_resp_eq_ok]
  exact ⟨[], processRespFuel_stop hp h hv⟩

theorem value_resp_next (hp : p < len)
    (h : handle (processArrayFuel buf len fuel) buf len p = .ok (some (k, .completed))) :
    value buf len (fuel + 1) (.resp i p) = value buf len fuel (.resp i (p + k)) := by
  rw [value, value, processRespFuel_next hp h]
  cases processRespFuel buf len fuel i (p + k) <;> rfl

theorem below_resp (hp : p < len) (hk : 3 ≤ k) :
    (Point.resp i (p + k)).Below len (.resp i p) := by
  rw [Point.Below, Point.rank, Point.rank, Prod.Lex.toLex_lt_toLex]
  exact Or.inl (by dsimp only; omega)

/-- Fuel that lasts for a turn of the loop is one more than what lasts for the array
that the turn may begin with. -/
theorem forall_enough_resp {P : Nat → Prop} (hp : p < len)
    (h : ∀ less, (Point.array p).Enough len less → P (less + 1)) :
    ∀ fuel, (Point.resp i p).Enough len fuel → P fuel := by
  intro fuel hfuel
  obtain ⟨hpos, hlasts⟩ : Lasts len p fuel := hfuel
  obtain ⟨less, rfl⟩ := Nat.exists_eq_add_of_le' hpos
  have hless := hlasts hp
  exact h less ⟨by omega, fun _ => by omega⟩

theorem keeps_afterSwitch (hp : p < len) (hi : i ≤ p)
    (hhandle : ∀ less, (Point.array p).Enough len less →
      handle (processArrayFuel buf len less) buf len p = .ok (some r))
    (hbound : p ≤ bound) (hr : r.2 = .completed → 3 ≤ r.1 ∧ p + r.1 ≤ bound) :
    Keeps buf len bound (.resp i p) (afterSwitch i p r) := by
  obtain ⟨k, v⟩ := r
  by_cases hv : v = .completed
  · subst hv
    obtain ⟨hk, hend⟩ := hr rfl
    refine .jump ⟨⟨by dsimp only; omega, hend⟩, below_resp hp hk⟩ fun o ho => ?_
    refine ho.of_jump (forall_enough_resp hp fun less hless => ?_) rfl (Nat.le_refl _)
    have hlasts := hless.2 hp
    exact ⟨less, ⟨hless.1, fun _ => by omega⟩, value_resp_next hp (hhandle less hless)⟩
  · rw [afterSwitch, if_pos hv]
    refine .ret (.ret (forall_enough_resp hp fun less hless => ?_) ?_ fun h => absurd h hv)
    · exact value_resp_stop hp (hhandle less hless) hv
    · simp only [Point.start]
      omega

theorem below_array (p : Nat) : (Point.array p).Below len (.resp i p) := by
  rw [Point.Below, Point.rank, Point.rank, Prod.Lex.toLex_lt_toLex, Prod.Lex.toLex_lt_toLex]
  exact Or.inr ⟨rfl, Or.inl (by decide)⟩

theorem keeps_resp (hbound : len + 2 ≤ bound) (hf : (Point.resp i p).Placed len bound) :
    Keeps buf len bound (.resp i p) (parserMove buf len (.resp i p)) := by
  obtain ⟨hi, hp⟩ := hf
  rw [parserMove]
  by_cases hlt : len > p
  · rw [if_pos hlt]
    refine .bind (fun e hload => ?_) fun c hload => ?_
    · refine .abort (forall_enough_resp hlt fun less _ => value_resp_abort hlt ?_)
        ((reads_load (by omega)).error hload)
      rw [handle_eq, hload]
      rfl
    · cases hleaf : leafHandler c with
      | some handler =>
          have hmoderate := leafHandler_moderate hleaf hlt hload
          refine .bind (fun e he => ?_) fun r hr => ?_
          · refine .abort (forall_enough_resp hlt fun less _ => value_resp_abort hlt ?_)
              (hmoderate.reads.error he)
            simp [handle_eq, hload, hleaf, he]
          · refine keeps_afterSwitch hlt hi (fun less _ => ?_) hp fun hv => ?_
            · simp [handle_eq, hload, hleaf, hr]
            · have hk := hmoderate.consumes r.1 (hr.trans (by rw [← hv]))
              omega
      | none =>
          dsimp only
          by_cases harray : c = arrayReply
          · subst harray
            rw [if_pos rfl]
            refine .call ⟨hp, below_array p⟩ (fun e he => ?_) fun r hr => ?_
            · refine .abort (forall_enough_resp hlt fun less hless => value_resp_abort hlt ?_)
                he.reads
              have hvalue : processArrayFuel buf len less p = .error e := he.agrees less hless
              simp [handle_eq, hload, hleaf, hvalue]
            · refine keeps_afterSwitch hlt hi (fun less hless => ?_) hp fun hv => ?_
              · have hvalue : processArrayFuel buf len less p = .ok r := hr.agrees less hless
                simp [handle_eq, hload, hleaf, hvalue]
              · exact ⟨hr.consumes r.1 (by rw [← hv]), hr.bounded r rfl⟩
          · rw [if_neg harray]
            refine .ret (.ret (forall_enough_resp hlt fun less _ => ?_) ?_ (by simp))
            · have hnone : handle (processArrayFuel buf len less) buf len p = .ok none := by
                simp [handle_eq, hload, hleaf, harray]
              exact value_resp_stop hlt hnone (by decide)
            · simp only [Point.start]
              omega
  · rw [if_neg hlt]
    refine .ret (.ret (fun fuel hfuel => ?_) ?_ fun _ => Nat.zero_le _)
    · obtain ⟨less, rfl⟩ := Nat.exists_eq_add_of_le' (show 1 ≤ fuel from hfuel.1)
      rw [value_resp_eq_ok]
      exact ⟨[], processRespFuel_end (by omega)⟩
    · simp only [Point.start]
      omega

/-! ## The moves of `process_array` -/

theorem below_elements (hp : p < i) (hlen : p < len) (s : Nat) :
    (Point.resp i i).Below len (.elements p (n + 1) s) := by
  rw [Point.Below, Point.rank, Point.rank, Prod.Lex.toLex_lt_toLex]
  exact Or.inl (by dsimp only; omega)

theorem below_turn (s t : Nat) : (Point.elements p n t).Below len (.elements p (n + 1) s) := by
  simp only [Point.Below, Point.rank, Prod.Lex.toLex_lt_toLex]
  exact Or.inr ⟨trivial, Or.inr ⟨trivial, Nat.lt_succ_self n⟩⟩

theorem below_header (s : Nat) : (Point.elements p n s).Below len (.array p) := by
  simp only [Point.Below, Point.rank, Prod.Lex.toLex_lt_toLex]
  exact Or.inr ⟨trivial, Or.inl (by decide)⟩

theorem forall_enough_array {P : Nat → Prop}
    (h : ∀ less, (p < len → len - p ≤ less) → P (less + 1)) :
    ∀ fuel, (Point.array p).Enough len fuel → P fuel := by
  intro fuel hfuel
  obtain ⟨less, rfl⟩ := Nat.exists_eq_add_of_le' hfuel.1
  exact h less fun hlt => Nat.le_of_succ_le_succ (hfuel.2 hlt)

theorem keeps_afterHeader {number : Option Int} (hbound : len + 2 ≤ bound)
    (hp : (Point.array p).Placed len bound) (hfind : findCRLFIndex buf len p = .ok found)
    (hfound : found ≠ 0) (hnumber : headerNumber buf p found = .ok number) :
    Keeps buf len bound (.array p) (afterHeader p found number) := by
  obtain ⟨hle, hlen⟩ := findCRLFIndex_bounds hfind hfound
  cases number with
  | none =>
      refine .ret (.ret (forall_enough_array fun less _ => ?_) hp (by simp))
      simp [value, processArrayFuel, hfind, hfound, hnumber]
  | some z =>
      have hlt := headerNumber_lt hnumber hle
      rw [afterHeader]
      by_cases hnone : z = 0 ∨ z = -1
      · rw [if_pos hnone]
        refine .ret (.ret (forall_enough_array fun less _ => ?_) ?_ fun _ => ?_)
        · simp [value, processArrayFuel, hfind, hfound, hnumber, hnone]
        · simp only [Point.start]
          omega
        · simp only [Point.least]
          omega
      · rw [if_neg hnone]
        by_cases hneg : z < -1
        · rw [if_pos hneg]
          refine .ret (.ret (forall_enough_array fun less _ => ?_) hp (by simp))
          simp [value, processArrayFuel, hfind, hfound, hnumber, hnone, hneg]
        · rw [if_neg hneg]
          refine .jump ⟨⟨by omega, by omega, by omega⟩, below_header _⟩ fun o ho => ?_
          refine ho.of_jump (forall_enough_array fun less hless => ?_) rfl (Nat.le_refl _)
          refine ⟨less, hless (by omega), ?_⟩
          rw [value, processArrayFuel, hfind, ok_bind, if_pos hfound, hnumber, ok_bind]
          dsimp only
          rw [if_neg hnone, if_neg hneg]
          rfl

theorem keeps_array (hbound : len + 2 ≤ bound) (hp : (Point.array p).Placed len bound) :
    Keeps buf len bound (.array p) (parserMove buf len (.array p)) := by
  refine .bind (fun e hfind => ?_) fun found hfind => ?_
  · refine .abort (forall_enough_array fun less _ => ?_)
      ((reads_findCRLFIndex buf len p).error hfind)
    simp [value, processArrayFuel, hfind]
  · by_cases hfound : found = 0
    · rw [if_neg (not_not.mpr hfound)]
      refine .ret (.ret (forall_enough_array fun less _ => ?_) hp (by simp))
      simp [value, processArrayFuel, hfind, hfound]
    · rw [if_pos hfound]
      refine .bind (fun e hnumber => ?_) fun number hnumber =>
        keeps_afterHeader hbound hp hfind hfound hnumber
      obtain ⟨hle, hlen⟩ := findCRLFIndex_bounds hfind hfound
      refine .abort (forall_enough_array fun less _ => ?_)
        ((reads_headerNumber hle hlen).error hnumber)
      simp [value, processArrayFuel, hfind, hfound, hnumber]

theorem keeps_elements {s : Nat} (hf : (Point.elements p n s).Placed len bound) :
    Keeps buf len bound (.elements p n s) (parserMove buf len (.elements p n s)) := by
  obtain ⟨hlen, hs, hbound⟩ := hf
  cases n with
  | zero =>
      refine .ret (.ret (fun fuel _ => rfl) ?_ fun _ => ?_)
      · simp only [Point.start]
        omega
      · simp only [Point.least]
        omega
  | succ n =>
      -- an element begins at least 3 bytes behind its array, and less fuel lasts for it
      have henough : ∀ fuel, (Point.elements p (n + 1) s).Enough len fuel →
          (Point.resp s s).Enough len fuel := by
        intro fuel hfuel
        have hfuel : len - p ≤ fuel := hfuel
        exact ⟨by omega, fun _ => by omega⟩
      refine .call ⟨⟨Nat.le_refl s, hbound⟩, below_elements (by omega) hlen s⟩ (fun e he => ?_)
        fun r hr => ?_
      · refine .abort (fun fuel hfuel => ?_) he.reads
        have hresp := value_resp_eq_error.mp (he.agrees fuel (henough fuel hfuel))
        simp [value, elements, hresp]
      · have hend : s + r.1 ≤ bound := hr.bounded r rfl
        have hresp := fun fuel hfuel => value_resp_eq_ok.mp (hr.agrees fuel (henough fuel hfuel))
        obtain ⟨k, v⟩ := r
        change Keeps buf len bound _ (afterElement p n s (k, v))
        by_cases hv : v = .completed
        · subst hv
          refine .jump ⟨⟨hlen, by dsimp only; omega, hend⟩, below_turn s _⟩ fun o ho => ?_
          refine ho.of_jump (fun fuel hfuel => ⟨fuel, hfuel, ?_⟩) rfl (Nat.le_refl _)
          obtain ⟨calls, hcalls⟩ := hresp fuel hfuel
          simp [value, elements, hcalls]
        · rw [afterElement, if_pos hv]
          refine .ret (.ret (fun fuel hfuel => ?_) ?_ (by simp))
          · obtain ⟨calls, hcalls⟩ := hresp fuel hfuel
            simp [value, elements, hcalls, hv]
          · simp only [Point.start]
            omega

/-! ## Every run comes to an end -/

theorem parser_total (buf : Memory) (hbound : len + 2 ≤ bound) :
    (parser buf len).TotalContract (Point.Below len) (Point.Placed len bound)
      (Ended buf len bound) := by
  intro f hf
  cases f with
  | resp i p => exact keeps_resp hbound hf
  | array p => exact keeps_array hbound hf
  | elements p n s => exact keeps_elements hf

theorem below_wf (len : Nat) : WellFounded (Point.Below len) :=
  InvImage.wf (Point.rank len) wellFounded_lt

/-- A run ends with what the functions with fuel compute, where it lasts. -/
theorem ends_value (buf : Memory) (hbound : len + 2 ≤ bound) (hf : f.Placed len bound)
    (hfuel : f.Enough len fuel) : (parser buf len).Ends f (value buf len fuel f) ∧
      Ended buf len bound f (value buf len fuel f) := by
  obtain ⟨o, ho, hends⟩ := (parser_total buf hbound).ends (below_wf len) hf
  rw [ho.agrees fuel hfuel]
  exact ⟨hends, ho⟩

/-- The two functions, called for a position. -/
def entries (index : Nat) : List Point := [.resp index index, .array index]

theorem placed_of_mem_entries (hf : f ∈ entries i) : f.Placed len (max i (len + 2)) := by
  obtain rfl | hf := List.mem_cons.mp hf
  · exact ⟨Nat.le_refl i, Nat.le_max_left _ _⟩
  · obtain rfl := List.mem_singleton.mp hf
    exact Nat.le_max_left _ _

theorem Point.Placed.position_le (h : f.Placed len bound) : f.position ≤ bound := by
  cases f with
  | resp i p => exact h.2
  | array p => exact h
  | elements p n s => exact h.2.2

theorem entry_sound {config : Config Point Wait (Nat × ParseResult) Stop} (hf : f ∈ entries i)
    (h : Reaches (parser buf len).step (.running f []) config) :
    (parser buf len).Sound (Point.Placed len (max i (len + 2)))
      (Ended buf len (max i (len + 2))) config :=
  (parser_total buf (Nat.le_max_right i (len + 2))).contract.sound (placed_of_mem_entries hf) h

/-- No position passes the end of the buffer by more than two bytes, unless the
run begins there. -/
theorem position_le {stack : List Wait} (hf : f ∈ entries i)
    (h : Reaches (parser buf len).step (.running f []) (.running g stack)) :
    g.position ≤ max i (len + 2) :=
  (entry_sound hf h).1.position_le

theorem afterSwitch_ne_call {w : Wait} : afterSwitch i p r ≠ .call f w := by
  rw [afterSwitch]
  split <;> simp

theorem afterHeader_ne_call {number : Option Int} {w : Wait} :
    afterHeader p found number ≠ .call f w := by
  cases number with
  | none => simp [afterHeader]
  | some z =>
      rw [afterHeader]
      split
      · simp
      · split <;> simp

theorem afterElement_ne_call {s : Nat} {w : Wait} : afterElement p n s r ≠ .call f w := by
  rw [afterElement]
  split <;> simp

/-- `process_array` calls `process_resp` at the test of its loop only. -/
theorem parserMove_eq_call {s : Nat}
    (h : parserMove buf len f = .call (.resp i q) (.elements p n s)) :
    f = .elements p (n + 1) i := by
  cases f with
  | resp index processedBuf =>
      rw [parserMove] at h
      split at h
      · obtain ⟨c, -, hc⟩ := Move.bind_eq_call.mp h
        cases hleaf : leafHandler c with
        | some handler =>
            simp only [hleaf] at hc
            obtain ⟨r, -, hr⟩ := Move.bind_eq_call.mp hc
            exact absurd hr afterSwitch_ne_call
        | none =>
            simp only [hleaf] at hc
            split at hc <;> simp at hc
      · cases h
  | array index =>
      obtain ⟨found, -, h⟩ := Move.bind_eq_call.mp h
      split at h
      · obtain ⟨number, -, h⟩ := Move.bind_eq_call.mp h
        exact absurd h afterHeader_ne_call
      · simp at h
  | elements index m subIndex =>
      cases m with
      | zero => cases h
      | succ m =>
          obtain ⟨hresp, hwait⟩ := Move.call.inj h
          obtain ⟨rfl, rfl⟩ := Point.resp.inj hresp
          obtain ⟨rfl, rfl, -⟩ := Wait.elements.inj hwait
          rfl

/-- Whenever `process_array` at `p` calls `process_resp`, it does so behind `p`. -/
theorem lt_of_calls {config : Config Point Wait (Nat × ParseResult) Stop} {s : Nat}
    (hf : f ∈ entries k) (hrun : Reaches (parser buf len).step (.running f []) config)
    (h : (parser buf len).Calls config (.resp i q) (.elements p n s)) : p < i := by
  have hsound := entry_sound hf hrun
  cases config with
  | running g stack =>
      obtain rfl := parserMove_eq_call h
      obtain ⟨⟨-, hbehind, -⟩, -⟩ := hsound
      omega
  | returning r stack =>
      cases stack with
      | nil => exact h.elim
      | cons w stack =>
          cases w with
          | resp index processedBuf => exact absurd h afterSwitch_ne_call
          | elements index m subIndex => exact absurd h afterElement_ne_call
  | aborted e => exact h.elim

end

/-- The recursion of the parser ends, whatever is in the buffer and behind it, and
it ends with a value where the buffer and two bytes behind it can be read. A handler
consumes a type byte and CR LF at least, and an array has its elements parsed behind
its own position. -/
structure RecursionEnds (buf : Memory) (len index : Nat) : Prop where
  resp : (parser buf len).Ends (.resp index index)
    (do let r ← processResp buf len index; return (r.count, r.verdict))
  array : (parser buf len).Ends (.array index) (processArray buf len index)
  reads : Reads buf (len + 2) (processResp buf len index) ∧
    Reads buf (len + 2) (processArray buf len index)
  consumes : ∀ handler ∈ [processString, processError, processInteger, processBulk, processArray],
    ∀ c ∈ [stringReply, errorReply, integerReply, bulkReply, arrayReply],
      ∀ p < len, buf p = some c → ∀ k, handler buf len p = .ok (k, .completed) → 3 ≤ k
  deeper : ∀ f ∈ entries index, ∀ config, Reaches (parser buf len).step (.running f []) config →
    ∀ i q p n s, (parser buf len).Calls config (.resp i q) (.elements p n s) → p < i

theorem processArray_ended (buf : Memory) (len p : Nat) :
    (parser buf len).Ends (.array p) (processArray buf len p) ∧
      Ended buf len (max p (len + 2)) (.array p) (processArray buf len p) := by
  have henough : (Point.array p).Enough len (depth len p) := by
    constructor
    · rw [depth]
      omega
    · intro _
      rw [depth]
      omega
  exact ends_value buf (Nat.le_max_right _ _) (Nat.le_max_left _ _) henough

/-- From a type byte, no handler is `Completed` with less than 3 bytes. -/
theorem handler_consumes {handler : Handler}
    (hhandler : handler ∈ [processString, processError, processInteger, processBulk, processArray])
    (hc : c ≠ CR) (hp : p < len) (hload : load buf p = .ok c)
    (h : handler buf len p = .ok (k, .completed)) : 3 ≤ k := by
  have hline : processLine buf len p = .ok (k, .completed) → 3 ≤ k := fun h =>
    ((processLine_moderate hp hload hc).consumes k h).1
  simp only [List.mem_cons, List.not_mem_nil, or_false] at hhandler
  obtain rfl | rfl | rfl | rfl | rfl := hhandler
  · exact hline h
  · exact hline h
  · exact hline h
  · exact ((processBulk_moderate buf len p).consumes k h).1
  · exact (processArray_ended buf len p).2.consumes k h

/-- Every run of the two functions comes to an end. -/
theorem recursion_ends (buf : Memory) (len index : Nat) : RecursionEnds buf len index := by
  obtain ⟨harray, harrayEnded⟩ := processArray_ended buf len index
  obtain ⟨hresp, hrespEnded⟩ := ends_value buf (Nat.le_max_right index (len + 2))
    (placed_of_mem_entries (f := .resp index index) (by simp [entries])) (lasts_depth len index)
  refine ⟨hresp, harray, ⟨fun e he => ?_, harrayEnded.reads⟩, ?_, ?_⟩
  · exact hrespEnded.reads e (value_resp_eq_error.mpr he)
  · intro handler hhandler c hc p hp hbyte k h
    have hne : c ≠ CR := by
      simp only [List.mem_cons, List.not_mem_nil, or_false] at hc
      obtain rfl | rfl | rfl | rfl | rfl := hc <;> decide
    exact handler_consumes hhandler hne hp (by simp [load, hbyte]) h
  · intro f hf config hrun i q p n s h
    exact lt_of_calls hf hrun h

end Canal.RespParser
