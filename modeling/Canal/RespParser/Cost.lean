import Canal.Foundation.Numeral
import Canal.Foundation.Timing
import Canal.RespParser.Depth

/-!
# What a parse may cost

The first element of an array takes the whole rest of the buffer with it, and in all
the turns that follow `process_array` calls `process_resp` at the end, for nothing. So
a parse looks at each byte once, and it takes as many turns as the headers ask for:
their number has nothing to do with the bytes that there are. At most it is `2 ^ 32`
steps for each byte, and the thirteen bytes of `*2147483647\r\n` take half as many
again for all of them.
-/

namespace Canal.RespParser

open Buffer Decimal Procedure

variable {buf : Memory} {len p i k n s fuel bound : Nat} {r : Nat × ParseResult}

/-! ## Where a loop ends -/

theorem drained_of_completed {calls : List (Nat × Nat)} (hi : i ≤ p)
    (h : processRespFuel buf len fuel i p = .ok ⟨calls, k, .completed⟩) : len ≤ i + k := by
  induction fuel generalizing p calls with
  | zero => simp [processRespFuel] at h
  | succ fuel ih =>
      rw [processRespFuel] at h
      split at h
      · obtain ⟨res, -, h⟩ := bind_eq_ok.mp h
        cases res with
        | none => simp at h
        | some res =>
            dsimp only at h
            split at h
            · rename_i hres
              simp only [pure_eq_ok, Except.ok.injEq, Parsed.mk.injEq] at h
              exact absurd h.2.2 hres
            · obtain ⟨next, hnext, h⟩ := bind_eq_ok.mp h
              obtain ⟨calls', count, verdict⟩ := next
              simp only [pure_eq_ok, Except.ok.injEq, Parsed.mk.injEq] at h
              obtain ⟨-, rfl, rfl⟩ := h
              exact ih (by omega) hnext
      · simp only [pure_eq_ok, Except.ok.injEq, Parsed.mk.injEq] at h
        omega

theorem le_of_elements {resp : Nat → Eval Parsed} {t : Nat}
    (h : elements resp n s = .ok (some t)) : s ≤ t := by
  induction n generalizing s with
  | zero =>
      simp only [elements, pure_eq_ok, Except.ok.injEq, Option.some.injEq] at h
      exact h.le
  | succ n ih =>
      obtain ⟨result, -, h⟩ := bind_eq_ok.mp h
      split at h
      · simp at h
      · exact Nat.le_trans (Nat.le_add_right s _) (ih h)

/-- A loop over the elements ends at the end of the buffer, if it has a turn at all. -/
theorem drained_of_elements {t : Nat}
    (h : elements (fun i => processRespFuel buf len fuel i i) (n + 1) s = .ok (some t)) :
    len ≤ t := by
  obtain ⟨result, hresult, h⟩ := bind_eq_ok.mp h
  obtain ⟨calls, count, verdict⟩ := result
  split at h
  · simp at h
  · rename_i hverdict
    obtain rfl : verdict = .completed := by simpa using hverdict
    exact Nat.le_trans (drained_of_completed (Nat.le_refl s) hresult) (le_of_elements h)

theorem Ended.drained_resp (h : Ended buf len bound (.resp i p) (.ok (k, .completed)))
    (hi : i ≤ p) : len ≤ i + k := by
  have hvalue := h.agrees (depth len p) (lasts_depth len p)
  obtain ⟨calls, hcalls⟩ := value_resp_eq_ok.mp hvalue
  exact drained_of_completed hi hcalls

theorem Ended.drained_elements
    (h : Ended buf len bound (.elements i (n + 1) s) (.ok (k, .completed))) : len ≤ i + k := by
  have hvalue := h.agrees (len - i) (Nat.le_refl _)
  rw [value] at hvalue
  obtain ⟨t, ht, hvalue⟩ := bind_eq_ok.mp hvalue
  cases t with
  | none => simp at hvalue
  | some t =>
      have hdrained := drained_of_elements ht
      simp only [pure_eq_ok, Except.ok.injEq, Prod.mk.injEq] at hvalue
      omega

/-! ## The cost of each point -/

/-- What is left of the buffer when an array has ended. -/
def leftover (len i : Nat) : Eval (Nat × ParseResult) → Nat
  | .ok (k, .completed) => len - (i + k)
  | _ => 0

/-- The loops pay for the bytes in front of them, and for the turns that are left. An
array pays for the bytes that it takes, and leaves five steps to its caller. -/
def Point.cost (len : Nat) : Point → Eval (Nat × ParseResult) → Nat
  | .resp _ processedBuf, _ => 2 ^ 32 * (len - processedBuf) + 1
  | .array index, o => max 1 (2 ^ 32 * (len - index - leftover len index o) - 5)
  | .elements _ n subIndex, _ => 2 ^ 32 * (len - subIndex) + 3 * n + 1

/-- The move can be afforded by an invocation at the point `f`. -/
abbrev Pays (buf : Memory) (len bound : Nat) (budget : Eval (Nat × ParseResult) → Nat)
    (m : ParserMove) : Prop :=
  (parser buf len).Affords (Ended buf len bound) (Point.cost len) budget m

theorem pays_afterSwitch {budget : Eval (Nat × ParseResult) → Nat} (hone : ∀ o, 1 ≤ budget o)
    (h : r.2 = .completed → ∀ o, 2 ^ 32 * (len - (p + r.1)) + 2 ≤ budget o) :
    Pays buf len bound budget (afterSwitch i p r) := by
  by_cases hr : r.2 = .completed
  · rw [afterSwitch, if_neg (fun hne => hne hr)]
    exact .jump fun o _ => h hr o
  · rw [afterSwitch, if_pos hr]
    exact .ret (hone _)

theorem pays_afterElement {budget : Eval (Nat × ParseResult) → Nat} (hone : ∀ o, 1 ≤ budget o)
    (h : r.2 = .completed → ∀ o, 2 ^ 32 * (len - (s + r.1)) + 3 * n + 2 ≤ budget o) :
    Pays buf len bound budget (afterElement i n s r) := by
  by_cases hr : r.2 = .completed
  · rw [afterElement, if_neg (fun hne => hne hr)]
    exact .jump fun o _ => h hr o
  · rw [afterElement, if_pos hr]
    exact .ret (hone _)

theorem leftover_error (e : Stop) : leftover len i (.error e) = 0 := rfl

theorem leftover_of_ne (h : r.2 ≠ .completed) : leftover len i (.ok r) = 0 := by
  obtain ⟨k, v⟩ := r
  cases v with
  | completed => exact absurd rfl h
  | incompleted | error => rfl

/-- An array with elements leaves nothing. -/
theorem leftover_of_ended (h : Ended buf len bound (.elements i (n + 1) s) o) :
    leftover len i o = 0 := by
  cases o with
  | error e => exact leftover_error e
  | ok r =>
      obtain ⟨k, v⟩ := r
      cases v with
      | completed => exact Nat.sub_eq_zero_of_le h.drained_elements
      | incompleted | error => rfl

theorem pays_resp :
    Pays buf len bound (Point.cost len (.resp i p)) (parserMove buf len (.resp i p)) := by
  have hone : ∀ o, 1 ≤ Point.cost len (.resp i p) o := fun o => Nat.le_add_left 1 _
  rw [parserMove]
  by_cases hlt : len > p
  · rw [if_pos hlt]
    refine .bind (fun e _ => hone _) fun c hload => ?_
    cases hleaf : leafHandler c with
    | some handler =>
        have hmoderate := leafHandler_moderate hleaf hlt hload
        refine .bind (fun e _ => hone _) fun r hr => pays_afterSwitch hone fun hv o => ?_
        have hk := (hmoderate.consumes r.1 (hr.trans (by rw [← hv]))).1
        simp only [Point.cost]
        omega
    | none =>
        dsimp only
        split
        · refine .call (fun r _ => if r.2 = .completed then 2 ^ 32 * (len - (p + r.1)) + 2 else 1)
            (fun e _ => ?_) (fun r hr o => ?_) fun r _ => ?_
          · simp only [Point.cost, leftover_error]
            omega
          · by_cases hv : r.2 = .completed
            · have hk : 3 ≤ r.1 := hr.consumes r.1 (by rw [← hv])
              have hleft : leftover len p (.ok r) = len - (p + r.1) := by
                obtain ⟨k, v⟩ := r
                cases hv
                rfl
              simp only [Point.cost, hleft, if_pos hv]
              omega
            · simp only [Point.cost, leftover_of_ne hv, if_neg hv]
              omega
          · refine pays_afterSwitch (fun o => ?_) fun hv o => by rw [if_pos hv]
            split <;> omega
        · exact .ret (hone _)
  · rw [if_neg hlt]
    exact .ret (hone _)

theorem headerNumber_lt_pow {found : Nat} {z : Int}
    (h : headerNumber buf i found = .ok (some z)) : z < 2 ^ 31 := by
  obtain ⟨text, -, h⟩ := bind_eq_ok.mp h
  obtain ⟨-, -, hfits⟩ := stoi_eq_some_iff.mp (Except.ok.inj h)
  exact hfits.2

theorem pays_array :
    Pays buf len bound (Point.cost len (.array i)) (parserMove buf len (.array i)) := by
  have hone : ∀ o, 1 ≤ Point.cost len (.array i) o := fun o => Nat.le_max_left 1 _
  rw [parserMove]
  refine .bind (fun e _ => hone _) fun found hfind => ?_
  split
  · rename_i hfound
    refine .bind (fun e _ => hone _) fun number hnumber => ?_
    obtain ⟨-, hlen⟩ := findCRLFIndex_bounds hfind hfound
    cases number with
    | none => exact .ret (hone _)
    | some z =>
        have hlt := header_lt hnumber
        have hz := headerNumber_lt_pow hnumber
        rw [afterHeader]
        split
        · exact .ret (hone _)
        · split
          · exact .ret (hone _)
          · obtain ⟨n, hn⟩ : ∃ n : Nat, z.toNat = n + 1 := ⟨z.toNat - 1, by omega⟩
            rw [hn]
            refine .jump fun o ho => ?_
            simp only [Point.cost, leftover_of_ended ho]
            omega
  · exact .ret (hone _)

theorem pays_elements :
    Pays buf len bound (Point.cost len (.elements i n s))
      (parserMove buf len (.elements i n s)) := by
  cases n with
  | zero => exact .ret (Nat.le_add_left 1 _)
  | succ n =>
      refine .call
        (fun r _ => if r.2 = .completed then 2 ^ 32 * (len - (s + r.1)) + 3 * n + 2 else 1)
        (fun e _ => ?_) (fun r hr o => ?_) fun r _ => ?_
      · simp only [Point.cost]
        omega
      · by_cases hv : r.2 = .completed
        · have hdrained : len ≤ s + r.1 := by
            obtain ⟨k, v⟩ := r
            cases hv
            exact hr.drained_resp (Nat.le_refl s)
          simp only [Point.cost, if_pos hv]
          omega
        · simp only [Point.cost, if_neg hv]
          omega
      · refine pays_afterElement (fun o => ?_) fun hv o => by rw [if_pos hv]
        split <;> omega

theorem parser_pays (f : Point) :
    Pays buf len bound (f.cost len) ((parser buf len).move f) := by
  cases f with
  | resp i p => exact pays_resp
  | array i => exact pays_array
  | elements i n s => exact pays_elements

/-- From each of its entries, the parser ends in time, with its outcome. -/
theorem takes_value {f : Point} (hf : f ∈ entries i) (hfuel : f.Enough len fuel) :
    ∃ n, n ≤ f.cost len (value buf len fuel f) ∧
      Takes (parser buf len).step n (.running f []) (finish [] (value buf len fuel f)) := by
  obtain ⟨o, n, ho, hn, hrun⟩ := (parser_total buf (Nat.le_max_right i (len + 2))).takes
    (below_wf len) (fun g _ => parser_pays g) (placed_of_mem_entries hf) []
  rw [ho.agrees fuel hfuel]
  exact ⟨n, hn, hrun⟩

/-! ## A header that asks for much -/

/-- `*n\r\n`, with nothing behind it. -/
def demand (n : Nat) : List Byte := line arrayReply (decimal n)

theorem demand_eq (n : Nat) : demand n = framed arrayReply (decimal n) [] [] := by
  rw [framed, List.nil_append, List.append_nil]
  rfl

/-- Behind the end of the buffer, a turn of the loop over the elements takes three
steps, and gets nowhere. -/
theorem takes_elements (buf : Memory) (len i n : Nat) (stack : List Wait) :
    Takes (parser buf len).step (3 * n + 1) (.running (.elements i n len) stack)
      (.returning (len - i, .completed) stack) := by
  induction n with
  | zero => exact .head rfl (.refl _)
  | succ n ih =>
      refine .head (b := .running (.resp len len) (.elements i n len :: stack)) rfl <|
        .head (b := .returning (0, .completed) (.elements i n len :: stack)) ?_ <|
        .head (b := .running (.elements i n len) stack) rfl ih
      apply Option.mem_some.mpr
      simp [parser, parserMove, Move.enter]

theorem takes_demand (hn : 1 ≤ n) (hlt : n < 2 ^ 31) (past : Memory) :
    Takes (parser (view (demand n) past) (demand n).length).step (3 * n + 5)
      (.running (.resp 0 0) []) (.returning ((demand n).length, .completed) []) := by
  have hlength : (demand n).length = (decimal n).length + 3 := length_line _ _
  obtain ⟨hfind, hnumber⟩ := header_framed (c := arrayReply) (h := decimal n) [] [] past
    (by decide) (CR_notMem_decimal n)
  rw [← demand_eq, stoi_decimal hlt] at hnumber
  rw [← demand_eq] at hfind
  have hload : load (view (demand n) past) 0 = .ok arrayReply := by
    rw [load_view_of_lt (by omega)]
    rfl
  have hcall : (parser (view (demand n) past) (demand n).length).move (.resp 0 0) =
      .call (.array 0) (.resp 0 0) := by
    simp only [parser, parserMove, if_pos (show (demand n).length > 0 by omega), hload]
    rfl
  have hjump : (parser (view (demand n) past) (demand n).length).move (.array 0) =
      .jump (.elements 0 n (demand n).length) := by
    have hsize : ¬ ((n : Int) = 0 ∨ (n : Int) = -1) := by omega
    have hsign : ¬ (n : Int) < -1 := by omega
    simp only [List.length_nil, Nat.zero_add] at hfind hnumber
    simp only [parser, parserMove, hfind, Move.bind, hnumber, afterHeader, hsize, hsign]
    simp [hlength]
  have hend : (parser (view (demand n) past) (demand n).length).move
      (.resp 0 (0 + (demand n).length)) = .ret ((demand n).length, .completed) := by
    simp [parser, parserMove]
  have hloop := takes_elements (view (demand n) past) (demand n).length 0 n [.resp 0 0]
  refine .head (b := .running (.array 0) [.resp 0 0]) ?_ <|
    .head (b := .running (.elements 0 n (demand n).length) [.resp 0 0]) ?_ <|
    (hloop.trans <| .head (b := .running (.resp 0 (0 + (demand n).length)) []) rfl <|
      .head (b := .returning ((demand n).length, .completed) []) ?_ (.refl _))
  · exact Option.mem_some.mpr (by rw [hcall]; rfl)
  · exact Option.mem_some.mpr (by rw [hjump]; rfl)
  · exact Option.mem_some.mpr (by rw [hend]; rfl)

/-- From any position a parse ends within `2 ^ 32` steps for each byte in front of it,
and the next header may make it take three steps for each element it asks for. To look
for the end of a line is a part of one step. -/
structure CostBounded (buf : Memory) (len index : Nat) : Prop where
  resp : ∃ n, n ≤ 2 ^ 32 * (len - index) + 1 ∧
    Takes (parser buf len).step n (.running (.resp index index) [])
      (finish [] (do let r ← processResp buf len index; return (r.count, r.verdict)))
  array : ∃ n, n ≤ max 1 (2 ^ 32 * (len - index)) ∧
    Takes (parser buf len).step n (.running (.array index) [])
      (finish [] (processArray buf len index))
  demanded : ∀ n past, 1 ≤ n → n < 2 ^ 31 →
    Takes (parser (view (demand n) past) (demand n).length).step (3 * n + 5)
      (.running (.resp 0 0) []) (.returning ((demand n).length, .completed) [])

theorem cost_bounded (buf : Memory) (len index : Nat) : CostBounded buf len index where
  resp := takes_value (f := .resp index index) (i := index) (by simp [entries])
    (lasts_depth len index)
  array := by
    have henough : (Point.array index).Enough len (depth len index) := by
      rw [Point.Enough, depth]
      omega
    obtain ⟨n, hn, hrun⟩ := takes_value (i := index) (by simp [entries]) henough
    refine ⟨n, hn.trans (max_le_max_left 1 ?_), hrun⟩
    omega
  demanded _ past hn hlt := takes_demand hn hlt past

end Canal.RespParser
