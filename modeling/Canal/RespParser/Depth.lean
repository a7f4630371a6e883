import Canal.Foundation.Height
import Canal.RespParser.Header
import Canal.RespParser.Recursion

/-!
# How deep the parser recurses

`process_array` and `process_resp` call each other as deep as arrays are nested, and
nothing but the length of the buffer stops them. An array begins with four bytes at
least, so of `4 * d` bytes `2 * d` invocations can wait for each other, and no more.
Nested headers alone get there: none of the arrays has to be complete.
-/

namespace Canal.RespParser

open Buffer Decimal Procedure StateTransition

variable {buf : Memory} {len p i n found : Nat}

/-- How many arrays can begin inside each other from a position on. -/
def room (len p : Nat) : Nat := (len - p + 3) / 4

namespace Point

def level (len : Nat) : Point → Nat
  | .resp _ processedBuf => 2 * room len processedBuf
  | .array index => 2 * room len (index + 4) + 1
  | .elements _ _ subIndex => 2 * room len subIndex + 1

end Point

def Wait.level (len : Nat) : Wait → Nat
  | .resp _ processedBuf => 2 * room len processedBuf
  | .elements _ _ subIndex => 2 * room len subIndex + 1

theorem room_anti (h : p ≤ i) : room len i ≤ room len p := by
  rw [room, room]
  omega

theorem room_array (h : p < len) : room len p = room len (p + 4) + 1 := by
  rw [room, room]
  omega

/-- The header of an array has a text. -/
theorem header_lt {z : Int} (h : headerNumber buf i found = .ok (some z)) : i + 1 < found := by
  by_contra hle
  have hcount : found - i - 1 = 0 := by omega
  have hnone : headerNumber buf i found = .ok none := by
    rw [headerNumber, hcount]
    rfl
  simp [h] at hnone

theorem afterSwitch_descends (result : Nat × ParseResult) :
    (afterSwitch i p result).Descends (Point.level len) (Wait.level len) (2 * room len p) := by
  rw [afterSwitch]
  split
  · trivial
  · exact Nat.mul_le_mul_left 2 (room_anti (Nat.le_add_right p _))

theorem afterElement_descends (result : Nat × ParseResult) :
    (afterElement i n p result).Descends (Point.level len) (Wait.level len)
      (2 * room len p + 1) := by
  rw [afterElement]
  split
  · trivial
  · exact Nat.succ_le_succ (Nat.mul_le_mul_left 2 (room_anti (Nat.le_add_right p _)))

theorem afterHeader_descends {number : Option Int}
    (h : headerNumber buf i found = .ok number) :
    (afterHeader i found number).Descends (Point.level len) (Wait.level len)
      (2 * room len (i + 4) + 1) := by
  cases number with
  | none => trivial
  | some z =>
      have hlt := header_lt h
      rw [afterHeader]
      split
      · trivial
      · split
        · trivial
        · exact Nat.succ_le_succ (Nat.mul_le_mul_left 2 (room_anti (by omega)))

theorem parser_leveled (buf : Memory) (len : Nat) :
    (parser buf len).Leveled (Point.level len) (Wait.level len) where
  move f := by
    cases f with
    | resp index p =>
        simp only [parser, parserMove]
        split
        · rename_i hp
          refine .bind fun c _ => ?_
          cases leafHandler c with
          | some handler => exact .bind fun result _ => afterSwitch_descends result
          | none =>
              dsimp only
              split
              · -- the array begins here, and its elements four bytes further on
                have hroom := room_array hp
                refine ⟨?_, Nat.le_refl _⟩
                simp only [Point.level]
                omega
              · trivial
        · trivial
    | array index =>
        refine .bind fun found _ => ?_
        split
        · exact .bind fun number hnumber => afterHeader_descends hnumber
        · trivial
    | elements index n subIndex =>
        cases n with
        | zero => trivial
        | succ n => exact ⟨Nat.lt_succ_self _, Nat.le_refl _⟩
  resume k result := by
    cases k with
    | resp index p => exact afterSwitch_descends result
    | elements index n subIndex => exact afterElement_descends result

/-! ## Nested arrays -/

/-- `d` times `*1\r\n` -/
def nested (d : Nat) : List Byte := (List.replicate d (line arrayReply [49])).flatten

theorem length_nested (d : Nat) : (nested d).length = 4 * d := by
  induction d with
  | zero => rfl
  | succ d ih =>
      rw [nested, List.replicate_succ, List.flatten_cons, List.length_append, ← nested, ih,
        length_line, List.length_singleton]
      omega

theorem nested_add (j m : Nat) :
    nested (j + (m + 1)) = framed arrayReply [49] (nested j) (nested m) := by
  rw [framed, nested, nested, nested, List.replicate_add, List.flatten_append,
    List.replicate_succ, List.flatten_cons]

/-- From the header of an array with one element, the parser gets to the element, two
invocations further. -/
theorem descends_reaches (pre s : List Byte) (past : Memory) (stack : List Wait) :
    ∃ w v : Wait, Reaches
      (parser (view (framed arrayReply [49] pre s) past) (framed arrayReply [49] pre s).length).step
      (.running (.resp pre.length pre.length) stack)
      (.running (.resp (pre.length + 4) (pre.length + 4)) (w :: v :: stack)) := by
  obtain ⟨hfind, hnumber⟩ :=
    header_framed pre s past (show arrayReply ≠ CR by decide) (h := [49]) (by decide)
  have hone : stoi [49] = some 1 := by decide
  have hlen := length_framed arrayReply [49] pre s
  rw [List.length_singleton] at hlen hfind hnumber
  have hlt : (framed arrayReply [49] pre s).length > pre.length := by omega
  have hload : load (view (framed arrayReply [49] pre s) past) pre.length = .ok arrayReply := by
    rw [load_view_of_lt hlt]
    simp [framed, line]
  refine ⟨_, _, .head (b := .running (.array pre.length)
    (.resp pre.length pre.length :: stack)) ?_ <| .head (b := .running
      (.elements pre.length 1 (pre.length + 4)) (.resp pre.length pre.length :: stack)) ?_ <|
    .head (Option.mem_some.mpr rfl) .refl⟩
  · apply Option.mem_some.mpr
    simp only [parser, parserMove, if_pos hlt, hload]
    rfl
  · apply Option.mem_some.mpr
    simp only [parser, parserMove, hfind, Move.bind, hnumber, hone]
    rfl

theorem nested_reaches (m : Nat) (past : Memory) :
    ∀ j stack, ∃ stack' : List Wait, stack'.length = stack.length + 2 * m ∧
      Reaches (parser (view (nested (j + m)) past) (nested (j + m)).length).step
        (.running (.resp (4 * j) (4 * j)) stack)
        (.running (.resp (4 * (j + m)) (4 * (j + m))) stack') := by
  induction m with
  | zero => exact fun j stack => ⟨stack, rfl, .refl⟩
  | succ m ih =>
      intro j stack
      obtain ⟨w, v, hfirst⟩ := descends_reaches (nested j) (nested m) past stack
      rw [← nested_add, length_nested j] at hfirst
      obtain ⟨stack', hlength, hrest⟩ := ih (j + 1) (w :: v :: stack)
      rw [Nat.add_right_comm j 1 m, Nat.add_assoc j m 1] at hrest
      refine ⟨stack', ?_, hfirst.trans hrest⟩
      simp only [List.length_cons] at hlength
      omega

/-- Twice as many invocations wait as arrays can begin in the rest of the buffer, one
every four bytes, and not more. -/
structure DepthBounded (buf : Memory) (len index : Nat) : Prop where
  resp : ∀ config, Reaches (parser buf len).step (.running (.resp index index) []) config →
    config.height ≤ 2 * ((len - index + 3) / 4)
  array : ∀ config, Reaches (parser buf len).step (.running (.array index) []) config →
    config.height ≤ 2 * ((len - (index + 4) + 3) / 4) + 1
  reached : ∀ d past, (nested d).length = 4 * d ∧ ∃ config,
    Reaches (parser (view (nested d) past) (nested d).length).step (.running (.resp 0 0) [])
      config ∧ config.height = 2 * d

theorem depth_bounded (buf : Memory) (len index : Nat) : DepthBounded buf len index where
  resp _ h := (parser_leveled buf len).height_le h
  array _ h := (parser_leveled buf len).height_le h
  reached d past := by
    obtain ⟨stack, hlength, hrun⟩ := nested_reaches d past 0 []
    rw [Nat.zero_add] at hrun
    refine ⟨length_nested d, _, hrun, ?_⟩
    simpa [Config.height] using hlength

end Canal.RespParser
