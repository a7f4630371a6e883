import Canal.Foundation.Decimal

/-!
# The RESP parser

`process_resp` walks over a buffer, hands every message it accepts to a
callback and returns how much it has consumed and a verdict. The handlers of
the five message kinds share one search helper, `find_CRLF_index`, which looks
for the first CR and then inspects the byte behind it, wherever that is.

`process_array` parses its elements by calling `process_resp` again, without a
callback, on the rest of the buffer: the two functions are mutually recursive,
and `fuel` bounds the depth of that recursion. The bound passed by
`processResp` is never the reason for an outcome. A callback only reads the
buffer, so its invocations are listed in the result, in order, as the offset
and the length it receives.
-/

namespace Canal.RespParser

open Buffer Decimal

def CR : Byte := 13
def LF : Byte := 10

def stringReply : Byte := 43
def errorReply : Byte := 45
def integerReply : Byte := 58
def bulkReply : Byte := 36
def arrayReply : Byte := 42

inductive ParseResult where
  | completed
  | incompleted
  | error
  deriving DecidableEq, Repr

/-- Offset 0 stands for "not found": every caller starts at a type byte. -/
def findCRLFIndex (buf : Memory) (len index : Nat) : Eval Nat := do
  if index > len then
    return 0
  let p ← find buf CR (len - index) index
  if (← load buf (p + 1)) = LF then
    return p
  else
    return 0

/-- The common text of `process_string`, `process_error` and `process_integer`. -/
def processLine (buf : Memory) (len index : Nat) : Eval (Nat × ParseResult) := do
  let found ← findCRLFIndex buf len index
  if found ≠ 0 then
    return (found - index + 2, .completed)
  else
    return (0, .incompleted)

def processString (buf : Memory) (len index : Nat) : Eval (Nat × ParseResult) :=
  processLine buf len index

def processError (buf : Memory) (len index : Nat) : Eval (Nat × ParseResult) :=
  processLine buf len index

def processInteger (buf : Memory) (len index : Nat) : Eval (Nat × ParseResult) :=
  processLine buf len index

/-- The text between a type byte and the CR of its line, as `std::stoi` sees it. -/
def headerNumber (buf : Memory) (index found : Nat) : Eval (Option Int) := do
  return stoi (← string buf (found - index - 1) (index + 1))

def processBulk (buf : Memory) (len index : Nat) : Eval (Nat × ParseResult) := do
  let found ← findCRLFIndex buf len index
  if found ≠ 0 then
    match ← headerNumber buf index found with
    | none => return (0, .error)
    | some bulkLen =>
        if bulkLen = -1 then
          return (found - index + 2, .completed)
        else if bulkLen ≥ 0 then
          let found2 ← findCRLFIndex buf len (found + 2)
          if found2 ≠ 0 then
            return (found2 - index + 2, .completed)
          else
            return (0, .incompleted)
        else
          return (0, .error)
  else
    return (0, .incompleted)

/-- What `process_resp` returns, with the invocations of its callback. -/
structure Parsed where
  calls : List (Nat × Nat)
  count : Nat
  verdict : ParseResult
  deriving DecidableEq, Repr

/-- The `for` loop of `process_array`: `n` iterations from `subIndex` on, each
calling `resp`. An iteration that is not `Completed` makes the caller return,
which is the result `none`. -/
def elements (resp : Nat → Eval Parsed) : (n subIndex : Nat) → Eval (Option Nat)
  | 0, subIndex => return some subIndex
  | n + 1, subIndex => do
      let result ← resp subIndex
      if result.verdict ≠ .completed then
        return none
      else
        elements resp n (subIndex + result.count)

/-- The `switch` of `process_resp` on the byte at `index`, given the handler of
arrays; `none` is the default branch. -/
def handle (array : Nat → Eval (Nat × ParseResult)) (buf : Memory) (len index : Nat) :
    Eval (Option (Nat × ParseResult)) := do
  let c ← load buf index
  if c = stringReply then
    return some (← processString buf len index)
  else if c = errorReply then
    return some (← processError buf len index)
  else if c = integerReply then
    return some (← processInteger buf len index)
  else if c = bulkReply then
    return some (← processBulk buf len index)
  else if c = arrayReply then
    return some (← array index)
  else
    return none

mutual

def processArrayFuel (buf : Memory) (len : Nat) :
    (fuel index : Nat) → Eval (Nat × ParseResult)
  | 0, _ => .error .fuel
  | fuel + 1, index => do
      let found ← findCRLFIndex buf len index
      let subIndex := found + 2
      if found ≠ 0 then
        match ← headerNumber buf index found with
        | none => return (0, .error)
        | some arraySize =>
            if arraySize = 0 ∨ arraySize = -1 then
              return (found - index + 2, .completed)
            else if arraySize < -1 then
              return (0, .error)
            else
              match ← elements (fun i => processRespFuel buf len fuel i i) arraySize.toNat
                  subIndex with
              | none => return (0, .error)
              | some subIndex => return (subIndex - index, .completed)
      else
        return (0, .incompleted)

/-- The `while` loop of `process_resp`, started at `index`, from `processedBuf` on. -/
def processRespFuel (buf : Memory) (len : Nat) :
    (fuel index processedBuf : Nat) → Eval Parsed
  | 0, _, _ => .error .fuel
  | fuel + 1, index, processedBuf =>
      if len > processedBuf then do
        match ← handle (processArrayFuel buf len fuel) buf len processedBuf with
        | none => return ⟨[], processedBuf - index, .error⟩
        | some result =>
            if result.2 ≠ .completed then
              return ⟨[], processedBuf - index, result.2⟩
            else
              let next ← processRespFuel buf len fuel index (processedBuf + result.1)
              return { next with calls := (processedBuf, result.1) :: next.calls }
      else
        return ⟨[], processedBuf - index, .completed⟩

end

/-- Enough fuel for every position of a buffer of length `len`. -/
def depth (len index : Nat) : Nat := len - index + 2

def processArray (buf : Memory) (len index : Nat) : Eval (Nat × ParseResult) :=
  processArrayFuel buf len (depth len index) index

def processResp (buf : Memory) (len index : Nat) : Eval Parsed :=
  processRespFuel buf len (depth len index) index index

end Canal.RespParser
