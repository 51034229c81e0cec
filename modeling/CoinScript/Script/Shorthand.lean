import CoinScript.Script.Builder

namespace CoinScript.Script

/-- What a word adds to the script, and how many bytes it says that the next one adds. -/
structure Contribution where
  bytes : Bytes
  announced : Nat := 0

namespace Shorthand

def isDecimal (word : List Char) : Bool := Text.isDigits ((Text.dropLead ['-'] word).getD word)

def decimal (word : List Char) : Except ScriptFault Contribution :=
  match Text.integer? word with
  | some n =>
    if Number.inRange n then
      if n = -(2 ^ 63) then .error (.forbiddenNumber (String.ofList word))
      else .ok ⟨numberBytes n, 0⟩
    else .error (.numberOutOfRange (String.ofList word))
  | none => .error (.numberOutOfRange (String.ofList word))

/-- Bytes to insert; a lone code of a direct push announces its data unless it is data itself. -/
def inserted (announced : Nat) (word digits : List Char) : Except ScriptFault Contribution :=
  match Hex.decode (String.ofList digits) with
  | .error _ => .error (.notWholeBytes (String.ofList word))
  | .ok [b] => .ok ⟨[b], if announced = 0 && b < Opcode.pushData1 then b.toNat else 0⟩
  | .ok bs => .ok ⟨bs, 0⟩

/-- How many bytes of length follow a code that is written by name. -/
def announcedBy (op : Opcode) : Nat := Operation.lengthWidth op

def digits? (word : List Char) : Option (List Char) :=
  (Text.dropLead ['0', 'x'] word).filter (! ·.isEmpty)

def quoted? (word : List Char) : Option (List Char) :=
  match word with
  | '\'' :: rest => if rest.getLast? = some '\'' then some rest.dropLast else none
  | _ => none

def textBytes (cs : List Char) : Bytes := (String.ofList cs).toUTF8.data.toList

/-- Reads one word; `text` is what it is reported in. -/
def readWord (text : String) (announced : Nat) (word : List Char) :
    Except ScriptFault Contribution :=
  if isDecimal word then decimal word
  else match digits? word with
    | some digits => inserted announced word digits
    | none =>
      match quoted? word with
      | some cs => (pushBytes (textBytes cs)).map (⟨·, 0⟩)
      | none =>
        match Opcode.ofName? word with
        | some op => .ok ⟨[op], announcedBy op⟩
        | none => .error (.unknownWord (String.ofList word) text)

/-- Reads words in order, each one keeping what the one before it announced. -/
def readWords (text : String) (announced : Nat) : List (List Char) → Except ScriptFault Bytes
  | [] => .ok []
  | word :: words => do
    let c ← readWord text announced word
    if announced ≠ 0 ∧ c.bytes.length ≠ announced then throw .announcementBroken
    return c.bytes ++ (← readWords text c.announced words)

end Shorthand

def ofShorthand (text : String) : Except ScriptFault Script :=
  (Shorthand.readWords text 0 (Text.words text.toList)).map Script.mk

end CoinScript.Script
