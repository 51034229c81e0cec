import CoinScript.Script.Fault
import CoinScript.Script.Number

namespace CoinScript.Script

/-- The code and length that announce `n` bytes of data. -/
def pushHead (n : Nat) : Except ScriptFault Bytes :=
  if n ≤ 75 then .ok [UInt8.ofNat n]
  else if n ≤ 0xff then .ok (Opcode.pushData1 :: Bytes.ofNatLE 1 n)
  else if n ≤ 0xffff then .ok (Opcode.pushData2 :: Bytes.ofNatLE 2 n)
  else if n ≤ 0xffffffff then .ok (Opcode.pushData4 :: Bytes.ofNatLE 4 n)
  else .error .tooLong

/-- Data behind the shortest code and length that fit. -/
def pushBytes (data : Bytes) : Except ScriptFault Bytes :=
  (pushHead data.length).map (· ++ data)

/-- Numbers from -1 to 16 have codes of their own. -/
def numberBytes (n : Int) : Bytes :=
  match Opcode.ofSmallNumber? n with
  | some op => [op]
  | none => UInt8.ofNat (Number.encode n).length :: Number.encode n

def append (s : Script) (bs : Bytes) : Script := ⟨s.bytes ++ bs⟩

def push (s : Script) (data : Bytes) : Except ScriptFault Script :=
  (pushBytes data).map s.append

def pushAll (s : Script) : List Bytes → Except ScriptFault Script
  | [] => .ok s
  | data :: rest =>
    match s.push data with
    | .ok s => s.pushAll rest
    | .error fault => .error fault

def pushNumber (s : Script) (n : Int) : Script := s.append (numberBytes n)

/-- Codes that need data beside them are refused. -/
def appendCodes (s : Script) (codes : List Opcode) : Except ScriptFault Script :=
  match codes.find? fun op => 1 ≤ op && op ≤ Opcode.pushData4 with
  | some op => .error (.pushWithoutData op)
  | none => .ok (s.append codes)

def ofPush (data : Bytes) : Except ScriptFault Script := empty.push data

end CoinScript.Script
