import CoinScript.Script.Basic

namespace CoinScript

inductive ScriptFault
  | numberOutOfRange (word : String)
  | forbiddenNumber (word : String)
  | notWholeBytes (word : String)
  | unknownWord (word text : String)
  | announcementBroken
  | badToken (word : String)
  | pushWithoutData (op : Opcode)
  | multisigCounts (required keys : Nat)
  | unknownFlag (word : String)
  | truncated
  | tooLong
  | hex (fault : HexFault)
deriving DecidableEq

namespace ScriptFault

/-- At least two digits of a code, after `0x`. -/
def codeText (op : Opcode) : String := "0x" ++ Hex.encode [op]

def message : ScriptFault → String
  | .numberOutOfRange word => "script parse error: number out of range: " ++ word
  | .forbiddenNumber word => "script parse error: " ++ word ++ " is a forbidden value"
  | .notWholeBytes word =>
    "script parse error: hex must be formatted in full-byte chunks: " ++ word
  | .unknownWord word text =>
    "script parse error: unrecognized token '" ++ word ++ "' in: " ++ text
  | .announcementBroken =>
    "script parse error: hex data does not match the number of bytes being pushed"
  | .badToken word => "script parse error: bad token '" ++ word ++ "'"
  | .pushWithoutData op =>
    "script parse error: push opcode " ++ codeText op ++ " needs data; use append_push_data"
  | .multisigCounts required keys =>
    "script parse error: cannot build " ++ toString required ++ "-of-" ++ toString keys ++
      " multisig"
  | .unknownFlag word => "unknown script flag: " ++ word
  | .truncated => "not enough data"
  | .tooLong => "data too big"
  | .hex fault => "hex decode error: " ++ fault.message

end ScriptFault

namespace Script

/-- The operations of a well-formed script. -/
def decode (s : Script) : Except ScriptFault (List Operation) :=
  if s.isWellFormed then .ok s.operations else .error .truncated

def ofHex (text : String) : Except ScriptFault Script :=
  match Hex.decode text with
  | .ok bs => .ok ⟨bs⟩
  | .error fault => .error (.hex fault)

end Script

end CoinScript
