import CoinScript.Bytes
import CoinScript.Text.Words

namespace CoinScript

abbrev Opcode := UInt8

namespace Opcode

def zero : Opcode := 0x00
def pushData1 : Opcode := 0x4c
def pushData2 : Opcode := 0x4d
def pushData4 : Opcode := 0x4e
def negativeOne : Opcode := 0x4f
def reserved : Opcode := 0x50
def one : Opcode := 0x51
def sixteen : Opcode := 0x60
def branchIf : Opcode := 0x63
def branchEnd : Opcode := 0x68
def drop : Opcode := 0x75
def dup : Opcode := 0x76
def abort : Opcode := 0x6a
def equal : Opcode := 0x87
def equalVerify : Opcode := 0x88
def hash160 : Opcode := 0xa9
def hash256 : Opcode := 0xaa
def codeSeparator : Opcode := 0xab
def checkSig : Opcode := 0xac
def checkSigVerify : Opcode := 0xad
def checkMultisig : Opcode := 0xae
def checkMultisigVerify : Opcode := 0xaf
def checkLockTimeVerify : Opcode := 0xb1
def checkDataSig : Opcode := 0xba
def checkDataSigVerify : Opcode := 0xbb

/-- Codes known by a word, without the `OP_` that is written before it. -/
def named : List (Opcode × String) :=
  [(0x4c, "PUSHDATA1"), (0x4d, "PUSHDATA2"), (0x4e, "PUSHDATA4"), (0x50, "RESERVED"),
   (0x61, "NOP"), (0x62, "VER"), (0x63, "IF"), (0x64, "NOTIF"), (0x65, "VERIF"),
   (0x66, "VERNOTIF"), (0x67, "ELSE"), (0x68, "ENDIF"), (0x69, "VERIFY"), (0x6a, "RETURN"),
   (0x6b, "TOALTSTACK"), (0x6c, "FROMALTSTACK"), (0x6d, "2DROP"), (0x6e, "2DUP"),
   (0x6f, "3DUP"), (0x70, "2OVER"), (0x71, "2ROT"), (0x72, "2SWAP"), (0x73, "IFDUP"),
   (0x74, "DEPTH"), (0x75, "DROP"), (0x76, "DUP"), (0x77, "NIP"), (0x78, "OVER"),
   (0x79, "PICK"), (0x7a, "ROLL"), (0x7b, "ROT"), (0x7c, "SWAP"), (0x7d, "TUCK"),
   (0x7e, "CAT"), (0x7f, "SPLIT"), (0x80, "NUM2BIN"), (0x81, "BIN2NUM"), (0x82, "SIZE"),
   (0x83, "INVERT"), (0x84, "AND"), (0x85, "OR"), (0x86, "XOR"), (0x87, "EQUAL"),
   (0x88, "EQUALVERIFY"), (0x89, "RESERVED1"), (0x8a, "RESERVED2"), (0x8b, "1ADD"),
   (0x8c, "1SUB"), (0x8d, "2MUL"), (0x8e, "2DIV"), (0x8f, "NEGATE"), (0x90, "ABS"),
   (0x91, "NOT"), (0x92, "0NOTEQUAL"), (0x93, "ADD"), (0x94, "SUB"), (0x95, "MUL"),
   (0x96, "DIV"), (0x97, "MOD"), (0x98, "LSHIFT"), (0x99, "RSHIFT"), (0x9a, "BOOLAND"),
   (0x9b, "BOOLOR"), (0x9c, "NUMEQUAL"), (0x9d, "NUMEQUALVERIFY"), (0x9e, "NUMNOTEQUAL"),
   (0x9f, "LESSTHAN"), (0xa0, "GREATERTHAN"), (0xa1, "LESSTHANOREQUAL"),
   (0xa2, "GREATERTHANOREQUAL"), (0xa3, "MIN"), (0xa4, "MAX"), (0xa5, "WITHIN"),
   (0xa6, "RIPEMD160"), (0xa7, "SHA1"), (0xa8, "SHA256"), (0xa9, "HASH160"),
   (0xaa, "HASH256"), (0xab, "CODESEPARATOR"), (0xac, "CHECKSIG"), (0xad, "CHECKSIGVERIFY"),
   (0xae, "CHECKMULTISIG"), (0xaf, "CHECKMULTISIGVERIFY"), (0xb0, "NOP1"),
   (0xb1, "CHECKLOCKTIMEVERIFY"), (0xb2, "CHECKSEQUENCEVERIFY"), (0xb3, "NOP4"),
   (0xb4, "NOP5"), (0xb5, "NOP6"), (0xb6, "NOP7"), (0xb7, "NOP8"), (0xb8, "NOP9"),
   (0xb9, "NOP10"), (0xba, "CHECKDATASIG"), (0xbb, "CHECKDATASIGVERIFY"),
   (0xbc, "REVERSEBYTES")]

/-- Second words for codes, accepted in reading and never written. -/
def aliases : List (Opcode × String) :=
  [(0xb1, "NOP2"), (0xb2, "NOP3"), (0x00, "FALSE"), (0x51, "TRUE"), (0x4f, "1NEGATE")]

def isOneToSixteen (op : Opcode) : Bool := one ≤ op && op ≤ sixteen

/-- Codes that stand for a number from -1 to 16. -/
def isSmallNumber (op : Opcode) : Bool := op == zero || op == negativeOne || isOneToSixteen op

/-- The number that a small-number code pushes. -/
def smallNumber (op : Opcode) : Int := if op = zero then 0 else (op.toNat : Int) - 80

def ofSmallNumber? (n : Int) : Option Opcode :=
  if n = 0 then some zero
  else if n = -1 then some negativeOne
  else if 1 ≤ n ∧ n ≤ 16 then some (UInt8.ofNat (80 + n.toNat))
  else none

def name (op : Opcode) : String :=
  if isSmallNumber op then toString (smallNumber op)
  else if op = 0xff then "OP_INVALIDOPCODE"
  else match named.lookup op with
    | some word => "OP_" ++ word
    | none => "OP_UNKNOWN"

def spelled? (table : List (Opcode × String)) (cs : List Char) : Option Opcode :=
  (table.find? fun entry => entry.2.toList == cs).map (·.1)

/-- Words are accepted with and without `OP_`; a number from 0 to 16 only with it. -/
def ofName? (cs : List Char) : Option Opcode :=
  match Text.dropLead "OP_".toList cs with
  | none => spelled? (aliases ++ named) cs
  | some word =>
    match spelled? aliases word with
    | some op => some op
    | none =>
      match Text.integer? word with
      | some n => if 0 ≤ n then ofSmallNumber? n else none
      | none => spelled? named word

end Opcode

end CoinScript
