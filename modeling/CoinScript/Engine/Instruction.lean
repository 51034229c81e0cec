import CoinScript.Hash
import CoinScript.Script.Opcode

namespace CoinScript

inductive Unary
  | increment
  | decrement
  | negate
  | abs
  | not
  | isNonzero
deriving DecidableEq

inductive Binary
  | add
  | sub
  | div
  | mod
  | boolAnd
  | boolOr
  | equal
  | notEqual
  | less
  | greater
  | lessOrEqual
  | greaterOrEqual
  | min
  | max
deriving DecidableEq

inductive Bitwise
  | and
  | or
  | xor
deriving DecidableEq

/-- A rearrangement of the main stack that looks at no item's meaning. -/
inductive Arrangement
  | drop (n : Nat)
  | dup (n : Nat)
  | copySecond (n : Nat)
  | rotate (n : Nat)
  | swap (n : Nat)
  | nip
  | tuck
deriving DecidableEq

/-- What a code does once it runs. Codes that push data are no instructions. -/
inductive Instruction
  | number (n : Int)
  | nop
  | reservedNop
  | checkLockTime
  | checkSequence
  | branch (on : Bool)
  | otherwise
  | endBranch
  | verify
  | abort
  | toAlt
  | fromAlt
  | arrange (a : Arrangement)
  | dupIfTrue
  | depth
  | pick
  | roll
  | size
  | concatenate
  | split
  | reverse
  | toWidth
  | toNumber
  | bitwise (op : Bitwise)
  | equal (verify : Bool)
  | unary (op : Unary)
  | binary (op : Binary) (verify : Bool)
  | within
  | hash (kind : HashKind)
  | codeSeparator
  | checkSig (verify : Bool)
  | checkMultisig (verify : Bool)
  | checkDataSig (verify : Bool)
  | invalid
deriving DecidableEq

namespace Instruction

def table : List (Opcode × Instruction) :=
  [(0x61, .nop), (0xb1, .checkLockTime), (0xb2, .checkSequence), (0xb0, .reservedNop),
   (0xb3, .reservedNop), (0xb4, .reservedNop), (0xb5, .reservedNop), (0xb6, .reservedNop),
   (0xb7, .reservedNop), (0xb8, .reservedNop), (0xb9, .reservedNop),
   (0x63, .branch true), (0x64, .branch false), (0x67, .otherwise), (0x68, .endBranch),
   (0x69, .verify), (0x6a, .abort), (0x6b, .toAlt), (0x6c, .fromAlt),
   (0x6d, .arrange (.drop 2)), (0x6e, .arrange (.dup 2)), (0x6f, .arrange (.dup 3)),
   (0x70, .arrange (.copySecond 2)), (0x71, .arrange (.rotate 2)), (0x72, .arrange (.swap 2)),
   (0x73, .dupIfTrue), (0x74, .depth), (0x75, .arrange (.drop 1)), (0x76, .arrange (.dup 1)),
   (0x77, .arrange .nip), (0x78, .arrange (.copySecond 1)), (0x79, .pick), (0x7a, .roll),
   (0x7b, .arrange (.rotate 1)), (0x7c, .arrange (.swap 1)), (0x7d, .arrange .tuck),
   (0x7e, .concatenate), (0x7f, .split), (0x80, .toWidth), (0x81, .toNumber), (0x82, .size),
   (0x84, .bitwise .and), (0x85, .bitwise .or), (0x86, .bitwise .xor),
   (0x87, .equal false), (0x88, .equal true),
   (0x8b, .unary .increment), (0x8c, .unary .decrement), (0x8f, .unary .negate),
   (0x90, .unary .abs), (0x91, .unary .not), (0x92, .unary .isNonzero),
   (0x93, .binary .add false), (0x94, .binary .sub false), (0x96, .binary .div false),
   (0x97, .binary .mod false), (0x9a, .binary .boolAnd false), (0x9b, .binary .boolOr false),
   (0x9c, .binary .equal false), (0x9d, .binary .equal true), (0x9e, .binary .notEqual false),
   (0x9f, .binary .less false), (0xa0, .binary .greater false),
   (0xa1, .binary .lessOrEqual false), (0xa2, .binary .greaterOrEqual false),
   (0xa3, .binary .min false), (0xa4, .binary .max false), (0xa5, .within),
   (0xa6, .hash .ripemd160), (0xa7, .hash .sha1), (0xa8, .hash .sha256),
   (0xa9, .hash .hash160), (0xaa, .hash .hash256), (0xab, .codeSeparator),
   (0xac, .checkSig false), (0xad, .checkSig true), (0xae, .checkMultisig false),
   (0xaf, .checkMultisig true), (0xba, .checkDataSig false), (0xbb, .checkDataSig true),
   (0xbc, .reverse)]

def ofOpcode (op : Opcode) : Instruction :=
  if op = Opcode.negativeOne ∨ Opcode.isOneToSixteen op then .number (Opcode.smallNumber op)
  else (table.lookup op).getD .invalid

end Instruction

namespace Opcode

/-- Codes that fail wherever they stand, even in a branch that is not taken. -/
def isDisabled (op : Opcode) : Bool := [0x83, 0x8d, 0x8e, 0x95, 0x98, 0x99].contains op

/-- Codes from `OP_IF` to `OP_ENDIF`, which run in a branch that is not taken, too. -/
def isConditional (op : Opcode) : Bool := branchIf ≤ op && op ≤ branchEnd

/-- Codes that count against the budget. -/
def isCounted (op : Opcode) : Bool := sixteen < op

end Opcode

end CoinScript
