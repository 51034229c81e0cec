import CoinScript.Engine.ResultCode
import CoinScript.Script.Basic

namespace CoinScript

/-- Arithmetic whose result a 64-bit word might not hold. -/
inductive Arithmetic
  | addition
  | subtraction
  | negation
  | division
  | modulo
deriving DecidableEq

def Arithmetic.name : Arithmetic → String
  | .addition => "addition"
  | .subtraction => "subtraction"
  | .negation => "negation"
  | .division => "division"
  | .modulo => "modulo"

/-- What an operation that insists on a true answer has just asked. -/
inductive Assertion
  | truth
  | equality
  | numericEquality
  | signature
  | dataSignature
deriving DecidableEq

def Assertion.code : Assertion → ResultCode
  | .truth => .verify
  | .equality => .equalVerify
  | .numericEquality => .numEqualVerify
  | .signature => .checkSigVerify
  | .dataSignature => .checkDataSigVerify

/-- Why an evaluation stopped, with the values that belong to it. -/
inductive Fault
  -- reading the script
  | scriptSize (length : Nat)
  | malformedPush (offset : Nat)
  | pushSize (length : Nat)
  | opBudget (budget : Nat)
  | disabledOpcode (op : Opcode)
  | pushNotMinimal (length : Nat)
  | stackSize (depth : Nat)
  | invalidOpcode (op : Opcode)
  -- control
  | reservedNop (op : Opcode)
  | conditionNotMinimal (item : Bytes)
  | conditionMissing
  | unmatched (word : String)
  | unclosedConditional
  | aborted
  | assertionFailed (assertion : Assertion)
  | negativeLockTime (n : Int)
  | lockTimeUnsatisfied (n : Int)
  | sequenceUnsatisfied (n : Int)
  -- stacks
  | tooFewItems (needed depth : Nat)
  | badIndex (index : Int) (depth : Nat)
  | altStackEmpty
  -- byte strings
  | concatenationSize (length : Nat)
  | splitRange (position : Int) (length : Nat)
  | reverseDisabled
  | widthOutOfRange (size : Int)
  | widthTooSmall (length size : Nat)
  | notANumber (item : Bytes)
  | operandSizes
  -- numbers
  | numberTooLong (item : Bytes) (limit : Nat)
  | numberNotMinimal (item : Bytes)
  | overflow (operation : Arithmetic) (a b : Int)
  | divisionByZero (a : Int)
  | moduloByZero (a : Int)
  -- signatures and keys
  | undefinedHashType
  | forkIdMissing
  | derNotStrict
  | highS
  | schnorrLengthInMultisig
  | notSchnorr
  | unsupportedKey
  | keyNotCompressed
  | signatureNotEmpty
  | multisigNotEmpty
  | keyCount (n : Int)
  | signatureCount (n : Int) (keys : Nat)
  | dummyNotEmpty (length : Nat)
  | checkbitsSize (length keys : Nat)
  | checkbitsRange (bits keys : Nat)
  | checkbitsCount (selected signatures : Nat)
  | schnorrFailed (signature key : Nat)
  | multisigFailed
  -- spends
  | notPushOnly
  | falseTop
  | emptyStack
  | cleanStackWithoutP2sh
  | leftOverItems (n : Nat)
deriving DecidableEq

namespace Fault

def maxItem : Nat := 520
def maxDepth : Nat := 1000

def code : Fault → ResultCode
  | .scriptSize _ => .scriptSize
  | .malformedPush _ => .badOpcode
  | .pushSize _ => .pushSize
  | .opBudget _ => .opCount
  | .disabledOpcode _ => .disabledOpcode
  | .pushNotMinimal _ => .minimalData
  | .stackSize _ => .stackSize
  | .invalidOpcode _ => .badOpcode
  | .reservedNop _ => .discourageUpgradableNops
  | .conditionNotMinimal _ => .minimalIf
  | .conditionMissing => .unbalancedConditional
  | .unmatched _ => .unbalancedConditional
  | .unclosedConditional => .unbalancedConditional
  | .aborted => .opReturn
  | .assertionFailed assertion => assertion.code
  | .negativeLockTime _ => .negativeLocktime
  | .lockTimeUnsatisfied _ => .unsatisfiedLocktime
  | .sequenceUnsatisfied _ => .unsatisfiedLocktime
  | .tooFewItems _ _ => .invalidStackOperation
  | .badIndex _ _ => .invalidStackOperation
  | .altStackEmpty => .invalidAltstackOperation
  | .concatenationSize _ => .pushSize
  | .splitRange _ _ => .invalidSplitRange
  | .reverseDisabled => .badOpcode
  | .widthOutOfRange _ => .pushSize
  | .widthTooSmall _ _ => .impossibleEncoding
  | .notANumber _ => .invalidNumberRange
  | .operandSizes => .invalidOperandSize
  | .numberTooLong _ _ => .numberOverflow
  | .numberNotMinimal _ => .minimalData
  | .overflow _ _ _ => .numberOverflow
  | .divisionByZero _ => .divByZero
  | .moduloByZero _ => .modByZero
  | .undefinedHashType => .sigHashType
  | .forkIdMissing => .mustUseForkId
  | .derNotStrict => .sigDer
  | .highS => .sigHighS
  | .schnorrLengthInMultisig => .sigBadLength
  | .notSchnorr => .sigNonSchnorr
  | .unsupportedKey => .pubkeyType
  | .keyNotCompressed => .nonCompressedPubkey
  | .signatureNotEmpty => .sigNullFail
  | .multisigNotEmpty => .sigNullFail
  | .keyCount _ => .pubkeyCount
  | .signatureCount _ _ => .sigCount
  | .dummyNotEmpty _ => .sigNullDummy
  | .checkbitsSize _ _ => .invalidBitfieldSize
  | .checkbitsRange _ _ => .invalidBitRange
  | .checkbitsCount _ _ => .invalidBitCount
  | .schnorrFailed _ _ => .sigNullFail
  | .multisigFailed => .checkMultisigVerify
  | .notPushOnly => .sigPushOnly
  | .falseTop => .evalFalse
  | .emptyStack => .evalFalse
  | .cleanStackWithoutP2sh => .unknownError
  | .leftOverItems _ => .cleanStack

def message : Fault → String
  | .scriptSize length =>
    "script size " ++ toString length ++ " is larger than the max allowed size " ++
      toString Script.maxLength
  | .malformedPush offset => "malformed push at offset " ++ toString offset
  | .pushSize length =>
    "element size " ++ toString length ++ " exceeds max allowed size " ++ toString maxItem
  | .opBudget budget => "exceeded max operation limit of " ++ toString budget
  | .disabledOpcode op => "attempt to execute disabled opcode " ++ op.name
  | .pushNotMinimal length =>
    "data push of " ++ toString length ++ " bytes is not minimally encoded"
  | .stackSize depth =>
    "combined stack size " ++ toString depth ++ " > max allowed " ++ toString maxDepth
  | .invalidOpcode op => "attempt to execute invalid opcode " ++ op.name
  | .reservedNop op => op.name ++ " reserved for soft-fork upgrades"
  | .conditionNotMinimal item =>
    "conditional operand " ++ Hex.encode item ++ " is not minimal"
  | .conditionMissing => "conditional with an empty stack"
  | .unmatched word =>
    "encountered opcode " ++ word ++
      " with no matching opcode to begin conditional execution"
  | .unclosedConditional => "end of script reached in conditional execution"
  | .aborted => ResultCode.opReturn.message
  | .assertionFailed assertion => assertion.code.name ++ " failed"
  | .negativeLockTime n => "negative lock time: " ++ toString n
  | .lockTimeUnsatisfied n => "lock time " ++ toString n ++ " not satisfied"
  | .sequenceUnsatisfied n => "relative lock time " ++ toString n ++ " not satisfied"
  | .tooFewItems needed depth =>
    "operation needs " ++ toString needed ++ " items but stack has " ++ toString depth
  | .badIndex index depth =>
    "index " ++ toString index ++ " is invalid for stack size " ++ toString depth
  | .altStackEmpty => "OP_FROMALTSTACK with an empty alt stack"
  | .concatenationSize length =>
    "concatenated size " ++ toString length ++ " exceeds max allowed size " ++ toString maxItem
  | .splitRange position length =>
    "split position " ++ toString position ++ " outside of [0, " ++ toString length ++ "]"
  | .reverseDisabled => "OP_REVERSEBYTES is not enabled"
  | .widthOutOfRange size =>
    "requested size " ++ toString size ++ " exceeds max allowed size " ++ toString maxItem
  | .widthTooSmall length size =>
    "cannot fit " ++ toString length ++ " bytes into " ++ toString size
  | .notANumber item => Hex.encode item ++ " is not a valid script number"
  | .operandSizes => "byte arrays are not the same length"
  | .numberTooLong item limit =>
    "numeric value encoded as " ++ Hex.encode item ++ " is " ++ toString item.length ++
      " bytes which exceeds the max allowed of " ++ toString limit
  | .numberNotMinimal item =>
    "numeric value encoded as " ++ Hex.encode item ++ " is not minimally encoded"
  | .overflow operation a b =>
    operation.name ++ " of " ++ toString a ++ " and " ++ toString b ++ " overflows"
  | .divisionByZero a => "division of " ++ toString a ++ " by zero"
  | .moduloByZero a => "modulo of " ++ toString a ++ " by zero"
  | .undefinedHashType => "undefined hash type"
  | .forkIdMissing => "schnorr signature without FORKID"
  | .derNotStrict => "signature is not strict DER"
  | .highS => "signature S above half order"
  | .schnorrLengthInMultisig => "65-byte signature in ECDSA-only context"
  | .notSchnorr => "schnorr multisig requires 65-byte signatures"
  | .unsupportedKey => "unsupported public key type"
  | .keyNotCompressed => "public key is not compressed"
  | .signatureNotEmpty => "signature not empty on failed checksig"
  | .multisigNotEmpty => "not all signatures empty on failed checkmultisig"
  | .keyCount n => "number of pubkeys " ++ toString n ++ " is out of range"
  | .signatureCount n keys =>
    "number of signatures " ++ toString n ++ " is out of range for " ++ toString keys ++ " keys"
  | .dummyNotEmpty length =>
    "multisig dummy argument has length " ++ toString length ++ " instead of 0"
  | .checkbitsSize length keys =>
    "bitfield of " ++ toString length ++ " bytes for " ++ toString keys ++ " keys"
  | .checkbitsRange bits keys =>
    "bitfield 0x" ++ String.ofList (Text.Quoted.hexDigits bits) ++ " has bits beyond key " ++
      toString keys
  | .checkbitsCount selected signatures =>
    "bitfield selects " ++ toString selected ++ " keys for " ++ toString signatures ++
      " signatures"
  | .schnorrFailed signature key =>
    "signature " ++ toString signature ++ " failed against key " ++ toString key
  | .multisigFailed => ResultCode.checkMultisigVerify.message
  | .notPushOnly => "signature script is not push only"
  | .falseTop => "false stack entry at end of script execution"
  | .emptyStack => "stack empty at end of script execution"
  | .cleanStackWithoutP2sh => "CLEANSTACK requires P2SH"
  | .leftOverItems n => "stack contains " ++ toString n ++ " unexpected items"

end Fault

end CoinScript
