namespace CoinScript

inductive ResultCode
  | ok
  | unknownError
  | evalFalse
  | opReturn
  | scriptSize
  | pushSize
  | opCount
  | stackSize
  | sigCount
  | pubkeyCount
  | invalidOperandSize
  | invalidNumberRange
  | impossibleEncoding
  | invalidSplitRange
  | invalidBitCount
  | verify
  | equalVerify
  | checkMultisigVerify
  | checkSigVerify
  | checkDataSigVerify
  | numEqualVerify
  | badOpcode
  | disabledOpcode
  | invalidStackOperation
  | invalidAltstackOperation
  | unbalancedConditional
  | negativeLocktime
  | unsatisfiedLocktime
  | sigHashType
  | sigDer
  | minimalData
  | sigPushOnly
  | sigHighS
  | sigNullDummy
  | minimalIf
  | sigNullFail
  | pubkeyType
  | cleanStack
  | nonCompressedPubkey
  | sigBadLength
  | sigNonSchnorr
  | discourageUpgradableNops
  | mustUseForkId
  | divByZero
  | modByZero
  | numberOverflow
  | numberBadEncoding
  | invalidBitfieldSize
  | invalidBitRange
deriving DecidableEq

namespace ResultCode

/-- Every code, in the order of their numbers. -/
def all : List ResultCode :=
  [.ok, .unknownError, .evalFalse, .opReturn, .scriptSize, .pushSize, .opCount, .stackSize,
   .sigCount, .pubkeyCount, .invalidOperandSize, .invalidNumberRange, .impossibleEncoding,
   .invalidSplitRange, .invalidBitCount, .verify, .equalVerify, .checkMultisigVerify,
   .checkSigVerify, .checkDataSigVerify, .numEqualVerify, .badOpcode, .disabledOpcode,
   .invalidStackOperation, .invalidAltstackOperation, .unbalancedConditional,
   .negativeLocktime, .unsatisfiedLocktime, .sigHashType, .sigDer, .minimalData, .sigPushOnly,
   .sigHighS, .sigNullDummy, .minimalIf, .sigNullFail, .pubkeyType, .cleanStack,
   .nonCompressedPubkey, .sigBadLength, .sigNonSchnorr, .discourageUpgradableNops,
   .mustUseForkId, .divByZero, .modByZero, .numberOverflow, .numberBadEncoding,
   .invalidBitfieldSize, .invalidBitRange]

def name : ResultCode → String
  | .ok => "OK"
  | .unknownError => "UNKNOWN_ERROR"
  | .evalFalse => "EVAL_FALSE"
  | .opReturn => "OP_RETURN"
  | .scriptSize => "SCRIPT_SIZE"
  | .pushSize => "PUSH_SIZE"
  | .opCount => "OP_COUNT"
  | .stackSize => "STACK_SIZE"
  | .sigCount => "SIG_COUNT"
  | .pubkeyCount => "PUBKEY_COUNT"
  | .invalidOperandSize => "INVALID_OPERAND_SIZE"
  | .invalidNumberRange => "INVALID_NUMBER_RANGE"
  | .impossibleEncoding => "IMPOSSIBLE_ENCODING"
  | .invalidSplitRange => "INVALID_SPLIT_RANGE"
  | .invalidBitCount => "INVALID_BIT_COUNT"
  | .verify => "VERIFY"
  | .equalVerify => "EQUALVERIFY"
  | .checkMultisigVerify => "CHECKMULTISIGVERIFY"
  | .checkSigVerify => "CHECKSIGVERIFY"
  | .checkDataSigVerify => "CHECKDATASIGVERIFY"
  | .numEqualVerify => "NUMEQUALVERIFY"
  | .badOpcode => "BAD_OPCODE"
  | .disabledOpcode => "DISABLED_OPCODE"
  | .invalidStackOperation => "INVALID_STACK_OPERATION"
  | .invalidAltstackOperation => "INVALID_ALTSTACK_OPERATION"
  | .unbalancedConditional => "UNBALANCED_CONDITIONAL"
  | .negativeLocktime => "NEGATIVE_LOCKTIME"
  | .unsatisfiedLocktime => "UNSATISFIED_LOCKTIME"
  | .sigHashType => "SIG_HASHTYPE"
  | .sigDer => "SIG_DER"
  | .minimalData => "MINIMALDATA"
  | .sigPushOnly => "SIG_PUSHONLY"
  | .sigHighS => "SIG_HIGH_S"
  | .sigNullDummy => "SIG_NULLDUMMY"
  | .minimalIf => "MINIMALIF"
  | .sigNullFail => "SIG_NULLFAIL"
  | .pubkeyType => "PUBKEYTYPE"
  | .cleanStack => "CLEANSTACK"
  | .nonCompressedPubkey => "NONCOMPRESSED_PUBKEY"
  | .sigBadLength => "SIG_BADLENGTH"
  | .sigNonSchnorr => "SIG_NONSCHNORR"
  | .discourageUpgradableNops => "DISCOURAGE_UPGRADABLE_NOPS"
  | .mustUseForkId => "MUST_USE_FORKID"
  | .divByZero => "DIV_BY_ZERO"
  | .modByZero => "MOD_BY_ZERO"
  | .numberOverflow => "NUMBER_OVERFLOW"
  | .numberBadEncoding => "NUMBER_BAD_ENCODING"
  | .invalidBitfieldSize => "INVALID_BITFIELD_SIZE"
  | .invalidBitRange => "INVALID_BIT_RANGE"

def message : ResultCode → String
  | .ok => "No error"
  | .unknownError => "unknown error"
  | .evalFalse =>
    "Script evaluated without error but finished with a false/empty top stack element"
  | .opReturn => "OP_RETURN was encountered"
  | .scriptSize => "Script is too big"
  | .pushSize => "Push value size limit exceeded"
  | .opCount => "Operation limit exceeded"
  | .stackSize => "Stack size limit exceeded"
  | .sigCount => "Signature count negative or greater than pubkey count"
  | .pubkeyCount => "Pubkey count negative or limit exceeded"
  | .invalidOperandSize => "Invalid operand size"
  | .invalidNumberRange => "Given operand is not a number within the valid range [-2^31...2^31]"
  | .impossibleEncoding => "The requested encoding is impossible to satisfy"
  | .invalidSplitRange => "Invalid OP_SPLIT range"
  | .invalidBitCount => "Invalid number of bit set in OP_CHECKMULTISIG"
  | .verify => "Script failed an OP_VERIFY operation"
  | .equalVerify => "Script failed an OP_EQUALVERIFY operation"
  | .checkMultisigVerify => "Script failed an OP_CHECKMULTISIGVERIFY operation"
  | .checkSigVerify => "Script failed an OP_CHECKSIGVERIFY operation"
  | .checkDataSigVerify => "Script failed an OP_CHECKDATASIGVERIFY operation"
  | .numEqualVerify => "Script failed an OP_NUMEQUALVERIFY operation"
  | .badOpcode => "Opcode missing or not understood"
  | .disabledOpcode => "Attempted to use a disabled opcode"
  | .invalidStackOperation => "Operation not valid with the current stack size"
  | .invalidAltstackOperation => "Operation not valid with the current altstack size"
  | .unbalancedConditional => "Invalid OP_IF construction"
  | .negativeLocktime => "Negative locktime"
  | .unsatisfiedLocktime => "Locktime requirement not satisfied"
  | .sigHashType => "Signature hash type missing or not understood"
  | .sigDer => "Non-canonical DER signature"
  | .minimalData => "Data push larger than necessary"
  | .sigPushOnly => "Only non-push operators allowed in signatures"
  | .sigHighS => "Non-canonical signature: S value is unnecessarily high"
  | .sigNullDummy => "Dummy CHECKMULTISIG argument must be zero"
  | .minimalIf => "OP_IF/NOTIF argument must be minimal"
  | .sigNullFail => "Signature must be zero for failed CHECK(MULTI)SIG operation"
  | .pubkeyType => "Public key is neither compressed or uncompressed"
  | .cleanStack => "Script did not clean its stack"
  | .nonCompressedPubkey => "Using non-compressed public key"
  | .sigBadLength => "Signature cannot be 65 bytes in CHECKMULTISIG"
  | .sigNonSchnorr => "Only Schnorr signatures allowed in this operation"
  | .discourageUpgradableNops => "NOPx reserved for soft-fork upgrades"
  | .mustUseForkId => "Signature must use SIGHASH_FORKID"
  | .divByZero => "Division by zero error"
  | .modByZero => "Modulo by zero error"
  | .numberOverflow => "Script number overflow"
  | .numberBadEncoding => "Non-minimally encoded script number"
  | .invalidBitfieldSize => "Bitfield of unexpected size error"
  | .invalidBitRange => "Bitfield's bit out of the expected range"

def ofName? (word : String) : Option ResultCode := all.find? fun c => c.name == word

end ResultCode

end CoinScript
