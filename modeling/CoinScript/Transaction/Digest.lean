import CoinScript.Engine.HashType
import CoinScript.Script.Flags
import CoinScript.Transaction.Basic

namespace CoinScript

open Wire (Field)

/-- Why no digest of an input exists. -/
inductive DigestFault
  | noInput (place inputs : Nat)
deriving DecidableEq

def DigestFault.message : DigestFault → String
  | .noInput place inputs =>
    "invalid transaction: input index " ++ toString place ++ " out of range (tx has " ++
      toString inputs ++ " inputs)"

namespace HashType

/-- Whether all outputs are covered. -/
def coversOutputs (t : HashType) : Bool := !t.isNone && !t.isSingle

end HashType

namespace Transaction

/-- The digest of an input that has none. -/
def one : FixedBytes 32 := .ofNatLE 32 1

def hashFields (fs : List Field) : FixedBytes 32 := Hash.hash256 (Field.encodeAll fs)

def sourcesHash (tx : Transaction) (t : HashType) : FixedBytes 32 :=
  if t.hasAnyoneCanPay then .zero 32
  else hashFields (tx.inputs.flatMap fun i => i.source.fields)

def sequencesHash (tx : Transaction) (t : HashType) : FixedBytes 32 :=
  if t.hasAnyoneCanPay || !t.coversOutputs then .zero 32
  else hashFields (tx.inputs.map fun i => .uint32 i.sequence)

def outputsHash (tx : Transaction) (n : Nat) (t : HashType) : FixedBytes 32 :=
  if t.coversOutputs then hashFields (tx.outputs.flatMap Output.fields)
  else if t.isSingle then
    match tx.outputs[n]? with
    | some o => hashFields o.fields
    | none => .zero 32
  else .zero 32

/-- What the newer digest hashes. -/
def preimageFields (tx : Transaction) (n : Nat) (i : Input) (code : Script) (t : HashType)
    (amount : Int64) : List Field :=
  [.int32 tx.version, .raw (tx.sourcesHash t).bytes, .raw (tx.sequencesHash t).bytes] ++
    i.source.fields ++
    [.sized code.bytes, .int64 amount, .uint32 i.sequence, .raw (tx.outputsHash n t).bytes,
     .uint32 tx.lockTime, .uint32 t.raw]

def preimage (tx : Transaction) (n : Nat) (code : Script) (t : HashType) (amount : Int64) :
    Except DigestFault Bytes :=
  match tx.inputs[n]? with
  | some i => .ok (Field.encodeAll (tx.preimageFields n i code t amount))
  | none => .error (.noInput n tx.inputs.length)

/-- The newer digest. -/
def forkDigest (tx : Transaction) (n : Nat) (code : Script) (t : HashType) (amount : Int64) :
    FixedBytes 32 :=
  if t.hasForkId then
    match tx.preimage n code t amount with
    | .ok bs => Hash.hash256 bs
    | .error _ => one
  else one

def withoutSeparators (code : Script) : Script := (code.remove ⟨[Opcode.codeSeparator]⟩).2

/-- An input as the older digest covers it: the signed one with the code it runs, the others
without a script, and without their sequence where not all outputs are covered. -/
def coveredInput (n : Nat) (code : Script) (t : HashType) (place : Nat) (i : Input) : List Field :=
  let script := if place = n then code.bytes else []
  let sequence := if place = n ∨ t.coversOutputs then i.sequence else 0
  i.source.fields ++ [.sized script, .uint32 sequence]

def coveredInputs (tx : Transaction) (n : Nat) (i : Input) (code : Script) (t : HashType) :
    List Field :=
  if t.hasAnyoneCanPay then .compact 1 :: coveredInput n code t n i
  else count tx.inputs :: (tx.inputs.mapIdx (coveredInput n code t)).flatten

/-- The outputs as the older digest covers them; those before a single one are left blank. -/
def coveredOutputs (tx : Transaction) (n : Nat) (t : HashType) : List Field :=
  if t.isNone then [.compact 0]
  else if t.isSingle then
    let blank : Output := ⟨-1, .empty⟩
    .compact (UInt64.ofNat (n + 1)) ::
      ((List.replicate n blank).flatMap Output.fields ++
        (tx.outputs[n]?.map Output.fields).getD [])
  else count tx.outputs :: tx.outputs.flatMap Output.fields

/-- The older digest. -/
def legacyDigest (tx : Transaction) (n : Nat) (code : Script) (t : HashType) : FixedBytes 32 :=
  match tx.inputs[n]? with
  | none => one
  | some i =>
    if t.isSingle ∧ tx.outputs.length ≤ n then one
    else
      hashFields
        ([.int32 tx.version] ++ tx.coveredInputs n i (withoutSeparators code) t ++
          tx.coveredOutputs n t ++ [.uint32 tx.lockTime, .uint32 t.raw])

/-- The digest that a signature signs. -/
def digest (tx : Transaction) (n : Nat) (code : Script) (t : HashType) (amount : Int64)
    (flags : Flags) : FixedBytes 32 :=
  if t.hasForkId && flags.has .forkId then tx.forkDigest n code t amount
  else tx.legacyDigest n code t

/-- The digest for an input that must exist. -/
def inputDigest (tx : Transaction) (n : Nat) (code : Script) (t : HashType) (amount : Int64)
    (flags : Flags) : Except DigestFault (FixedBytes 32) :=
  if n < tx.inputs.length then .ok (tx.digest n code t amount flags)
  else .error (.noInput n tx.inputs.length)

end Transaction

end CoinScript
