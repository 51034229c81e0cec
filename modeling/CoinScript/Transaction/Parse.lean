import CoinScript.Transaction.Basic

namespace CoinScript

inductive TransactionPart
  | version
  | inputCount
  | sourceId
  | sourceIndex
  | unlocking
  | sequence
  | outputCount
  | amount
  | locking
  | lockTime
deriving DecidableEq

def TransactionPart.name : TransactionPart → String
  | .version => "version"
  | .inputCount => "input count"
  | .sourceId => "source txid"
  | .sourceIndex => "output index"
  | .unlocking => "scriptSig"
  | .sequence => "sequence number"
  | .outputCount => "output count"
  | .amount => "satoshis"
  | .locking => "locking script"
  | .lockTime => "lock time"

inductive ParseFault
  | hex (fault : HexFault)
  | cutShort (part : TransactionPart) (fault : Wire.ReadFault)
  | trailing (n : Nat)
deriving DecidableEq

def ParseFault.message : ParseFault → String
  | .hex fault => "serialization error: invalid hex: " ++ fault.message
  | .cutShort part fault =>
    "serialization error: reading " ++ part.name ++ ": " ++ fault.message
  | .trailing n =>
    "serialization error: trailing " ++ toString n ++ " bytes after transaction"

abbrev Parser (α : Type) := EStateM ParseFault Bytes α

namespace Parser

open Wire (Reader)

/-- A reading whose failure is that of a part. -/
def part {α : Type} (p : TransactionPart) (r : Reader α) : Parser α := fun bs =>
  match r bs with
  | .ok a rest => .ok a rest
  | .error fault rest => .error (.cutShort p fault) rest

def many {α : Type} (item : Parser α) : Nat → Parser (List α)
  | 0 => return []
  | n + 1 => do
    let a ← item
    return a :: (← many item n)

def input : Parser Input := do
  let txid ← part .sourceId (Reader.take 32)
  let index ← part .sourceIndex Reader.uint32
  let unlocking ← part .unlocking Reader.sizedBytes
  let sequence ← part .sequence Reader.uint32
  return ⟨⟨txid, index⟩, ⟨unlocking⟩, sequence⟩

def output : Parser Output := do
  let amount ← part .amount Reader.uint64
  let locking ← part .locking Reader.sizedBytes
  return ⟨amount.toInt64, ⟨locking⟩⟩

def transaction : Parser Transaction := do
  let version ← part .version Reader.uint32
  let inputs ← many input (← part .inputCount Reader.compactSize)
  let outputs ← many output (← part .outputCount Reader.compactSize)
  let lockTime ← part .lockTime Reader.uint32
  return ⟨version.toInt32, inputs, outputs, lockTime⟩

end Parser

namespace Transaction

/-- Nothing may be left after the transaction. -/
def ofBytes (bs : Bytes) : Except ParseFault Transaction :=
  match Parser.transaction bs with
  | .error fault _ => .error fault
  | .ok tx rest => if rest = [] then .ok tx else .error (.trailing rest.length)

def ofHex (text : String) : Except ParseFault Transaction :=
  match Hex.decode text with
  | .ok bs => ofBytes bs
  | .error fault => .error (.hex fault)

end Transaction

end CoinScript
