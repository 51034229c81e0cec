import CoinScript.Hash
import CoinScript.Script.Fault
import CoinScript.Script.Number
import CoinScript.Wire.Field

namespace CoinScript

open Wire (Field)

/-- An earlier output, by the name of its transaction and its place there. -/
structure Outpoint where
  txid : FixedBytes 32
  index : UInt32
deriving DecidableEq

structure Input where
  source : Outpoint := ⟨.zero 32, 0⟩
  unlocking : Script := .empty
  sequence : UInt32 := 0xffffffff
deriving DecidableEq

structure Output where
  amount : Int64 := 0
  locking : Script := .empty
deriving DecidableEq

structure Transaction where
  version : Int32 := 1
  inputs : List Input := []
  outputs : List Output := []
  lockTime : UInt32 := 0
deriving DecidableEq

namespace Outpoint

/-- What an input names that takes new coins and no earlier output. -/
def null : Outpoint := ⟨.zero 32, 0xffffffff⟩

def fields (o : Outpoint) : List Field := [.raw o.txid.bytes, .uint32 o.index]

end Outpoint

namespace Input

def fields (i : Input) : List Field :=
  i.source.fields ++ [.sized i.unlocking.bytes, .uint32 i.sequence]

/-- A final input takes no part in lock times. -/
def isFinal (i : Input) : Bool := i.sequence == 0xffffffff

end Input

namespace Output

def fields (o : Output) : List Field := [.int64 o.amount, .sized o.locking.bytes]

def bytes (o : Output) : Bytes := Field.encodeAll o.fields

end Output

namespace Transaction

def count {α : Type} (items : List α) : Field := .compact (UInt64.ofNat items.length)

def fields (tx : Transaction) : List Field :=
  [.int32 tx.version, count tx.inputs] ++ tx.inputs.flatMap Input.fields ++
    [count tx.outputs] ++ tx.outputs.flatMap Output.fields ++ [.uint32 tx.lockTime]

def bytes (tx : Transaction) : Bytes := Field.encodeAll tx.fields

/-- The name of a transaction, in the order of bytes that inputs use. -/
def id (tx : Transaction) : FixedBytes 32 := Hash.hash256 tx.bytes

/-- The name as it is shown: last byte first. -/
def shownId (tx : Transaction) : String := Hex.encode tx.id.reverse.bytes

def isCoinbase (tx : Transaction) : Bool :=
  match tx.inputs with
  | [i] => i.source == .null
  | _ => false

/-- A sum, unless a word overflows. -/
def addAmounts? (a b : Int64) : Option Int64 :=
  if Number.inRange (a.toInt + b.toInt) then some (a + b) else none

/-- The sum of all outputs, taken in order. -/
def totalOutput? (tx : Transaction) : Option Int64 :=
  (tx.outputs.map Output.amount).foldlM addAmounts? 0

def withUnlocking (tx : Transaction) (i : Nat) (unlocking : Script) : Transaction :=
  { tx with inputs := tx.inputs.modify i ({ · with unlocking }) }

def unlockingAt (tx : Transaction) (i : Nat) : Script :=
  (tx.inputs[i]?.map Input.unlocking).getD .empty

end Transaction

end CoinScript
