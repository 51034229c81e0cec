import CoinScript.Wallet.Signer

namespace CoinScript

/-- How an input is to be signed. -/
structure SigningOrder where
  store : KeyStore
  flags : Flags
  place : Nat
  hashType : HashType
  scheme : Scheme

/-- A step on the transaction that is being signed. -/
abbrev SigningStep := EStateM SigningFault Transaction Unit

namespace SigningOrder

def signer (order : SigningOrder) (tx : Transaction) (amount : Int64) : Signer :=
  .ofTransaction order.store tx order.place amount order.hashType order.scheme

/-- Signs for an output with the given script and amount. -/
def sign (order : SigningOrder) (locking : Script) (amount : Int64) : SigningStep := fun tx =>
  if order.place < tx.inputs.length then
    match (order.signer tx amount).unlock locking order.flags with
    | .ok unlocking => .ok () (tx.withUnlocking order.place unlocking)
    | .error (.incomplete unlocking why) =>
      .error (.incomplete unlocking why) (tx.withUnlocking order.place unlocking)
    | .error fault => .error fault tx
  else .error (.digest (.noInput order.place tx.inputs.length)) tx

/-- The output that an input spends, taken from the transaction that it names. -/
def spentOutput (order : SigningOrder) (source tx : Transaction) : Except SigningFault Output :=
  match tx.inputs[order.place]? with
  | none => .error (.noInput order.place)
  | some i =>
    if i.source.txid = source.id then
      match source.outputs[i.source.index.toNat]? with
      | some o => .ok o
      | none => .error (.noOutput i.source.index)
    else .error .unrelated

/-- Signs for the output of a transaction that the input spends. -/
def signFrom (order : SigningOrder) (source : Transaction) : SigningStep := fun tx =>
  match order.spentOutput source tx with
  | .ok o => order.sign o.locking o.amount tx
  | .error fault => .error fault tx

end SigningOrder

end CoinScript
