import CoinScript.Transaction.Basic

namespace CoinScript

inductive Edit
  | version (n : Int32)
  | lockTime (n : UInt32)
  | addInput (i : Input)
  | addOutput (o : Output)
  | unlocking (place : Nat) (script : Script)
  | sequence (place : Nat) (n : UInt32)
  | amount (place : Nat) (n : Int64)
  | removeInput (place : Nat)
  | removeOutput (place : Nat)

namespace Transaction

/-- A change that names a place beyond the end of its list changes nothing. -/
def edit (tx : Transaction) : Edit → Transaction
  | .version n => { tx with version := n }
  | .lockTime n => { tx with lockTime := n }
  | .addInput i => { tx with inputs := tx.inputs ++ [i] }
  | .addOutput o => { tx with outputs := tx.outputs ++ [o] }
  | .unlocking place script => tx.withUnlocking place script
  | .sequence place n =>
    { tx with inputs := tx.inputs.modify place ({ · with sequence := n }) }
  | .amount place n =>
    { tx with outputs := tx.outputs.modify place ({ · with amount := n }) }
  | .removeInput place => { tx with inputs := tx.inputs.eraseIdx place }
  | .removeOutput place => { tx with outputs := tx.outputs.eraseIdx place }

end Transaction

end CoinScript
