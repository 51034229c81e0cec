import CoinScript.Script.Pattern

namespace CoinScript.Script

def maxMultisigKeys : Nat := 20

/-- The checks one operation asks for, given the code before it. -/
def sigOpsOf (flags : Flags) (accurate : Bool) (before op : Opcode) : Nat :=
  if op = Opcode.checkSig ∨ op = Opcode.checkSigVerify then 1
  else if op = Opcode.checkMultisig ∨ op = Opcode.checkMultisigVerify then
    if accurate && Opcode.isOneToSixteen before then before.toNat - 80 else maxMultisigKeys
  else if (op = Opcode.checkDataSig ∨ op = Opcode.checkDataSigVerify) ∧ flags.has .dataSignatures then 1
  else 0

def countSigOps (flags : Flags) (accurate : Bool) (before : Opcode) : List Operation → Nat
  | [] => 0
  | op :: ops =>
    sigOpsOf flags accurate before op.code + countSigOps flags accurate op.code ops

/-- How many signature checks a script asks for, told without running it. -/
def sigOps (s : Script) (flags : Flags) (accurate : Bool) : Nat :=
  countSigOps flags accurate 0xff s.operations

/-- The script that a spend of a script hash reveals: the last item of a script that only pushes. -/
def revealed? (unlocking : Script) : Option Script :=
  if unlocking.isPushOnly then
    some ⟨(unlocking.operations.getLast?.map Operation.data).getD []⟩
  else none

/-- The checks of a spend: of the revealed script for a script hash, of the output else. -/
def spendSigOps (locking : Script) (flags : Flags) (unlocking : Script) : Nat :=
  if locking.isP2sh flags then
    match unlocking.revealed? with
    | some redeem => redeem.sigOps flags true
    | none => 0
  else locking.sigOps flags true

end CoinScript.Script
