import CoinScript.Engine.Operand
import CoinScript.Key.Public
import CoinScript.Template.Basic

namespace CoinScript.Template

def scriptHash? (flags : Flags) (s : Script) : Option Template :=
  match s.scriptHash20? with
  | some hash => some (.scriptHash (.short hash))
  | none =>
    if flags.has .p2sh32 then s.scriptHash32?.map fun hash => .scriptHash (.long hash) else none

/-- The operations of a script that is well formed. -/
def operations? (s : Script) : Option (List Operation) :=
  if s.isWellFormed then some s.operations else none

/-- A number of at most five bytes in its shortest form. -/
def shortNumber? (item : Bytes) : Option Int :=
  (Number.decode true Number.lockTimeLimit item).toOption

/-- The length that an operation declares: by its code, or by the lowest byte of the number it
pushes, that number being cut to 32 bits. -/
def declaredLength? (op : Operation) : Option Nat :=
  (shortNumber? op.data).map fun n =>
    if 0 < n then (Number.clamp32 n).toNat % 256
    else if Opcode.isOneToSixteen op.code then op.code.toNat - 80
    else 0

def isPublic (ops : List Operation) : Bool := ops.all fun op => op.code ≤ Opcode.sixteen

/-- `OP_RETURN`, a length, a text of that length, and pushes. -/
def label? (s : Script) : Option Template := do
  match ← operations? s with
  | abort :: length :: text :: rest =>
    let n ← declaredLength? length
    if abort.code = Opcode.abort ∧ isPublic (length :: text :: rest) ∧ n ≠ 0 ∧
        text.data.length = n then
      some (.label length.data text.data)
    else none
  | _ => none

/-- `OP_RETURN` and pushes. -/
def data? (s : Script) : Option Template := do
  match ← operations? s with
  | abort :: rest => if abort.code = Opcode.abort ∧ isPublic rest then some .data else none
  | _ => none

/-- A direct push of a key, and `OP_CHECKSIG`. -/
def key? (s : Script) : Option Template := do
  match ← operations? s with
  | [key, check] =>
    if check.code = Opcode.checkSig ∧ PublicKey.hasAnnouncedLength key.data ∧
        key.code.toNat = key.data.length then
      some (.publicKey key.data)
    else none
  | _ => none

/-- A number, `OP_CHECKLOCKTIMEVERIFY OP_DROP`, a push of a key, and `OP_CHECKSIG`. -/
def frozen? (s : Script) : Option Template := do
  match ← operations? s with
  | [lockTime, checkLock, drop, key, check] =>
    if (shortNumber? lockTime.data).isSome ∧ checkLock.code = Opcode.checkLockTimeVerify ∧
        drop.code = Opcode.drop ∧ PublicKey.hasAnnouncedLength key.data ∧
        check.code = Opcode.checkSig then
      some (.frozen lockTime.data key.data)
    else none
  | _ => none

def isKeyPush (op : Operation) : Bool := op.isPush && op.isMinimalPush

/-- Number codes around pushes of keys, and `OP_CHECKMULTISIG`. -/
def multisig? (s : Script) : Option Template := do
  match ← operations? s with
  | [] => none
  | first :: rest =>
    let keys := rest.takeWhile fun op => PublicKey.hasAnnouncedLength op.data
    match rest.drop keys.length with
    | [last, check] =>
      let required := first.code.toNat - 80
      if Opcode.isOneToSixteen first.code ∧ Opcode.isOneToSixteen last.code ∧
          check.code = Opcode.checkMultisig ∧ keys.all isKeyPush ∧
          last.code.toNat - 80 = keys.length ∧ required ≤ keys.length then
        some (.multisig required (keys.map Operation.data))
      else none
    | _ => none

def keyHash? (s : Script) : Option Template := s.keyHash?.map .publicKeyHash

/-- Except for the hash templates, a template is told from the operations of the whole script. -/
def ofScript (flags : Flags) (s : Script) : Template :=
  ((scriptHash? flags s <|> label? s <|> data? s <|> key? s <|> keyHash? s <|> frozen? s <|>
    multisig? s)).getD .nonStandard

end CoinScript.Template
