import CoinScript.Template.Recognize

namespace CoinScript

inductive Destination
  | key (id : FixedBytes 20)
  | script (id : ScriptId)
deriving DecidableEq

namespace Destination

def ofKey? (key : Bytes) : Option Destination :=
  match (PublicKey.ofBytes key : Except _ (PublicKey secp256k1)) with
  | .ok _ => some (.key (Hash.hash160 key))
  | .error _ => none

end Destination

namespace Template

def destination? : Template → Option Destination
  | .publicKey key => Destination.ofKey? key
  | .frozen _ key => Destination.ofKey? key
  | .publicKeyHash hash => some (.key hash)
  | .scriptHash id => some (.script id)
  | _ => none

/-- Everyone who is paid, and how many of them have to sign. -/
def destinations? : Template → Option (List Destination × Nat)
  | .multisig required keys =>
    match keys.filterMap Destination.ofKey? with
    | [] => none
    | found => some (found, required)
  | t => t.destination?.map fun d => ([d], 1)

end Template

namespace Script

def payTo : Destination → Script
  | .key id =>
    ⟨[Opcode.dup, Opcode.hash160, 20] ++ id.bytes ++ [Opcode.equalVerify, Opcode.checkSig]⟩
  | .script (.short hash) => ⟨[Opcode.hash160, 20] ++ hash.bytes ++ [Opcode.equal]⟩
  | .script (.long hash) => ⟨[Opcode.hash256, 32] ++ hash.bytes ++ [Opcode.equal]⟩

/-- A direct push of a key and the check that it has signed. -/
def keyCheck (key : PublicKey secp256k1) : Bytes :=
  UInt8.ofNat key.bytes.length :: (key.bytes ++ [Opcode.checkSig])

def payToKey (key : PublicKey secp256k1) : Script := ⟨keyCheck key⟩

/-- Pays to any `required` of up to 16 keys. -/
def payToMultisig (required : Nat) (keys : List (PublicKey secp256k1)) :
    Except ScriptFault Script :=
  if required = 0 ∨ keys.length < required ∨ 16 < keys.length then
    .error (.multisigCounts required keys.length)
  else do
    let s ← (empty.pushNumber required).pushAll (keys.map PublicKey.bytes)
    return (s.pushNumber keys.length).append [Opcode.checkMultisig]

/-- Pays to a key from a lock time on. -/
def payFrozen (lockTime : Int) (key : PublicKey secp256k1) : Script :=
  (empty.pushNumber lockTime).append
    ([Opcode.checkLockTimeVerify, Opcode.drop] ++ keyCheck key)

/-- Publishes a text; there is no script for the empty one. -/
def publish (text : Bytes) : Except ScriptFault Script :=
  if text = [] then .ok empty
  else ((empty.append [Opcode.abort]).pushNumber text.length).push text

end Script

end CoinScript
