import CoinScript.Hash
import CoinScript.Script.Builder
import CoinScript.Script.Pattern

namespace CoinScript

/-- The name of a script: the shorter or the longer of its two hashes. -/
inductive ScriptId
  | short (hash : FixedBytes 20)
  | long (hash : FixedBytes 32)
deriving DecidableEq

namespace ScriptId

def shortOf (s : Script) : ScriptId := .short (Hash.hash160 s.bytes)

def longOf (s : Script) : ScriptId := .long (Hash.hash256 s.bytes)

def bytes : ScriptId → Bytes
  | .short h => h.bytes
  | .long h => h.bytes

/-- The length tells which hash it is. -/
def ofBytes? (bs : Bytes) : Option ScriptId :=
  ((FixedBytes.ofBytes? bs).map short).or ((FixedBytes.ofBytes? bs).map long)

end ScriptId

/-- The shapes of locking scripts that a wallet knows how to spend, with their parameters. -/
inductive Template
  | nonStandard
  | publicKey (key : Bytes)
  | publicKeyHash (hash : FixedBytes 20)
  | scriptHash (id : ScriptId)
  | multisig (required : Nat) (keys : List Bytes)
  /-- A key that can spend from a lock time on. -/
  | frozen (lockTime key : Bytes)
  /-- Public data that begins with the length of a text. -/
  | label (length text : Bytes)
  | data
deriving DecidableEq

namespace Template

def name : Template → String
  | .nonStandard => "nonstandard"
  | .publicKey _ => "pubkey"
  | .publicKeyHash _ => "pubkeyhash"
  | .scriptHash _ => "scripthash"
  | .multisig _ _ => "multisig"
  | .frozen _ _ => "cltv"
  | .label _ _ => "publiclabel"
  | .data => "nulldata"

/-- The parameters in the order they occur in the script. -/
def parameters : Template → List Bytes
  | .nonStandard => []
  | .publicKey key => [key]
  | .publicKeyHash hash => [hash.bytes]
  | .scriptHash id => [id.bytes]
  | .multisig required keys => [UInt8.ofNat required] :: (keys ++ [[UInt8.ofNat keys.length]])
  | .frozen lockTime key => [lockTime, key]
  | .label length text => [length, text]
  | .data => []

def isScriptHash : Template → Bool
  | .scriptHash _ => true
  | _ => false

end Template

end CoinScript
