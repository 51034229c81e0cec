import CoinScript.Script.Basic
import CoinScript.Signature.Der
import CoinScript.Signature.Schnorr

namespace CoinScript

/-- A signature of 64 bytes is a Schnorr one, any other is read as lax DER. -/
def signatureCovers (sig : Bytes) (key : PublicKey secp256k1) (digest : FixedBytes 32) : Bool :=
  if sig.length = Schnorr.signatureLength then Schnorr.verify key digest sig
  else
    match Der.readLax sig with
    | .ok s => Ecdsa.verify key digest s
    | .error _ => false

def digestSigned (sig key : Bytes) (digest : FixedBytes 32) : Bool :=
  match (PublicKey.ofBytes key : Except _ (PublicKey secp256k1)) with
  | .ok key => signatureCovers sig key digest
  | .error _ => false

/-- What an evaluation asks about the transaction it runs for. -/
structure Checker where
  /-- Whether a signature with hash type covers the spend, given the script it commits to. -/
  signature : (sig key : Bytes) → (code : Script) → Bool := fun _ _ _ => false
  lockTime : Int → Bool := fun _ => false
  sequence : Int → Bool := fun _ => false
  digest : (sig key : Bytes) → FixedBytes 32 → Bool := digestSigned

/-- One thing that a checker is asked. -/
inductive Question
  | signature (sig key : Bytes) (code : Script)
  | lockTime (n : Int)
  | sequence (n : Int)
  | digest (sig key : Bytes) (digest : FixedBytes 32)

namespace Checker

/-- Answers without a transaction. -/
def none : Checker := {}

/-- Accepts every signature, for estimating sizes. -/
def lenient : Checker := { signature := fun _ _ _ => true }

def answer (c : Checker) : Question → Bool
  | .signature sig key code => c.signature sig key code
  | .lockTime n => c.lockTime n
  | .sequence n => c.sequence n
  | .digest sig key d => c.digest sig key d

end Checker

end CoinScript
