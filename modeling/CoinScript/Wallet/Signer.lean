import CoinScript.Engine.Spend
import CoinScript.Template.Recognize
import CoinScript.Transaction.Spending
import CoinScript.Wallet.KeyStore

namespace CoinScript

/-- Knows keys, makes signatures and can check them. -/
structure Signer where
  store : KeyStore
  checker : Checker
  /-- A signature with hash type, by a key, of a script. -/
  sign : FixedBytes 20 → Script → Option Bytes

inductive Scheme
  | ecdsa
  | schnorr
deriving DecidableEq

/-- Why an unlocking script is not complete. -/
inductive Incomplete
  | output (t : Template)
  | revealed (t : Template)
  | verification (fault : Fault)
deriving DecidableEq

def Incomplete.message : Incomplete → String
  | .output t => "cannot sign " ++ t.name ++ " output"
  | .revealed t => "cannot sign " ++ t.name ++ " redeem script"
  | .verification fault => fault.code.name ++ ": " ++ fault.message

inductive SigningFault
  | script (fault : ScriptFault)
  | incomplete (unlocking : Script) (why : Incomplete)
  | digest (fault : DigestFault)
  | noInput (place : Nat)
  | unrelated
  | noOutput (index : UInt32)
deriving DecidableEq

def SigningFault.message : SigningFault → String
  | .script fault => "script error: " ++ fault.message
  | .incomplete _ why => "incomplete signature: " ++ why.message
  | .digest fault => fault.message
  | .noInput place =>
    "invalid transaction: input index " ++ toString place ++ " out of range"
  | .unrelated => "invalid transaction: input does not spend the given transaction"
  | .noOutput index =>
    "invalid transaction: spent output index " ++ toString index ++ " out of range"

namespace Scheme

/-- The signature of a digest, without hash type. -/
def sign? (scheme : Scheme) (key : PrivateKey secp256k1) (digest : FixedBytes 32) :
    Option Bytes :=
  match scheme with
  | .ecdsa => (Ecdsa.sign key digest).toOption.map Der.encode
  | .schnorr => (Schnorr.sign key digest).toOption

end Scheme

namespace Signer

/-- Only the flag that chooses the digest matters to signatures. -/
def digestFlags (t : HashType) : Flags := if t.hasForkId then .only .forkId else .none

/-- Signs one input of a transaction with the keys of a store. -/
def ofTransaction (store : KeyStore) (tx : Transaction) (place : Nat) (amount : Int64)
    (t : HashType) (scheme : Scheme) : Signer :=
  let spending : Spending := ⟨tx, place, amount, digestFlags t⟩
  { store
    checker := spending.checker
    sign := fun id code => do
      let sig ← scheme.sign? (← store.key? id) (spending.digest t code)
      return sig ++ [t.raw.toUInt8] }

/-- A string of the greatest length a signature has. -/
def placeholder : Bytes :=
  [0x30, 69, 0x02, 33, 0x01] ++ List.replicate 32 0 ++ [0x02, 32, 0x01] ++ List.replicate 31 0 ++
    [0x01]

/-- Signs with placeholders for every key, known or not. -/
def estimating (store : KeyStore) : Signer where
  store := store
  checker := .lenient
  sign _ _ := some placeholder

/-- What one template could be given. -/
structure Attempt where
  script : Script
  complete : Bool

/-- Adds a signature by a key if the signer can make one. -/
def addSignature (signer : Signer) (code : Script) (id : FixedBytes 20) (s : Script) :
    Except ScriptFault Attempt :=
  match signer.sign id code with
  | some sig => (s.push sig).map (⟨·, true⟩)
  | none => .ok ⟨s, false⟩

/-- Adds signatures by the first keys that the signer can sign with, until there are enough. -/
def addSignatures (signer : Signer) (code : Script) :
    (needed : Nat) → (keys : List Bytes) → Script → Except ScriptFault Attempt
  | 0, _, s => .ok ⟨s, true⟩
  | _ + 1, [], s => .ok ⟨s, false⟩
  | needed + 1, key :: keys, s => do
    let a ← signer.addSignature code (Hash.hash160 key) s
    signer.addSignatures code (if a.complete then needed else needed + 1) keys a.script

/-- What the template of a script asks for. A script hash asks for the script itself. -/
def attempt (signer : Signer) (code : Script) : Template → Except ScriptFault Attempt
  | .publicKey key => signer.addSignature code (Hash.hash160 key) .empty
  | .frozen _ key => signer.addSignature code (Hash.hash160 key) .empty
  | .publicKeyHash id => do
    let a ← signer.addSignature code id .empty
    if a.complete then
      let s ← a.script.push (((signer.store.publicKey? id).map PublicKey.bytes).getD [])
      return ⟨s, true⟩
    else return a
  | .scriptHash id =>
    match signer.store.script? id with
    | some redeem => .ok ⟨redeem, true⟩
    | none => .ok ⟨.empty, false⟩
  | .multisig required keys => signer.addSignatures code required keys ⟨[Opcode.zero]⟩
  | _ => .ok ⟨.empty, false⟩

def liftScript {α : Type} (result : Except ScriptFault α) : Except SigningFault α :=
  result.mapError .script

/-- The unlocking script, if it verifies. -/
def verified (signer : Signer) (locking : Script) (flags : Flags) (unlocking : Script) :
    Except SigningFault Script :=
  match verifySpend ⟨flags, signer.checker, Spend.maxOps⟩ unlocking locking with
  | .ok _ => .ok unlocking
  | .error fault => .error (.incomplete unlocking (.verification fault))

/-- The unlocking script for a revealed script: what that asks for, and the script itself. -/
def unlockRevealed (signer : Signer) (redeem : Script) (flags : Flags) :
    Except SigningFault Script := do
  let t := Template.ofScript flags redeem
  let a ← liftScript (signer.attempt redeem t)
  let unlocking ← liftScript (a.script.push redeem.bytes)
  if a.complete && !t.isScriptHash then return unlocking
  else throw (.incomplete unlocking (.revealed t))

/-- The unlocking script for a locking script. -/
def unlock (signer : Signer) (locking : Script) (flags : Flags) : Except SigningFault Script := do
  let t := Template.ofScript flags locking
  let a ← liftScript (signer.attempt locking t)
  if a.complete then
    let unlocking ← if t.isScriptHash then signer.unlockRevealed a.script flags else pure a.script
    signer.verified locking flags unlocking
  else throw (.incomplete a.script (.output t))

end Signer

end CoinScript
