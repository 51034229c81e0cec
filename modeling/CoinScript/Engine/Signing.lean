import CoinScript.Engine.Checkbits
import CoinScript.Script.Builder

namespace CoinScript.Signing

open Effect

def maxKeys : Nat := 20

/-- A script without the pushes of a signature. -/
def withoutSignature (code : Script) (sig : Bytes) : Script :=
  match Script.ofPush sig with
  | .ok pattern => (code.remove pattern).2
  | .error _ => code

/-- Under the flag a failing check must have had an empty signature. -/
def nullFail (flags : Flags) (success : Bool) (sig : Bytes) : Except Fault Unit :=
  Encoding.demand (success || sig == [] || !flags.has .nullFail) .signatureNotEmpty

/-- Whether one signature is good, its spelling and that of the key being admitted. -/
def checkOne (ctx : Context) (code : Script) (sig key : Bytes) : Except Fault Bool := do
  Encoding.checkSignature ctx.flags sig
  Encoding.checkKey ctx.flags key
  let success := sig != [] && ctx.checker.signature sig key code
  nullFail ctx.flags success sig
  return success

/-- Replaces the top `n` items by an answer, or insists that it is yes. -/
def answer (n : Nat) (verify : Bool) (assertion : Assertion) (success : Bool) : Effect Unit := do
  onMain (Stack.drop n)
  onMain (Stack.pushBool success)
  if verify then assertTop assertion

def checkSig (ctx : Context) (verify : Bool) : Effect Unit := do
  onMain (Stack.require 2)
  let key ← onMain (Stack.peek 0)
  let sig ← onMain (Stack.peek 1)
  modify fun st => { st with hashTypes := st.hashTypes ||| sig.getLast?.getD 0 }
  countSigChecks (if sig = [] then 0 else 1)
  let code := withoutSignature ⟨(← get).code⟩ sig
  let success ← orFail (checkOne ctx code sig key)
  answer 2 verify .signature success

def checkDataSig (ctx : Context) (verify : Bool) : Effect Unit := do
  onMain (Stack.require 3)
  let key ← onMain (Stack.peek 0)
  let message ← onMain (Stack.peek 1)
  let sig ← onMain (Stack.peek 2)
  orFail (Encoding.checkDataSignature ctx.flags sig)
  orFail (Encoding.checkKey ctx.flags key)
  let success := sig != [] && ctx.checker.digest sig key (Hash.sha256 message)
  countSigChecks (if sig = [] then 0 else 1)
  orFail (nullFail ctx.flags success sig)
  answer 3 verify .dataSignature success

namespace Multisig

/-- Takes signatures and keys from the top; a key that does not fit is passed over, and there must
be no more signatures left than keys. -/
def matchInOrder (fits : (sig key : Bytes) → Except Fault Bool) :
    (sigs keys : List Bytes) → Except Fault Bool
  | [], _ => .ok true
  | _ :: _, [] => .ok false
  | sig :: sigs, key :: keys => do
    let left := if ← fits sig key then sigs else sig :: sigs
    if keys.length < left.length then return false
    matchInOrder fits left keys

/-- Signatures that commit to the fork are left in the script they cover. -/
def withoutOrdered (flags : Flags) (code : Script) (sig : Bytes) : Script :=
  if flags.has .forkId && (HashType.ofSignature sig).hasForkId then code
  else withoutSignature code sig

/-- The script that signatures matched in order cover. -/
def orderedCode (flags : Flags) (code : Script) (m : Multisig) : Script :=
  m.signatures.foldl (withoutOrdered flags) code

def fitsInOrder (ctx : Context) (code : Script) (sig key : Bytes) : Except Fault Bool := do
  Encoding.checkOrderedSignature ctx.flags sig
  Encoding.checkKey ctx.flags key
  return ctx.checker.signature sig key code

/-- Signatures matched to keys in order. -/
def runOrdered (ctx : Context) (code : Script) (m : Multisig) : Except Fault Bool := do
  let success ←
    matchInOrder (fitsInOrder ctx (m.orderedCode ctx.flags code)) m.signatures m.keys
  Encoding.demand (success || m.allEmpty || !ctx.flags.has .nullFail) .multisigNotEmpty
  Encoding.demand (!ctx.flags.has .nullDummy || m.dummy == []) (.dummyNotEmpty m.dummy.length)
  return success

/-- Checks that are counted for the operands, whatever comes of them. -/
def sigChecks (flags : Flags) (m : Multisig) : Nat :=
  if m.isSelected flags then m.signatures.length
  else if m.allEmpty then 0 else m.keys.length

def run (ctx : Context) (code : Script) (m : Multisig) : Except Fault Bool :=
  if m.isSelected ctx.flags then m.runSelected ctx code else m.runOrdered ctx code

end Multisig

/-- The item `i` places below the top, as a number. -/
def numberAt (ctx : Context) (i : Nat) : Effect Int := do
  orFail (Number.operand ctx.minimal (← onMain (Stack.peek i)))

/-- Reads the operands without popping them. The keys count against the budget. -/
def readMultisig (ctx : Context) : Effect Multisig := do
  onMain (Stack.require 1)
  let n ← numberAt ctx 0
  demand (0 ≤ n && n ≤ maxKeys) (.keyCount n)
  let keys := n.toNat
  countOps ctx keys
  onMain (Stack.require (keys + 2))
  let n ← numberAt ctx (keys + 1)
  demand (0 ≤ n && n ≤ keys) (.signatureCount n keys)
  let sigs := n.toNat
  onMain (Stack.require (keys + sigs + 3))
  let s : List Bytes := (← get).main
  return ⟨(s.drop 1).take keys, (s.drop (keys + 2)).take sigs, s.getD (keys + sigs + 2) []⟩

def checkMultisig (ctx : Context) (verify : Bool) : Effect Unit := do
  let m ← readMultisig ctx
  countSigChecks (m.sigChecks ctx.flags)
  let success ← orFail (m.run ctx ⟨(← get).code⟩)
  onMain (Stack.drop m.width)
  if verify then demand success .multisigFailed else onMain (Stack.pushBool success)

end CoinScript.Signing
