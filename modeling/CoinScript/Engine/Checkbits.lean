import CoinScript.Engine.Encoding
import CoinScript.Engine.State

namespace CoinScript

namespace Checkbits

/-- The number whose bits select among `keys` keys. -/
def read (item : Bytes) (keys : Nat) : Except Fault Nat :=
  if 32 < keys ∨ item.length ≠ (keys + 7) / 8 then .error (.checkbitsSize item.length keys)
  else if Bytes.toNatLE item < 2 ^ keys then .ok (Bytes.toNatLE item)
  else .error (.checkbitsRange (Bytes.toNatLE item) keys)

/-- The positions of the bits that are set, lowest first. -/
def positions (bits keys : Nat) : List Nat := (List.range keys).filter bits.testBit

end Checkbits

namespace Signing

/-- The operands of a multisignature, keys and signatures top first. -/
structure Multisig where
  keys : List Bytes
  signatures : List Bytes
  dummy : Bytes

namespace Multisig

/-- How many items the operands take. -/
def width (m : Multisig) : Nat := m.keys.length + m.signatures.length + 3

def allEmpty (m : Multisig) : Bool := m.signatures.all (· == [])

/-- Checks each signature against the key at its position, both counted from the bottom. -/
def runPairs (ctx : Context) (code : Script) (keys : List Bytes) :
    (i : Nat) → (positions : List Nat) → (sigs : List Bytes) → Except Fault Unit
  | i, position :: positions, sig :: sigs => do
    let key := keys.getD position []
    Encoding.checkSelectedSignature ctx.flags sig
    Encoding.checkKey ctx.flags key
    Encoding.demand (ctx.checker.signature sig key code) (.schnorrFailed i position)
    runPairs ctx code keys (i + 1) positions sigs
  | _, _, _ => .ok ()

/-- Every signature must be good for the key that its checkbit names. -/
def runSelected (ctx : Context) (code : Script) (m : Multisig) : Except Fault Bool := do
  let bits ← Checkbits.read m.dummy m.keys.length
  let positions := Checkbits.positions bits m.keys.length
  Encoding.demand (positions.length == m.signatures.length)
    (.checkbitsCount positions.length m.signatures.length)
  runPairs ctx code m.keys.reverse 0 positions m.signatures.reverse
  return true

def isSelected (flags : Flags) (m : Multisig) : Bool :=
  flags.has .schnorrMultisig && m.dummy != []

end Multisig

end Signing

end CoinScript
