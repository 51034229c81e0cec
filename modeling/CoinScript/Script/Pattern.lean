import CoinScript.Script.Flags

namespace CoinScript.Script

/-- The hash in `OP_HASH160 <20 bytes> OP_EQUAL`. -/
def scriptHash20? (s : Script) : Option (FixedBytes 20) :=
  match s.bytes with
  | a :: n :: rest =>
    if a = Opcode.hash160 ∧ n = 20 ∧ rest.drop 20 = [Opcode.equal] then
      FixedBytes.ofBytes? (rest.take 20)
    else none
  | _ => none

/-- The hash in `OP_HASH256 <32 bytes> OP_EQUAL`. -/
def scriptHash32? (s : Script) : Option (FixedBytes 32) :=
  match s.bytes with
  | a :: n :: rest =>
    if a = Opcode.hash256 ∧ n = 32 ∧ rest.drop 32 = [Opcode.equal] then
      FixedBytes.ofBytes? (rest.take 32)
    else none
  | _ => none

/-- The hash in `OP_DUP OP_HASH160 <20 bytes> OP_EQUALVERIFY OP_CHECKSIG`. -/
def keyHash? (s : Script) : Option (FixedBytes 20) :=
  match s.bytes with
  | d :: a :: n :: rest =>
    if d = Opcode.dup ∧ a = Opcode.hash160 ∧ n = 20 ∧
        rest.drop 20 = [Opcode.equalVerify, Opcode.checkSig] then
      FixedBytes.ofBytes? (rest.take 20)
    else none
  | _ => none

def isP2sh20 (s : Script) : Bool := s.scriptHash20?.isSome

def isP2sh32 (s : Script) : Bool := s.scriptHash32?.isSome

/-- Whether the script commits to another one by hash, the 32-byte form only where it is allowed. -/
def isP2sh (s : Script) (flags : Flags) : Bool :=
  s.isP2sh20 || (flags.has .p2sh32 && s.isP2sh32)

def isP2pkh (s : Script) : Bool := s.keyHash?.isSome

/-- A number code and one direct push of 2 to 40 bytes. -/
def witnessProgram? (s : Script) : Option (Int × Bytes) :=
  match s.bytes with
  | version :: n :: program =>
    if 4 ≤ s.length ∧ s.length ≤ 42 ∧ (version = 0 ∨ Opcode.isOneToSixteen version) ∧
        n.toNat = program.length then
      some (Opcode.smallNumber version, program)
    else none
  | _ => none

def isWitnessProgram (s : Script) : Bool := s.witnessProgram?.isSome

def isUnspendable (s : Script) : Bool :=
  s.bytes.head? == some Opcode.abort || s.length > maxLength

end CoinScript.Script
