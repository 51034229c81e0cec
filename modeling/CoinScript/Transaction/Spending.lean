import CoinScript.Engine.Checker
import CoinScript.Transaction.Digest

namespace CoinScript

/-- An input of a transaction, with the amount it spends and the flags its digests go by. -/
structure Spending where
  tx : Transaction
  place : Nat
  amount : Int64
  flags : Flags

/-- Lock times below this are heights of blocks, all others are moments. -/
def lockTimeThreshold : Nat := 500000000

namespace Sequence

/-- A sequence with this bit has no lock time. -/
def disabledBit : UInt32 := 0x80000000

/-- Whether a lock time is counted in time rather than in blocks. -/
def timeBit : UInt32 := 0x00400000

/-- The bits of a sequence that its lock time is made of. -/
def lockTimeBits : UInt32 := 0x0040ffff

end Sequence

namespace Spending

def digest (s : Spending) (t : HashType) (code : Script) : FixedBytes 32 :=
  s.tx.digest s.place code t s.amount s.flags

/-- Whether signatures of a hash type are taken at all. -/
def admits (s : Spending) (t : HashType) : Bool := !s.flags.has .forkId || t.hasForkId

/-- What is to be verified of a signature with hash type: its body, the key and the type. -/
def signed? (s : Spending) (sig key : Bytes) : Option (Bytes × PublicKey secp256k1 × HashType) :=
  match (PublicKey.ofBytes key : Except _ (PublicKey secp256k1)) with
  | .error _ => none
  | .ok key =>
    if sig ≠ [] ∧ s.admits (.ofSignature sig) then some (sig.dropLast, key, .ofSignature sig)
    else none

def signatureValid (s : Spending) (sig key : Bytes) (code : Script) : Bool :=
  match s.signed? sig key with
  | none => false
  | some (body, key, t) => signatureCovers body key (s.digest t code)

/-- Heights are compared with heights and moments with moments; a final input has no lock time. -/
def lockTimeReached (s : Spending) (n : Int) : Bool :=
  match s.tx.inputs[s.place]? with
  | none => false
  | some i =>
    let own : Int := s.tx.lockTime.toNat
    decide (own < lockTimeThreshold ↔ n < lockTimeThreshold) && decide (n ≤ own) && !i.isFinal

/-- The bits of a number that make up a relative lock time. -/
def relative (n : Int) : UInt32 := UInt32.ofInt n &&& Sequence.lockTimeBits

/-- Blocks are compared with blocks and times with times. The version counts as unsigned. -/
def sequenceReached (s : Spending) (n : Int) : Bool :=
  match s.tx.inputs[s.place]? with
  | none => false
  | some i =>
    let own := i.sequence &&& Sequence.lockTimeBits
    decide (2 ≤ s.tx.version.toUInt32) && (i.sequence &&& Sequence.disabledBit == 0) &&
      decide (own < Sequence.timeBit ↔ relative n < Sequence.timeBit) &&
      decide (relative n ≤ own)

def checker (s : Spending) : Checker where
  signature := s.signatureValid
  lockTime := s.lockTimeReached
  sequence := s.sequenceReached

/-- Digests already computed, by hash type and code. -/
abbrev DigestCache := List ((HashType × Script) × FixedBytes 32)

/-- Looks a digest up, or computes it and keeps it. -/
def cachedDigest (s : Spending) (t : HashType) (code : Script) :
    StateM DigestCache (FixedBytes 32) := fun cache =>
  match cache.lookup (t, code) with
  | some d => (d, cache)
  | none => (s.digest t code, ((t, code), s.digest t code) :: cache)

/-- Answers a question and keeps the digest it took. -/
def ask (s : Spending) : Question → StateM DigestCache Bool
  | .signature sig key code =>
    match s.signed? sig key with
    | none => return false
    | some (body, key, t) => do return signatureCovers body key (← s.cachedDigest t code)
  | .lockTime n => return s.lockTimeReached n
  | .sequence n => return s.sequenceReached n
  | .digest sig key d => return digestSigned sig key d

/-- The checker of a transaction that it owns: every question is asked anew, without digests. -/
def owned (s : Spending) : Checker where
  signature sig key code := (s.ask (.signature sig key code) []).1
  lockTime n := (s.ask (.lockTime n) []).1
  sequence n := (s.ask (.sequence n) []).1

/-- Answers questions one after the other, starting without digests. -/
def askAll (s : Spending) (questions : List Question) : List Bool :=
  (questions.mapM s.ask []).1

end Spending

end CoinScript
