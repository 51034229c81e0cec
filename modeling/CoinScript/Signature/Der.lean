import CoinScript.Signature.Ecdsa

namespace CoinScript.Der

open Ecdsa (Signature order)

/-- Digits of a number, greatest first, with a zero before a set top bit. -/
def integerBody (n : Nat) : Bytes :=
  match (Bytes.digits n).reverse with
  | [] => [0]
  | top :: rest => if 0x80 ≤ top then 0 :: top :: rest else top :: rest

def integer (n : Nat) : Bytes :=
  0x02 :: UInt8.ofNat (integerBody n).length :: integerBody n

/-- The strict form, with the lower of `s` and its negative. -/
def encode (sig : Signature) : Bytes :=
  let body := integer sig.r ++ integer sig.lowS
  0x30 :: UInt8.ofNat body.length :: body

/-- The body of an integer and what follows it, lengths of up to seven bytes being tolerated. -/
def laxInteger? : Bytes → Option (Bytes × Bytes)
  | 0x02 :: n :: rest =>
    if n < 0x80 then Bytes.split? n.toNat rest
    else
      (Bytes.split? (n.toNat - 0x80) rest).bind fun (size, rest) =>
        let size := size.dropWhile (· == 0)
        if 8 ≤ size.length then none else Bytes.split? (Bytes.toNatBE size) rest
  | _ => none

/-- What stands inside a sequence whose stated length is not looked at. -/
def laxSequence : Bytes → Except SignatureFault Bytes
  | 0x30 :: rest =>
    match rest with
    | [] => .error .truncated
    | n :: rest =>
      if n < 0x80 then .ok rest
      else
        match Bytes.split? (n.toNat - 0x80) rest with
        | some (_, rest) => .ok rest
        | none => .error .sequenceOverruns
  | _ => .error .noSequence

/-- Numbers at or above the order give the signature that never verifies. -/
def ofIntegers (r s : Nat) : Signature :=
  if h : r < order ∧ s < order then
    ⟨r, s, Nat.lt_trans h.1 (by decide), Nat.lt_trans h.2 (by decide)⟩
  else .null

/-- Tolerates long lengths, padding and trailing bytes. -/
def readLax (bs : Bytes) : Except SignatureFault Signature := do
  let rest ← laxSequence bs
  match laxInteger? rest with
  | none => throw .badR
  | some (r, rest) =>
    match laxInteger? rest with
    | none => throw .badS
    | some (s, _) => return ofIntegers (Bytes.toNatBE r) (Bytes.toNatBE s)

/-- Nonempty, not negative, and without a zero that could be left out. -/
def isStrictBody : Bytes → Bool
  | [] => false
  | [b] => b < 0x80
  | b :: c :: _ => b < 0x80 && (b != 0 || 0x80 ≤ c)

def strictInteger? : Bytes → Option (Bytes × Bytes)
  | 0x02 :: n :: rest => (Bytes.split? n.toNat rest).filter fun found => isStrictBody found.1
  | _ => none

/-- The bodies of the two integers of a strictly encoded signature. -/
def strict? (bs : Bytes) : Option (Bytes × Bytes) :=
  match bs with
  | 0x30 :: n :: rest =>
    if bs.length ≤ 72 ∧ n.toNat = rest.length then
      (strictInteger? rest).bind fun (r, rest) =>
        (strictInteger? rest).bind fun (s, rest) => if rest = [] then some (r, s) else none
    else none
  | _ => none

def isStrict (bs : Bytes) : Bool := (strict? bs).isSome

/-- Whether the second integer is at most half the order. -/
def hasLowS (bs : Bytes) : Bool :=
  match strict? bs with
  | some (_, s) => Bytes.toNatBE s ≤ order / 2
  | none => false

end CoinScript.Der
