import CoinScript.Key.Private

namespace CoinScript

inductive SignatureFault
  | noSequence
  | truncated
  | sequenceOverruns
  | badR
  | badS
  | noNonce
  | nonceZero
  | nonceAtInfinity
deriving DecidableEq

def SignatureFault.message : SignatureFault → String
  | .noSequence => "invalid signature: no sequence header"
  | .truncated => "invalid signature: truncated"
  | .sequenceOverruns => "invalid signature: sequence length overruns"
  | .badR => "invalid signature: bad R"
  | .badS => "invalid signature: bad S"
  | .noNonce => "invalid signature: signature error"
  | .nonceZero => "invalid signature: derived nonce is zero"
  | .nonceAtInfinity => "invalid signature: nonce point at infinity"

namespace Ecdsa

abbrev order : Nat := secp256k1.order

structure Signature where
  r : Nat
  s : Nat
  r_lt : r < 2 ^ 256
  s_lt : s < 2 ^ 256
deriving DecidableEq

namespace Signature

def ofBytes (r s : FixedBytes 32) : Signature where
  r := r.toNatBE
  s := s.toNatBE
  r_lt := by simpa [FixedBytes.toNatBE] using Bytes.toNatBE_lt r.bytes
  s_lt := by simpa [FixedBytes.toNatBE] using Bytes.toNatBE_lt s.bytes

/-- The signature that never verifies. -/
def null : Signature := ⟨0, 0, by decide, by decide⟩

def isHigh (sig : Signature) : Bool := order / 2 < sig.s

/-- `s` or its negative, whichever is low; the subtraction is that of 256-bit words. -/
def lowS (sig : Signature) : Nat :=
  if sig.isHigh then (order + 2 ^ 256 - sig.s) % 2 ^ 256 else sig.s

end Signature

/-- Whether numbers and point fit the digest. -/
def accepts (key : PublicKey secp256k1) (digest r s : Nat) : Bool :=
  0 < r && r < order && 0 < s && s < order &&
    let w := powMod order s (order - 2)
    let u := digest * w % order
    let v := r * w % order
    match secp256k1.settle
        (secp256k1.sum (secp256k1.multiple u (Curve.spread secp256k1.base))
          (secp256k1.multiple v (Curve.spread key.point))) with
    | .infinity => false
    | .affine x _ => x % order == r

/-- High and low forms of `s` verify alike. -/
def verify (key : PublicKey secp256k1) (digest : FixedBytes 32) (sig : Signature) : Bool :=
  accepts key (digest.toNatBE % order) sig.r sig.lowS

/-- The state that candidates for a nonce are drawn from. -/
structure NonceSource where
  key : FixedBytes 32
  value : FixedBytes 32

namespace NonceSource

def refresh (source : NonceSource) (extra : Bytes) : NonceSource :=
  let key := Hash.hmacSha256 source.key.bytes (source.value.bytes ++ extra)
  ⟨key, Hash.hmacSha256 key.bytes source.value.bytes⟩

def start (scalar digest : FixedBytes 32) : NonceSource :=
  let blank : NonceSource := ⟨⟨List.replicate 32 0, by simp⟩, ⟨List.replicate 32 1, by simp⟩⟩
  let seed := scalar.bytes ++ digest.bytes
  (blank.refresh (0 :: seed)).refresh (1 :: seed)

def advance (source : NonceSource) : NonceSource :=
  { source with value := Hash.hmacSha256 source.key.bytes source.value.bytes }

end NonceSource

/-- The first candidate among `tries` that is a scalar; nearly every candidate is one. -/
def nonce? : Nat → NonceSource → Option Nat
  | 0, _ => none
  | tries + 1, source =>
    let source := source.advance
    let k := source.value.toNatBE
    if 0 < k ∧ k < order then some k else nonce? tries (source.refresh [0])

/-- The nonce is derived from key and digest, so that signing is a function. -/
def sign (key : PrivateKey secp256k1) (digest : FixedBytes 32) :
    Except SignatureFault Signature :=
  match nonce? 64 (.start key.bytes digest) with
  | none => .error .noNonce
  | some k =>
    match secp256k1.smul k secp256k1.base with
    | .infinity => .error .noNonce
    | .affine x _ =>
      let r := x % order
      let s := powMod order k (order - 2) * (digest.toNatBE + r * key.scalar) % order
      if r = 0 ∨ s = 0 then .error .noNonce
      else
        .ok ⟨r, if order / 2 < s then order - s else s,
          Nat.lt_trans (Nat.mod_lt _ (by decide)) (by decide),
          by
            have h : s < order := Nat.mod_lt _ (by decide)
            have hn : order < 2 ^ 256 := by decide
            split <;> omega⟩

end Ecdsa

end CoinScript
