import CoinScript.Signature.Ecdsa

namespace CoinScript.Schnorr

variable {C : Curve}

def signatureLength : Nat := 64

/-- The scalar that binds nonce, key and digest together. -/
def challenge (key : PublicKey C) (r : Nat) (digest : FixedBytes 32) : Nat :=
  (Hash.sha256 (Bytes.ofNatBE 32 r ++ key.compressedBytes.bytes ++ digest.bytes)).toNatBE % C.order

/-- Whether `s · G - e · P` is the point that `r` means. -/
def accepts (key : PublicKey C) (digest : FixedBytes 32) (r s : Nat) : Bool :=
  r < C.prime && s < C.order &&
    match C.add (C.smul s C.base) (C.neg (C.smul (challenge key r digest) key.point)) with
    | .infinity => false
    | .affine x y => C.isSquare y && x == r

/-- Of the two points with the first coordinate given, the one whose second coordinate is a square is meant. -/
def verify (key : PublicKey C) (digest : FixedBytes 32) (sig : Bytes) : Bool :=
  sig.length == signatureLength &&
    accepts key digest (Bytes.toNatBE (sig.take 32)) (Bytes.toNatBE (sig.drop 32))

/-- Sixteen bytes that keep these nonces apart from others of the same key. -/
def nonceTag : Bytes := "Schnorr+SHA256  ".toUTF8.data.toList

def nonce (key : PrivateKey C) (digest : FixedBytes 32) : Nat :=
  (Hash.sha256 (key.bytes.bytes ++ digest.bytes ++ nonceTag)).toNatBE % C.order

def sign (key : PrivateKey C) (digest : FixedBytes 32) : Except SignatureFault (FixedBytes 64) :=
  let k := nonce key digest
  if k = 0 then .error .nonceZero
  else
    match C.smul k C.base with
    | .infinity => .error .nonceAtInfinity
    | .affine r y =>
      let k := if C.isSquare y then k else C.order - k
      let s := (k + challenge key.publicKey r digest * key.scalar) % C.order
      .ok ⟨Bytes.ofNatBE 32 r ++ Bytes.ofNatBE 32 s, by simp⟩

end CoinScript.Schnorr
