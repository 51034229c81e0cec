import CoinScript.Key.Public

namespace CoinScript

/-- A number from 1 up to the order of the curve, and the form its public key is written in. -/
structure PrivateKey (C : Curve) where
  scalar : Nat
  pos : 0 < scalar
  lt_order : scalar < C.order
  compressed : Bool
deriving DecidableEq

inductive PrivateKeyFault
  | emptyText
  | hex (fault : HexFault)
  | length (n : Nat)
  | scalar
deriving DecidableEq

def PrivateKeyFault.message : PrivateKeyFault → String
  | .emptyText => "invalid private key: private key hex is empty"
  | .hex fault => "invalid hex: " ++ fault.message
  | .length n => "invalid private key: expected 32 bytes, got " ++ toString n
  | .scalar => "invalid private key: signature error"

namespace PrivateKey

variable {C : Curve}

def ofBytes (bs : Bytes) : Except PrivateKeyFault (PrivateKey C) :=
  if bs.length = 32 then
    if h : 0 < Bytes.toNatBE bs ∧ Bytes.toNatBE bs < C.order then
      .ok ⟨Bytes.toNatBE bs, h.1, h.2, true⟩
    else .error .scalar
  else .error (.length bs.length)

def ofHex (text : String) : Except PrivateKeyFault (PrivateKey C) :=
  if text.isEmpty then .error .emptyText
  else
    match Hex.decode text with
    | .ok bs => ofBytes bs
    | .error fault => .error (.hex fault)

def uncompressed (key : PrivateKey C) : PrivateKey C := { key with compressed := false }

def bytes (key : PrivateKey C) : FixedBytes 32 := .ofNatBE 32 key.scalar

/-- The multiple of the base point. On a curve whose base has the stated order it is not infinity. -/
def publicKey (key : PrivateKey C) : PublicKey C :=
  match C.smul key.scalar C.base with
  | .affine x y => ⟨x, y, key.compressed⟩
  | .infinity => ⟨0, 0, key.compressed⟩

end PrivateKey

end CoinScript
