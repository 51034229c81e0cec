import CoinScript.Bytes.Hex
import CoinScript.Curve.Basic
import CoinScript.Hash

namespace CoinScript

/-- A key remembers which of its two forms it came in, since its hash depends on it. -/
structure PublicKey (C : Curve) where
  x : Nat
  y : Nat
  compressed : Bool

inductive PublicKeyFault
  | hex (fault : HexFault)
  | empty
  | encoding
  | parity
  | point
deriving DecidableEq

def PublicKeyFault.message : PublicKeyFault → String
  | .hex fault => "invalid hex: " ++ fault.message
  | .empty => "invalid public key: pubkey is empty"
  | .encoding => "invalid public key: unrecognized encoding"
  | .parity => "invalid public key: hybrid key parity mismatch"
  | .point => "invalid public key: signature error"

namespace PublicKey

variable {C : Curve}

def point (key : PublicKey C) : Point := .affine key.x key.y

def compressedBytes (key : PublicKey C) : FixedBytes 33 :=
  ⟨(if key.y % 2 = 0 then 2 else 3) :: Bytes.ofNatBE 32 key.x, by simp⟩

def uncompressedBytes (key : PublicKey C) : FixedBytes 65 :=
  ⟨4 :: (Bytes.ofNatBE 32 key.x ++ Bytes.ofNatBE 32 key.y), by simp⟩

def bytes (key : PublicKey C) : Bytes :=
  if key.compressed then key.compressedBytes.bytes else key.uncompressedBytes.bytes

/-- The name of a key in an output script. -/
def id (key : PublicKey C) : FixedBytes 20 := Hash.hash160 key.bytes

/-- The point with a given first coordinate and parity of the second. -/
def ofX (tag : UInt8) (x : Nat) : Except PublicKeyFault (PublicKey C) :=
  let y := C.root (C.cubic x)
  let key := if y % 2 = tag.toNat % 2 then y else C.sub 0 y
  if C.Contains (.affine x key) then .ok ⟨x, key, true⟩ else .error .point

def ofCoordinates (x y : Nat) : Except PublicKeyFault (PublicKey C) :=
  if C.Contains (.affine x y) then .ok ⟨x, y, false⟩ else .error .point

/-- Accepts the compressed, the uncompressed and the hybrid form, the last with the right parity. -/
def ofBytes : Bytes → Except PublicKeyFault (PublicKey C)
  | [] => .error .empty
  | tag :: rest =>
    if rest.length = 32 ∧ (tag = 2 ∨ tag = 3) then ofX tag (Bytes.toNatBE rest)
    else if rest.length = 64 ∧ tag = 4 then
      ofCoordinates (Bytes.toNatBE (rest.take 32)) (Bytes.toNatBE (rest.drop 32))
    else if rest.length = 64 ∧ (tag = 6 ∨ tag = 7) then
      if Bytes.toNatBE rest % 2 = tag.toNat % 2 then
        ofCoordinates (Bytes.toNatBE (rest.take 32)) (Bytes.toNatBE (rest.drop 32))
      else .error .parity
    else .error .encoding

def ofHex (text : String) : Except PublicKeyFault (PublicKey C) :=
  match Hex.decode text with
  | .ok bs => ofBytes bs
  | .error fault => .error (.hex fault)

/-- Whether the bytes have the length that their first one announces for a key. -/
def hasAnnouncedLength : Bytes → Bool
  | [] => false
  | tag :: rest =>
    ((tag == 2 || tag == 3) && rest.length == 32) ||
      ((tag == 4 || tag == 6 || tag == 7) && rest.length == 64)

end PublicKey

end CoinScript
