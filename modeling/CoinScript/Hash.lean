import CoinScript.Hash.Sha1
import CoinScript.Hash.Sha256
import CoinScript.Hash.Ripemd160

namespace CoinScript

inductive HashKind
  | ripemd160
  | sha1
  | sha256
  | hash160
  | hash256
deriving DecidableEq

namespace Hash

def hash160 (message : Bytes) : FixedBytes 20 := ripemd160 (sha256 message).bytes

def hash256 (message : Bytes) : FixedBytes 32 := sha256 (sha256 message).bytes

/-- The digests after each part of a message that comes in parts. -/
def running256 (before : Bytes) : List Bytes → List (FixedBytes 32)
  | [] => []
  | part :: parts => hash256 (before ++ part) :: running256 (before ++ part) parts

/-- Keyed hashing with blocks of 64 bytes; a longer key is hashed first. -/
def hmacSha256 (key message : Bytes) : FixedBytes 32 :=
  let short := if 64 < key.length then (sha256 key).bytes else key
  let block := short ++ List.replicate (64 - short.length) 0
  let inner := sha256 (block.map (· ^^^ 0x36) ++ message)
  sha256 (block.map (· ^^^ 0x5c) ++ inner.bytes)

end Hash

def HashKind.digest : HashKind → Bytes → Bytes
  | .ripemd160, bs => (Hash.ripemd160 bs).bytes
  | .sha1, bs => (Hash.sha1 bs).bytes
  | .sha256, bs => (Hash.sha256 bs).bytes
  | .hash160, bs => (Hash.hash160 bs).bytes
  | .hash256, bs => (Hash.hash256 bs).bytes

theorem HashKind.length_digest (kind : HashKind) (bs : Bytes) :
    (kind.digest bs).length = 20 ∨ (kind.digest bs).length = 32 := by
  cases kind <;> simp [HashKind.digest]

end CoinScript
