import CoinScript.Bytes

namespace CoinScript.Hash

/-- The words that four bytes each spell, greatest byte first. -/
def wordsBE : Bytes → List UInt32
  | a :: b :: c :: d :: rest =>
    (a.toUInt32 <<< 24 ||| b.toUInt32 <<< 16 ||| c.toUInt32 <<< 8 ||| d.toUInt32) :: wordsBE rest
  | _ => []

def wordBytesBE (w : UInt32) : Bytes :=
  [(w >>> 24).toUInt8, (w >>> 16).toUInt8, (w >>> 8).toUInt8, w.toUInt8]

/-- A closing one bit, zeros, and room for eight bytes of length. -/
def padding (length : Nat) : Bytes := 0x80 :: List.replicate ((119 - length % 64) % 64) 0

def rotateLeft (w n : UInt32) : UInt32 := w <<< n ||| w >>> (32 - n)

def rotateRight (w n : UInt32) : UInt32 := w >>> n ||| w <<< (32 - n)

/-- Consecutive groups of sixteen words; words that fill no group are left out. -/
def blocks (ws : List UInt32) : List (List UInt32) :=
  if (ws.take 16).length = 16 then ws.take 16 :: blocks (ws.drop 16) else []
termination_by ws.length
decreasing_by simp only [List.length_take, List.length_drop] at *; omega

namespace Sha256

structure State where
  (a b c d e f g h : UInt32)

def State.initial : State :=
  ⟨0x6a09e667, 0xbb67ae85, 0x3c6ef372, 0xa54ff53a, 0x510e527f, 0x9b05688c, 0x1f83d9ab, 0x5be0cd19⟩

def State.add (s t : State) : State :=
  ⟨s.a + t.a, s.b + t.b, s.c + t.c, s.d + t.d, s.e + t.e, s.f + t.f, s.g + t.g, s.h + t.h⟩

def State.bytes (s : State) : Bytes :=
  wordBytesBE s.a ++ wordBytesBE s.b ++ wordBytesBE s.c ++ wordBytesBE s.d ++
    wordBytesBE s.e ++ wordBytesBE s.f ++ wordBytesBE s.g ++ wordBytesBE s.h

def constants : List UInt32 :=
  [0x428a2f98, 0x71374491, 0xb5c0fbcf, 0xe9b5dba5, 0x3956c25b, 0x59f111f1, 0x923f82a4, 0xab1c5ed5,
   0xd807aa98, 0x12835b01, 0x243185be, 0x550c7dc3, 0x72be5d74, 0x80deb1fe, 0x9bdc06a7, 0xc19bf174,
   0xe49b69c1, 0xefbe4786, 0x0fc19dc6, 0x240ca1cc, 0x2de92c6f, 0x4a7484aa, 0x5cb0a9dc, 0x76f988da,
   0x983e5152, 0xa831c66d, 0xb00327c8, 0xbf597fc7, 0xc6e00bf3, 0xd5a79147, 0x06ca6351, 0x14292967,
   0x27b70a85, 0x2e1b2138, 0x4d2c6dfc, 0x53380d13, 0x650a7354, 0x766a0abb, 0x81c2c92e, 0x92722c85,
   0xa2bfe8a1, 0xa81a664b, 0xc24b8b70, 0xc76c51a3, 0xd192e819, 0xd6990624, 0xf40e3585, 0x106aa070,
   0x19a4c116, 0x1e376c08, 0x2748774c, 0x34b0bcb5, 0x391c0cb3, 0x4ed8aa4a, 0x5b9cca4f, 0x682e6ff3,
   0x748f82ee, 0x78a5636f, 0x84c87814, 0x8cc70208, 0x90befffa, 0xa4506ceb, 0xbef9a3f7, 0xc67178f2]

/-- Stretches a block by `n` words; the words so far stand latest first. -/
def stretch : Nat → List UInt32 → List UInt32
  | 0, ws => ws
  | n + 1, ws =>
    let u := ws.getD 1 0
    let v := ws.getD 14 0
    let small0 := rotateRight v 7 ^^^ rotateRight v 18 ^^^ v >>> 3
    let small1 := rotateRight u 17 ^^^ rotateRight u 19 ^^^ u >>> 10
    stretch n ((small1 + ws.getD 6 0 + small0 + ws.getD 15 0) :: ws)

def round (s : State) (kw : UInt32 × UInt32) : State :=
  let big1 := rotateRight s.e 6 ^^^ rotateRight s.e 11 ^^^ rotateRight s.e 25
  let choice := (s.e &&& s.f) ^^^ (~~~s.e &&& s.g)
  let t1 := s.h + big1 + choice + kw.1 + kw.2
  let big0 := rotateRight s.a 2 ^^^ rotateRight s.a 13 ^^^ rotateRight s.a 22
  let majority := (s.a &&& s.b) ^^^ (s.a &&& s.c) ^^^ (s.b &&& s.c)
  ⟨t1 + (big0 + majority), s.a, s.b, s.c, s.d + t1, s.e, s.f, s.g⟩

def compress (s : State) (block : List UInt32) : State :=
  s.add ((constants.zip (stretch 48 block.reverse).reverse).foldl round s)

def pad (message : Bytes) : Bytes :=
  message ++ padding message.length ++ Bytes.ofNatBE 8 (8 * message.length)

end Sha256

def sha256 (message : Bytes) : FixedBytes 32 :=
  ⟨((blocks (wordsBE (Sha256.pad message))).foldl Sha256.compress .initial).bytes,
    by simp [Sha256.State.bytes, wordBytesBE]⟩

end CoinScript.Hash
