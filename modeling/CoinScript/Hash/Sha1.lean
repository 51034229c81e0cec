import CoinScript.Hash.Sha256

namespace CoinScript.Hash

namespace Sha1

structure State where
  (a b c d e : UInt32)

def State.initial : State := ⟨0x67452301, 0xefcdab89, 0x98badcfe, 0x10325476, 0xc3d2e1f0⟩

def State.add (s t : State) : State := ⟨s.a + t.a, s.b + t.b, s.c + t.c, s.d + t.d, s.e + t.e⟩

def State.bytes (s : State) : Bytes :=
  wordBytesBE s.a ++ wordBytesBE s.b ++ wordBytesBE s.c ++ wordBytesBE s.d ++ wordBytesBE s.e

/-- Stretches a block by `n` words; the words so far stand latest first. -/
def stretch : Nat → List UInt32 → List UInt32
  | 0, ws => ws
  | n + 1, ws =>
    stretch n
      (rotateLeft (ws.getD 2 0 ^^^ ws.getD 7 0 ^^^ ws.getD 13 0 ^^^ ws.getD 15 0) 1 :: ws)

def choice (x y z : UInt32) : UInt32 := (x &&& y) ||| (~~~x &&& z)

def parity (x y z : UInt32) : UInt32 := x ^^^ y ^^^ z

def majority (x y z : UInt32) : UInt32 := (x &&& y) ||| (x &&& z) ||| (y &&& z)

def quarters : List ((UInt32 → UInt32 → UInt32 → UInt32) × UInt32) :=
  [(choice, 0x5a827999), (parity, 0x6ed9eba1), (majority, 0x8f1bbcdc), (parity, 0xca62c1d6)]

def rounds : List ((UInt32 → UInt32 → UInt32 → UInt32) × UInt32) :=
  quarters.flatMap (List.replicate 20)

def round (s : State) (fkw : ((UInt32 → UInt32 → UInt32 → UInt32) × UInt32) × UInt32) : State :=
  ⟨rotateLeft s.a 5 + fkw.1.1 s.b s.c s.d + s.e + fkw.1.2 + fkw.2,
    s.a, rotateLeft s.b 30, s.c, s.d⟩

def compress (s : State) (block : List UInt32) : State :=
  s.add ((rounds.zip (stretch 64 block.reverse).reverse).foldl round s)

end Sha1

def sha1 (message : Bytes) : FixedBytes 20 :=
  ⟨((blocks (wordsBE (Sha256.pad message))).foldl Sha1.compress .initial).bytes,
    by simp [Sha1.State.bytes, wordBytesBE]⟩

end CoinScript.Hash
