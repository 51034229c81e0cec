import CoinScript.Hash.Sha256

namespace CoinScript.Hash

/-- The words that four bytes each spell, least byte first. -/
def wordsLE : Bytes → List UInt32
  | a :: b :: c :: d :: rest =>
    (d.toUInt32 <<< 24 ||| c.toUInt32 <<< 16 ||| b.toUInt32 <<< 8 ||| a.toUInt32) :: wordsLE rest
  | _ => []

def wordBytesLE (w : UInt32) : Bytes := (wordBytesBE w).reverse

namespace Ripemd160

structure State where
  (a b c d e : UInt32)

def State.initial : State := ⟨0x67452301, 0xefcdab89, 0x98badcfe, 0x10325476, 0xc3d2e1f0⟩

def State.bytes (s : State) : Bytes :=
  wordBytesLE s.a ++ wordBytesLE s.b ++ wordBytesLE s.c ++ wordBytesLE s.d ++ wordBytesLE s.e

abbrev Mix := UInt32 → UInt32 → UInt32 → UInt32

def mix1 : Mix := fun x y z => x ^^^ y ^^^ z
def mix2 : Mix := fun x y z => (x &&& y) ||| (~~~x &&& z)
def mix3 : Mix := fun x y z => (x ||| ~~~y) ^^^ z
def mix4 : Mix := fun x y z => (x &&& z) ||| (y &&& ~~~z)
def mix5 : Mix := fun x y z => x ^^^ (y ||| ~~~z)

/-- What one line does in its eighty rounds. -/
structure Line where
  mixes : List (Mix × UInt32)
  order : List Nat
  rotations : List UInt32

def left : Line where
  mixes := [(mix1, 0), (mix2, 0x5a827999), (mix3, 0x6ed9eba1), (mix4, 0x8f1bbcdc),
    (mix5, 0xa953fd4e)]
  order :=
    [0, 1, 2, 3, 4, 5, 6, 7, 8, 9, 10, 11, 12, 13, 14, 15,
     7, 4, 13, 1, 10, 6, 15, 3, 12, 0, 9, 5, 2, 14, 11, 8,
     3, 10, 14, 4, 9, 15, 8, 1, 2, 7, 0, 6, 13, 11, 5, 12,
     1, 9, 11, 10, 0, 8, 12, 4, 13, 3, 7, 15, 14, 5, 6, 2,
     4, 0, 5, 9, 7, 12, 2, 10, 14, 1, 3, 8, 11, 6, 15, 13]
  rotations :=
    [11, 14, 15, 12, 5, 8, 7, 9, 11, 13, 14, 15, 6, 7, 9, 8,
     7, 6, 8, 13, 11, 9, 7, 15, 7, 12, 15, 9, 11, 7, 13, 12,
     11, 13, 6, 7, 14, 9, 13, 15, 14, 8, 13, 6, 5, 12, 7, 5,
     11, 12, 14, 15, 14, 15, 9, 8, 9, 14, 5, 6, 8, 6, 5, 12,
     9, 15, 5, 11, 6, 8, 13, 12, 5, 12, 13, 14, 11, 8, 5, 6]

def right : Line where
  mixes := [(mix5, 0x50a28be6), (mix4, 0x5c4dd124), (mix3, 0x6d703ef3), (mix2, 0x7a6d76e9),
    (mix1, 0)]
  order :=
    [5, 14, 7, 0, 9, 2, 11, 4, 13, 6, 15, 8, 1, 10, 3, 12,
     6, 11, 3, 7, 0, 13, 5, 10, 14, 15, 8, 12, 4, 9, 1, 2,
     15, 5, 1, 3, 7, 14, 6, 9, 11, 8, 12, 2, 10, 0, 4, 13,
     8, 6, 4, 1, 3, 11, 15, 0, 5, 12, 2, 13, 9, 7, 10, 14,
     12, 15, 10, 4, 1, 5, 8, 7, 6, 2, 13, 14, 0, 3, 9, 11]
  rotations :=
    [8, 9, 9, 11, 13, 15, 15, 5, 7, 7, 8, 11, 14, 14, 12, 6,
     9, 13, 15, 7, 12, 8, 9, 11, 7, 7, 12, 7, 6, 15, 13, 11,
     9, 7, 15, 11, 8, 6, 6, 14, 12, 13, 5, 14, 13, 13, 7, 5,
     15, 5, 8, 11, 14, 14, 6, 14, 6, 9, 12, 9, 12, 5, 15, 8,
     8, 5, 12, 9, 12, 5, 14, 6, 8, 13, 6, 5, 15, 13, 11, 11]

def round (block : List UInt32) (s : State) (step : (Mix × UInt32) × (Nat × UInt32)) : State :=
  let sum := s.a + step.1.1 s.b s.c s.d + block.getD step.2.1 0 + step.1.2
  ⟨s.e, rotateLeft sum step.2.2 + s.e, s.b, rotateLeft s.c 10, s.d⟩

def Line.run (line : Line) (block : List UInt32) (s : State) : State :=
  ((line.mixes.flatMap (List.replicate 16)).zip (line.order.zip line.rotations)).foldl
    (round block) s

def compress (s : State) (block : List UInt32) : State :=
  let l := left.run block s
  let r := right.run block s
  ⟨s.b + l.c + r.d, s.c + l.d + r.e, s.d + l.e + r.a, s.e + l.a + r.b, s.a + l.b + r.c⟩

def pad (message : Bytes) : Bytes :=
  message ++ padding message.length ++ Bytes.ofNatLE 8 (8 * message.length)

end Ripemd160

def ripemd160 (message : Bytes) : FixedBytes 20 :=
  ⟨((blocks (wordsLE (Ripemd160.pad message))).foldl Ripemd160.compress .initial).bytes,
    by simp [Ripemd160.State.bytes, wordBytesLE, wordBytesBE]⟩

end CoinScript.Hash
