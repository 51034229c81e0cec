import CoinScript.Bytes

namespace CoinScript.Number

/-- The integer that a byte string of any length stands for. -/
def value (bs : Bytes) : Int :=
  match bs.getLast? with
  | none => 0
  | some last =>
    if 0x80 ≤ last then -((Bytes.toNatLE bs - 0x80 * 256 ^ (bs.length - 1) : Nat) : Int)
    else (Bytes.toNatLE bs : Int)

/-- Puts a sign on digits, given greatest first: into a free top bit, else in a byte of its own. -/
def signed (sign : UInt8) : Bytes → Bytes
  | [] => []
  | top :: below => if 0x80 ≤ top then sign :: top :: below else (top ||| sign) :: below

def signByte (n : Int) : UInt8 := if n < 0 then 0x80 else 0x00

/-- Base-256 digits, the least first, with the sign in the top bit of the last byte. Zero is the empty string. -/
def encode (n : Int) : Bytes := (signed (signByte n) (Bytes.digits n.natAbs).reverse).reverse

/-- No byte could be left out: the last one carries digits, or the one before it needs its top bit. -/
def isMinimal (bs : Bytes) : Bool :=
  match bs.reverse with
  | [] => true
  | [last] => last &&& 0x7f != 0
  | last :: before :: _ => last &&& 0x7f != 0 || before &&& 0x80 != 0

/-- A shortest form of at most `limit` bytes. -/
def isMinimalWithin (limit : Nat) (bs : Bytes) : Bool := bs.length ≤ limit && isMinimal bs

/-- The shortest byte string for the same number. -/
def minimize (bs : Bytes) : Bytes :=
  match bs.reverse with
  | [] => []
  | last :: below =>
    if last &&& 0x7f != 0 then bs else (signed last (below.dropWhile (· == 0))).reverse

/-- Numbers a 64-bit word holds. -/
def inRange (n : Int) : Bool := -(2 ^ 63) ≤ n && n < 2 ^ 63

/-- The nearest number that a 32-bit word holds. -/
def clamp32 (n : Int) : Int := max (-(2 ^ 31)) (min (2 ^ 31 - 1) n)

/-- Whether an item counts as true: it has a nonzero byte other than a lone sign at the end. -/
def isTrue : Bytes → Bool
  | [] => false
  | [b] => b != 0 && b != 0x80
  | b :: bs => b != 0 || isTrue bs

def ofBool (b : Bool) : Bytes := if b then [1] else []

/-- Widens an encoding to `size` bytes by moving its sign to the new last byte. -/
def widen (size : Nat) (bs : Bytes) : Bytes :=
  if size ≤ bs.length then bs
  else
    match bs.reverse with
    | [] => List.replicate size 0
    | last :: below =>
      (below.reverse ++ [last &&& 0x7f]) ++ List.replicate (size - 1 - bs.length) 0 ++
        [last &&& 0x80]

end CoinScript.Number
