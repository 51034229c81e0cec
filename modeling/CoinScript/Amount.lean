import CoinScript.Bytes

namespace CoinScript

namespace Amount

/-- Amounts are counted in the smallest unit. -/
def coin : Nat := 100000000

/-- No more coins than this exist. -/
def most : Int := 21000000 * coin

def isMoney (units : Int) : Bool := 0 ≤ units && units ≤ most

inductive DecodeFault
  | badLength (length : Nat)
  | outOfRange (units : Int)
deriving DecidableEq

def DecodeFault.message : DecodeFault → String
  | .badLength length =>
    "bad length: " ++ toString length ++ " bytes is not one of 1, 2, 4 or 8"
  | .outOfRange units => "value out of range: " ++ toString units

/-- The number that a byte string spells in two's complement. -/
def signed (bs : Bytes) : Int := Int.bmod (Bytes.toNatLE bs) (256 ^ bs.length)

def decode (bs : Bytes) : Except DecodeFault Int :=
  if bs.length ∈ [1, 2, 4, 8] then
    if isMoney (signed bs) then .ok (signed bs) else .error (.outOfRange (signed bs))
  else .error (.badLength bs.length)

def encode (units : Int64) : FixedBytes 8 := .ofNatLE 8 units.toUInt64.toNat

/-- Coins, a point, and the eight digits of the units. -/
def render (units : Int) : String :=
  let fraction := toString (units.natAbs % coin)
  let zeros := String.ofList (List.replicate (8 - fraction.length) '0')
  (if units < 0 then "-" else "") ++ toString (units.natAbs / coin) ++ "." ++ zeros ++ fraction

end Amount

end CoinScript
