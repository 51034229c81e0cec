import CoinScript.Bytes

namespace CoinScript.Text.Decimal

/-- A quotient rounded to the nearest integer, a half to the even one. -/
def nearest (n d : Nat) : Nat :=
  let q := n / d
  if d < 2 * (n % d) ∨ (2 * (n % d) = d ∧ q % 2 = 1) then q + 1 else q

/-- A number `digits * above / below`, where one of the two is a power of two and the other is
one. -/
structure Binary where
  digits : Nat
  above : Nat
  below : Nat
deriving DecidableEq

namespace Binary

/-- The exponent of the last of 53 binary digits of a quotient. -/
def lastExponent (n d : Nat) : Int :=
  let k : Int := (n.log2 : Int) - d.log2
  let isLess := if 0 ≤ k then n < d * 2 ^ k.toNat else n * 2 ^ (-k).toNat < d
  max (-1074) ((if isLess then k - 1 else k) - 52)

def ofDigits (digits : Nat) (e : Int) : Binary := ⟨digits, 2 ^ e.toNat, 2 ^ (-e).toNat⟩

/-- The nearest number to a quotient. Digits that round up to a 54th are written with 53. -/
def ofQuotient (n d : Nat) : Binary :=
  let e := lastExponent n d
  let digits := nearest (n * 2 ^ (-e).toNat) (d * 2 ^ e.toNat)
  if digits = 2 ^ 53 then ofDigits (2 ^ 52) (e + 1) else ofDigits digits e

def mul (a b : Binary) : Binary :=
  ofQuotient (a.digits * a.above * (b.digits * b.above)) (a.below * b.below)

def div (a b : Binary) : Binary :=
  ofQuotient (a.digits * a.above * b.below) (a.below * (b.digits * b.above))

/-- The largest power of ten that has a nearest number. -/
def maxPower : Nat := 308

def tenPower (k : Nat) : Binary := ofQuotient (10 ^ k) 1

/-- Divides by a power of ten, in steps as large as can be. -/
def shrink (b : Binary) (k : Nat) : Binary :=
  if b.digits = 0 then b
  else if k ≤ maxPower then b.div (tenPower k)
  else (b.div (tenPower maxPower)).shrink (k - maxPower)
termination_by k
decreasing_by simp only [maxPower] at *; omega

/-- No number is as large as `2 ^ 1024`. -/
def isFinite (b : Binary) : Bool := b.digits * b.above < 2 ^ 1024 * b.below

/-- `n * 10 ^ power`, rounded after each operation; `none` if that is too large. -/
def ofDecimal? (n : Nat) (power : Int) : Option Binary :=
  let b := ofQuotient n 1
  if n = 0 then some b
  else if power < 0 then some (b.shrink power.natAbs)
  else if power ≤ maxPower then some (b.mul (tenPower power.toNat)) |>.filter isFinite
  else none

/-- Four times the distance to the lower end of the numbers that round to this one, in units of
its last digit. The next lower number is nearer where a binary digit is gained. -/
def lowerGap (b : Binary) : Nat :=
  if b.digits = 2 ^ 52 ∧ b.below ≠ 2 ^ 1074 then 1 else 2

/-- Whether `c * down / up` rounds to this number. -/
def isMeant (b : Binary) (c up down : Nat) : Bool :=
  let x := 4 * c * down * b.below
  let unit := up * b.above
  let low := (4 * b.digits - b.lowerGap) * unit
  let high := (4 * b.digits + 2) * unit
  if b.digits % 2 = 0 then low ≤ x && x ≤ high else low < x && x < high

/-- The multiple of `down / up` that means this number, the nearer one if there are two. -/
def onGrid? (b : Binary) (up down : Nat) : Option Nat :=
  let n := b.digits * b.above * up
  let d := b.below * down
  [nearest n d, n / d, n / d + 1].find? fun c => b.isMeant c up down

/-- The exact value, with all its decimal places. -/
def exact (b : Binary) : Nat × Int := (b.digits * b.above * 5 ^ b.below.log2, b.below.log2)

/-- The first grid with a hit, from coarse to fine; `places` may be negative. -/
def shortestFrom (b : Binary) : (tries : Nat) → (places : Int) → Nat × Int
  | 0, _ => b.exact
  | tries + 1, places =>
    match b.onGrid? (10 ^ places.toNat) (10 ^ (-places).toNat) with
    | some c => (c, places)
    | none => b.shortestFrom tries (places + 1)

/-- How many decimal digits a positive number has before the point; negative for zeros behind it. -/
def width (b : Binary) : Int :=
  let n := b.digits * b.above
  if b.below ≤ n then ((toString (n / b.below)).length : Int)
  else 1 - (toString (b.below / n)).length

/-- Seventeen digits tell all numbers apart, so a few grids suffice. -/
def shortest (b : Binary) : Nat × Int := b.shortestFrom 20 (-b.width)

end Binary

def zeros (n : Nat) : List Char := List.replicate n '0'

/-- The power of ten behind a number, always with its sign. -/
def exponent (e : Int) : List Char :=
  'e' :: (if 0 ≤ e then '+' else '-') :: (toString e.natAbs).toList

/-- The digits of `c / 10 ^ places`, with at least one after the point. Below `10 ^ -5` and from
`10 ^ 16` on the point stands after the first digit, and an exponent follows. -/
def written (c : Nat) (places : Int) : List Char :=
  let digits := (toString c).toList
  let whole : Int := digits.length - places
  if places ≤ 0 ∧ whole ≤ 16 then digits ++ zeros (-places).toNat ++ ".0".toList
  else if 0 < whole ∧ whole ≤ 16 then
    digits.take whole.toNat ++ '.' :: digits.drop whole.toNat
  else if -5 < whole ∧ whole ≤ 0 then "0.".toList ++ zeros (-whole).toNat ++ digits
  else
    let point := if digits.length = 1 then [] else ['.']
    digits.take 1 ++ point ++ digits.drop 1 ++ exponent (whole - 1)

/-- The text of a number with its sign; zero has one too. -/
def text (negative : Bool) (b : Binary) : String :=
  let size := if b.digits = 0 then "0.0".toList else written b.shortest.1 b.shortest.2
  String.ofList (if negative then '-' :: size else size)

end CoinScript.Text.Decimal
