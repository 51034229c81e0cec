namespace CoinScript

/-- The numbers that fix a curve: its field, its coefficient, and a generator with its order. -/
structure Curve where
  prime : Nat
  b : Nat
  order : Nat
  baseX : Nat
  baseY : Nat

/-- A point of `y² = x³ + b`. -/
inductive Point
  | infinity
  | affine (x y : Nat)
deriving DecidableEq

/-- A power modulo `m`, by squaring. -/
def powMod (m a e : Nat) : Nat :=
  if e = 0 then 1 % m
  else
    let half := powMod m (a * a % m) (e / 2)
    if e % 2 = 1 then half * a % m else half
termination_by e

namespace Curve

variable (C : Curve)

/-- A point as fractions; `z = 0` stands for infinity. -/
structure Fractions where
  (x y z : Nat)

def Fractions.infinity : Fractions := ⟨1, 1, 0⟩

def sub (a b : Nat) : Nat := (a + C.prime - b) % C.prime

def mul (a b : Nat) : Nat := a * b % C.prime

/-- The field inverse, by Fermat's theorem. -/
def inverse (a : Nat) : Nat := powMod C.prime a (C.prime - 2)

/-- Euler's criterion; zero does not count as a square. -/
def isSquare (a : Nat) : Bool := powMod C.prime a ((C.prime - 1) / 2) == 1

/-- A root of every square, where the prime is 3 modulo 4. -/
def root (a : Nat) : Nat := powMod C.prime a ((C.prime + 1) / 4)

/-- The right side of the curve equation. -/
def cubic (x : Nat) : Nat := (x * x % C.prime * x + C.b) % C.prime

def Contains : Point → Bool
  | .infinity => true
  | .affine x y => x < C.prime && y < C.prime && y * y % C.prime == C.cubic x

def double (P : Fractions) : Fractions :=
  if P.z = 0 ∨ P.y = 0 then .infinity
  else
    let yy := C.mul P.y P.y
    let s := C.mul 4 (C.mul P.x yy)
    let m := C.mul 3 (C.mul P.x P.x)
    let x := C.sub (C.mul m m) (C.mul 2 s)
    ⟨x, C.sub (C.mul m (C.sub s x)) (C.mul 8 (C.mul yy yy)), C.mul 2 (C.mul P.y P.z)⟩

def sum (P Q : Fractions) : Fractions :=
  if P.z = 0 then Q
  else if Q.z = 0 then P
  else
    let pp := C.mul P.z P.z
    let qq := C.mul Q.z Q.z
    let u := C.mul P.x qq
    let v := C.mul Q.x pp
    let s := C.mul P.y (C.mul Q.z qq)
    let t := C.mul Q.y (C.mul P.z pp)
    if u = v then
      if s = t then C.double P else .infinity
    else
      let h := C.sub v u
      let r := C.sub t s
      let hh := C.mul h h
      let hhh := C.mul h hh
      let uhh := C.mul u hh
      let x := C.sub (C.sub (C.mul r r) hhh) (C.mul 2 uhh)
      ⟨x, C.sub (C.mul r (C.sub uhh x)) (C.mul s hhh), C.mul h (C.mul P.z Q.z)⟩

def multiple (k : Nat) (P : Fractions) : Fractions :=
  if k = 0 then .infinity
  else
    let twice := C.double (multiple (k / 2) P)
    if k % 2 = 1 then C.sum twice P else twice
termination_by k

def spread : Point → Fractions
  | .infinity => .infinity
  | .affine x y => ⟨x, y, 1⟩

def settle (P : Fractions) : Point :=
  if P.z = 0 then .infinity
  else
    let i := C.inverse P.z
    let ii := C.mul i i
    .affine (C.mul P.x ii) (C.mul P.y (C.mul ii i))

/-- The sum of two points. -/
def add (P Q : Point) : Point := C.settle (C.sum (spread P) (spread Q))

def neg : Point → Point
  | .infinity => .infinity
  | .affine x y => .affine x (C.sub 0 y)

/-- `k` times a point. -/
def smul (k : Nat) (P : Point) : Point := C.settle (C.multiple k (spread P))

def base : Point := .affine C.baseX C.baseY

end Curve

/-- The curve that keys and signatures live on. -/
def secp256k1 : Curve where
  prime := 0xfffffffffffffffffffffffffffffffffffffffffffffffffffffffefffffc2f
  b := 7
  order := 0xfffffffffffffffffffffffffffffffebaaedce6af48a03bbfd25e8cd0364141
  baseX := 0x79be667ef9dcbbac55a06295ce870b07029bfcdb2dce28d959f2815b16f81798
  baseY := 0x483ada7726a3c4655da4fbfc0e1108a8fd17b448a68554199c47d08ffb10d4b8

end CoinScript
