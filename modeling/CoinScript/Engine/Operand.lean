import CoinScript.Engine.Fault
import CoinScript.Script.Number

namespace CoinScript.Number

/-- How many bytes a number may have that an operation takes. -/
def operandLimit : Nat := 4

/-- Lock times are wider. -/
def lockTimeLimit : Nat := 5

def checkMinimal (item : Bytes) : Except Fault Unit :=
  if isMinimal item then .ok () else .error (.numberNotMinimal item)

def decode (minimal : Bool) (limit : Nat) (item : Bytes) : Except Fault Int :=
  if min limit 8 < item.length then .error (.numberTooLong item limit)
  else if minimal && !isMinimal item then .error (.numberNotMinimal item)
  else .ok (value item)

def operand (minimal : Bool) (item : Bytes) : Except Fault Int := decode minimal operandLimit item

/-- A result, unless it is too large for a word. -/
def fit (operation : Arithmetic) (a b result : Int) : Except Fault Int :=
  if inRange result then .ok result else .error (.overflow operation a b)

def add (a b : Int) : Except Fault Int := fit .addition a b (a + b)

def sub (a b : Int) : Except Fault Int := fit .subtraction a b (a - b)

def neg (a : Int) : Except Fault Int := fit .negation a 0 (-a)

def abs (a : Int) : Except Fault Int := if a < 0 then neg a else .ok a

/-- The quotient rounded toward zero. -/
def div (a b : Int) : Except Fault Int := fit .division a b (a.tdiv b)

/-- The remainder with the sign of the dividend; it is refused where the quotient is. -/
def mod (a b : Int) : Except Fault Int :=
  if inRange (a.tdiv b) then .ok (a.tmod b) else .error (.overflow .modulo a b)

end CoinScript.Number
