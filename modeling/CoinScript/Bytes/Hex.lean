import CoinScript.Bytes

namespace CoinScript.Text.Quoted

def hexDigit (n : Nat) : Char :=
  if n < 10 then Char.ofNat (48 + n) else Char.ofNat (87 + n)

/-- Digits of a number in base 16, without leading zeros. -/
def hexDigits (n : Nat) : List Char := (Nat.toDigits 16 n)

/-- Controls, the no-break space and the soft hyphen have no visible form. -/
def isHidden (n : Nat) : Bool := n < 32 || (127 ≤ n && n ≤ 160) || n == 173

def escape (b : UInt8) : List Char :=
  match b.toNat with
  | 0 => ['\\', '0']
  | 9 => ['\\', 't']
  | 10 => ['\\', 'n']
  | 13 => ['\\', 'r']
  | 39 => ['\\', '\'']
  | 92 => ['\\', '\\']
  | n => if isHidden n then ['\\', 'u', '\x7b'] ++ hexDigits n ++ ['\x7d'] else [Char.ofNat n]

def quote (b : UInt8) : String := String.ofList (['\''] ++ escape b ++ ['\''])

end CoinScript.Text.Quoted

namespace CoinScript

inductive HexFault
  | oddLength
  | badDigit (byte : UInt8) (position : Nat)
deriving DecidableEq

def HexFault.message : HexFault → String
  | .oddLength => "Odd number of digits"
  | .badDigit byte position =>
    "Invalid character " ++ Text.Quoted.quote byte ++ " at position " ++ toString position

namespace Hex

def digit? (b : UInt8) : Option UInt8 :=
  if 48 ≤ b ∧ b ≤ 57 then some (b - 48)
  else if 97 ≤ b ∧ b ≤ 102 then some (b - 87)
  else if 65 ≤ b ∧ b ≤ 70 then some (b - 55)
  else none

def pairChars (b : UInt8) : List Char :=
  [Text.Quoted.hexDigit (b.toNat / 16), Text.Quoted.hexDigit (b.toNat % 16)]

def encode (bs : Bytes) : String := String.ofList (bs.flatMap pairChars)

/-- Reads digit pairs, `position` being where the first of them stands. -/
def decodePairs (position : Nat) : Bytes → Except HexFault Bytes
  | [] => .ok []
  | [_] => .error .oddLength
  | hi :: lo :: rest =>
    match digit? hi, digit? lo with
    | none, _ => .error (.badDigit hi position)
    | some _, none => .error (.badDigit lo (position + 1))
    | some h, some l => (decodePairs (position + 2) rest).map ((h * 16 + l) :: ·)

/-- Reports an odd length first, then the first byte that is no digit. -/
def decode (text : String) : Except HexFault Bytes :=
  let bs := text.toUTF8.data.toList
  if bs.length % 2 = 1 then .error .oddLength else decodePairs 0 bs

end Hex

end CoinScript
