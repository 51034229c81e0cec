import CoinScript.Bytes
import CoinScript.Text.Words

namespace CoinScript.Text

/-- A number `digits * 10 ^ power`; a whole one is written without point and exponent. -/
structure Numeral where
  negative : Bool
  digits : Nat
  power : Int
  isWhole : Bool
deriving DecidableEq

namespace Numeral

/-- Takes digits in as long as a word has room, and returns the ones left out. -/
def absorb (n : Nat) : List Char → Nat × List Char
  | [] => (n, [])
  | c :: cs =>
    let next := 10 * n + (c.toNat - 48)
    if next < 2 ^ 64 then absorb next cs else (n, c :: cs)

/-- The digits after a point, if there is one, and what follows them. -/
def fraction? : List Char → Option (List Char × List Char)
  | '.' :: cs =>
    let (digits, rest) := cs.span Char.isDigit
    if digits = [] then none else some (digits, rest)
  | cs => some ([], cs)

def exponent? : List Char → Option Int
  | [] => some 0
  | mark :: cs => if mark = 'e' ∨ mark = 'E' then integer? cs else none

def read? (text : List Char) : Option Numeral := do
  let unsigned := (dropLead ['-'] text).getD text
  let (whole, rest) := unsigned.span Char.isDigit
  if whole = [] then none
  let (places, tail) ← fraction? rest
  let exponent ← exponent? tail
  let (n, left) := absorb 0 whole
  let (n, leftPlaces) := absorb n places
  return {
    negative := text.head? == some '-'
    digits := n
    power := exponent + left.length + leftPlaces.length - places.length
    isWhole := rest.isEmpty }

end Numeral

end CoinScript.Text
