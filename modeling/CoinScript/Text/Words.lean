namespace CoinScript.Text

/-- The Unicode property White_Space. -/
def isBlank (c : Char) : Bool :=
  let n := c.toNat
  (9 ≤ n && n ≤ 13) || n == 32 || n == 0x85 || n == 0xa0 || n == 0x1680 ||
    (0x2000 ≤ n && n ≤ 0x200a) || n == 0x2028 || n == 0x2029 || n == 0x202f || n == 0x205f ||
    n == 0x3000

/-- The maximal runs of characters that are not separators, together with the empty ones. -/
def splitAt (separator : Char → Bool) : List Char → List (List Char)
  | [] => [[]]
  | c :: cs =>
    if separator c then [] :: splitAt separator cs
    else
      match splitAt separator cs with
      | [] => [[c]]
      | word :: words => (c :: word) :: words

def words (cs : List Char) : List (List Char) :=
  (splitAt isBlank cs).filter (! ·.isEmpty)

def trim (cs : List Char) : List Char :=
  ((cs.dropWhile isBlank).reverse.dropWhile isBlank).reverse

def dropLead (lead cs : List Char) : Option (List Char) :=
  if lead.isPrefixOf cs then some (cs.drop lead.length) else none

def isDigits (cs : List Char) : Bool := !cs.isEmpty && cs.all (fun c => '0' ≤ c && c ≤ '9')

def decimalValue (cs : List Char) : Nat :=
  cs.foldl (fun n c => 10 * n + (c.toNat - 48)) 0

/-- The value of digits with an optional sign. -/
def integer? (cs : List Char) : Option Int :=
  match cs with
  | '-' :: digits => if isDigits digits then some (-(decimalValue digits : Int)) else none
  | '+' :: digits => if isDigits digits then some (decimalValue digits) else none
  | digits => if isDigits digits then some (decimalValue digits) else none

end CoinScript.Text
