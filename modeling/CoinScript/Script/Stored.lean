import CoinScript.Script.Fault
import CoinScript.Text.Decimal
import CoinScript.Text.Numeral

namespace CoinScript

/-- A value of a record. A decimal is a sign and the number it is nearest to. -/
inductive StoredValue
  | text (s : String)
  | integer (n : Int)
  | decimal (negative : Bool) (size : Text.Decimal.Binary)
  | boolean (b : Bool)
  | null
  | sequence
  | map

namespace StoredValue

/-- Whole numbers that a word holds, signed if negative; minus zero is none of them. -/
def integer? (n : Text.Numeral) : Option Int :=
  if !n.isWhole || n.power ≠ 0 then none
  else if !n.negative then some n.digits
  else if 0 < n.digits ∧ n.digits ≤ 2 ^ 63 then some (-n.digits)
  else none

/-- A number is an integer if a word holds it, and a decimal otherwise. -/
def ofNumeral? (n : Text.Numeral) : Option StoredValue :=
  match integer? n with
  | some value => some (.integer value)
  | none => (Text.Decimal.Binary.ofDecimal? n.digits n.power).map (.decimal n.negative)

def ofNumberText? (text : String) : Option StoredValue :=
  (Text.Numeral.read? text.toList).bind ofNumeral?

/-- What a refused value is called. -/
def kind : StoredValue → String
  | .text _ => "string"
  | .integer n => "integer `" ++ toString n ++ "`"
  | .decimal negative size => "floating point `" ++ Text.Decimal.text negative size ++ "`"
  | .boolean b => "boolean `" ++ toString b ++ "`"
  | .null => "null"
  | .sequence => "sequence"
  | .map => "map"

end StoredValue

inductive StoredFault
  | script (fault : ScriptFault)
  | kind (value : StoredValue)

def StoredFault.message : StoredFault → String
  | .script fault => fault.message
  | .kind value => "invalid type: " ++ value.kind ++ ", expected a string"

namespace Script

/-- A stored script is a text of hexadecimal digits; any other value is refused by its kind. -/
def ofStored : StoredValue → Except StoredFault Script
  | .text s => (ofHex s).mapError .script
  | value => .error (.kind value)

end Script

end CoinScript
