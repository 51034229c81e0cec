import CoinScript.Bytes.Hex

namespace CoinScript

/-- The outputs that are committed to in the low five bits, and two modifiers. -/
structure HashType where
  raw : UInt32
deriving DecidableEq

namespace HashType

def forkIdBit : UInt32 := 0x40
def anyoneCanPayBit : UInt32 := 0x80

def all : HashType := ⟨1⟩

/-- The last byte of a signature. -/
def ofSignature (sig : Bytes) : HashType := ⟨(sig.getLast?.getD 0).toUInt32⟩

def base (t : HashType) : UInt32 := t.raw &&& 0x1f

def isNone (t : HashType) : Bool := t.base == 2

def isSingle (t : HashType) : Bool := t.base == 3

def hasForkId (t : HashType) : Bool := t.raw &&& forkIdBit != 0

def hasAnyoneCanPay (t : HashType) : Bool := t.raw &&& anyoneCanPayBit != 0

def withForkId (t : HashType) : HashType := ⟨t.raw ||| forkIdBit⟩

def withAnyoneCanPay (t : HashType) : HashType := ⟨t.raw ||| anyoneCanPayBit⟩

/-- Nothing but a base type from 1 to 3 and modifiers. -/
def isDefined (t : HashType) : Bool :=
  let rest := t.raw &&& ~~~(forkIdBit ||| anyoneCanPayBit)
  1 ≤ rest && rest ≤ 3

def baseName? (t : HashType) : Option String :=
  if t.base = 1 then some "ALL"
  else if t.base = 2 then some "NONE"
  else if t.base = 3 then some "SINGLE"
  else none

def render (t : HashType) : String :=
  match t.baseName? with
  | some name =>
    name ++ (if t.hasForkId then "|FORKID" else "") ++
      (if t.hasAnyoneCanPay then "|ANYONECANPAY" else "")
  | none =>
    let digits := Text.Quoted.hexDigits t.raw.toNat
    "0x" ++ String.ofList (List.replicate (2 - digits.length) '0' ++ digits)

end HashType

end CoinScript
