import CoinScript.Wire.Reader

namespace CoinScript.Wire

namespace CompactSize

/-- How many bytes a count takes. -/
def width (n : Nat) : Nat :=
  if n < 0xfd then 1 else if n < 0x10000 then 3 else if n < 0x100000000 then 5 else 9

/-- Counts below 253 take one byte; larger ones a marker and two, four or eight bytes. -/
def encode (n : Nat) : Bytes :=
  if n < 0xfd then Bytes.ofNatLE 1 n
  else if n < 0x10000 then 0xfd :: Bytes.ofNatLE 2 n
  else if n < 0x100000000 then 0xfe :: Bytes.ofNatLE 4 n
  else 0xff :: Bytes.ofNatLE 8 n

def sized (bs : Bytes) : Bytes := encode bs.length ++ bs

theorem length_encode (n : Nat) : (encode n).length = width n := by
  unfold encode width
  repeat' split
  all_goals simp

end CompactSize

/-- A value to be written; fixed-width numbers keep their lowest bits. -/
inductive Field
  | uint8 (n : UInt8)
  | uint32 (n : UInt32)
  | int32 (n : Int32)
  | uint64 (n : UInt64)
  | int64 (n : Int64)
  | compact (n : UInt64)
  | raw (bs : Bytes)
  | sized (bs : Bytes)

namespace Field

def encode : Field → Bytes
  | .uint8 n => [n]
  | .uint32 n => Bytes.ofNatLE 4 n.toNat
  | .int32 n => Bytes.ofNatLE 4 n.toUInt32.toNat
  | .uint64 n => Bytes.ofNatLE 8 n.toNat
  | .int64 n => Bytes.ofNatLE 8 n.toUInt64.toNat
  | .compact n => CompactSize.encode n.toNat
  | .raw bs => bs
  | .sized bs => CompactSize.sized bs

def encodeAll (fields : List Field) : Bytes := fields.flatMap encode

/-- The lengths reached after each of the fields. -/
def lengths : Nat → List Field → List Nat
  | _, [] => []
  | n, f :: fs => (n + f.encode.length) :: lengths (n + f.encode.length) fs

end Field

/-- What a reading asks for. -/
inductive FieldKind
  | uint8
  | uint16
  | uint32
  | uint64
  | compact
  | raw (n : Nat)
  | sized
deriving DecidableEq

/-- What a reading finds: a number or a byte string. -/
inductive FieldValue
  | number (n : Nat)
  | bytes (bs : Bytes)
deriving DecidableEq

namespace FieldKind

def read : FieldKind → Reader FieldValue
  | .uint8 => FieldValue.number <$> Reader.nat 1
  | .uint16 => FieldValue.number <$> Reader.nat 2
  | .uint32 => FieldValue.number <$> Reader.nat 4
  | .uint64 => FieldValue.number <$> Reader.nat 8
  | .compact => FieldValue.number <$> Reader.compactSize
  | .raw n => FieldValue.bytes <$> Reader.bytes n
  | .sized => FieldValue.bytes <$> Reader.sizedBytes

/-- Each reading goes on from where the one before it stopped, whether that one failed or not. -/
def readAll : List FieldKind → Bytes → List (Except ReadFault FieldValue × Bytes)
  | [], _ => []
  | kind :: kinds, bs =>
    match kind.read bs with
    | .ok v rest => (.ok v, rest) :: readAll kinds rest
    | .error f rest => (.error f, rest) :: readAll kinds rest

end FieldKind

end CoinScript.Wire
