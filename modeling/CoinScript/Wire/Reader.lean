import CoinScript.Bytes

namespace CoinScript.Wire

inductive ReadFault
  | unexpectedEnd
deriving DecidableEq

def ReadFault.message : ReadFault → String
  | .unexpectedEnd => "unexpected end of data"

/-- A reading is a step on the bytes still unread. One that fails keeps the place it had come to. -/
abbrev Reader (α : Type) := EStateM ReadFault Bytes α

namespace Reader

def take (n : Nat) : Reader (FixedBytes n) := fun bs =>
  match h : Bytes.split? n bs with
  | some (front, rest) => .ok ⟨front, (Bytes.split?_eq_some.mp h).1⟩ rest
  | none => .error .unexpectedEnd bs

def bytes (n : Nat) : Reader Bytes := do return (← take n).bytes

/-- A number of `n` bytes, least byte first. -/
def nat (n : Nat) : Reader Nat := do return Bytes.toNatLE (← take n).bytes

def uint32 : Reader UInt32 := do return UInt32.ofNat (← nat 4)

def uint64 : Reader UInt64 := do return UInt64.ofNat (← nat 8)

/-- The first byte is the number itself, or announces how many bytes spell it. -/
def compactSize : Reader Nat := do
  match ← nat 1 with
  | 255 => nat 8
  | 254 => nat 4
  | 253 => nat 2
  | n => return n

/-- A compact size and as many bytes as it says. -/
def sizedBytes : Reader Bytes := do bytes (← compactSize)

theorem take_append {n : Nat} (bs rest : Bytes) (h : bs.length = n) :
    take n (bs ++ rest) = .ok ⟨bs, h⟩ rest := by
  have hs : Bytes.split? n (bs ++ rest) = some (bs, rest) := Bytes.split?_eq_some.mpr ⟨h, rfl⟩
  unfold take
  split
  · next front rest' heq =>
    rw [hs] at heq
    cases heq
    rfl
  · next heq => simp [hs] at heq

theorem take_short {n : Nat} {bs : Bytes} (h : bs.length < n) :
    take n bs = .error .unexpectedEnd bs := by
  unfold take
  split
  · next heq => simp [Bytes.split?_eq_none.mpr h] at heq
  · rfl

theorem bytes_append (bs rest : Bytes) : bytes bs.length (bs ++ rest) = .ok bs rest := by
  simp [bytes, bind, EStateM.bind, take_append, pure, EStateM.pure]

theorem nat_append {n : Nat} (bs rest : Bytes) (h : bs.length = n) :
    nat n (bs ++ rest) = .ok (Bytes.toNatLE bs) rest := by
  simp [nat, bind, EStateM.bind, take_append bs rest h, pure, EStateM.pure]

end Reader

end CoinScript.Wire
