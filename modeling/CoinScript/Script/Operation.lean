import CoinScript.Bytes.Hex
import CoinScript.Script.Opcode

namespace CoinScript

structure Operation where
  code : Opcode
  data : Bytes
deriving DecidableEq

namespace Operation

def isPush (op : Operation) : Bool := op.code ≤ Opcode.pushData4

/-- How many bytes a code takes to say how much it pushes. -/
def lengthWidth (code : Opcode) : Nat :=
  if code = Opcode.pushData1 then 1
  else if code = Opcode.pushData2 then 2
  else if code = Opcode.pushData4 then 4
  else 0

/-- What stands between the code and the data. -/
def lengthBytes (op : Operation) : Bytes := Bytes.ofNatLE (lengthWidth op.code) op.data.length

def bytes (op : Operation) : Bytes :=
  op.code :: (op.lengthBytes ++ if op.isPush then op.data else [])

/-- No shorter operation pushes the same item. -/
def isMinimalPush (op : Operation) : Bool :=
  match op.data with
  | [] => op.code == Opcode.zero
  | [b] =>
    if 1 ≤ b ∧ b ≤ 16 then op.code == 0x50 + b
    else if b = 0x81 then op.code == Opcode.negativeOne
    else op.code == 1
  | data =>
    if data.length ≤ 75 then op.code.toNat == data.length
    else if data.length ≤ 255 then op.code == Opcode.pushData1
    else if data.length ≤ 65535 then op.code == Opcode.pushData2
    else true

/-- A code whose own bytes say how long its data is. -/
def ofData? (code : Opcode) (n : Nat) (bs : Bytes) : Option (Operation × Bytes) :=
  (Bytes.split? n bs).map fun (data, rest) => (⟨code, data⟩, rest)

def read? : Bytes → Option (Operation × Bytes)
  | [] => none
  | code :: rest =>
    if code < Opcode.pushData1 then ofData? code code.toNat rest
    else if code ≤ Opcode.pushData4 then
      (Bytes.split? (lengthWidth code) rest).bind fun (size, rest) =>
        ofData? code (Bytes.toNatLE size) rest
    else some (⟨code, []⟩, rest)

theorem ofData?_length {code : Opcode} {n : Nat} {bs rest : Bytes} {op : Operation}
    (h : ofData? code n bs = some (op, rest)) : rest.length ≤ bs.length := by
  simp only [ofData?, Option.map_eq_some_iff, Prod.mk.injEq] at h
  obtain ⟨⟨front, rest'⟩, hs, -, rfl⟩ := h
  simp [(Bytes.split?_eq_some.mp hs).2]

theorem read?_length {bs rest : Bytes} {op : Operation} (h : read? bs = some (op, rest)) :
    rest.length < bs.length := by
  cases bs with
  | nil => simp [read?] at h
  | cons code bs =>
    simp only [read?] at h
    split at h
    · exact Nat.lt_succ_of_le (ofData?_length h)
    · split at h
      · obtain ⟨⟨size, mid⟩, hs, hd⟩ := Option.bind_eq_some_iff.mp h
        have hm := (Bytes.split?_eq_some.mp hs).2
        have := ofData?_length hd
        simp only at this
        simp only [hm, List.length_cons, List.length_append]
        omega
      · simp only [Option.some.injEq, Prod.mk.injEq] at h
        simp [h.2]

end Operation

end CoinScript
