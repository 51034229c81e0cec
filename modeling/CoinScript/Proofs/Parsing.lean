import CoinScript.Script.Basic

namespace CoinScript

namespace Operation

variable {code : Opcode} {bs rest : Bytes} {op : Operation}

theorem lengthWidth_of_lt (h : code < Opcode.pushData1) : lengthWidth code = 0 := by
  have h1 : code ≠ Opcode.pushData1 := UInt8.ne_of_lt h
  have h2 : code ≠ Opcode.pushData2 := UInt8.ne_of_lt (UInt8.lt_trans h (by decide))
  have h4 : code ≠ Opcode.pushData4 := UInt8.ne_of_lt (UInt8.lt_trans h (by decide))
  simp [lengthWidth, h1, h2, h4]

theorem lengthWidth_of_gt (h : Opcode.pushData4 < code) : lengthWidth code = 0 := by
  have h4 : code ≠ Opcode.pushData4 := (UInt8.ne_of_lt h).symm
  have h2 : code ≠ Opcode.pushData2 := (UInt8.ne_of_lt (UInt8.lt_trans (by decide) h)).symm
  have h1 : code ≠ Opcode.pushData1 := (UInt8.ne_of_lt (UInt8.lt_trans (by decide) h)).symm
  simp [lengthWidth, h1, h2, h4]

theorem ofData?_eq_some {n : Nat} :
    ofData? code n bs = some (op, rest) ↔
      op.code = code ∧ op.data.length = n ∧ bs = op.data ++ rest := by
  simp only [ofData?, Option.map_eq_some_iff, Prod.mk.injEq]
  constructor
  · intro h
    obtain ⟨⟨data, rest'⟩, hs, rfl, rfl⟩ := h
    exact ⟨rfl, Bytes.split?_eq_some.mp hs⟩
  · intro h
    obtain ⟨rfl, hs⟩ := h
    exact ⟨(op.data, rest), Bytes.split?_eq_some.mpr hs, rfl, rfl⟩

theorem ofData?_append {n : Nat} (more : Bytes) (h : ofData? code n bs = some (op, rest)) :
    ofData? code n (bs ++ more) = some (op, rest ++ more) := by
  obtain ⟨hc, hn, rfl⟩ := ofData?_eq_some.mp h
  exact ofData?_eq_some.mpr ⟨hc, hn, List.append_assoc _ _ _⟩

/-- What follows does not change what is read. -/
theorem read?_append (more : Bytes) (h : read? bs = some (op, rest)) :
    read? (bs ++ more) = some (op, rest ++ more) := by
  cases bs with
  | nil => cases h
  | cons code bs =>
    simp only [List.cons_append, read?] at h ⊢
    split at h
    · next hlt =>
      rw [if_pos hlt]
      exact ofData?_append more h
    · next hlt =>
      rw [if_neg hlt]
      split at h
      · next hle =>
        rw [if_pos hle]
        obtain ⟨⟨size, mid⟩, hs, hd⟩ := Option.bind_eq_some_iff.mp h
        obtain ⟨hl, rfl⟩ := Bytes.split?_eq_some.mp hs
        refine Option.bind_eq_some_iff.mpr ⟨(size, mid ++ more), ?_, ofData?_append more hd⟩
        exact Bytes.split?_eq_some.mpr ⟨hl, List.append_assoc _ _ _⟩
      · next hgt =>
        rw [if_neg hgt]
        cases h
        rfl

theorem bytes_direct {data : Bytes} (h : code < Opcode.pushData1) : bytes ⟨code, data⟩ = code :: data := by
  have hle : code ≤ Opcode.pushData4 := UInt8.le_of_lt (UInt8.lt_of_lt_of_le h (by decide))
  simp [bytes, lengthBytes, isPush, hle, lengthWidth_of_lt h, Bytes.ofNatLE]

theorem bytes_announced {size data : Bytes} (hle : code ≤ Opcode.pushData4)
    (hw : size.length = lengthWidth code) (hn : data.length = Bytes.toNatLE size) :
    bytes ⟨code, data⟩ = code :: (size ++ data) := by
  have hsize : lengthBytes ⟨code, data⟩ = size := by rw [lengthBytes, hn, ← hw, Bytes.ofNatLE_toNatLE]
  simp [bytes, isPush, hle, hsize]

theorem bytes_bare (h : Opcode.pushData4 < code) : bytes ⟨code, []⟩ = [code] := by
  simp [bytes, lengthBytes, isPush, UInt8.not_le.mpr h, lengthWidth_of_gt h, Bytes.ofNatLE]

/-- What an operation that has been read is like, and where it stood. The codes are split as the
reader splits them: a length in the code, a length of its own, and no data. -/
theorem eq_of_read? (h : read? bs = some (op, rest)) :
    bs = op.bytes ++ rest ∧ (op.isPush = false → op.data = []) := by
  cases bs with
  | nil => cases h
  | cons code bs =>
    simp only [read?] at h
    split at h
    · next hlt =>
      obtain ⟨rfl, -, rfl⟩ := ofData?_eq_some.mp h
      have hle : op.code ≤ Opcode.pushData4 :=
        UInt8.le_of_lt (UInt8.lt_of_lt_of_le hlt (by decide))
      exact ⟨by rw [bytes_direct hlt]; rfl, fun hp => absurd hle (of_decide_eq_false hp)⟩
    · split at h
      · next hle =>
        obtain ⟨⟨size, mid⟩, hs, hd⟩ := Option.bind_eq_some_iff.mp h
        obtain ⟨hl, rfl⟩ := Bytes.split?_eq_some.mp hs
        obtain ⟨rfl, hn, rfl⟩ := ofData?_eq_some.mp hd
        refine ⟨?_, fun hp => absurd hle (of_decide_eq_false hp)⟩
        rw [bytes_announced hle hl hn, List.cons_append, List.append_assoc]
      · next hgt =>
        simp only [Option.some.injEq, Prod.mk.injEq] at h
        obtain ⟨rfl, rfl⟩ := h
        exact ⟨by rw [bytes_bare (UInt8.not_le.mp hgt)]; rfl, fun _ => rfl⟩

end Operation

namespace Script

variable {bs rest : Bytes} {op : Operation} {s : Script}

theorem parse_of_none (h : Operation.read? bs = none) : parse bs = ([], bs) := by
  rw [parse]
  split
  · rfl
  · next h' =>
    rw [h] at h'
    cases h'

theorem parse_of_some (h : Operation.read? bs = some (op, rest)) :
    parse bs = (op :: (parse rest).1, (parse rest).2) := by
  rw [parse]
  split
  · next h' =>
    rw [h] at h'
    cases h'
  · next h' =>
    rw [h] at h'
    cases h'
    rfl

theorem bytes_parse (bs : Bytes) :
    (parse bs).1.flatMap Operation.bytes ++ (parse bs).2 = bs := by
  cases h : Operation.read? bs with
  | none => rw [parse_of_none h, List.flatMap_nil, List.nil_append]
  | some found =>
    obtain ⟨op, rest⟩ := found
    have hlt := Operation.read?_length h
    rw [parse_of_some h, List.flatMap_cons, List.append_assoc, bytes_parse rest]
    exact (Operation.eq_of_read? h).1.symm
termination_by bs.length

/-- No operation can be read where the tail begins. -/
theorem read?_parse_tail (bs : Bytes) : Operation.read? (parse bs).2 = none := by
  cases h : Operation.read? bs with
  | none => rwa [parse_of_none h]
  | some found =>
    obtain ⟨op, rest⟩ := found
    have hlt := Operation.read?_length h
    rw [parse_of_some h]
    exact read?_parse_tail rest
termination_by bs.length

theorem ofOperations_operations (h : s.isWellFormed = true) : ofOperations s.operations = s := by
  have ht : (parse s.bytes).2 = [] := List.isEmpty_iff.mp h
  have hb := bytes_parse s.bytes
  rw [ht, List.append_nil] at hb
  exact congrArg Script.mk hb

end Script

end CoinScript
