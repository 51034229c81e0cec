import CoinScript.Proofs.Pushes

namespace CoinScript

namespace Bytes

variable {bs : Bytes} {start stop n : Nat}

/-- The bytes from one offset up to another, if they all exist. -/
def between? (bs : Bytes) (start stop : Nat) : Option Bytes :=
  if start ≤ stop ∧ stop ≤ bs.length then some ((bs.drop start).take (stop - start)) else none

theorem split?_of_le (h : n ≤ bs.length) : split? n bs = some (bs.take n, bs.drop n) :=
  split?_eq_some.mpr ⟨List.length_take_of_le h, (List.take_append_drop n bs).symm⟩

/-- Splitting what follows an offset goes on at a later offset. -/
theorem split?_drop (h : start ≤ bs.length) :
    split? n (bs.drop start) = (bs.between? start (start + n)).map fun data => (data, bs.drop (start + n)) := by
  have hlength : (bs.drop start).length = bs.length - start := List.length_drop
  unfold between?
  by_cases hn : start + n ≤ bs.length
  · rw [if_pos ⟨Nat.le_add_right start n, hn⟩, split?_of_le (by omega), Nat.add_sub_cancel_left,
      List.drop_drop]
    rfl
  · rw [if_neg (fun hrange => hn hrange.2), split?_eq_none.mpr (by omega)]
    rfl

theorem between?_one (bs : Bytes) (pos : Nat) : bs.between? pos (pos + 1) = bs[pos]?.map fun b => [b] := by
  unfold between?
  by_cases h : pos < bs.length
  · rw [if_pos ⟨Nat.le_succ pos, h⟩, List.getElem?_eq_getElem h, Nat.add_sub_cancel_left,
      List.drop_eq_getElem_cons h]
    rfl
  · rw [if_neg fun hrange => h hrange.2, List.getElem?_eq_none (Nat.le_of_not_lt h)]
    rfl

end Bytes

namespace Operation

/-- A complete operation and the bytes it is written as. Data stands behind its length, which is the
code itself or one, two or four bytes, least first; other codes stand alone. -/
inductive Form : Operation → Bytes → Prop
  | direct {data : Bytes} (h : data.length ≤ 75) :
      Form ⟨UInt8.ofNat data.length, data⟩ (UInt8.ofNat data.length :: data)
  | data1 {a : UInt8} {data : Bytes} (h : data.length = a.toNat) : Form ⟨0x4c, data⟩ (0x4c :: a :: data)
  | data2 {a b : UInt8} {data : Bytes} (h : data.length = a.toNat + 256 * b.toNat) :
      Form ⟨0x4d, data⟩ (0x4d :: a :: b :: data)
  | data4 {a b c d : UInt8} {data : Bytes}
      (h : data.length = a.toNat + 256 * (b.toNat + 256 * (c.toNat + 256 * d.toNat))) :
      Form ⟨0x4e, data⟩ (0x4e :: a :: b :: c :: d :: data)
  | bare {code : Opcode} (h : 0x4e < code) : Form ⟨code, []⟩ [code]

variable {op : Operation} {bs written rest : Bytes} {pos next : Nat}

theorem sized_announced {code : Opcode} {size data : Bytes} (hge : ¬ code < Opcode.pushData1)
    (hle : code ≤ Opcode.pushData4) (hw : size.length = lengthWidth code)
    (hn : data.length = Bytes.toNatLE size) : Sized ⟨code, data⟩ := by
  have hlt := Bytes.toNatLE_lt size
  rw [hw, ← hn] at hlt
  simpa [Sized, hge, hle] using hlt

theorem Form.spec (h : Form op written) : op.Sized ∧ op.bytes = written := by
  cases h with
  | direct h =>
    have hlt := direct_lt h
    exact ⟨by simp [Sized, hlt, toNat_direct h], bytes_direct hlt⟩
  | @data1 a data h =>
    have hn : data.length = Bytes.toNatLE [a] := by simp [Bytes.toNatLE, h]
    exact ⟨sized_announced (by decide) (by decide) rfl hn, bytes_announced (by decide) rfl hn⟩
  | @data2 a b data h =>
    have hn : data.length = Bytes.toNatLE [a, b] := by simp [Bytes.toNatLE, h]
    exact ⟨sized_announced (by decide) (by decide) rfl hn, bytes_announced (by decide) rfl hn⟩
  | @data4 a b c d data h =>
    have hn : data.length = Bytes.toNatLE [a, b, c, d] := by simp [Bytes.toNatLE, h]
    exact ⟨sized_announced (by decide) (by decide) rfl hn, bytes_announced (by decide) rfl hn⟩
  | bare h => exact ⟨sized_bare h, bytes_bare h⟩

theorem code_cases {code : Opcode} (hge : ¬ code < Opcode.pushData1) (hle : code ≤ Opcode.pushData4) :
    code = Opcode.pushData1 ∨ code = Opcode.pushData2 ∨ code = Opcode.pushData4 := by
  have hge : 76 ≤ code.toNat := UInt8.le_iff_toNat_le.mp (UInt8.not_lt.mp hge)
  have hle : code.toNat ≤ 78 := UInt8.le_iff_toNat_le.mp hle
  have hcases : code.toNat = 76 ∨ code.toNat = 77 ∨ code.toNat = 78 := by omega
  exact hcases.imp UInt8.toNat_inj.mp (.imp UInt8.toNat_inj.mp UInt8.toNat_inj.mp)

/-- Every operation has a form whose data is of a length that its code can announce. -/
theorem Sized.form_bytes (h : op.Sized) : Form op op.bytes := by
  obtain ⟨code, data⟩ := op
  unfold Sized at h
  dsimp only at h
  split at h
  · next hlt =>
    have h75 : data.length ≤ 75 := by
      have hlt := UInt8.lt_iff_toNat_lt.mp hlt
      rw [← h] at hlt
      exact Nat.le_of_lt_succ hlt
    have hcode : code = UInt8.ofNat data.length := by rw [h, UInt8.ofNat_toNat]
    rw [bytes_direct hlt, hcode]
    exact .direct h75
  · next hge =>
    split at h
    · next hle =>
      have hn : data.length = Bytes.toNatLE (Bytes.ofNatLE (lengthWidth code) data.length) := by
        rw [Bytes.toNatLE_ofNatLE, Nat.mod_eq_of_lt h]
      rw [bytes_announced hle (Bytes.length_ofNatLE _ _) hn]
      rcases code_cases hge hle with rfl | rfl | rfl
      · exact .data1 hn
      · exact .data2 hn
      · exact .data4 hn
    · next hgt =>
      rw [h, bytes_bare (UInt8.not_le.mp hgt)]
      exact .bare (UInt8.not_le.mp hgt)

/-- What is read is a complete operation at the front, and nothing else is read. -/
theorem read?_eq_some : read? bs = some (op, rest) ↔ ∃ written, Form op written ∧ bs = written ++ rest := by
  constructor
  · intro h
    exact ⟨op.bytes, (sized_of_read? h).form_bytes, (eq_of_read? h).1⟩
  · intro h
    obtain ⟨written, hform, rfl⟩ := h
    obtain ⟨hsized, rfl⟩ := hform.spec
    exact hsized.read?_bytes rest

/-- Where the data of an operation begins and how long it is, given the offset of its code. -/
def extentAt? (bs : Bytes) (pos : Nat) (code : Opcode) : Option (Nat × Nat) :=
  if code ≤ 75 then some (pos + 1, code.toNat)
  else if code = Opcode.pushData1 then bs[pos + 1]?.map fun n => (pos + 2, n.toNat)
  else if code = Opcode.pushData2 then
    (bs.between? (pos + 1) (pos + 3)).map fun size => (pos + 3, Bytes.toNatLE size)
  else if code = Opcode.pushData4 then
    (bs.between? (pos + 1) (pos + 5)).map fun size => (pos + 5, Bytes.toNatLE size)
  else some (pos + 1, 0)

/-- The operation at an offset, and the offset behind it. -/
def readAt? (bs : Bytes) (pos : Nat) : Option (Operation × Nat) :=
  bs[pos]?.bind fun code => (extentAt? bs pos code).bind fun (start, size) =>
    (bs.between? start (start + size)).map fun data => (⟨code, data⟩, start + size)

/-- An operation and the offset behind it, where this much is left of `n` bytes. -/
def withOffset (n : Nat) (found : Operation × Bytes) : Operation × Nat := (found.1, n - found.2.length)

theorem ofData?_drop {code : Opcode} {start n : Nat} (h : start ≤ bs.length) :
    (ofData? code n (bs.drop start)).map (withOffset bs.length) =
      (bs.between? start (start + n)).map fun data => (⟨code, data⟩, start + n) := by
  rw [ofData?, Bytes.split?_drop h, Option.map_map, Option.map_map]
  unfold Bytes.between?
  split
  · next hrange =>
    have hback : bs.length - (bs.length - (start + n)) = start + n := by omega
    simp [withOffset, hback]
  · rfl

/-- A length that is written out, and the data behind it. -/
theorem announced_drop {code : Opcode} (width : Nat) (h : pos < bs.length) :
    ((Bytes.split? width (bs.drop (pos + 1))).bind fun (size, rest) =>
        ofData? code (Bytes.toNatLE size) rest).map (withOffset bs.length) =
      ((bs.between? (pos + 1) (pos + 1 + width)).map fun size => (pos + 1 + width, Bytes.toNatLE size)).bind
        fun (start, size) => (bs.between? start (start + size)).map fun data => (⟨code, data⟩, start + size) := by
  rw [Bytes.split?_drop h]
  unfold Bytes.between?
  split
  · next hrange =>
    rw [Option.map_some, Option.bind_some, Option.map_some, Option.bind_some]
    exact ofData?_drop hrange.2
  · rfl

/-- Reading at an offset is reading what is left from there on. The codes are split as the reader
splits them. -/
theorem readAt?_eq (bs : Bytes) (pos : Nat) :
    readAt? bs pos = (read? (bs.drop pos)).map (withOffset bs.length) := by
  unfold readAt?
  by_cases h : pos < bs.length
  · rw [List.getElem?_eq_getElem h, List.drop_eq_getElem_cons h, Option.bind_some]
    generalize bs[pos] = code
    unfold extentAt? read?
    dsimp only
    by_cases hlt : code < Opcode.pushData1
    · have h75 : code ≤ 75 :=
        UInt8.le_iff_toNat_le.mpr (Nat.le_of_lt_succ (UInt8.lt_iff_toNat_lt.mp hlt))
      rw [if_pos h75, if_pos hlt]
      exact (ofData?_drop h).symm
    · have h75 : ¬ code ≤ 75 := fun h75 => hlt (UInt8.lt_of_le_of_lt h75 (by decide))
      rw [if_neg h75, if_neg hlt]
      by_cases hle : code ≤ Opcode.pushData4
      · rw [if_pos hle]
        rcases code_cases hlt hle with rfl | rfl | rfl
        · have hone : (bs[pos + 1]?.map fun n => (pos + 2, n.toNat)) =
              (bs.between? (pos + 1) (pos + 1 + 1)).map fun size => (pos + 1 + 1, Bytes.toNatLE size) := by
            rw [Bytes.between?_one, Option.map_map]
            simp [Function.comp_def, Bytes.toNatLE]
          rw [if_pos rfl, hone]
          exact (announced_drop 1 h).symm
        · exact (announced_drop 2 h).symm
        · exact (announced_drop 4 h).symm
      · have hne {other : Opcode} (ho : other ≤ Opcode.pushData4) : code ≠ other := fun hc => hle (hc ▸ ho)
        rw [if_neg hle, if_neg (hne (by decide)), if_neg (hne (by decide)), if_neg (hne (by decide))]
        exact (ofData?_drop (n := 0) h).symm
  · rw [List.getElem?_eq_none (Nat.le_of_not_lt h), List.drop_eq_nil_of_le (Nat.le_of_not_lt h)]
    rfl

theorem readAt?_eq_some : readAt? bs pos = some (op, next) ↔
    ∃ rest, read? (bs.drop pos) = some (op, rest) ∧ bs.length - rest.length = next := by
  rw [readAt?_eq, Option.map_eq_some_iff]
  simp only [withOffset, Prod.mk.injEq, Prod.exists]
  constructor
  · intro h
    obtain ⟨_, rest, hr, rfl, hnext⟩ := h
    exact ⟨rest, hr, hnext⟩
  · intro h
    obtain ⟨rest, hr, hnext⟩ := h
    exact ⟨op, rest, hr, rfl, hnext⟩

/-- What has been read is a part of the string that ends at the next offset. -/
theorem bounds_of_readAt? (h : readAt? bs pos = some (op, next)) :
    pos < next ∧ next ≤ bs.length ∧ read? (bs.drop pos) = some (op, bs.drop next) := by
  obtain ⟨rest, hr, rfl⟩ := readAt?_eq_some.mp h
  have hlt := read?_length hr
  rw [List.length_drop] at hlt
  have hsuffix : rest <:+ bs :=
    List.IsSuffix.trans ⟨op.bytes, (eq_of_read? hr).1.symm⟩ (List.drop_suffix pos bs)
  refine ⟨by omega, Nat.sub_le _ _, ?_⟩
  rw [← List.suffix_iff_eq_drop.mp hsuffix]
  exact hr

end Operation

end CoinScript
