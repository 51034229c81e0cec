import CoinScript.Proofs.NumberWords
import CoinScript.Proofs.TemplateItems

namespace CoinScript

namespace Opcode

/-- The numbers that their push carries in its code and not in its data. -/
def InCode (n : Int) : Prop := n = -1 ∨ 1 ≤ n ∧ n ≤ 16

instance : DecidablePred InCode := fun n => inferInstanceAs (Decidable (n = -1 ∨ 1 ≤ n ∧ n ≤ 16))

/-- Zero has a code too, but this is the one of no data. -/
theorem ofSmallNumber?_cases (n : Int) :
    (n = 0 ∧ ofSmallNumber? n = some zero) ∨
      (n = -1 ∧ ofSmallNumber? n = some negativeOne) ∨
      (∃ k : Nat, 0 < k ∧ k ≤ 16 ∧ n = k ∧ ofSmallNumber? n = some (UInt8.ofNat (80 + k))) ∨
      (¬ InCode n ∧ ofSmallNumber? n = none) := by
  by_cases h0 : n = 0
  · exact .inl ⟨h0, if_pos h0⟩
  by_cases h1 : n = -1
  · refine .inr (.inl ⟨h1, ?_⟩)
    rw [ofSmallNumber?, if_neg h0, if_pos h1]
  by_cases h16 : 1 ≤ n ∧ n ≤ 16
  · lift n to Nat using by omega
    exact .inr (.inr (.inl ⟨n, by omega, by omega, rfl, ofSmallNumber?_ofNat (by omega) (by omega)⟩))
  · refine .inr (.inr (.inr ⟨not_or.mpr ⟨h1, h16⟩, ?_⟩))
    rw [ofSmallNumber?, if_neg h0, if_neg h1, if_neg h16]

/-- Zero and the numbers up to 16 are told by their codes. -/
theorem smallNumber_iff {code : Opcode} {n : Int} :
    (code = zero ∨ isOneToSixteen code = true) ∧ smallNumber code = n ↔
      (0 ≤ n ∧ n ≤ 16) ∧ ofSmallNumber? n = some code := by
  constructor
  · rintro ⟨rfl | h, rfl⟩
    · exact ⟨⟨Int.le_refl 0, by decide⟩, rfl⟩
    · have hrange := isOneToSixteen_iff.mp h
      have hnumber : smallNumber code = ((code.toNat - 80 : Nat) : Int) := by
        have hzero : code ≠ zero := fun hc => absurd (hc ▸ h) (by decide)
        rw [smallNumber, if_neg hzero]
        omega
      have hcode := ofSmallNumber?_ofNat (show 0 < code.toNat - 80 by omega) (by omega)
      rw [Nat.add_sub_cancel' (by omega), UInt8.ofNat_toNat, ← hnumber] at hcode
      exact ⟨by omega, hcode⟩
  · rintro ⟨⟨h0, h16⟩, hcode⟩
    lift n to Nat using h0
    rcases Nat.eq_zero_or_pos n with rfl | hpos
    · cases hcode
      exact ⟨.inl rfl, rfl⟩
    · cases hcode.symm.trans (ofSmallNumber?_ofNat hpos (by omega))
      have hone := Operation.isOneToSixteen_ofNumber hpos (show n ≤ 16 by omega)
      have hvalue := Operation.toNat_ofNumber (show n ≤ 16 by omega)
      refine ⟨.inr hone, ?_⟩
      have hzero : (Operation.ofNumber n).code ≠ zero := fun hc => absurd (hc ▸ hone) (by decide)
      change smallNumber (Operation.ofNumber n).code = n
      rw [smallNumber, if_neg hzero, hvalue]
      omega

end Opcode

namespace Operation

variable {n : Int}

/-- Operations that are their code alone. -/
theorem bare_code {code : Opcode} (h : code = Opcode.zero ∨ Opcode.pushData4 < code) :
    Sized ⟨code, []⟩ ∧ bytes ⟨code, []⟩ = [code] := by
  rcases h with rfl | h
  · exact ⟨rfl, rfl⟩
  · exact ⟨sized_bare h, bytes_bare h⟩

/-- The operation that pushes a number. -/
def ofInt (n : Int) : Operation :=
  match Opcode.ofSmallNumber? n with
  | some code => ⟨code, []⟩
  | none => .pushing (Number.encode n)

theorem ofInt_of_some {code : Opcode} (h : Opcode.ofSmallNumber? n = some code) : ofInt n = ⟨code, []⟩ := by
  rw [ofInt, h]

theorem ofInt_of_none (h : Opcode.ofSmallNumber? n = none) : ofInt n = .pushing (Number.encode n) := by
  rw [ofInt, h]

theorem data_ofInt (n : Int) : (ofInt n).data = if Opcode.InCode n then [] else Number.encode n := by
  obtain ⟨rfl, -⟩ | ⟨rfl, -⟩ | ⟨k, h0, h16, rfl, h⟩ | ⟨hcode, h⟩ := Opcode.ofSmallNumber?_cases n
  · rw [if_neg (by decide), Number.encode_zero]
    rfl
  · rfl
  · rw [ofInt_of_some h, if_pos (.inr (by omega))]
  · rw [ofInt_of_none h, if_neg hcode]
    rfl

/-- A number is pushed as its encoding, wherever it stands. -/
theorem item_ofInt (n : Int) : (ofInt n).item = Number.encode n := by
  obtain ⟨rfl, -⟩ | ⟨rfl, -⟩ | ⟨k, h0, h16, rfl, h⟩ | ⟨-, h⟩ := Opcode.ofSmallNumber?_cases n
  · rw [Number.encode_zero]
    rfl
  · rfl
  · rw [ofInt_of_some h, Number.encode_ofNat h0 (by omega)]
    exact item_ofNumber h0 h16
  · rw [ofInt_of_none h, item_pushing]

theorem sized_ofInt (hl : (Number.encode n).length ≤ 75) : (ofInt n).Sized := by
  obtain ⟨rfl, -⟩ | ⟨rfl, -⟩ | ⟨k, h0, h16, -, h⟩ | ⟨-, h⟩ := Opcode.ofSmallNumber?_cases n
  · rfl
  · exact sized_bare (by decide)
  · rw [ofInt_of_some h]
    exact sized_ofNumber h0 h16
  · rw [ofInt_of_none h]
    exact sized_pushing (Nat.le_trans hl (by decide))

theorem code_ofInt_le (n : Int) : (ofInt n).code ≤ Opcode.sixteen := by
  obtain ⟨rfl, -⟩ | ⟨rfl, -⟩ | ⟨k, h0, h16, -, h⟩ | ⟨-, h⟩ := Opcode.ofSmallNumber?_cases n
  · decide
  · decide
  · rw [ofInt_of_some h]
    exact (@runs_ofNumber k true h0 h16).small
  · rw [ofInt_of_none h]
    exact UInt8.le_trans (pushCode_le _) (by decide)

/-- The encodings that a code stands for are those of the numbers that have codes. -/
theorem isCoded_encode (h : ¬ Opcode.InCode n) : isCoded (Number.encode n) = false := by
  rw [← Bool.not_eq_true]
  intro hcoded
  obtain ⟨b, hencode, ⟨h1, h16⟩ | rfl⟩ := isCoded_iff.mp hcoded
  · have h1 : 1 ≤ b.toNat := UInt8.le_iff_toNat_le.mp h1
    have h16 : b.toNat ≤ 16 := UInt8.le_iff_toNat_le.mp h16
    have hnumber : Number.encode b.toNat = [b] := by
      rw [Number.encode_ofNat h1 (by omega), UInt8.ofNat_toNat]
    obtain rfl := Number.encode_inj (hencode.trans hnumber.symm)
    exact h (.inr (by omega))
  · have hnumber : Number.encode (-1) = [0x81] := by decide +kernel
    obtain rfl := Number.encode_inj (hencode.trans hnumber.symm)
    exact h (.inl rfl)

theorem runs_ofInt {minimal : Bool} (hl : (Number.encode n).length ≤ Fault.maxItem) : (ofInt n).Runs minimal := by
  obtain ⟨rfl, -⟩ | ⟨rfl, -⟩ | ⟨k, h0, h16, -, h⟩ | ⟨hcode, h⟩ := Opcode.ofSmallNumber?_cases n
  · exact ⟨by decide, by decide, fun _ => rfl, Nat.zero_le _, fun _ _ => rfl⟩
  · exact ⟨by decide, by decide, fun _ => rfl, Nat.zero_le _, nofun⟩
  · rw [ofInt_of_some h]
    exact runs_ofNumber h0 h16
  · rw [ofInt_of_none h]
    exact runs_pushing hl fun _ => isCoded_encode hcode

/-- The builder writes this operation. -/
theorem numberBytes_eq (hl : (Number.encode n).length ≤ 75) : Script.numberBytes n = (ofInt n).bytes := by
  obtain ⟨rfl, -⟩ | ⟨rfl, -⟩ | ⟨k, h0, h16, -, h⟩ | ⟨-, h⟩ := Opcode.ofSmallNumber?_cases n
  · rfl
  · rfl
  · rw [ofInt_of_some h, Script.numberBytes, h]
    exact (Template.bytes_ofNumber h0 h16).symm
  · rw [ofInt_of_none h, Script.numberBytes, h]
    exact (Template.bytes_pushing hl).symm

end Operation

namespace Template

variable {n : Int} {item : Bytes}

/-- A lock time and a length are read from at most five bytes. -/
theorem shortNumber?_eq_some : shortNumber? item = some n ↔ item.length ≤ 5 ∧ item = Number.encode n := by
  have hread : Number.decode true Number.lockTimeLimit item = .ok n ↔
      item.length ≤ Number.lockTimeLimit ∧ item = Number.encode n := Number.decode_minimal_ok (by decide)
  rw [shortNumber?, show 5 = Number.lockTimeLimit from rfl, ← hread]
  cases Number.decode true Number.lockTimeLimit item with
  | ok m => simp [Except.toOption]
  | error fault => simp [Except.toOption]

theorem length_encode_le_five : (Number.encode n).length ≤ 5 ↔ n.natAbs < 2 ^ 39 := by
  rw [Number.length_encode_le_iff]
  omega

/-- Such a number is pushed by a code that says its length. -/
theorem length_encode_le_direct (h : n.natAbs < 2 ^ 39) : (Number.encode n).length ≤ 75 :=
  Nat.le_trans (length_encode_le_five.mpr h) (by decide)

/-- Beside a code that carries a number, zero is read. -/
theorem shortNumber?_ofInt (h : n.natAbs < 2 ^ 39) :
    shortNumber? (Operation.ofInt n).data = some (if Opcode.InCode n then 0 else n) := by
  rw [Operation.data_ofInt, shortNumber?_eq_some]
  split
  · exact ⟨by decide, Number.encode_zero.symm⟩
  · exact ⟨length_encode_le_five.mpr h, rfl⟩

end Template

end CoinScript
