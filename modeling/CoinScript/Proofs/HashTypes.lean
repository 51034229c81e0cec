import Mathlib.Data.Nat.Bitwise
import CoinScript.Engine.HashType

namespace CoinScript.HashType

/-- One bit of a word is set if masking with it leaves something. -/
theorem and_bit_ne_zero {w bit : UInt32} {k : Nat} (hbit : bit.toNat = 2 ^ k) :
    (w &&& bit != 0) = w.toNat.testBit k := by
  have hmasked : (w &&& bit).toNat = (w.toNat.testBit k).toNat * 2 ^ k := by
    rw [UInt32.toNat_and, hbit, Nat.and_two_pow]
  have hzero : w &&& bit = 0 ↔ (w &&& bit).toNat = 0 := UInt32.toNat_inj.symm
  cases hk : w.toNat.testBit k with
  | false =>
    rw [hk, Bool.toNat_false, Nat.zero_mul] at hmasked
    exact bne_eq_false_iff_eq.mpr (hzero.mpr hmasked)
  | true =>
    rw [hk, Bool.toNat_true, Nat.one_mul] at hmasked
    refine bne_iff_ne.mpr fun h => ?_
    rw [hzero, hmasked] at h
    exact absurd h (Nat.ne_of_gt (Nat.two_pow_pos k))

variable (t : HashType)

theorem toNat_base : t.base.toNat = t.raw.toNat % 32 := by
  rw [base, UInt32.toNat_and]
  exact Nat.and_two_pow_sub_one_eq_mod _ 5

theorem isNone_iff : t.isNone = true ↔ t.raw.toNat % 32 = 2 := by
  rw [isNone, beq_iff_eq, ← UInt32.toNat_inj, toNat_base]
  rfl

theorem isSingle_iff : t.isSingle = true ↔ t.raw.toNat % 32 = 3 := by
  rw [isSingle, beq_iff_eq, ← UInt32.toNat_inj, toNat_base]
  rfl

variable {t}

/-- No bit above those of a byte goes with a defined type. -/
theorem toNat_lt_of_isDefined (h : t.isDefined = true) : t.raw.toNat < 256 := by
  by_contra hlarge
  obtain ⟨k, hk, hbit⟩ := Nat.exists_ge_and_testBit_of_ge_two_pow (show 2 ^ 8 ≤ t.raw.toNat from Nat.not_lt.mp hlarge)
  have hk32 : k < 32 := by
    by_contra hk32
    rw [Nat.testBit_lt_two_pow (Nat.lt_of_lt_of_le t.raw.toNat_lt
      (Nat.pow_le_pow_right (by decide) (Nat.not_lt.mp hk32)))] at hbit
    cases hbit
  have hmask : ∀ k < 32, 8 ≤ k → (~~~(forkIdBit ||| anyoneCanPayBit)).toNat.testBit k = true := by decide
  have hrest : (t.raw &&& ~~~(forkIdBit ||| anyoneCanPayBit)).toNat.testBit k = true := by
    rw [UInt32.toNat_and, Nat.testBit_and, hbit, hmask k hk32 hk]
    rfl
  have hge := Nat.ge_two_pow_of_testBit hrest
  have hle := UInt32.le_iff_toNat_le.mp (of_decide_eq_true (Bool.and_eq_true _ _ ▸ h).2)
  have hpow : 2 ^ 8 ≤ 2 ^ k := Nat.pow_le_pow_right (by decide) hk
  exact absurd (Nat.le_trans (Nat.le_trans hpow hge) hle) (by decide)

/-- A defined type is one of three, with modifiers or without. -/
theorem isDefined_iff : t.isDefined = true ↔
    ∃ base ∈ [1, 2, 3], ∃ fork anyone : Bool, t.raw.toNat = base + 64 * fork.toNat + 128 * anyone.toNat := by
  have hbytes : ∀ n < 256, (⟨UInt32.ofNat n⟩ : HashType).isDefined = true ↔
      ∃ base ∈ [1, 2, 3], ∃ fork anyone : Bool, n = base + 64 * fork.toNat + 128 * anyone.toNat := by
    decide +kernel
  constructor
  · intro h
    have hn := hbytes t.raw.toNat (toNat_lt_of_isDefined h)
    rw [UInt32.ofNat_toNat] at hn
    exact hn.mp h
  · rintro ⟨base, hbase, fork, anyone, hraw⟩
    have hlt : t.raw.toNat < 256 := by
      have hle : base ≤ 3 := (show ∀ n ∈ [1, 2, 3], n ≤ 3 by decide) base hbase
      have hfork := fork.toNat_le
      have hanyone := anyone.toNat_le
      omega
    have hn := hbytes t.raw.toNat hlt
    rw [UInt32.ofNat_toNat] at hn
    exact hn.mpr ⟨base, hbase, fork, anyone, hraw⟩

/-- What the bits of a hash type say. The low five of them are the base type, and two others the modifiers. -/
theorem bits_read (t : HashType) :
    (t.isNone = true ↔ t.raw.toNat % 32 = 2) ∧ (t.isSingle = true ↔ t.raw.toNat % 32 = 3) ∧
      t.hasForkId = t.raw.toNat.testBit 6 ∧ t.hasAnyoneCanPay = t.raw.toNat.testBit 7 ∧
      (t.isDefined = true ↔ ∃ base ∈ [1, 2, 3], ∃ fork anyone : Bool,
        t.raw.toNat = base + 64 * fork.toNat + 128 * anyone.toNat) :=
  ⟨t.isNone_iff, t.isSingle_iff, and_bit_ne_zero rfl, and_bit_ne_zero rfl, isDefined_iff⟩

end CoinScript.HashType
